import PipeLang.Parse.Pipeline

/-! Definitions, and the constructs `let`, `if`, `match` and `try`. The clauses of a construct stay on
its line or move to an indented block; once it has a block, each further clause starts a line of
it. -/

namespace PipeLang.Parse

variable (o : ParseOptions) (primary : Primary) (budget : Nat)

def result : Parse Expr := body (expression o primary budget)

/-- A function if there are parameters, spanning them and the body. -/
def definedValue (params : List Name) (value : Expr) : Expr :=
  match params with
  | [] => value
  | first :: _ => .function (first.span.merge value.span) params value

def definition : Parse Binding := do
  let name ← identifier .definitionStart
  let params ← many Cursor.atIdent (identifier .parameterList)
  let _ ← expectOperator .eq .inDefinition
  let value ← result o primary budget
  pure ⟨name, definedValue params value⟩

def binding : Parse Binding := do
  if ← test Cursor.atDefinition then definition o primary budget
  else unexpected .letBinding [.identifier]

def afterLine (c : Cursor) : Bool :=
  match c.previous? with
  | some t => t.kind.isNewline || t.kind.isDedent
  | none => false

/-- The bindings in a block, latest first, and whether the block is still open after them. -/
def blockBinding (s : List Binding × Bool) : Parse (Round (List Binding × Bool)) := do
  let b ← binding o primary budget
  let found := b :: s.1
  if ← accept (·.atPunctuation .semicolon) then pure (.again (found, true))
  else
    let _ ← accept Cursor.atNewline
    if ← accept Cursor.atDedent then pure (.done (found, false))
    else if ← test (·.atKeyword .in_) then pure (.done (found, true))
    else if ← test afterLine then pure (.again (found, true))
    else unexpected .letBindings [.newline, .punctuation .semicolon]

def bindings : Parse (List Binding × Bool) := do
  if ← openBlock TokenKind.isIdent then
    let (found, inBlock) ← rounds (blockBinding o primary budget) ([], true)
    pure (found.reverse, inBlock)
  else
    let first ← binding o primary budget
    let rest ← many (·.atPunctuation .semicolon) do
      let _ ← skip
      binding o primary budget
    pure (first :: rest, false)

def letIn : Parse Expr := do
  let start ← skip
  let (found, inBlock) ← bindings o primary budget
  match ← clauseAhead inBlock (TokenKind.isKeyword .in_) with
  | some inBlock =>
    let _ ← skip
    let value ← result o primary budget
    closeBlockIf inBlock .afterLet
    pure (.letIn (start.merge value.span) found value)
  | none =>
    fail fun c => c.unexpected .inLet [.keyword .in_, .punctuation .semicolon]
      |>.withExample (Keyword.examples .let_)

def branch (inBlock : Bool) : Parse (Branch × Bool) := do
  let _ ← skip
  let condition ← expression o primary budget
  match ← clauseAhead inBlock (TokenKind.isKeyword .then_) with
  | some inBlock =>
    let _ ← skip
    let value ← result o primary budget
    pure (⟨condition, value⟩, inBlock)
  | none => unexpected .afterCondition [.keyword .then_]

def ifElse : Parse Expr := do
  let start ← test (·.peek.span)
  let (first, inBlock) ← branch o primary budget false
  let (others, inBlock) ← clauses (TokenKind.isKeyword .elif_) (branch o primary budget) inBlock
  match ← clauseAhead inBlock (TokenKind.isKeyword .else_) with
  | some inBlock =>
    let _ ← skip
    let fallback ← result o primary budget
    closeBlockIf inBlock .afterIf
    pure (.ifElse (start.merge fallback.span) (first :: others) fallback)
  | none =>
    fail fun c => c.unexpected .inIf [.keyword .elif_, .keyword .else_]
      |>.withNote "every `if` needs an `else` branch"
      |>.withExample (Keyword.examples .if_)

def guard? : Parse (Option Expr) := do
  if ← accept (·.atKeyword .when_) then
    let e ← expression o primary budget
    pure (some e)
  else pure none

/-- An arrow, in a place where `others` may come instead. -/
def arrow (place : Place) (others : List Expected) : Parse Unit := do
  if ← accept (·.atPunctuation .arrow) then pure ()
  else unexpected place (others ++ [.punctuation .arrow])

def matchClause : Parse Clause := do
  let bar ← skip
  let p ← pattern o budget
  let guard ← guard? o primary budget
  arrow .matchClause (if guard.isSome then [] else [.keyword .when_])
  let value ← result o primary budget
  pure ⟨bar.merge value.span, p, guard, value⟩

def matchOn : Parse Expr := do
  let start ← skip
  let subject ← expression o primary budget
  let (found, inBlock) ← clauses (TokenKind.isPunctuation .bar)
    (fun inBlock => (·, inBlock) <$> matchClause o primary budget) false
  match found.getLast? with
  | some last =>
    closeBlockIf inBlock .afterClauses
    pure (.matchOn (start.merge last.span) subject found)
  | none =>
    fail fun c => c.unexpected .inMatch [.punctuation .bar]
      |>.withExample (Keyword.examples .match_)

def nameIf (p : Cursor → Bool) : Parse (Option Name) := do
  if ← test p then
    let name ← identifier .catchClause
    pure (some name)
  else pure none

/-- A capitalized name is a tag, any other the binding. -/
def catchClause : Parse Catch := do
  let keyword ← skip
  let tag ← nameIf Cursor.atCapitalized
  let bound ← nameIf fun c => c.atIdent && !c.atCapitalized
  if tag.isNone && bound.isNone then
    fail fun c => (c.failure .unnamedCatch).withExpected [.identifier]
      |>.withHint "write `catch error -> ...` to bind the error"
  else
    arrow .catchClause (if bound.isSome then [] else [.identifier])
    let handler ← result o primary budget
    pure ⟨keyword.merge handler.span, tag, bound, handler⟩

def tryCatch : Parse Expr := do
  let start ← skip
  let value ← result o primary budget
  let (found, inBlock) ← clauses (TokenKind.isKeyword .catch_)
    (fun inBlock => (·, inBlock) <$> catchClause o primary budget) false
  match found.getLast? with
  | some last =>
    closeBlockIf inBlock .afterCatches
    pure (.tryCatch (start.merge last.span) value found)
  | none =>
    fail fun c => c.unexpected .inTry [.keyword .catch_]
      |>.withExample (Keyword.examples .try_)

end PipeLang.Parse
