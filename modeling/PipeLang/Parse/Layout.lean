import PipeLang.Parse.Basic

/-! Indented blocks around the clauses and bodies of a construct. -/

namespace PipeLang.Parse

/-- Enters a block whose first token satisfies `p`, if one comes next. -/
def openBlock (p : TokenKind → Bool) : Parse Bool := fun c =>
  if c.atBlock p then .ok true c.forward.forward else .ok false c

/-- Leaves a block: a line end that may be missing, then the end of the block. -/
def closeBlock (place : Place) : Parse Unit := do
  let _ ← accept Cursor.atNewline
  if ← test Cursor.atDedent then
    let _ ← skip
    pure ()
  else unexpected place [.newline, .dedent]

def closeBlockIf (inBlock : Bool) (place : Place) : Parse Unit :=
  if inBlock then closeBlock place else pure ()

/-- Moves to the next clause of a construct, whose first token satisfies `p`. A clause may come at once.
Inside the construct's own block it may also start the next line; outside one it may open that
block. Gives whether the construct then has a block, or nothing if no clause comes. -/
def clauseAhead (inBlock : Bool) (p : TokenKind → Bool) : Parse (Option Bool) := fun c =>
  if p c.kind then .ok (some inBlock) c
  else if inBlock then
    if c.atNewline && p (c.kindAt 1) then .ok (some true) c.next else .ok none c
  else if c.atBlock p then .ok (some true) c.forward.forward
  else .ok none c

/-- All clauses that follow, and whether the construct has a block after them. -/
def clauses (p : TokenKind → Bool) (clause : Bool → Parse (α × Bool)) (inBlock : Bool) :
    Parse (List α × Bool) := do
  let (found, inBlock) ← rounds (fun (found, inBlock) => do
    match ← clauseAhead inBlock p with
    | some inBlock =>
      let (a, inBlock) ← clause inBlock
      pure (.again (a :: found, inBlock))
    | none => pure (.done (found, inBlock))) ([], inBlock)
  pure (found.reverse, inBlock)

/-- An expression on the same line, or alone in a block on the lines that follow. -/
def body (expression : Parse Expr) : Parse Expr := do
  if ← openBlock fun k => !k.isLayout && !k.isEof then
    let e ← expression
    closeBlock .afterIndented
    pure e
  else expression

end PipeLang.Parse
