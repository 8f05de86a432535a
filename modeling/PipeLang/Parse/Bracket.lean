import PipeLang.Parse.Pipeline

/-! Forms between brackets, and the placeholder with its field path. Elements are separated by blanks
alone. -/

namespace PipeLang.Parse

variable (o : ParseOptions) (primary : Primary) (budget : Nat)

def recordExpected : List Expected := [.identifier, .punctuation .rbrace]

def recordField (opened : Span) : Parse Binding := do
  stillOpen .recordLiteral opened recordExpected
  noComma .recordLiteral "\x7ba: 1 b: 2\x7d" recordExpected
  if ← test Cursor.atIdent then
    let key ← identifier (.within .recordLiteral)
    let _ ← expectPunctuation .colon .afterKey
    let value ← expression o primary budget
    pure ⟨key, value⟩
  else unexpected (.within .recordLiteral) recordExpected

def record : Parse Expr := do
  let opened ← skip
  let fields ← many (fun c => !c.atPunctuation .rbrace) (recordField o primary budget opened)
  let closed ← skip
  pure (.record (opened.merge closed) fields)

def function : Parse Expr := do
  let opened ← skip
  let params ← many Cursor.atIdent (identifier .parameterList)
  let _ ← expectPunctuation .arrow .afterParameters
  let value ← expression o primary budget
  stillOpen .anonymousFunction opened [.punctuation .rbracket]
  let closed ← expectPunctuation .rbracket .afterFunctionBody
  pure (.function (opened.merge closed) params value)

def listExpected : List Expected := [.expression, .punctuation .rbracket]

def list : Parse Expr := do
  let opened ← skip
  if ← test (·.atPunctuation .arrow) then
    fail fun c => (c.failure .missingParameter).withExpected [.identifier]
      |>.withHint "write `[x -> ...]`"
  else
    let items ← stageArguments o primary budget
    if ← test (·.atPunctuation .rbracket) then
      let closed ← skip
      pure (.list (opened.merge closed) items)
    else
      stillOpen .listLiteral opened listExpected
      noComma .listLiteral "[1 2 3]" listExpected
      unexpected (.within .listLiteral) listExpected

/-- The expression between parentheses, over a span that takes them in. -/
def parenthesized : Parse Expr := do
  let opened ← skip
  let e ← expression o primary budget
  stillOpen .parentheses opened [.punctuation .rparen]
  let closed ← expectPunctuation .rparen (.within .parentheses)
  pure (e.withSpan (opened.merge closed))

def wildcard : Parse Expr := do
  let first ← skip
  let path ← many Cursor.atAccess do
    let _ ← skip
    identifier .afterDot
  pure (.wildcard (path.foldl (fun s n => s.merge n.span) first) (path.map Name.text))

end PipeLang.Parse
