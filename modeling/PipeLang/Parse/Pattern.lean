import PipeLang.Parse.Basic
import PipeLang.Parse.Lookahead
import PipeLang.Parse.Options

/-! Patterns. They do not nest, so all that they take of the nesting budget is one level. -/

namespace PipeLang.Parse

/-- The nesting budget is used up. -/
def tooDeep (o : ParseOptions) : Parse α :=
  fail fun c => (c.failure (.expressionNesting o.maxDepth)).withHint
    "split the expression into named definitions"

def negativeNumber : Parse (Number × Span) := do
  let minus ← skip
  let t ← test Cursor.peek
  let span ← skip
  match t.kind with
  | .number value => pure (value.neg, minus.merge span)
  | _ => pure (.zero, minus.merge span)

/-- The text of a string without interpolations, or the span of the first interpolation. -/
def plainText : List StringPart → Except Span String
  | [] => .ok ""
  | .literal text :: rest => (text ++ ·) <$> plainText rest
  | .hole _ span :: _ => .error span

def literal? : Parse (Option (Literal × Span)) := do
  let t ← test Cursor.peek
  match t.kind with
  | .number value => constant (.number value)
  | .operator .minus =>
    if ← test Cursor.atNegative then
      let (value, span) ← negativeNumber
      pure (some (.number value, span))
    else pure none
  | .text parts =>
    match plainText parts with
    | .ok text => constant (.text text)
    | .error span =>
      fail fun _ => Diagnostic.withHint { cause := .interpolatedPattern, span }
        "bind the value and compare it in a `when` guard"
  | .keyword .true_ => constant (.bool true)
  | .keyword .false_ => constant (.bool false)
  | .keyword .nil_ => constant .nil
  | _ => pure none
where
  constant (value : Literal) : Parse (Option (Literal × Span)) := do
    let span ← skip
    pure (some (value, span))

def fieldUse : Parse FieldUse := do
  if ← accept (·.atPunctuation .underscore) then pure .ignore
  else
    let t ← test Cursor.peek
    match t.kind with
    | .ident name =>
      let _ ← skip
      pure (.bind name)
    | _ =>
      match ← literal? with
      | some (value, _) => pure (.compare value)
      | none =>
        unexpected (.within .recordPattern) [.identifier, .punctuation .underscore, .pattern]

def recordPatternExpected : List Expected := [.identifier, .punctuation .rbrace]

/-- One more field; `fields` holds those before it, latest first. A key may come once. -/
def patternField (opened : Span) (fields : List PatternField) : Parse PatternField := do
  stillOpen .recordPattern opened recordPatternExpected
  noComma .recordPattern "\x7bname age: a\x7d" recordPatternExpected
  if ← test Cursor.atIdent then
    let key ← identifier (.within .recordPattern)
    match fields.find? fun f => f.key.text == key.text with
    | some first =>
      fail fun _ => Diagnostic.withExpected
        { cause := .duplicateKey key.text .recordPattern, span := key.span } recordPatternExpected
        |>.withLabel first.key.span "first used here"
        |>.withNote "each key may appear once in a record pattern"
    | none =>
      if ← accept (·.atPunctuation .colon) then
        let use ← fieldUse
        pure ⟨key, use⟩
      else pure ⟨key, .bind key.text⟩
  else unexpected (.within .recordPattern) recordPatternExpected

def recordPattern : Parse Pattern := do
  let opened ← skip
  let fields ← rounds (fun fields => do
    if ← test (·.atPunctuation .rbrace) then pure (.done fields)
    else
      let field ← patternField opened fields
      pure (.again (field :: fields))) []
  let closed ← skip
  pure (.record (opened.merge closed) fields.reverse)

def patternInside : Parse Pattern := do
  let t ← test Cursor.peek
  match t.kind with
  | .punctuation .lbrace => recordPattern
  | .punctuation .underscore =>
    let span ← skip
    pure (.wildcard span)
  | .keyword .otherwise_ =>
    let span ← skip
    pure (.otherwise span)
  | .ident name =>
    let span ← skip
    pure (.bind span name)
  | _ =>
    match ← literal? with
    | some (value, span) => pure (.literal span value)
    | none => unexpected .inPattern [.pattern]

/-- A pattern with `budget` levels of nesting left. -/
def pattern (o : ParseOptions) (budget : Nat) : Parse Pattern :=
  if budget = 0 then tooDeep o else patternInside

end PipeLang.Parse
