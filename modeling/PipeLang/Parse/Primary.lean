import PipeLang.Parse.Bracket
import PipeLang.Parse.Construct

/-! Primary expressions. Each is a level of nesting deeper than what it stands in, and that closes the
recursion of the grammar. -/

namespace PipeLang.Parse

section

variable (o : ParseOptions) (primary : Primary) (budget : Nat)

def interpolation (tokens : List Token) : Except Diagnostic Expr :=
  match expression o primary budget (.ofTokens tokens) with
  | .ok e c =>
    if c.atEnd then .ok e else .error (c.unexpected .inInterpolation [.punctuation .rbrace])
  | .error d _ => .error d

/-- An interpolation that cannot be read is an error of the whole text, or is recorded and leaves a
marker. -/
def hole (tokens : List Token) (span : Span) : Parse Expr := fun c =>
  match interpolation o primary budget tokens, o.mode with
  | .ok e, _ => .ok e c
  | .error d, .bestEffort => .ok (.error span) (c.record d)
  | .error d, .strict => .error d c

def segments : List StringPart → Parse (List Segment)
  | [] => pure []
  | .literal text :: rest => do
    let more ← segments rest
    pure (.literal text :: more)
  | .hole tokens span :: rest => do
    let e ← hole o primary budget tokens span
    let more ← segments rest
    pure (.hole e :: more)

/-- A primary expression whose parts have `budget` levels left. -/
def primaryInside : Parse Expr := do
  let t ← test Cursor.peek
  match t.kind with
  | .ident name =>
    let span ← skip
    pure (.ident span name)
  | .number value =>
    let span ← skip
    pure (.number span value)
  | .text parts =>
    let span ← skip
    let found ← segments o primary budget parts
    pure (.text span found)
  | .operator .minus =>
    if ← test Cursor.atNegative then
      let (value, span) ← negativeNumber
      pure (.number span value)
    else unexpected .inExpression [.expression]
  | .keyword .true_ =>
    let span ← skip
    pure (.bool span true)
  | .keyword .false_ =>
    let span ← skip
    pure (.bool span false)
  | .keyword .nil_ =>
    let span ← skip
    pure (.nil span)
  | .keyword .let_ => letIn o primary budget
  | .keyword .if_ => ifElse o primary budget
  | .keyword .match_ => matchOn o primary budget
  | .keyword .try_ => tryCatch o primary budget
  | .punctuation .lbrace => record o primary budget
  | .punctuation .lbracket =>
    if ← test Cursor.atFunction then function o primary budget else list o primary budget
  | .punctuation .lparen => parenthesized o primary budget
  | .punctuation .underscore => wildcard
  | _ => unexpected .inExpression [.expression]

end

/-- The primary expressions, `levels` of recursion deep. A budget of at most `levels` is used up before
the recursion is. -/
def primary (o : ParseOptions) : Nat → Primary
  | 0, _, c => tooDeep o c
  | _ + 1, 0, c => tooDeep o c
  | levels + 1, budget + 1, c => primaryInside o (primary o levels) budget c

end PipeLang.Parse
