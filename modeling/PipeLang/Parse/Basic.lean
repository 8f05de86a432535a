import PipeLang.Parse.Cursor
import PipeLang.Tree.Basic

/-! Rules: functions from a cursor to a result and the cursor after it. A rule that fails keeps the
cursor where it failed, so that parsing can go on from there. Repetition is bounded by the tokens
that remain, for each round consumes one. -/

namespace PipeLang

abbrev Parse (α : Type) := EStateM Diagnostic Cursor α

namespace Parse

def test (p : Cursor → α) : Parse α := fun c => .ok (p c) c

def fail (d : Cursor → Diagnostic) : Parse α := fun c => .error (d c) c

def unexpected (place : Place) (expected : List Expected) : Parse α :=
  fail fun c => c.unexpected place expected

/-- Consumes a token and gives its span. -/
def skip : Parse Span := fun c => .ok c.peek.span c.next

def accept (p : Cursor → Bool) : Parse Bool := fun c =>
  if p c then .ok true c.next else .ok false c

def expectPunctuation (p : Punctuation) (place : Place) : Parse Span := do
  if ← test (·.atPunctuation p) then skip else unexpected place [.punctuation p]

def expectOperator (o : Operator) (place : Place) : Parse Span := do
  if ← test (·.atOperator o) then skip else unexpected place [.operator o]

def identifier (place : Place) : Parse Name := do
  let t ← test Cursor.peek
  match t.kind with
  | .ident name =>
    let span ← skip
    pure ⟨name, span⟩
  | _ => unexpected place [.identifier]

def skipNewlines : Parse Unit := fun c => .ok () (c.skipWhile TokenKind.isNewline)

/-- At most `n` times `item`, as long as the cursor is `ready`. -/
def manyUpTo (ready : Cursor → Bool) (item : Parse α) : Nat → Parse (List α)
  | 0 => pure []
  | n + 1 => do
    if ← test ready then
      let a ← item
      let rest ← manyUpTo ready item n
      pure (a :: rest)
    else pure []

def many (ready : Cursor → Bool) (item : Parse α) : Parse (List α) := fun c =>
  manyUpTo ready item (c.rest.length + 1) c

inductive Round (σ : Type)
  | again (state : σ)
  | done (state : σ)

def roundsUpTo (round : σ → Parse (Round σ)) : Nat → σ → Parse σ
  | 0, s => pure s
  | n + 1, s => do
    match ← round s with
    | .again s => roundsUpTo round n s
    | .done s => pure s

/-- Rounds until one is the last. -/
def rounds (round : σ → Parse (Round σ)) (s : σ) : Parse σ := fun c =>
  roundsUpTo round (c.rest.length + 1) s c

/-- Fails at the end of the line or of the text, where a form opened at `opened` is still open. -/
def stillOpen (form : Form) (opened : Span) (expected : List Expected) : Parse Unit := fun c =>
  if c.kind.isEof || c.kind.isNewline then
    .error (((c.failure (.unterminated form)).withExpected expected).withLabel opened
      "opened here") c
  else .ok () c

/-- Fails at a comma, where the elements of `form` are separated by blanks as in `sample`. -/
def noComma (form : Form) (sample : String) (expected : List Expected) : Parse Unit := fun c =>
  if c.atPunctuation .comma then
    .error (((c.failure (.comma form)).withExpected expected).withHint
      ("separate elements with whitespace: `" ++ sample ++ "`")) c
  else .ok () c

end Parse

end PipeLang
