import PipeLang.Diagnostic.Cause

/-! Diagnostics: a cause, the span it points at, the tokens that would have been accepted there, further
spans with labels, and advice. They are plain values; `Report` turns them into text. -/

namespace PipeLang

/-- A class of tokens that would have been accepted. -/
inductive Expected
  | identifier | expression | pattern | newline | dedent | endOfInput
  | keyword (id : Keyword)
  | operator (id : Operator)
  | punctuation (id : Punctuation)
  deriving DecidableEq

def Expected.describe : Expected → String
  | identifier => "identifier"
  | expression => "expression"
  | pattern => "pattern"
  | newline => "end of line"
  | dedent => "end of indented block"
  | endOfInput => "end of input"
  | keyword k => "`" ++ k.spelling ++ "`"
  | operator o => "`" ++ o.spelling ++ "`"
  | punctuation p => "`" ++ p.spelling ++ "`"

namespace Expected

/-- `old` followed by the members of `new` that are not yet there, each once. -/
def addNew : List Expected → List Expected → List Expected
  | old, [] => old
  | old, e :: new => addNew (if e ∈ old then old else old ++ [e]) new

theorem addNew_nodup {old : List Expected} (new : List Expected) (h : old.Nodup) :
    (addNew old new).Nodup := by
  induction new generalizing old with
  | nil => exact h
  | cons e new ih =>
    rw [addNew]
    split
    · exact ih h
    · next he =>
      have hsingle : ∀ a ∈ old, ∀ b ∈ [e], a ≠ b := by
        rintro a ha b hb rfl
        exact he (List.mem_singleton.mp hb ▸ ha)
      exact ih (List.nodup_append.mpr ⟨h, List.nodup_cons.mpr ⟨List.not_mem_nil, .nil⟩, hsingle⟩)

end Expected

structure Diagnostic where
  cause : Cause
  span : Span
  expected : List Expected := []
  labels : List (Span × String) := []
  notes : List String := []
  hints : List String := []
  /-- No class of tokens is expected twice. -/
  expected_nodup : expected.Nodup := by exact List.nodup_nil

namespace Diagnostic

def failure (d : Diagnostic) : Failure := d.cause.failure

def message (d : Diagnostic) : String := d.cause.message

def withExpected (d : Diagnostic) (new : List Expected) : Diagnostic :=
  { d with
    expected := Expected.addNew d.expected new
    expected_nodup := Expected.addNew_nodup new d.expected_nodup }

def withLabel (d : Diagnostic) (span : Span) (label : String) : Diagnostic :=
  { d with labels := d.labels ++ [(span, label)] }

def withNote (d : Diagnostic) (note : String) : Diagnostic :=
  { d with notes := d.notes ++ [note] }

def withHint (d : Diagnostic) (hint : String) : Diagnostic :=
  { d with hints := d.hints ++ [hint] }

/-- Quotes the first example as a hint, with its note if it has one. -/
def withExample (d : Diagnostic) : List Example → Diagnostic
  | [] => d
  | e :: _ =>
    let hinted := d.withHint ("for example: `" ++ e.code ++ "`")
    match e.note with
    | some note => hinted.withNote note
    | none => hinted

/-- The message, followed by the accepted tokens if there are any. -/
def display (d : Diagnostic) : String :=
  if d.expected.isEmpty then d.message
  else d.message ++ " (expected one of: " ++ ", ".intercalate (d.expected.map Expected.describe) ++ ")"

def help? (d : Diagnostic) : Option String :=
  if d.hints.isEmpty && d.notes.isEmpty then none
  else some ("\n".intercalate (d.notes.map ("note: " ++ ·) ++ d.hints))

end Diagnostic

end PipeLang
