import PipeLang.Number.Basic
import PipeLang.Source.Span

/-! Names with their places, and the patterns of match clauses. -/

namespace PipeLang

structure Name where
  text : String
  span : Span
  deriving DecidableEq

/-- A constant that a pattern compares with. -/
inductive Literal
  | number (value : Number)
  | text (value : String)
  | bool (value : Bool)
  | nil
  deriving DecidableEq

inductive FieldUse
  | bind (name : String)
  | compare (literal : Literal)
  /-- The field must be there, its value does not matter. -/
  | ignore
  deriving DecidableEq

structure PatternField where
  key : Name
  use : FieldUse
  deriving DecidableEq

inductive Pattern
  | record (span : Span) (fields : List PatternField)
  | literal (span : Span) (value : Literal)
  | bind (span : Span) (name : String)
  | wildcard (span : Span)
  | otherwise (span : Span)
  deriving DecidableEq

namespace Pattern

def span : Pattern → Span
  | record s _ | literal s _ | bind s _ | wildcard s | otherwise s => s

/-- Both spellings of the catch-all. -/
def isCatchAll : Pattern → Bool
  | wildcard _ | otherwise _ => true
  | _ => false

end Pattern

end PipeLang
