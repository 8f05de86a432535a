import PipeLang.Token.Basic

/-! What the scanner is in the middle of. It reads one character at a time, so a token that may still
grow is held in the mode until a character settles it. Texts are held last character first. -/

namespace PipeLang.Scan

/-- What encloses the next character of an interpolation: a brace, with the number of braces opened and
not yet closed inside it, or a quote. -/
inductive Enclosing
  | brace (opened : Nat)
  | quote
  deriving DecidableEq

structure Quoted where
  start : Position
  parts : List StringPart
  literal : List Char

/-- An interpolation read so far, from the character after its brace. -/
structure Hole where
  brace : Position
  start : Position
  body : List Char
  enclosing : List Enclosing

structure Margin where
  start : Position
  blanks : List Char

inductive Mode
  | ready
  | margin (m : Margin)
  /-- A slash is the first character of a line. -/
  | marginSlash (m : Margin) (slash : Position)
  /-- A block comment opened the line and only blanks came after it. -/
  | marginRemark (m : Margin)
  /-- A comment up to the end of the line; `alone` when nothing but blanks and comments came before. -/
  | note (alone : Bool)
  /-- A block comment, `depth` levels deep, that returns to the margin it was opened in if any. -/
  | remark (opened : Position) (depth : Nat) (last : Option Char) (back : Option Margin)
  | slash (start : Position)
  | minus (start : Position)
  | bang (start : Position)
  | less (start : Position)
  | greater (start : Position)
  | bar (start : Position)
  | underscore (start : Position)
  | word (start : Position) (text : List Char)
  | underscoreWord (start : Position) (text : List Char)
  | digits (start : Position) (whole : List Char)
  /-- Digits and a point that belongs to the number only if a digit follows. -/
  | point (start : Position) (whole : List Char) (dot : Position)
  | fraction (start : Position) (whole places : List Char)
  | secondPoint (start : Position) (whole places : List Char) (dot : Position)
  | repeatedPoint (start : Position) (text : List Char)
  | digitWord (start : Position) (text : List Char)
  | text (q : Quoted)
  | escape (q : Quoted)
  | hole (q : Quoted) (h : Hole)
  /-- A backslash between quotes inside an interpolation. -/
  | holeEscape (q : Quoted) (h : Hole)

/-- Whether the line has shown nothing but blanks and comments so far. -/
def Mode.atLineStart : Mode → Bool
  | .margin _ | .marginRemark _ => true
  | .note alone => alone
  | _ => false

/-- The quote with its literal text, if there is any, made a part. -/
def Quoted.flush (q : Quoted) : Quoted :=
  if q.literal.isEmpty then q
  else { q with parts := .literal (String.ofList q.literal.reverse) :: q.parts, literal := [] }

/-- What encloses the character after `c`; nothing is left when `c` closes the interpolation. -/
def Enclosing.next (c : Char) : List Enclosing → List Enclosing
  | [] => []
  | .quote :: up =>
    if c = '"' then up
    else if c = '\x7b' then .brace 0 :: .quote :: up
    else .quote :: up
  | .brace n :: up =>
    if c = '"' then .quote :: .brace n :: up
    else if c = '\x7b' then .brace (n + 1) :: up
    else if c = '\x7d' then
      match n with
      | 0 => up
      | n + 1 => .brace n :: up
    else .brace n :: up

end PipeLang.Scan
