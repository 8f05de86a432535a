import PipeLang.Vocabulary.Keyword

/-! Identifiers: a letter, then letters, digits, underscores and hyphens, then at most one question or
exclamation mark. Letters and digits are ASCII. -/

namespace PipeLang

def continuesWord (c : Char) : Bool := c.isAlphanum || c == '_' || c == '-'

def isMark (c : Char) : Bool := c == '?' || c == '!'

def dropMark (cs : List Char) : List Char :=
  match cs.getLast? with
  | some c => if isMark c then cs.dropLast else cs
  | none => cs

def isWord (cs : List Char) : Bool :=
  match dropMark cs with
  | [] => false
  | c :: rest => c.isAlpha && rest.all continuesWord

/-- Whether `s` is read as a single identifier. -/
def isIdentifier (s : String) : Bool := isWord s.toList && (Keyword.ofSpelling? s).isNone

end PipeLang
