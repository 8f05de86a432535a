import PipeLang.Vocabulary.Keyword
import PipeLang.Vocabulary.Operator
import PipeLang.Vocabulary.Punctuation
import PipeLang.Number.Basic
import PipeLang.Source.Span

/-! Tokens. A string token keeps its parts, and each interpolation in it is a token list of its own
that ends in its own end marker. -/

namespace PipeLang

mutual

inductive TokenKind
  | keyword (id : Keyword)
  | operator (id : Operator)
  | punctuation (id : Punctuation)
  | ident (name : String)
  | number (value : Number)
  | text (parts : List StringPart)
  | newline
  | indent
  | dedent
  | eof

/-- Literal text with its escapes applied, or the tokens between two braces with the span between
them. -/
inductive StringPart
  | literal (text : String)
  | hole (tokens : List Token) (span : Span)

structure Token where
  kind : TokenKind
  span : Span

end

namespace TokenKind

def keyword? : TokenKind → Option Keyword
  | keyword k => some k
  | _ => none

def operator? : TokenKind → Option Operator
  | operator o => some o
  | _ => none

def punctuation? : TokenKind → Option Punctuation
  | punctuation p => some p
  | _ => none

def isKeyword (k : Keyword) : TokenKind → Bool
  | keyword j => j = k
  | _ => false

def isOperator (o : Operator) : TokenKind → Bool
  | operator p => p = o
  | _ => false

def isPunctuation (p : Punctuation) : TokenKind → Bool
  | punctuation q => q = p
  | _ => false

def isIdent : TokenKind → Bool
  | ident _ => true
  | _ => false

def isNumber : TokenKind → Bool
  | number _ => true
  | _ => false

def isNewline : TokenKind → Bool
  | newline => true
  | _ => false

def isIndent : TokenKind → Bool
  | indent => true
  | _ => false

def isDedent : TokenKind → Bool
  | dedent => true
  | _ => false

def isEof : TokenKind → Bool
  | eof => true
  | _ => false

def isLayout : TokenKind → Bool
  | newline | indent | dedent => true
  | _ => false

/-- The binary operator that a token spells, the word operators included. -/
def binary? : TokenKind → Option Operator
  | operator o => some o
  | keyword .and_ => some .and
  | keyword .or_ => some .or
  | _ => none

def describe : TokenKind → String
  | keyword k => "`" ++ k.spelling ++ "`"
  | operator o => "`" ++ o.spelling ++ "`"
  | punctuation p => "`" ++ p.spelling ++ "`"
  | ident name => "identifier `" ++ name ++ "`"
  | number _ => "number"
  | text _ => "string"
  | newline => "end of line"
  | indent => "indentation"
  | dedent => "end of indented block"
  | eof => "end of input"

/-- What a token adds to the depth of the enclosing indented blocks. -/
def levelChange : TokenKind → Int
  | indent => 1
  | dedent => -1
  | _ => 0

@[simp] theorem isKeyword_iff {k : Keyword} {t : TokenKind} :
    t.isKeyword k = true ↔ t = .keyword k := by
  cases t <;> simp [isKeyword]

@[simp] theorem isOperator_iff {o : Operator} {t : TokenKind} :
    t.isOperator o = true ↔ t = .operator o := by
  cases t <;> simp [isOperator]

@[simp] theorem isPunctuation_iff {p : Punctuation} {t : TokenKind} :
    t.isPunctuation p = true ↔ t = .punctuation p := by
  cases t <;> simp [isPunctuation]

@[simp] theorem isEof_iff {t : TokenKind} : t.isEof = true ↔ t = .eof := by
  cases t <;> simp [isEof]

end TokenKind

/-- The end marker of a text without tokens. -/
def Token.last : Token := ⟨.eof, .origin⟩

instance : Inhabited Token := ⟨.last⟩

end PipeLang
