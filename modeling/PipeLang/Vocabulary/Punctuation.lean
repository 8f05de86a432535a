import PipeLang.Vocabulary.Example

/-! Delimiters, separators, the pipeline and clause markers and the placeholder. The comma is listed
so that it can be reported where whitespace was meant. -/

namespace PipeLang

inductive Punctuation
  | comma | colon | semicolon
  | dot
  | arrow
  | pipe | bar
  | underscore
  | lparen | rparen | lbracket | rbracket | lbrace | rbrace
  deriving DecidableEq

namespace Punctuation

inductive Category
  | delimiter | separator | access | arrow | flow | marker
  deriving DecidableEq

def all : List Punctuation :=
  [comma, colon, semicolon, dot, arrow, pipe, bar, underscore,
    lparen, rparen, lbracket, rbracket, lbrace, rbrace]

def spelling : Punctuation → String
  | comma => ","
  | colon => ":"
  | semicolon => ";"
  | dot => "."
  | arrow => "->"
  | pipe => "|>"
  | bar => "|"
  | underscore => "_"
  | lparen => "("
  | rparen => ")"
  | lbracket => "["
  | rbracket => "]"
  | lbrace => "\x7b"
  | rbrace => "\x7d"

def category : Punctuation → Category
  | comma | colon | semicolon => .separator
  | dot => .access
  | arrow => .arrow
  | pipe | bar => .flow
  | underscore => .marker
  | lparen | rparen | lbracket | rbracket | lbrace | rbrace => .delimiter

def examples : Punctuation → List Example
  | pipe => [⟨"orders |> filter _.paid |> sum",
      some "Each stage receives the previous result as its first argument."⟩]
  | underscore => [⟨"xs |> fold 0 _ add",
      some "The incoming value replaces the stage's one `_`, or goes first when there is none."⟩]
  | _ => []

def closing? : Punctuation → Option Punctuation
  | lparen => some rparen
  | lbracket => some rbracket
  | lbrace => some rbrace
  | _ => none

def ofSpelling? (s : String) : Option Punctuation :=
  all.find? fun p => p.spelling == s

theorem mem_all (p : Punctuation) : p ∈ all := by cases p <;> simp [all]

theorem ofSpelling?_spelling (p : Punctuation) : ofSpelling? p.spelling = some p := by
  cases p <;> rfl

theorem spelling_of_ofSpelling? {s : String} {p : Punctuation} (h : ofSpelling? s = some p) :
    p.spelling = s := by
  have := List.find?_some h
  simpa using this

end Punctuation

end PipeLang
