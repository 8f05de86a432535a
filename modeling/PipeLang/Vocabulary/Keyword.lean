import PipeLang.Vocabulary.Example

/-! Reserved words: their spellings, groups and examples. A word is looked up by its exact
spelling, and no two keywords share one. -/

namespace PipeLang

inductive Keyword
  | true_ | false_ | nil_
  | let_ | in_
  | if_ | then_ | elif_ | else_
  | match_ | when_ | otherwise_
  | try_ | catch_
  | and_ | or_
  deriving DecidableEq

namespace Keyword

inductive Category
  | literal | binding | controlFlow | pattern | errorHandling | operator
  deriving DecidableEq

def all : List Keyword :=
  [true_, false_, nil_, let_, in_, if_, then_, elif_, else_, match_, when_, otherwise_,
    try_, catch_, and_, or_]

def spelling : Keyword → String
  | true_ => "true"
  | false_ => "false"
  | nil_ => "nil"
  | let_ => "let"
  | in_ => "in"
  | if_ => "if"
  | then_ => "then"
  | elif_ => "elif"
  | else_ => "else"
  | match_ => "match"
  | when_ => "when"
  | otherwise_ => "otherwise"
  | try_ => "try"
  | catch_ => "catch"
  | and_ => "and"
  | or_ => "or"

def category : Keyword → Category
  | true_ | false_ | nil_ => .literal
  | let_ | in_ => .binding
  | if_ | then_ | elif_ | else_ => .controlFlow
  | match_ | when_ | otherwise_ => .pattern
  | try_ | catch_ => .errorHandling
  | and_ | or_ => .operator

def examples : Keyword → List Example
  | let_ => [⟨"let base = 10; rate = 2 in base * rate",
      some "Bindings are evaluated left to right."⟩]
  | if_ => [⟨"if n > 0 then \"pos\" elif n < 0 then \"neg\" else \"zero\"", none⟩]
  | match_ => [⟨"match user | \x7bstatus: \"vip\"\x7d -> 1 | otherwise -> 0",
      some "First matching clause wins."⟩]
  | try_ => [⟨"try read-file \"x\" catch error -> \"Failed\"", none⟩]
  | _ => []

def ofSpelling? (s : String) : Option Keyword :=
  all.find? fun k => k.spelling == s

theorem mem_all (k : Keyword) : k ∈ all := by cases k <;> simp [all]

theorem ofSpelling?_spelling (k : Keyword) : ofSpelling? k.spelling = some k := by
  cases k <;> rfl

theorem spelling_of_ofSpelling? {s : String} {k : Keyword} (h : ofSpelling? s = some k) :
    k.spelling = s := by
  have := List.find?_some h
  simpa using this

theorem spelling_injective {j k : Keyword} (h : j.spelling = k.spelling) : j = k := by
  have := ofSpelling?_spelling j
  rw [h, ofSpelling?_spelling] at this
  exact (Option.some.inj this).symm

end Keyword

end PipeLang
