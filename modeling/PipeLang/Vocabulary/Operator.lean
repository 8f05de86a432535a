/-! Binary operators with their binding powers. Every operator is left-associative; application and
field access bind tighter than all of them and have no spelling of their own. -/

namespace PipeLang

inductive Associativity
  | left | right
  deriving DecidableEq

inductive Operator
  | plus | minus | star | slash | percent
  | eq | notEq | lt | ltEq | gt | gtEq
  | and | or
  deriving DecidableEq

namespace Operator

def all : List Operator :=
  [plus, minus, star, slash, percent, eq, notEq, lt, ltEq, gt, gtEq, and, or]

/-- The spelling is also the name of the callee that a binary expression applies. -/
def spelling : Operator → String
  | plus => "+"
  | minus => "-"
  | star => "*"
  | slash => "/"
  | percent => "%"
  | eq => "="
  | notEq => "!="
  | lt => "<"
  | ltEq => "<="
  | gt => ">"
  | gtEq => ">="
  | and => "and"
  | or => "or"

/-- A higher precedence binds tighter. -/
def precedence : Operator → Nat
  | or => 10
  | and => 20
  | eq | notEq | lt | ltEq | gt | gtEq => 30
  | plus | minus => 40
  | star | slash | percent => 50

def associativity (_ : Operator) : Associativity := .left

def isWord : Operator → Bool
  | and | or => true
  | _ => false

def ofSpelling? (s : String) : Option Operator :=
  all.find? fun o => o.spelling == s

/-- Whether `s` names the callee of a binary expression. -/
def isName (s : String) : Bool := (ofSpelling? s).isSome

theorem mem_all (o : Operator) : o ∈ all := by cases o <;> simp [all]

theorem ofSpelling?_spelling (o : Operator) : ofSpelling? o.spelling = some o := by
  cases o <;> rfl

theorem spelling_of_ofSpelling? {s : String} {o : Operator} (h : ofSpelling? s = some o) :
    o.spelling = s := by
  have := List.find?_some h
  simpa using this

theorem spelling_injective {o p : Operator} (h : o.spelling = p.spelling) : o = p := by
  have := ofSpelling?_spelling o
  rw [h, ofSpelling?_spelling] at this
  exact (Option.some.inj this).symm

end Operator

end PipeLang
