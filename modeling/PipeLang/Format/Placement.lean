import PipeLang.Tree.Basic
import PipeLang.Tree.Sexp

/-! Where an expression needs parentheses. Read back bare, it would reach as far as the grammar lets it;
what would reach too far in its slot is wrapped. At the end of an enclosing form nothing does. -/

namespace PipeLang.Format

/-- What follows an expression that does not end its enclosing form. -/
inductive Slot
  /-- More of an enclosing form: the next clause, binding or key. -/
  | clause
  | seed
  | operand
  | argument
  deriving DecidableEq

/-- Constructs reach to the end of what encloses them, pipelines to the next clause, applications over
the arguments after them; and a minus would join what stands before it. -/
def needsParens (slot : Slot) (e : Expr) : Bool :=
  if e.isConstruct then true
  else
    match e with
    | .pipeline .. => slot != .clause
    | .apply .. => slot == .argument || (slot == .operand && e.operator?.isSome)
    | .number _ value => value.negative && (slot == .operand || slot == .argument)
    | _ => false

def parens (text : String) : String := "(" ++ text ++ ")"

/-- `text`, which is `e` written bare, as it is written in `slot`. -/
def place (slot : Slot) (e : Expr) (text : String) : String :=
  if needsParens slot e then parens text else text

/-- An operand of an operator of the given precedence. Operators fold to the left, so one of the same
precedence needs parentheses on the right only. -/
def placeOperand (precedence : Nat) (onRight : Bool) (e : Expr) (text : String) : String :=
  match e.operator? with
  | some op =>
    if op.precedence < precedence || (onRight && op.precedence == precedence) then parens text
    else text
  | none => place .operand e text

/-- The target of a field access. A placeholder is wrapped, or the two would be one field path. -/
def placeTarget (e : Expr) (text : String) : String :=
  match e with
  | .wildcard .. => parens text
  | e => place .argument e text

/-- An application with the texts of its parts; `op` is the operator it stands for, if any. -/
def applicationText (op : Option Operator) (callee : Expr × String) (args : List (Expr × String)) :
    String :=
  match op, args with
  | some op, [(left, l), (right, r)] =>
    placeOperand op.precedence false left l ++ " " ++ op.spelling ++ " " ++
      placeOperand op.precedence true right r
  | _, _ => joined ((callee :: args).map fun (e, text) => place .argument e text)

/-- A binary expression whose left side can be an argument. As the last argument it needs no
parentheses, for its operator takes the argument before it. -/
def trailsBare (e : Expr) : Bool :=
  match e.binary? with
  | some (_, left, _) => !needsParens .argument left
  | none => false

def placeItems : List (Expr × String) → List String
  | [] => []
  | (e, text) :: rest =>
    (if rest.isEmpty && trailsBare e then text else place .argument e text) :: placeItems rest

/-- The arguments of a stage that are written: a placeholder that goes first is implied. -/
def writtenArguments : List (Expr × String) → List (Expr × String)
  | [] => []
  | (e, text) :: rest => if e.isPlaceholder then rest else (e, text) :: rest

/-- One name, or several by juxtaposition: what the left side of a definition looks like. -/
def isNameRun (e : Expr) : Bool :=
  match e with
  | .ident .. => true
  | .apply _ (.ident ..) args => e.operator?.isNone && args.all Expr.isIdent
  | _ => false

/-- Whether an expression written bare at the start of a statement would open with names and an equals
sign, and so be read back as a definition. -/
def startsLikeDefinition : Expr → Bool
  | .pipeline _ seed _ => startsLikeDefinition seed
  | .apply _ (.ident _ name) [left, _] =>
    match Operator.ofSpelling? name with
    | none => false
    | some op =>
      (op == .eq && isNameRun left) ||
        ((left.operator?.any fun inner => op.precedence ≤ inner.precedence) &&
          startsLikeDefinition left)
  | _ => false

theorem needsParens_of_isConstruct {e : Expr} (slot : Slot) (h : e.isConstruct = true) :
    needsParens slot e = true := by
  simp [needsParens, h]

end PipeLang.Format
