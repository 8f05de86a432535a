import PipeLang.Parse.Pattern

/-! Applications and binary expressions. The rule for primary expressions is a parameter, given for
every nesting budget; a loop that wraps the expression read so far takes a level for each wrap. -/

namespace PipeLang.Parse

/-- The primary expressions with so many levels of nesting left. -/
abbrev Primary := Nat → Parse Expr

/-- `target` and the field accesses after it, each a level deeper. -/
def accesses (o : ParseOptions) : Nat → Expr → Parse Expr
  | 0, target => do
    if ← test Cursor.atAccess then tooDeep o else pure target
  | budget + 1, target => do
    if ← test Cursor.atAccess then
      let _ ← skip
      let field ← identifier .afterDot
      accesses o budget (.access (target.span.merge field.span) target field)
    else pure target

variable (o : ParseOptions) (primary : Primary)

def operand (budget : Nat) : Parse Expr := do
  let e ← primary budget
  accesses o budget e

/-- A head and its arguments. A construct takes none, for it reaches as far as it can by itself. -/
def application (budget : Nat) : Parse Expr := do
  let construct ← test Cursor.atConstruct
  let head ← operand o primary budget
  if construct then pure head
  else
    let args ← many Cursor.atArgument (operand o primary budget)
    match args.getLast? with
    | some last => pure (.apply (head.span.merge last.span) head args)
    | none => pure head

def binary (op : Operator) (span : Span) (left right : Expr) : Expr :=
  .apply (left.span.merge right.span) (.ident span op.spelling) [left, right]

/-- Folds the operators that bind as tightly as `least` onto `left`, from left to right. -/
def chain : Nat → Expr → Nat → Parse Expr
  | 0, left, least => do
    match ← test (Cursor.operator? least) with
    | some _ => tooDeep o
    | none => pure left
  | budget + 1, left, least => do
    match ← test (Cursor.operator? least) with
    | some op =>
      let span ← skip
      let first ← application o primary budget
      let right ← chain budget first (op.precedence + 1)
      chain budget (binary op span left right) least
    | none => pure left

end PipeLang.Parse
