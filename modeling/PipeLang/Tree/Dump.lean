import PipeLang.Tree.Basic
import PipeLang.Tree.Sexp
import PipeLang.Number.Shortest
import PipeLang.Text.Escape

/-! The tree as an S-expression, without its spans. Two trees of the same shape have the same dump. -/

namespace PipeLang

def Sexp.tagged (head : String) (items : List Sexp) : Sexp := .list (.atom head :: items)

def boolWord (b : Bool) : String := if b then "true" else "false"

def Name.sexp (n : Name) : Sexp := .atom n.text

namespace Literal

def dump : Literal → String
  | number value => value.text
  | text value => quoted value
  | bool value => boolWord value
  | nil => "nil"

end Literal

def FieldUse.dump : FieldUse → String
  | .bind name => name
  | .compare literal => literal.dump
  | .ignore => "_"

def Pattern.sexp : Pattern → Sexp
  | .record _ fields =>
    .tagged "record-pattern" (fields.map fun f => .list [f.key.sexp, .atom f.use.dump])
  | .literal _ value => .atom value.dump
  | .bind _ name => .atom name
  | .wildcard _ => .atom "_"
  | .otherwise _ => .atom "otherwise"

/-- A string literal with interpolations is a list of its segments, any other a single atom. -/
def segmentsSexp (segments : List Segment) (items : List Sexp) : Sexp :=
  match segments with
  | [] => .atom (quoted "")
  | [.literal text] => .atom (quoted text)
  | _ => .tagged "string" items

mutual

def Expr.sexp : Expr → Sexp
  | .ident _ name => .atom name
  | .wildcard _ path => .atom (".".intercalate ("_" :: path))
  | .number _ value => .atom value.text
  | .text _ segments => segmentsSexp segments (segmentSexps segments)
  | .bool _ value => .atom (boolWord value)
  | .nil _ => .atom "nil"
  | .record _ fields => .tagged "record" (bindingSexps fields)
  | .list _ items => .tagged "list" (exprSexps items)
  | .function _ params body => .tagged "fn" [.list (params.map Name.sexp), body.sexp]
  | .apply _ callee args => .list (callee.sexp :: exprSexps args)
  | .access _ target field => .tagged "." [target.sexp, field.sexp]
  | .pipeline _ seed stages => .tagged "pipe" (seed.sexp :: stageSexps stages)
  | .letIn _ bindings body => .tagged "let" [.list (bindingSexps bindings), body.sexp]
  | .ifElse _ branches fallback =>
    .tagged "if" (branchSexps branches ++ [.tagged "else" [fallback.sexp]])
  | .matchOn _ subject clauses => .tagged "match" (subject.sexp :: clauseSexps clauses)
  | .tryCatch _ body catches => .tagged "try" (body.sexp :: catchSexps catches)
  | .error _ => .atom "<error>"

def exprSexps : List Expr → List Sexp
  | [] => []
  | e :: rest => e.sexp :: exprSexps rest

def segmentSexps : List Segment → List Sexp
  | [] => []
  | .literal text :: rest => .atom (quoted text) :: segmentSexps rest
  | .hole e :: rest => e.sexp :: segmentSexps rest

def bindingSexps : List Binding → List Sexp
  | [] => []
  | ⟨name, value⟩ :: rest => .list [name.sexp, value.sexp] :: bindingSexps rest

def stageSexps : List Stage → List Sexp
  | [] => []
  | ⟨_, callee, args⟩ :: rest => .list (callee.sexp :: exprSexps args) :: stageSexps rest

def branchSexps : List Branch → List Sexp
  | [] => []
  | ⟨condition, result⟩ :: rest => .list [condition.sexp, result.sexp] :: branchSexps rest

def clauseSexps : List Clause → List Sexp
  | [] => []
  | ⟨_, pattern, none, result⟩ :: rest =>
    .tagged "->" [pattern.sexp, result.sexp] :: clauseSexps rest
  | ⟨_, pattern, some guard, result⟩ :: rest =>
    .tagged "->" [pattern.sexp, .tagged "when" [guard.sexp], result.sexp] :: clauseSexps rest

def catchSexps : List Catch → List Sexp
  | [] => []
  | ⟨_, tag, binding, handler⟩ :: rest =>
    .tagged "catch" ((tag.map fun n => Sexp.tagged "tag" [n.sexp]).toList ++
      (binding.map fun n => Sexp.tagged "bind" [n.sexp]).toList ++ [handler.sexp]) ::
      catchSexps rest

end

namespace Statement

def sexp : Statement → Sexp
  | assign _ name value => .tagged "=" [name.sexp, value.sexp]
  | expr _ value => value.sexp
  | error _ => .atom "<error>"

end Statement

def Expr.dump (e : Expr) : String := e.sexp.render

def Pattern.dump (p : Pattern) : String := p.sexp.render

/-- One statement a line. -/
def Program.dump (p : Program) : String :=
  "\n".intercalate (p.statements.map fun s => s.sexp.render)

end PipeLang
