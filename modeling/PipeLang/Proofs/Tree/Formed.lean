import Mathlib
import PipeLang.Token.Basic
import PipeLang.Token.Identifier
import PipeLang.Text.Uppercase
import PipeLang.Tree.Preorder

/-! What every tree that was read from a text is like: its names are names of the language, its lists
have the lengths that the grammar gives them, every stage of a pipeline has one bare placeholder,
and no string holds two literal segments in a row. Interpolations nest as deep as was left for
them. -/

namespace PipeLang

namespace StringPart

def isLiteral : StringPart → Bool
  | literal _ => true
  | hole .. => false

end StringPart

namespace Segment

def isLiteral : Segment → Bool
  | literal _ => true
  | hole _ => false

end Segment

/-- No two literals stand side by side, for they would be one. -/
def Apart (isLiteral : α → Bool) (xs : List α) : Prop :=
  xs.IsChain fun a b => (isLiteral a && isLiteral b) = false

/-- Neither an identifier nor a string. -/
def TokenKind.isPlain : TokenKind → Bool
  | ident _ | text _ => false
  | _ => true

/-- What a text is made of, with room for `n` levels of interpolations in one another. -/
inductive Token.Formed : Nat → Token → Prop
  | ident {n : Nat} {t : Token} {name : String} (kind : t.kind = .ident name)
      (name_ok : isIdentifier name = true) : Formed n t
  | text {n : Nat} {t : Token} {parts : List StringPart} (kind : t.kind = .text parts)
      (literals : ∀ text, .literal text ∈ parts → text ≠ "")
      (apart : Apart StringPart.isLiteral parts)
      (room : ∀ tokens span, .hole tokens span ∈ parts → 0 < n)
      (holes : ∀ tokens span, .hole tokens span ∈ parts → ∀ u ∈ tokens, Formed (n - 1) u) :
      Formed n t
  | plain {n : Nat} {t : Token} (kind : t.kind.isPlain = true) : Formed n t

theorem Token.Formed.hole {n : Nat} {t : Token} (h : t.Formed n) {parts : List StringPart}
    (ht : t.kind = .text parts) {us : List Token} {s : Span} (hmem : .hole us s ∈ parts) :
    ∀ u ∈ us, u.Formed (n - 1) := by
  cases h with
  | ident kind => rw [ht] at kind; cases kind
  | text kind literals apart room holes =>
    rw [ht] at kind
    cases kind
    exact holes us s hmem
  | plain kind => rw [ht] at kind; cases kind

def FieldUse.Formed : FieldUse → Prop
  | .bind name => isIdentifier name = true
  | .compare _ | .ignore => True

def Pattern.Formed : Pattern → Prop
  | .record _ fields =>
    (∀ f ∈ fields, isIdentifier f.key.text = true ∧ f.use.Formed) ∧
      (fields.map fun f => f.key.text).Nodup
  | .bind _ name => isIdentifier name = true
  | .literal .. | .wildcard _ | .otherwise _ => True

def Name.isCapitalized (n : Name) : Bool := n.text.toList.head?.any isUppercase

/-- A clause catches a tag, or binds the failure, or does both; a capital tells the two apart. -/
structure Catch.Named (c : Catch) : Prop where
  some_name : c.tag.isSome = true ∨ c.binding.isSome = true
  tag : ∀ n, c.tag = some n → isIdentifier n.text = true ∧ n.isCapitalized = true
  binding : ∀ n, c.binding = some n → isIdentifier n.text = true ∧ n.isCapitalized = false

/-- A name or a field of one, however deep. -/
def Expr.isPath : Expr → Bool
  | .ident .. => true
  | .access _ target _ => target.isPath
  | _ => false

def Stage.Formed (s : Stage) : Prop :=
  s.callee.isPath = true ∧ (s.args.filter Expr.isPlaceholder).length = 1

/-- What a tree is made of, with room for `n` levels of interpolations in one another. -/
inductive Expr.Formed : Nat → Expr → Prop
  | ident {n s name} (name_ok : isIdentifier name = true) : Formed n (.ident s name)
  | wildcard {n s path} (path_ok : ∀ f ∈ path, isIdentifier f = true) : Formed n (.wildcard s path)
  | number {n s value} : Formed n (.number s value)
  | text {n s segments} (literals : ∀ text, .literal text ∈ segments → text ≠ "")
      (apart : Apart Segment.isLiteral segments) (room : ∀ e, .hole e ∈ segments → 0 < n)
      (holes : ∀ e, .hole e ∈ segments → Formed (n - 1) e) : Formed n (.text s segments)
  | bool {n s value} : Formed n (.bool s value)
  | nil {n s} : Formed n (.nil s)
  | record {n s} {fields : List Binding} (keys : ∀ b ∈ fields, isIdentifier b.name.text = true)
      (values : ∀ b ∈ fields, Formed n b.value) : Formed n (.record s fields)
  | list {n s items} (items_ok : ∀ e ∈ items, Formed n e) : Formed n (.list s items)
  | function {n s} {params : List Name} {body} (some_param : params ≠ [])
      (params_ok : ∀ p ∈ params, isIdentifier p.text = true) (body_ok : Formed n body) :
      Formed n (.function s params body)
  | binary {n s t left right} (op : Operator) (left_ok : Formed n left)
      (right_ok : Formed n right) : Formed n (.apply s (.ident t op.spelling) [left, right])
  | apply {n s callee args} (some_arg : args ≠ []) (callee_ok : Formed n callee)
      (args_ok : ∀ a ∈ args, Formed n a) : Formed n (.apply s callee args)
  | access {n s target} {field : Name} (target_ok : Formed n target)
      (field_ok : isIdentifier field.text = true) : Formed n (.access s target field)
  | pipeline {n s seed} {stages : List Stage} (seed_ok : Formed n seed) (some_stage : stages ≠ [])
      (stages_ok : ∀ g ∈ stages, g.Formed) (callees : ∀ g ∈ stages, Formed n g.callee)
      (args : ∀ g ∈ stages, ∀ a ∈ g.args, Formed n a) : Formed n (.pipeline s seed stages)
  | letIn {n s} {bindings : List Binding} {body} (some_binding : bindings ≠ [])
      (names : ∀ b ∈ bindings, isIdentifier b.name.text = true)
      (values : ∀ b ∈ bindings, Formed n b.value) (body_ok : Formed n body) :
      Formed n (.letIn s bindings body)
  | ifElse {n s} {branches : List Branch} {fallback} (some_branch : branches ≠ [])
      (conditions : ∀ b ∈ branches, Formed n b.condition)
      (results : ∀ b ∈ branches, Formed n b.result) (fallback_ok : Formed n fallback) :
      Formed n (.ifElse s branches fallback)
  | matchOn {n s subject} {clauses : List Clause} (subject_ok : Formed n subject)
      (some_clause : clauses ≠ []) (patterns : ∀ c ∈ clauses, c.pattern.Formed)
      (guards : ∀ c ∈ clauses, ∀ g, c.guard = some g → Formed n g)
      (results : ∀ c ∈ clauses, Formed n c.result) : Formed n (.matchOn s subject clauses)
  | tryCatch {n s body} {catches : List Catch} (body_ok : Formed n body) (some_catch : catches ≠ [])
      (named : ∀ c ∈ catches, c.Named) (handlers : ∀ c ∈ catches, Formed n c.handler) :
      Formed n (.tryCatch s body catches)

def Statement.Formed (n : Nat) : Statement → Prop
  | .assign _ name value => isIdentifier name.text = true ∧ value.Formed n
  | .expr _ value => value.Formed n
  | .error _ => False

def Program.Formed (n : Nat) (p : Program) : Prop := ∀ s ∈ p.statements, s.Formed n

end PipeLang
