import PipeLang.Tree.Pattern
import PipeLang.Vocabulary.Operator

/-! The syntax tree. Every expression carries the span it was read from; a binary expression is the
application of the operator's spelling to two arguments. -/

namespace PipeLang

mutual

inductive Expr
  | ident (span : Span) (name : String)
  /-- A field path on the placeholder; the empty path is the placeholder itself. -/
  | wildcard (span : Span) (path : List String)
  | number (span : Span) (value : Number)
  | text (span : Span) (segments : List Segment)
  | bool (span : Span) (value : Bool)
  | nil (span : Span)
  | record (span : Span) (fields : List Binding)
  | list (span : Span) (items : List Expr)
  | function (span : Span) (params : List Name) (body : Expr)
  | apply (span : Span) (callee : Expr) (args : List Expr)
  | access (span : Span) (target : Expr) (field : Name)
  | pipeline (span : Span) (seed : Expr) (stages : List Stage)
  | letIn (span : Span) (bindings : List Binding) (body : Expr)
  | ifElse (span : Span) (branches : List Branch) (fallback : Expr)
  | matchOn (span : Span) (subject : Expr) (clauses : List Clause)
  | tryCatch (span : Span) (body : Expr) (catches : List Catch)
  /-- Stands where an expression could not be read. -/
  | error (span : Span)

inductive Segment
  | literal (text : String)
  | hole (value : Expr)

/-- A name with its value: a record field or a local definition. -/
structure Binding where
  name : Name
  value : Expr

/-- One application in a pipeline. The value that flows in replaces its first bare placeholder. -/
structure Stage where
  span : Span
  callee : Expr
  args : List Expr

structure Branch where
  condition : Expr
  result : Expr

structure Clause where
  span : Span
  pattern : Pattern
  guard : Option Expr
  result : Expr

/-- Handles the failures with a tag, or all of them, and may bind the failure to a name. -/
structure Catch where
  span : Span
  tag : Option Name
  binding : Option Name
  handler : Expr

end

namespace Expr

def span : Expr → Span
  | ident s _ | wildcard s _ | number s _ | text s _ | bool s _ | nil s | record s _ | list s _
  | function s _ _ | apply s _ _ | access s _ _ | pipeline s _ _ | letIn s _ _ | ifElse s _ _
  | matchOn s _ _ | tryCatch s _ _ | error s => s

def withSpan (s : Span) : Expr → Expr
  | ident _ name => ident s name
  | wildcard _ path => wildcard s path
  | number _ value => number s value
  | text _ segments => text s segments
  | bool _ value => bool s value
  | nil _ => nil s
  | record _ fields => record s fields
  | list _ items => list s items
  | function _ params body => function s params body
  | apply _ callee args => apply s callee args
  | access _ target field => access s target field
  | pipeline _ seed stages => pipeline s seed stages
  | letIn _ bindings body => letIn s bindings body
  | ifElse _ branches fallback => ifElse s branches fallback
  | matchOn _ subject clauses => matchOn s subject clauses
  | tryCatch _ body catches => tryCatch s body catches
  | error _ => error s

@[simp] theorem span_withSpan (s : Span) (e : Expr) : (e.withSpan s).span = s := by
  cases e <;> rfl

def isIdent : Expr → Bool
  | ident .. => true
  | _ => false

/-- The bare placeholder. -/
def isPlaceholder : Expr → Bool
  | wildcard _ path => path.isEmpty
  | _ => false

/-- The forms that reach as far right as they can. -/
def isConstruct : Expr → Bool
  | letIn .. | ifElse .. | matchOn .. | tryCatch .. => true
  | _ => false

def binary? : Expr → Option (Operator × Expr × Expr)
  | apply _ (ident _ name) [left, right] =>
    (Operator.ofSpelling? name).map fun o => (o, left, right)
  | _ => none

def operator? (e : Expr) : Option Operator := e.binary?.map (·.1)

end Expr

namespace Segment

def exprs : Segment → List Expr
  | literal _ => []
  | hole e => [e]

end Segment

namespace Expr

/-- The direct parts of an expression, in source order. -/
def children : Expr → List Expr
  | ident .. | wildcard .. | number .. | bool .. | nil .. | error .. => []
  | text _ segments => segments.flatMap Segment.exprs
  | record _ fields => fields.map Binding.value
  | list _ items => items
  | function _ _ body => [body]
  | apply _ callee args => callee :: args
  | access _ target _ => [target]
  | pipeline _ seed stages => seed :: stages.flatMap fun s => s.callee :: s.args
  | letIn _ bindings body => bindings.map Binding.value ++ [body]
  | ifElse _ branches fallback =>
    (branches.flatMap fun b => [b.condition, b.result]) ++ [fallback]
  | matchOn _ subject clauses => subject :: clauses.flatMap fun c => c.guard.toList ++ [c.result]
  | tryCatch _ body catches => body :: catches.map Catch.handler

end Expr

inductive Statement
  /-- A definition; one with parameters has a function as its value. -/
  | assign (span : Span) (name : Name) (value : Expr)
  | expr (span : Span) (value : Expr)
  /-- Stands where a statement could not be read. -/
  | error (span : Span)

namespace Statement

def span : Statement → Span
  | assign s _ _ | expr s _ | error s => s

def value? : Statement → Option Expr
  | assign _ _ value | expr _ value => some value
  | error _ => none

def mapValue (f : Expr → Expr) : Statement → Statement
  | assign s name value => assign s name (f value)
  | expr s value => expr s (f value)
  | error s => error s

end Statement

structure Program where
  statements : List Statement
  span : Span

namespace Program

/-- From the first statement to the last; empty for a program without statements. -/
def ofStatements (statements : List Statement) : Program :=
  match statements.head?, statements.getLast? with
  | some first, some last => ⟨statements, first.span.merge last.span⟩
  | _, _ => ⟨statements, .origin⟩

@[simp] theorem statements_ofStatements (ss : List Statement) : (ofStatements ss).statements = ss := by
  unfold ofStatements
  split <;> rfl

def values (p : Program) : List Expr := p.statements.filterMap Statement.value?

end Program

end PipeLang
