import Mathlib
import PipeLang.Tree.Keys
import PipeLang.Tree.Resolve

/-! A tree with every span replaced by its image under a function. Moving the text of a program moves
its spans; a constant function forgets them, and what is left is the tree itself. -/

namespace PipeLang

def Name.relocate (f : Span → Span) (n : Name) : Name := ⟨n.text, f n.span⟩

def PatternField.relocate (f : Span → Span) (p : PatternField) : PatternField :=
  ⟨p.key.relocate f, p.use⟩

def Pattern.relocate (f : Span → Span) : Pattern → Pattern
  | .record s fields => .record (f s) (fields.map (PatternField.relocate f))
  | .literal s value => .literal (f s) value
  | .bind s name => .bind (f s) name
  | .wildcard s => .wildcard (f s)
  | .otherwise s => .otherwise (f s)

section

variable (f : Span → Span)

mutual

def Expr.relocate : Expr → Expr
  | .ident s name => .ident (f s) name
  | .wildcard s path => .wildcard (f s) path
  | .number s value => .number (f s) value
  | .text s segments => .text (f s) (relocateSegments segments)
  | .bool s value => .bool (f s) value
  | .nil s => .nil (f s)
  | .record s fields => .record (f s) (relocateBindings fields)
  | .list s items => .list (f s) (relocateExprs items)
  | .function s params body => .function (f s) (params.map (Name.relocate f)) body.relocate
  | .apply s callee args => .apply (f s) callee.relocate (relocateExprs args)
  | .access s target field => .access (f s) target.relocate (field.relocate f)
  | .pipeline s seed stages => .pipeline (f s) seed.relocate (relocateStages stages)
  | .letIn s bindings body => .letIn (f s) (relocateBindings bindings) body.relocate
  | .ifElse s branches fallback => .ifElse (f s) (relocateBranches branches) fallback.relocate
  | .matchOn s subject clauses => .matchOn (f s) subject.relocate (relocateClauses clauses)
  | .tryCatch s body catches => .tryCatch (f s) body.relocate (relocateCatches catches)
  | .error s => .error (f s)

def relocateExprs : List Expr → List Expr
  | [] => []
  | e :: rest => e.relocate :: relocateExprs rest

def relocateSegments : List Segment → List Segment
  | [] => []
  | .literal text :: rest => .literal text :: relocateSegments rest
  | .hole e :: rest => .hole e.relocate :: relocateSegments rest

def relocateBindings : List Binding → List Binding
  | [] => []
  | ⟨name, value⟩ :: rest => ⟨name.relocate f, value.relocate⟩ :: relocateBindings rest

def relocateStages : List Stage → List Stage
  | [] => []
  | ⟨s, callee, args⟩ :: rest =>
    ⟨f s, callee.relocate, relocateExprs args⟩ :: relocateStages rest

def relocateBranches : List Branch → List Branch
  | [] => []
  | ⟨condition, result⟩ :: rest =>
    ⟨condition.relocate, result.relocate⟩ :: relocateBranches rest

def relocateClauses : List Clause → List Clause
  | [] => []
  | ⟨s, pattern, none, result⟩ :: rest =>
    ⟨f s, pattern.relocate f, none, result.relocate⟩ :: relocateClauses rest
  | ⟨s, pattern, some guard, result⟩ :: rest =>
    ⟨f s, pattern.relocate f, some guard.relocate, result.relocate⟩ :: relocateClauses rest

def relocateCatches : List Catch → List Catch
  | [] => []
  | ⟨s, tag, binding, handler⟩ :: rest =>
    ⟨f s, tag.map (Name.relocate f), binding.map (Name.relocate f), handler.relocate⟩ ::
      relocateCatches rest

end

def Segment.relocate : Segment → Segment
  | .literal text => .literal text
  | .hole e => .hole (e.relocate f)

def Binding.relocate (b : Binding) : Binding := ⟨b.name.relocate f, b.value.relocate f⟩

def Stage.relocate (s : Stage) : Stage :=
  ⟨f s.span, s.callee.relocate f, s.args.map (Expr.relocate f)⟩

def Branch.relocate (b : Branch) : Branch := ⟨b.condition.relocate f, b.result.relocate f⟩

def Clause.relocate (c : Clause) : Clause :=
  ⟨f c.span, c.pattern.relocate f, c.guard.map (Expr.relocate f), c.result.relocate f⟩

def Catch.relocate (c : Catch) : Catch :=
  ⟨f c.span, c.tag.map (Name.relocate f), c.binding.map (Name.relocate f), c.handler.relocate f⟩

def Statement.relocate : Statement → Statement
  | .assign s name value => .assign (f s) (name.relocate f) (value.relocate f)
  | .expr s value => .expr (f s) (value.relocate f)
  | .error s => .error (f s)

def Program.relocate (p : Program) : Program :=
  ⟨p.statements.map (Statement.relocate f), f p.span⟩

@[simp] theorem relocateExprs_eq_map (es : List Expr) :
    relocateExprs f es = es.map (Expr.relocate f) := by
  induction es with
  | nil => simp [relocateExprs]
  | cons e rest ih => simp [relocateExprs, ih]

@[simp] theorem relocateSegments_eq_map (segments : List Segment) :
    relocateSegments f segments = segments.map (Segment.relocate f) := by
  induction segments with
  | nil => simp [relocateSegments]
  | cons s rest ih => cases s <;> simp [relocateSegments, Segment.relocate, ih]

@[simp] theorem relocateBindings_eq_map (bindings : List Binding) :
    relocateBindings f bindings = bindings.map (Binding.relocate f) := by
  induction bindings with
  | nil => simp [relocateBindings]
  | cons b rest ih => cases b; simp [relocateBindings, Binding.relocate, ih]

@[simp] theorem relocateStages_eq_map (stages : List Stage) :
    relocateStages f stages = stages.map (Stage.relocate f) := by
  induction stages with
  | nil => simp [relocateStages]
  | cons s rest ih => cases s; simp [relocateStages, Stage.relocate, ih]

@[simp] theorem relocateBranches_eq_map (branches : List Branch) :
    relocateBranches f branches = branches.map (Branch.relocate f) := by
  induction branches with
  | nil => simp [relocateBranches]
  | cons b rest ih => cases b; simp [relocateBranches, Branch.relocate, ih]

@[simp] theorem relocateClauses_eq_map (clauses : List Clause) :
    relocateClauses f clauses = clauses.map (Clause.relocate f) := by
  induction clauses with
  | nil => simp [relocateClauses]
  | cons c rest ih =>
    obtain ⟨_, _, guard, _⟩ := c
    cases guard <;> simp [relocateClauses, Clause.relocate, ih]

@[simp] theorem relocateCatches_eq_map (catches : List Catch) :
    relocateCatches f catches = catches.map (Catch.relocate f) := by
  induction catches with
  | nil => simp [relocateCatches]
  | cons c rest ih => cases c; simp [relocateCatches, Catch.relocate, ih]

@[simp] theorem Expr.span_relocate (e : Expr) : (e.relocate f).span = f e.span := by
  cases e <;> simp [Expr.relocate, Expr.span]

@[simp] theorem Expr.isPlaceholder_relocate (e : Expr) :
    (e.relocate f).isPlaceholder = e.isPlaceholder := by
  cases e <;> simp [Expr.relocate, Expr.isPlaceholder]

theorem Expr.relocate_withSpan (s : Span) (e : Expr) :
    (e.withSpan s).relocate f = (e.relocate f).withSpan (f s) := by
  cases e <;> simp [Expr.relocate, Expr.withSpan]

end

def Expr.erase (e : Expr) : Expr := e.relocate fun _ => .origin

def Pattern.erase (p : Pattern) : Pattern := p.relocate fun _ => .origin

def Segment.erase (s : Segment) : Segment := s.relocate fun _ => .origin

def Binding.erase (b : Binding) : Binding := b.relocate fun _ => .origin

def Stage.erase (s : Stage) : Stage := s.relocate fun _ => .origin

def Branch.erase (b : Branch) : Branch := b.relocate fun _ => .origin

def Clause.erase (c : Clause) : Clause := c.relocate fun _ => .origin

def Catch.erase (c : Catch) : Catch := c.relocate fun _ => .origin

def Statement.erase (s : Statement) : Statement := s.relocate fun _ => .origin

/-- The tree without its spans. -/
def Program.erase (p : Program) : Program := p.relocate fun _ => .origin

end PipeLang
