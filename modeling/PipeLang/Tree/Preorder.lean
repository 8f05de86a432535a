import PipeLang.Tree.Basic

/-! All expressions inside an expression, each before its parts and with its depth. -/

namespace PipeLang

mutual

def Expr.preorder (depth : Nat) : Expr → List (Nat × Expr)
  | .ident s name => [(depth, .ident s name)]
  | .wildcard s path => [(depth, .wildcard s path)]
  | .number s value => [(depth, .number s value)]
  | .text s segments => (depth, .text s segments) :: segmentsPreorder (depth + 1) segments
  | .bool s value => [(depth, .bool s value)]
  | .nil s => [(depth, .nil s)]
  | .record s fields => (depth, .record s fields) :: bindingsPreorder (depth + 1) fields
  | .list s items => (depth, .list s items) :: exprsPreorder (depth + 1) items
  | .function s params body => (depth, .function s params body) :: body.preorder (depth + 1)
  | .apply s callee args =>
    (depth, .apply s callee args) :: (callee.preorder (depth + 1) ++ exprsPreorder (depth + 1) args)
  | .access s target field => (depth, .access s target field) :: target.preorder (depth + 1)
  | .pipeline s seed stages =>
    (depth, .pipeline s seed stages) ::
      (seed.preorder (depth + 1) ++ stagesPreorder (depth + 1) stages)
  | .letIn s bindings body =>
    (depth, .letIn s bindings body) ::
      (bindingsPreorder (depth + 1) bindings ++ body.preorder (depth + 1))
  | .ifElse s branches fallback =>
    (depth, .ifElse s branches fallback) ::
      (branchesPreorder (depth + 1) branches ++ fallback.preorder (depth + 1))
  | .matchOn s subject clauses =>
    (depth, .matchOn s subject clauses) ::
      (subject.preorder (depth + 1) ++ clausesPreorder (depth + 1) clauses)
  | .tryCatch s body catches =>
    (depth, .tryCatch s body catches) ::
      (body.preorder (depth + 1) ++ catchesPreorder (depth + 1) catches)
  | .error s => [(depth, .error s)]

def exprsPreorder (depth : Nat) : List Expr → List (Nat × Expr)
  | [] => []
  | e :: rest => e.preorder depth ++ exprsPreorder depth rest

def segmentsPreorder (depth : Nat) : List Segment → List (Nat × Expr)
  | [] => []
  | .literal _ :: rest => segmentsPreorder depth rest
  | .hole e :: rest => e.preorder depth ++ segmentsPreorder depth rest

def bindingsPreorder (depth : Nat) : List Binding → List (Nat × Expr)
  | [] => []
  | ⟨_, value⟩ :: rest => value.preorder depth ++ bindingsPreorder depth rest

def stagesPreorder (depth : Nat) : List Stage → List (Nat × Expr)
  | [] => []
  | ⟨_, callee, args⟩ :: rest =>
    callee.preorder depth ++ exprsPreorder depth args ++ stagesPreorder depth rest

def branchesPreorder (depth : Nat) : List Branch → List (Nat × Expr)
  | [] => []
  | ⟨condition, result⟩ :: rest =>
    condition.preorder depth ++ result.preorder depth ++ branchesPreorder depth rest

def clausesPreorder (depth : Nat) : List Clause → List (Nat × Expr)
  | [] => []
  | ⟨_, _, none, result⟩ :: rest => result.preorder depth ++ clausesPreorder depth rest
  | ⟨_, _, some guard, result⟩ :: rest =>
    guard.preorder depth ++ result.preorder depth ++ clausesPreorder depth rest

def catchesPreorder (depth : Nat) : List Catch → List (Nat × Expr)
  | [] => []
  | ⟨_, _, _, handler⟩ :: rest => handler.preorder depth ++ catchesPreorder depth rest

end

theorem exprsPreorder_append (depth : Nat) (xs ys : List Expr) :
    exprsPreorder depth (xs ++ ys) = exprsPreorder depth xs ++ exprsPreorder depth ys := by
  induction xs with
  | nil => simp [exprsPreorder]
  | cons x xs ih => simp [exprsPreorder, ih]

theorem segmentsPreorder_eq (depth : Nat) (segments : List Segment) :
    segmentsPreorder depth segments = exprsPreorder depth (segments.flatMap Segment.exprs) := by
  induction segments with
  | nil => simp [segmentsPreorder, exprsPreorder]
  | cons s rest ih => cases s <;> simp [segmentsPreorder, exprsPreorder, Segment.exprs, ih]

theorem bindingsPreorder_eq (depth : Nat) (bindings : List Binding) :
    bindingsPreorder depth bindings = exprsPreorder depth (bindings.map Binding.value) := by
  induction bindings with
  | nil => simp [bindingsPreorder, exprsPreorder]
  | cons b rest ih => cases b; simp [bindingsPreorder, exprsPreorder, ih]

theorem stagesPreorder_eq (depth : Nat) (stages : List Stage) :
    stagesPreorder depth stages =
      exprsPreorder depth (stages.flatMap fun s => s.callee :: s.args) := by
  induction stages with
  | nil => simp [stagesPreorder, exprsPreorder]
  | cons s rest ih => cases s; simp [stagesPreorder, exprsPreorder, exprsPreorder_append, ih]

theorem branchesPreorder_eq (depth : Nat) (branches : List Branch) :
    branchesPreorder depth branches =
      exprsPreorder depth (branches.flatMap fun b => [b.condition, b.result]) := by
  induction branches with
  | nil => simp [branchesPreorder, exprsPreorder]
  | cons b rest ih => cases b; simp [branchesPreorder, exprsPreorder, ih]

theorem clausesPreorder_eq (depth : Nat) (clauses : List Clause) :
    clausesPreorder depth clauses =
      exprsPreorder depth (clauses.flatMap fun c => c.guard.toList ++ [c.result]) := by
  induction clauses with
  | nil => simp [clausesPreorder, exprsPreorder]
  | cons c rest ih =>
    obtain ⟨_, _, guard, _⟩ := c
    cases guard <;> simp [clausesPreorder, exprsPreorder, ih]

theorem catchesPreorder_eq (depth : Nat) (catches : List Catch) :
    catchesPreorder depth catches = exprsPreorder depth (catches.map Catch.handler) := by
  induction catches with
  | nil => simp [catchesPreorder, exprsPreorder]
  | cons c rest ih => cases c; simp [catchesPreorder, exprsPreorder, ih]

/-- An expression comes before its children, which follow one after the other a level deeper. -/
theorem Expr.preorder_eq (depth : Nat) (e : Expr) :
    e.preorder depth = (depth, e) :: exprsPreorder (depth + 1) e.children := by
  cases e <;>
    simp [Expr.preorder, Expr.children, exprsPreorder, exprsPreorder_append, segmentsPreorder_eq,
      bindingsPreorder_eq, stagesPreorder_eq, branchesPreorder_eq, clausesPreorder_eq,
      catchesPreorder_eq]

end PipeLang
