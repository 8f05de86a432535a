import PipeLang.Tree.Basic

/-! Pipelines rewired into nested applications. The value of the seed flows through the stages: in each
it takes the place of the first bare placeholder among the arguments, or goes first when there is
none. -/

namespace PipeLang

def mergeSpans (span : Span) (args : List Expr) : Span :=
  args.foldl (fun s a => s.merge a.span) span

mutual

def Expr.resolve : Expr → Expr
  | .ident s name => .ident s name
  | .wildcard s path => .wildcard s path
  | .number s value => .number s value
  | .text s segments => .text s (resolveSegments segments)
  | .bool s value => .bool s value
  | .nil s => .nil s
  | .record s fields => .record s (resolveBindings fields)
  | .list s items => .list s (resolveExprs items)
  | .function s params body => .function s params body.resolve
  | .apply s callee args => .apply s callee.resolve (resolveExprs args)
  | .access s target field => .access s target.resolve field
  | .pipeline _ seed stages => resolveStages seed.resolve stages
  | .letIn s bindings body => .letIn s (resolveBindings bindings) body.resolve
  | .ifElse s branches fallback => .ifElse s (resolveBranches branches) fallback.resolve
  | .matchOn s subject clauses => .matchOn s subject.resolve (resolveClauses clauses)
  | .tryCatch s body catches => .tryCatch s body.resolve (resolveCatches catches)
  | .error s => .error s

/-- The application that `value` ends up in after it has flowed through the stages. -/
def resolveStages (value : Expr) : List Stage → Expr
  | [] => value
  | ⟨span, callee, args⟩ :: rest =>
    let filled := (fillPlaceholder value args).getD (value :: resolveExprs args)
    resolveStages (.apply (mergeSpans (span.merge callee.span) filled) callee.resolve filled) rest

/-- The arguments with `value` in place of the first bare placeholder; none if there is no such
argument. -/
def fillPlaceholder (value : Expr) : List Expr → Option (List Expr)
  | [] => none
  | a :: rest =>
    if a.isPlaceholder then some (value :: resolveExprs rest)
    else (fillPlaceholder value rest).map (a.resolve :: ·)

def resolveExprs : List Expr → List Expr
  | [] => []
  | e :: rest => e.resolve :: resolveExprs rest

def resolveSegments : List Segment → List Segment
  | [] => []
  | .literal text :: rest => .literal text :: resolveSegments rest
  | .hole e :: rest => .hole e.resolve :: resolveSegments rest

def resolveBindings : List Binding → List Binding
  | [] => []
  | ⟨name, value⟩ :: rest => ⟨name, value.resolve⟩ :: resolveBindings rest

def resolveBranches : List Branch → List Branch
  | [] => []
  | ⟨condition, result⟩ :: rest => ⟨condition.resolve, result.resolve⟩ :: resolveBranches rest

def resolveClauses : List Clause → List Clause
  | [] => []
  | ⟨s, pattern, none, result⟩ :: rest =>
    ⟨s, pattern, none, result.resolve⟩ :: resolveClauses rest
  | ⟨s, pattern, some guard, result⟩ :: rest =>
    ⟨s, pattern, some guard.resolve, result.resolve⟩ :: resolveClauses rest

def resolveCatches : List Catch → List Catch
  | [] => []
  | ⟨s, tag, binding, handler⟩ :: rest => ⟨s, tag, binding, handler.resolve⟩ :: resolveCatches rest

end

def Program.resolve (p : Program) : Program :=
  { p with statements := p.statements.map fun s => s.mapValue Expr.resolve }

theorem resolveExprs_eq_map (es : List Expr) : resolveExprs es = es.map Expr.resolve := by
  induction es with
  | nil => simp [resolveExprs]
  | cons e rest ih => simp [resolveExprs, ih]

def Segment.resolve : Segment → Segment
  | .literal text => .literal text
  | .hole e => .hole e.resolve

def Binding.resolve (b : Binding) : Binding := { b with value := b.value.resolve }

def Branch.resolve (b : Branch) : Branch := ⟨b.condition.resolve, b.result.resolve⟩

def Clause.resolve (c : Clause) : Clause :=
  { c with guard := c.guard.map Expr.resolve, result := c.result.resolve }

def Catch.resolve (c : Catch) : Catch := { c with handler := c.handler.resolve }

theorem resolveSegments_eq_map (segments : List Segment) :
    resolveSegments segments = segments.map Segment.resolve := by
  induction segments with
  | nil => simp [resolveSegments]
  | cons g rest ih => cases g <;> simp [resolveSegments, Segment.resolve, ih]

theorem resolveBindings_eq_map (bindings : List Binding) :
    resolveBindings bindings = bindings.map Binding.resolve := by
  induction bindings with
  | nil => simp [resolveBindings]
  | cons b rest ih => cases b; simp [resolveBindings, Binding.resolve, ih]

theorem resolveBranches_eq_map (branches : List Branch) :
    resolveBranches branches = branches.map Branch.resolve := by
  induction branches with
  | nil => simp [resolveBranches]
  | cons b rest ih => cases b; simp [resolveBranches, Branch.resolve, ih]

theorem resolveClauses_eq_map (clauses : List Clause) :
    resolveClauses clauses = clauses.map Clause.resolve := by
  induction clauses with
  | nil => simp [resolveClauses]
  | cons c rest ih =>
    obtain ⟨_, _, guard, _⟩ := c
    cases guard <;> simp [resolveClauses, Clause.resolve, ih]

theorem resolveCatches_eq_map (catches : List Catch) :
    resolveCatches catches = catches.map Catch.resolve := by
  induction catches with
  | nil => simp [resolveCatches]
  | cons c rest ih => cases c; simp [resolveCatches, Catch.resolve, ih]

end PipeLang
