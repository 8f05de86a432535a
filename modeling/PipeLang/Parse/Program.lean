import PipeLang.Parse.Primary
import PipeLang.Tree.Keys
import PipeLang.Tree.Resolve

/-! Whole programs and fragments. A statement that cannot be read ends a strict run. A best-effort run
marks it, goes on at the next line of the outermost level, and so reports every error. -/

namespace PipeLang.Parse

section

variable (o : ParseOptions)

def rootPrimary : Primary := primary o o.maxDepth

def rootExpression : Parse Expr := expression o (rootPrimary o) o.maxDepth

def statement : Parse Statement := do
  if ← test Cursor.atDefinition then
    let d ← definition o (rootPrimary o) o.maxDepth
    pure (.assign (d.name.span.merge d.value.span) d.name d.value)
  else
    let e ← rootExpression o
    pure (.expr e.span e)

/-- A statement ends with its line, with the text, or with the block it closed. -/
def endOfStatement : Parse Unit := do
  if ← accept Cursor.atNewline then pure ()
  else if ← test fun c => c.atEnd || c.afterDedent then pure ()
  else unexpected .afterStatement [.newline, .endOfInput]

def statementLine : Parse Statement := do
  let s ← statement o
  endOfStatement
  pure s

end

def settled (c : Cursor) : Cursor :=
  (c.skipWhile TokenKind.isNewline).skipWhile TokenKind.isDedent

/-- Drops tokens until a line or a block ends on the outermost level and no layout token follows. -/
def seekLine : Int → List Token → List Token → List Token × List Token
  | _, before, [] => (before, [])
  | level, before, t :: rest =>
    if t.kind.isEof then (before, t :: rest)
    else
      let level := level + t.kind.levelChange
      let following := (rest.head?.getD t).kind
      if level ≤ 0 && (t.kind.isNewline || t.kind.isDedent) &&
          !(following.isIndent || following.isDedent) then (t :: before, rest)
      else seekLine level (t :: before) rest

/-- The start of the next statement of the outermost level. -/
def synchronize (c : Cursor) : Cursor :=
  let (before, rest) := seekLine c.level c.before c.rest
  { c with before, rest }

def statementsUpTo (o : ParseOptions) : Nat → Cursor → List Statement × Cursor
  | 0, c => ([], c)
  | n + 1, c =>
    let c := settled c
    if c.atEnd then ([], c)
    else
      match statementLine o c, o.mode with
      | .ok s after, _ =>
        let (rest, last) := statementsUpTo o n after
        (s :: rest, last)
      | .error d after, .strict => ([], after.record d)
      | .error d after, .bestEffort =>
        let resumed := synchronize (after.record d)
        let (rest, last) := statementsUpTo o n resumed
        (.error (c.spanSince resumed) :: rest, last)

/-- All statements, and the errors in the order they were met. -/
def run (o : ParseOptions) (tokens : List Token) : Program × List Diagnostic :=
  let (statements, c) := statementsUpTo o (tokens.length + 1) (.ofTokens tokens)
  (.ofStatements statements, c.errors.reverse)

theorem run_statements (o : ParseOptions) (tokens : List Token) :
    (run o tokens).1.statements = (statementsUpTo o (tokens.length + 1) (.ofTokens tokens)).1 :=
  Program.statements_ofStatements _

end PipeLang.Parse

namespace PipeLang

namespace Program

def desugar (o : ParseOptions) (p : Program) : Program :=
  if o.resolvePipelines then p.resolve else p

/-- The tree once its record literals are in order. -/
def finish (o : ParseOptions) (p : Program) : Except (List Diagnostic) Program :=
  if p.keyErrors.isEmpty then .ok (p.desugar o) else .error p.keyErrors

end Program

def Expr.finish (o : ParseOptions) (e : Expr) : Except (List Diagnostic) Expr :=
  if e.keyErrors.isEmpty then .ok (if o.resolvePipelines then e.resolve else e)
  else .error e.keyErrors

/-- A program, or else the errors met. -/
def parse (o : ParseOptions) (tokens : List Token) : Except (List Diagnostic) Program :=
  let (p, errors) := Parse.run o tokens
  if errors.isEmpty then p.finish o else .error errors

/-- A program is what a run without errors has read, if its keys are in order. -/
theorem parse_eq_ok {o : ParseOptions} {tokens : List Token} {p : Program} : parse o tokens = .ok p ↔
    (Parse.run o tokens).2 = [] ∧ (Parse.run o tokens).1.keyErrors = [] ∧
      (Parse.run o tokens).1.desugar o = p := by
  unfold parse Program.finish
  dsimp only
  split
  · next hquiet =>
    rw [List.isEmpty_iff] at hquiet
    split
    · next hkeys =>
      rw [List.isEmpty_iff] at hkeys
      simp [hquiet, hkeys]
    · next hkeys =>
      rw [List.isEmpty_iff] at hkeys
      simp [hkeys]
  · next hquiet =>
    rw [List.isEmpty_iff] at hquiet
    simp [hquiet]

/-- Errors are those of the run, or else those about the keys that it read. -/
theorem errors_of_parse {o : ParseOptions} {tokens : List Token} {ds : List Diagnostic}
    (h : parse o tokens = .error ds) : ds ≠ [] ∧ (ds = (Parse.run o tokens).2 ∨
      (Parse.run o tokens).2 = [] ∧ ds = (Parse.run o tokens).1.keyErrors) := by
  unfold parse Program.finish at h
  dsimp only at h
  split at h
  · next hquiet =>
    rw [List.isEmpty_iff] at hquiet
    split at h
    · cases h
    · next hkeys =>
      rw [List.isEmpty_iff] at hkeys
      cases h
      exact ⟨hkeys, .inr ⟨hquiet, rfl⟩⟩
  · next hquiet =>
    rw [List.isEmpty_iff] at hquiet
    cases h
    exact ⟨hquiet, .inl rfl⟩

/-- As much of a program as can be read, and all errors. -/
def parseBestEffort (o : ParseOptions) (tokens : List Token) : Program × List Diagnostic :=
  let o := { o with mode := .bestEffort }
  let (p, errors) := Parse.run o tokens
  (p.desugar o, errors ++ p.keyErrors)

end PipeLang
