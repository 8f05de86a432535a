import PipeLang.Parse.Application
import PipeLang.Parse.Layout

/-! Pipelines: a seed with stages on the same line, or one stage a line in an indented block. Every
stage ends up with exactly one bare placeholder. -/

namespace PipeLang.Parse

variable (o : ParseOptions) (primary : Primary)

/-- Arguments among which an operator belongs to the argument before it. The elements of a list are
read in the same way. -/
def stageArguments (budget : Nat) : Parse (List Expr) := do
  let args ← rounds (fun args => do
    if ← test Cursor.atArgument then
      let e ← operand o primary budget
      pure (.again (e :: args))
    else
      match ← test (Cursor.operator? 0), args with
      | some _, last :: others =>
        let e ← chain o primary budget last 0
        pure (.again (e :: others))
      | _, _ => pure (.done args)) []
  pure args.reverse

/-- A stage of `head` and `args`, widened over both; a placeholder that is not written goes first. -/
def stageOf (head : Expr) (args : List Expr) : Stage :=
  let args := if args.any Expr.isPlaceholder then args else .wildcard head.span [] :: args
  ⟨args.foldl (fun s a => s.merge a.span) head.span, head, args⟩

/-- A stage: a name, or a field of one, and its arguments with at most one bare placeholder. -/
def stage (budget : Nat) : Parse Stage := do
  if ← test Cursor.atIdent then
    let head ← operand o primary budget
    let args ← stageArguments o primary budget
    match args.filter Expr.isPlaceholder with
    | first :: second :: _ =>
      fail fun _ => Diagnostic.withLabel { cause := .secondPlaceholder, span := second.span }
        first.span "first placeholder here"
        |>.withExample (Punctuation.examples .underscore)
    | _ => pure (stageOf head args)
  else
    fail fun c => c.unexpected .stageStart [.identifier]
      |>.withNote "each stage starts with the name of the function it applies"
      |>.withExample (Punctuation.examples .pipe)

/-- The stages read so far, latest first, and the nesting budget for the next one. -/
structure Stages where
  budget : Nat
  stages : List Stage

/-- One more stage. It takes a level of nesting if the pipeline is to become nested applications. -/
def pushStage (s : Stages) : Parse Stages := do
  if o.resolvePipelines then
    match s.budget with
    | 0 => tooDeep o
    | budget + 1 =>
      let next ← stage o primary budget
      pure ⟨budget, next :: s.stages⟩
  else
    let next ← stage o primary s.budget
    pure ⟨s.budget, next :: s.stages⟩

def inlineStages : Stages → Parse Stages :=
  rounds fun s => do
    if ← accept (·.atPunctuation .pipe) then
      let s ← pushStage o primary s
      pure (.again s)
    else pure (.done s)

/-- One line of stages in a block, and the end of the block if that comes next. -/
def stageLine (s : Stages) : Parse (Round Stages) := do
  let s ← pushStage o primary s
  let s ← inlineStages o primary s
  if ← accept Cursor.atNewline then
    if ← accept Cursor.atDedent then pure (.done s)
    else if ← test (·.kind.isIndent) then
      fail fun c => (c.failure .unevenStages).withNote
        "a stage line cannot be indented deeper than the stage before it"
    else pure (.again s)
  else if ← accept Cursor.atDedent then pure (.done s)
  else unexpected .afterStage [.newline, .punctuation .pipe]

def allStages (budget : Nat) : Parse (List Stage) := do
  let s ← inlineStages o primary ⟨budget, []⟩
  if ← openBlock TokenKind.isIdent then
    let s ← rounds (stageLine o primary) s
    pure s.stages.reverse
  else pure s.stages.reverse

/-- A binary expression and the stages after it, if there are any. -/
def expression (budget : Nat) : Parse Expr := do
  let first ← application o primary budget
  let seed ← chain o primary budget first 0
  let stages ← allStages o primary budget
  match stages.getLast? with
  | some last => pure (.pipeline (seed.span.merge last.span) seed stages)
  | none => pure seed

end PipeLang.Parse
