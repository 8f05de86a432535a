import PipeLang.Tree.Basic

/-! What a tree says, read off in source order: its names, numbers and texts, and its operators, each
between its operands. -/

namespace PipeLang

inductive Item
  | name (text : String)
  /-- A key of a record pattern that binds the field to its own name. -/
  | ownKey (text : String)
  /-- What stands before this is a name that is defined by what comes after. -/
  | defined
  | number (value : Number)
  | literal (text : String)
  | operator (op : Operator)
  deriving DecidableEq

def Literal.contents : Literal → List Item
  | .number value => [.number value]
  | .text value => if value = "" then [] else [.literal value]
  | .bool _ | .nil => []

def PatternField.contents (f : PatternField) : List Item :=
  match f.use with
  | .bind name => if name = f.key.text then [.ownKey name] else [.name f.key.text, .name name]
  | .ignore => [.name f.key.text]
  | .compare value => .name f.key.text :: value.contents

def Pattern.contents : Pattern → List Item
  | .record _ fields => fields.flatMap PatternField.contents
  | .literal _ value => value.contents
  | .bind _ name => [.name name]
  | .wildcard _ | .otherwise _ => []

def Name.item (n : Name) : Item := .name n.text

mutual

def Expr.contents : Expr → List Item
  | .ident _ name => [.name name]
  | .wildcard _ path => path.map .name
  | .number _ value => [.number value]
  | .text _ segments => segmentContents segments
  | .bool .. | .nil _ | .error _ => []
  | .record _ fields => fieldContents fields
  | .list _ items => exprContents items
  | .function _ params body => params.map Name.item ++ body.contents
  | .apply _ (.ident _ name) [l, r] =>
    match Operator.ofSpelling? name with
    | some op => l.contents ++ .operator op :: r.contents
    | none => .name name :: (l.contents ++ r.contents)
  | .apply _ callee args => callee.contents ++ exprContents args
  | .access _ target field => target.contents ++ [field.item]
  | .pipeline _ seed stages => seed.contents ++ stageContents stages
  | .letIn _ bindings body => definitionContents bindings ++ body.contents
  | .ifElse _ branches fallback => branchContents branches ++ fallback.contents
  | .matchOn _ subject clauses => subject.contents ++ clauseContents clauses
  | .tryCatch _ body catches => body.contents ++ catchContents catches

def exprContents : List Expr → List Item
  | [] => []
  | e :: rest => e.contents ++ exprContents rest

def segmentContents : List Segment → List Item
  | [] => []
  | .literal text :: rest => .literal text :: segmentContents rest
  | .hole e :: rest => e.contents ++ segmentContents rest

def fieldContents : List Binding → List Item
  | [] => []
  | ⟨key, value⟩ :: rest => key.item :: (value.contents ++ fieldContents rest)

def definitionContents : List Binding → List Item
  | [] => []
  | ⟨name, value⟩ :: rest => name.item :: .defined :: (value.contents ++ definitionContents rest)

def stageContents : List Stage → List Item
  | [] => []
  | ⟨_, callee, args⟩ :: rest => callee.contents ++ exprContents args ++ stageContents rest

def branchContents : List Branch → List Item
  | [] => []
  | ⟨condition, result⟩ :: rest => condition.contents ++ result.contents ++ branchContents rest

def clauseContents : List Clause → List Item
  | [] => []
  | ⟨_, pattern, none, result⟩ :: rest =>
    pattern.contents ++ result.contents ++ clauseContents rest
  | ⟨_, pattern, some guard, result⟩ :: rest =>
    pattern.contents ++ guard.contents ++ result.contents ++ clauseContents rest

def catchContents : List Catch → List Item
  | [] => []
  | ⟨_, tag, binding, handler⟩ :: rest =>
    tag.toList.map Name.item ++ binding.toList.map Name.item ++ handler.contents ++ catchContents rest

end

def Statement.contents : Statement → List Item
  | .assign _ name value => name.item :: .defined :: value.contents
  | .expr _ value => value.contents
  | .error _ => []

def Program.contents (p : Program) : List Item := p.statements.flatMap Statement.contents

theorem exprContents_append (es fs : List Expr) :
    exprContents (es ++ fs) = exprContents es ++ exprContents fs := by
  induction es with
  | nil => rfl
  | cons e es ih => simp [exprContents, ih]

theorem fieldContents_append (bs cs : List Binding) :
    fieldContents (bs ++ cs) = fieldContents bs ++ fieldContents cs := by
  induction bs with
  | nil => rfl
  | cons b bs ih => cases b; simp [fieldContents, ih]

theorem definitionContents_append (bs cs : List Binding) :
    definitionContents (bs ++ cs) = definitionContents bs ++ definitionContents cs := by
  induction bs with
  | nil => rfl
  | cons b bs ih => cases b; simp [definitionContents, ih]

theorem stageContents_append (gs hs : List Stage) :
    stageContents (gs ++ hs) = stageContents gs ++ stageContents hs := by
  induction gs with
  | nil => rfl
  | cons g gs ih => cases g; simp [stageContents, ih]

theorem branchContents_append (bs cs : List Branch) :
    branchContents (bs ++ cs) = branchContents bs ++ branchContents cs := by
  induction bs with
  | nil => rfl
  | cons b bs ih => cases b; simp [branchContents, ih]

theorem clauseContents_append (cs ds : List Clause) :
    clauseContents (cs ++ ds) = clauseContents cs ++ clauseContents ds := by
  induction cs with
  | nil => rfl
  | cons c cs ih =>
    obtain ⟨s, p, g, e⟩ := c
    cases g <;> simp [clauseContents, ih]

theorem catchContents_append (cs ds : List Catch) :
    catchContents (cs ++ ds) = catchContents cs ++ catchContents ds := by
  induction cs with
  | nil => rfl
  | cons c cs ih => cases c; simp [catchContents, ih]

@[simp] theorem Expr.contents_withSpan (s : Span) (e : Expr) : (e.withSpan s).contents = e.contents := by
  cases e with
  | apply t callee args =>
    cases callee with
    | ident =>
      match args with
      | [_, _] | [] | [_] | _ :: _ :: _ :: _ => simp [Expr.withSpan, Expr.contents]
    | _ => simp [Expr.withSpan, Expr.contents]
  | _ => rfl

/-- An application that is no binary expression. -/
theorem Expr.contents_apply {callee : Expr}
    (h : ∀ s name, callee = .ident s name → Operator.ofSpelling? name = none) (s : Span) (args : List Expr) :
    (Expr.apply s callee args).contents = callee.contents ++ exprContents args := by
  cases callee with
  | ident t name =>
    have hname := h t name rfl
    match args with
    | [l, r] => simp [Expr.contents, exprContents, hname]
    | [] | [_] | _ :: _ :: _ :: _ => simp [Expr.contents, exprContents]
  | _ => simp [Expr.contents]

end PipeLang
