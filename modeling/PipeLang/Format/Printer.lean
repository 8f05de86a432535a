import PipeLang.Format.Placement
import PipeLang.Tree.Dump

/-! Expressions and patterns as source text on one line. -/

namespace PipeLang.Format

def braces (text : String) : String := "\x7b" ++ text ++ "\x7d"

/-- A field that binds its own key is written once. -/
def patternField (f : PatternField) : String :=
  match f.use with
  | .bind name => if name = f.key.text then f.key.text else f.key.text ++ ": " ++ name
  | .compare value => f.key.text ++ ": " ++ value.dump
  | .ignore => f.key.text ++ ": _"

def pattern : Pattern → String
  | .record _ fields => braces (joined (fields.map patternField))
  | .literal _ value => value.dump
  | .bind _ name => name
  | .wildcard _ => "_"
  | .otherwise _ => "otherwise"

def definitionHead (name : Name) (params : List Name) : String :=
  joined (name.text :: params.map Name.text) ++ " = "

def catchNames (tag binding : Option Name) : String :=
  spaced ((tag.toList ++ binding.toList).map Name.text)

def branchChain : List String → String
  | [] => ""
  | first :: rest => "if " ++ first ++ String.join (rest.map (" elif " ++ ·))

mutual

/-- An expression without parentheses around it. -/
def bare : Expr → String
  | .ident _ name => name
  | .wildcard _ path => ".".intercalate ("_" :: path)
  | .number _ value => value.text
  | .text _ segments => "\"" ++ segmentsText segments ++ "\""
  | .bool _ value => boolWord value
  | .nil _ => "nil"
  | .record _ fields => braces (joined (fieldTexts fields))
  | .list _ items => "[" ++ joined (placeItems (withTexts items)) ++ "]"
  | .function _ params body => "[" ++ joined (params.map Name.text) ++ " -> " ++ bare body ++ "]"
  | .apply s callee args =>
    applicationText (Expr.apply s callee args).operator? (callee, bare callee) (withTexts args)
  | .access _ target field => placeTarget target (bare target) ++ "." ++ field.text
  | .pipeline _ seed stages =>
    place .seed seed (bare seed) ++ String.join ((stageTexts stages).map (" |> " ++ ·))
  | .letIn _ bindings body =>
    "let " ++ "; ".intercalate (definitionTexts bindings) ++ " in " ++ bare body
  | .ifElse _ branches fallback => branchChain (branchTexts branches) ++ " else " ++ bare fallback
  | .matchOn _ subject clauses =>
    "match " ++ place .clause subject (bare subject) ++ clausesText clauses
  | .tryCatch _ body catches => "try " ++ place .clause body (bare body) ++ catchesText catches
  | .error _ => "<error>"

def withTexts : List Expr → List (Expr × String)
  | [] => []
  | e :: rest => (e, bare e) :: withTexts rest

def segmentsText : List Segment → String
  | [] => ""
  | .literal text :: rest => escape text ++ segmentsText rest
  | .hole e :: rest => braces (bare e) ++ segmentsText rest

def fieldTexts : List Binding → List String
  | [] => []
  | ⟨key, value⟩ :: rest =>
    (key.text ++ ": " ++ place .clause value (bare value)) :: fieldTexts rest

/-- Local definitions; the parameters of a function go to the left of the equals sign. -/
def definitionTexts : List Binding → List String
  | [] => []
  | ⟨name, .function _ params body⟩ :: rest =>
    (definitionHead name params ++ place .clause body (bare body)) :: definitionTexts rest
  | ⟨name, value⟩ :: rest =>
    (definitionHead name [] ++ place .clause value (bare value)) :: definitionTexts rest

def stageTexts : List Stage → List String
  | [] => []
  | ⟨_, callee, args⟩ :: rest =>
    joined (place .argument callee (bare callee) ::
      placeItems (writtenArguments (withTexts args))) :: stageTexts rest

def branchTexts : List Branch → List String
  | [] => []
  | ⟨condition, result⟩ :: rest =>
    (place .clause condition (bare condition) ++ " then " ++ place .clause result (bare result)) ::
      branchTexts rest

/-- The result of the last clause ends the construct, that of any other is followed by a clause. -/
def clausesText : List Clause → String
  | [] => ""
  | ⟨_, p, none, result⟩ :: rest =>
    " | " ++ pattern p ++ " -> " ++
      (if rest.isEmpty then bare result else place .clause result (bare result)) ++
      clausesText rest
  | ⟨_, p, some guard, result⟩ :: rest =>
    " | " ++ pattern p ++ " when " ++ place .clause guard (bare guard) ++ " -> " ++
      (if rest.isEmpty then bare result else place .clause result (bare result)) ++
      clausesText rest

def catchesText : List Catch → String
  | [] => ""
  | ⟨_, tag, binding, handler⟩ :: rest =>
    " catch" ++ catchNames tag binding ++ " -> " ++
      (if rest.isEmpty then bare handler else place .clause handler (bare handler)) ++
      catchesText rest

end

theorem withTexts_eq_map (es : List Expr) : withTexts es = es.map fun e => (e, bare e) := by
  induction es with
  | nil => simp [withTexts]
  | cons e rest ih => simp [withTexts, ih]

end PipeLang.Format
