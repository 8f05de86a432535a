import PipeLang.Format.Config
import PipeLang.Format.Printer

/-! Statements as lines. Only a pipeline that is the whole value of a statement may take more than one
line: one for the seed and one for each stage. -/

namespace PipeLang.Format

def stageLine (config : FormatConfig) (text : String) : String :=
  if text.isEmpty then "" else String.ofList (List.replicate config.indentWidth ' ') ++ text

/-- The value of a statement after what stands to its left on the same line. -/
def valueLines (config : FormatConfig) (lead : String) (e : Expr) : List String :=
  match e with
  | .pipeline _ seed stages =>
    let onOneLine := [lead ++ bare e]
    let onManyLines :=
      (lead ++ place .seed seed (bare seed)) :: (stageTexts stages).map (stageLine config)
    match config.layout with
    | .indented => onManyLines
    | .inline => onOneLine
    | .fit =>
      if config.lineLength < lead.length + (bare e).length then onManyLines else onOneLine
  | e => [lead ++ bare e]

def statementLines (config : FormatConfig) : Statement → List String
  | .assign _ name (.function _ params body) => valueLines config (definitionHead name params) body
  | .assign _ name value => valueLines config (definitionHead name []) value
  | .expr _ e => if startsLikeDefinition e then [parens (bare e)] else valueLines config "" e
  | .error _ => ["<error>"]

def programLines (config : FormatConfig) (p : Program) : List String :=
  p.statements.flatMap (statementLines config)

/-- Every line ends with a line feed. -/
def program (config : FormatConfig) (p : Program) : String :=
  String.join ((programLines config p).map (· ++ "\n"))

end PipeLang.Format
