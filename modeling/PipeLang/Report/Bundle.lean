import PipeLang.Report.Plain
import PipeLang.Parse.Program
import PipeLang.Scan.Lex

/-! All the diagnostics of one failed run, with the named text they point into. -/

namespace PipeLang

structure Bundle where
  name : String
  source : String
  errors : List Diagnostic

namespace Bundle

def message (b : Bundle) : String :=
  "could not parse `" ++ b.name ++ "`: " ++ toString b.errors.length ++ " error(s)"

def code? (b : Bundle) : Option String := b.errors.head?.map fun d => d.failure.code

def plain (b : Bundle) : List String := b.errors.map (Report.plain b.name b.source)

end Bundle

inductive Severity
  | advice | warning | error
  deriving DecidableEq

def Diagnostic.severity (_ : Diagnostic) : Severity := .error

/-- A span with its text; the primary one is where the diagnostic points. -/
structure Mark where
  isPrimary : Bool
  label : String
  span : Span

/-- The primary span, titled by the class of the failure, then the labels. -/
def Diagnostic.marks (d : Diagnostic) : List Mark :=
  ⟨true, d.failure.title, d.span⟩ :: d.labels.map fun (span, label) => ⟨false, label, span⟩

def parseSource (o : ParseOptions) (name source : String) : Except Bundle Program :=
  match Scan.lex source with
  | .error errors => .error ⟨name, source, errors⟩
  | .ok tokens =>
    match parse o tokens with
    | .error errors => .error ⟨name, source, errors⟩
    | .ok p => .ok p

end PipeLang
