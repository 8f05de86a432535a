import PipeLang.Format.Layout
import PipeLang.Parse.Program
import PipeLang.Scan.Lex
import PipeLang.Text.Lines

/-! Source text in its canonical form, and the lines in which a text differs from it. Comments are not
part of the tree and do not survive. -/

namespace PipeLang

inductive FormatError
  | unreadable (errors : List Diagnostic)
  | unparsed (errors : List Diagnostic)

namespace FormatError

def located (d : Diagnostic) : String :=
  toString d.span.line ++ ":" ++ toString d.span.column ++ ": " ++ d.display

def message : FormatError → String
  | unreadable errors => "Lexer error: " ++ "; ".intercalate (errors.map located)
  | unparsed errors => "Parser error: " ++ "; ".intercalate (errors.map located)

end FormatError

def format (config : FormatConfig) (source : String) : Except FormatError String :=
  match Scan.lex source with
  | .error errors => .error (.unreadable errors)
  | .ok tokens =>
    match parse {} tokens with
    | .error errors => .error (.unparsed errors)
    | .ok p => .ok (Format.program config p)

/-- Whether a text is in canonical form already. -/
def isFormatted (source : String) : Except FormatError Bool :=
  (fun text => source == text) <$> format {} source

namespace Diff

/-- A line number, right-aligned in four columns. -/
def lineNumber (n : Nat) : String :=
  let digits := toString n
  String.ofList (List.replicate (4 - digits.length) ' ') ++ digits

/-- A line that is taken away or added, by its sign. -/
def entry (sign : String) (n : Nat) : Option String → String
  | some line => sign ++ lineNumber n ++ " | " ++ line ++ "\n"
  | none => ""

/-- Where line `n` differs, the old one is taken away and the new one added. -/
def change (n : Nat) (old new : Option String) : String :=
  if old = new then "" else entry "-" n old ++ entry "+" n new

def text (old new : List String) : String :=
  String.join ((List.range (max old.length new.length)).map fun i =>
    change (i + 1) old[i]? new[i]?)

end Diff

/-- The differences between a text and its canonical form; none if there are none. -/
def formatDiff? (source : String) : Except FormatError (Option String) :=
  (fun text =>
    if source = text then none else some (Diff.text (lines source) (lines text))) <$>
    format {} source

end PipeLang
