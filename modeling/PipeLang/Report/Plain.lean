import PipeLang.Diagnostic.Basic
import PipeLang.Text.Lines

/-! A diagnostic as text: what went wrong and where, the line it starts on with carets under the span,
then labels, notes and hints. -/

namespace PipeLang.Report

def blanks (n : Nat) : String := String.ofList (List.replicate n ' ')

/-- How many of the characters begin within the first `bytes` bytes. -/
def charsWithin : Nat → List Char → Nat
  | 0, _ => 0
  | _, [] => 0
  | bytes + 1, c :: cs => charsWithin (bytes + 1 - c.utf8Size) cs + 1

/-- The carets under a span that starts at a column of a line: clipped to the line, but at least one. -/
def caretCount (line : List Char) (column bytes : Nat) : Nat :=
  max 1 (charsWithin bytes (line.drop (column - 1)))

def header (d : Diagnostic) : String :=
  d.failure.title ++ "[" ++ d.failure.code ++ "]: " ++ d.display

def location (name : String) (line column : Nat) : String :=
  name ++ ":" ++ toString line ++ ":" ++ toString column

def plainLines (name source : String) (d : Diagnostic) : List String :=
  let line := max 1 d.span.line
  let column := max 1 d.span.column
  let text := lineAt source line
  let number := toString line
  let gutter := blanks number.length
  let carets := String.ofList (List.replicate (caretCount text column d.span.length) '^')
  [header d,
    "  --> " ++ location name line column,
    gutter ++ " |",
    number ++ " | " ++ String.ofList text,
    gutter ++ " | " ++ blanks (column - 1) ++ carets] ++
    (d.labels.map fun (span, label) =>
      gutter ++ " = " ++ label ++ ": " ++ location name span.line span.column) ++
    (d.notes.map fun note => gutter ++ " = note: " ++ note) ++
    (d.hints.map fun hint => gutter ++ " = hint: " ++ hint)

def plain (name source : String) (d : Diagnostic) : String :=
  String.join ((plainLines name source d).map (· ++ "\n"))

end PipeLang.Report
