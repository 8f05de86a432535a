import PipeLang.Scan.Mode
import PipeLang.Diagnostic.Basic
import PipeLang.Number.Decimal

/-! The scanner's state. Tokens and errors are held latest first, frames and brackets innermost
first. -/

namespace PipeLang.Scan

structure State where
  mode : Mode
  /-- The position after the last character read. -/
  position : Position
  /-- The margins of the open indented blocks; the last one is the empty margin of the text itself. -/
  frames : List (List Char)
  /-- The open brackets; line ends mean nothing while there are any. -/
  brackets : List (Punctuation × Span)
  tokens : List Token
  errors : List Diagnostic

namespace State

/-- Before the first line of a text. -/
def initial : State := ⟨.margin ⟨.origin, []⟩, .origin, [[]], [], [], []⟩

/-- Before a text inside an interpolation, which has no lines of its own. -/
def inside (p : Position) : State := ⟨.ready, p, [[]], [], [], []⟩

/-- The state with `c` read and nothing done about it yet. -/
def past (s : State) (c : Char) : State := { s with position := s.position.advance c }

def become (s : State) (mode : Mode) : State := { s with mode }

/-- Adds a token that reaches from `start` to the current position. -/
def emit (s : State) (start : Position) (kind : TokenKind) : State :=
  { s with mode := .ready, tokens := ⟨kind, start.to s.position⟩ :: s.tokens }

def report (s : State) (d : Diagnostic) : State := { s with errors := d :: s.errors }

def fail (s : State) (start : Position) (cause : Cause) : State :=
  { s with mode := .ready, errors := { cause, span := start.to s.position } :: s.errors }

def openBracket (s : State) (start : Position) (b : Punctuation) : State :=
  { s with brackets := (b, start.to s.position) :: s.brackets }.emit start (.punctuation b)

/-- A closing bracket takes the innermost open one with it, whether or not the two match. -/
def closeBracket (s : State) (start : Position) (b : Punctuation) : State :=
  match s.brackets with
  | [] => (s.fail start (.unmatchedClosing b)).emit start (.punctuation b)
  | (o, span) :: outer =>
    let t := { s with brackets := outer }
    if o.closing? = some b then t.emit start (.punctuation b)
    else
      (t.report (Diagnostic.withLabel
        { cause := .mismatchedClosing b, span := start.to s.position }
        span ("`" ++ o.spelling ++ "` opened here"))).emit start (.punctuation b)

/-- A line feed ends the line unless a bracket is open. -/
def endLine (s : State) (start : Position) : State :=
  if s.brackets.isEmpty then
    (s.emit start .newline).become (.margin ⟨s.position, []⟩)
  else s.become .ready

def emitWord (s : State) (start : Position) (text : List Char) : State :=
  let name := String.ofList text.reverse
  s.emit start (match Keyword.ofSpelling? name with
    | some k => .keyword k
    | none => .ident name)

def emitNumber (s : State) (start : Position) (whole places : List Char) : State :=
  s.emit start (.number (.ofLiteral whole.reverse places.reverse))

def emitText (s : State) (q : Quoted) : State :=
  s.emit q.start (.text q.flush.parts.reverse)

/-- The literal ends where it stands, without its closing quote. -/
def cutText (s : State) (q : Quoted) : State :=
  (s.fail q.start .unterminatedString).emitText q

def tokenList (s : State) : List Token := s.tokens.reverse

def errorList (s : State) : List Diagnostic := s.errors.reverse

end State

end PipeLang.Scan
