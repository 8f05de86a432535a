import PipeLang.Scan.State

/-! The margin of a line against the margins of the enclosing blocks. It equals the innermost one, or
extends it and opens a block, or equals an outer one and closes the blocks inside it. Anything else
is reported and changes no block. -/

namespace PipeLang.Scan

def describeMargin (m : List Char) : String :=
  match m with
  | [] => "no indentation"
  | ['\t'] => "1 tab"
  | [_] => "1 space"
  | '\t' :: _ => toString m.length ++ " tabs"
  | _ => toString m.length ++ " spaces"

/-- Growth by two spaces or one tab opens a block. -/
def opensBlock (added : List Char) : Bool := added.head? == some '\t' || 2 ≤ added.length

namespace State

/-- Closes the blocks inside the margin `m`, at the position `here`. -/
def closeTo (s : State) (m : List Char) (here : Position) : State :=
  let closed := s.frames.takeWhile (· != m)
  { s with
    frames := s.frames.dropWhile (· != m)
    tokens := closed.map (fun _ => ⟨.dedent, here.to here⟩) ++ s.tokens }

/-- A line with the margin `m`, which begins at `start`, has shown its first token. -/
def settleMargin (s : State) (start : Position) (m : List Char) : State :=
  let top := s.frames.headD []
  let span := start.to (start.after m)
  if m = top then s
  else if ' ' ∈ m ∧ '\t' ∈ m then
    s.report (Diagnostic.withHint { cause := .mixedIndentation, span }
      "indent each line with only spaces or only tabs")
  else if top <+: m then
    if opensBlock (m.drop top.length) then
      { s with frames := m :: s.frames, tokens := ⟨.indent, span⟩ :: s.tokens }
    else
      s.report (Diagnostic.withNote { cause := .shallowIndentation, span }
        ("the enclosing level is " ++ describeMargin top))
  else if m ∈ s.frames then s.closeTo m (start.after m)
  else
    s.report (Diagnostic.withNote { cause := .unmatchedIndentation, span }
      ("enclosing levels: " ++ ", ".intercalate (s.frames.reverse.map describeMargin)))

/-- The line that begins with `m` shows its first token, after `m` itself or after comments. -/
def leaveMargin (s : State) (m : Margin) : State :=
  (s.settleMargin m.start m.blanks.reverse).become .ready

def closeAll (s : State) : State := s.closeTo [] s.position

end State

end PipeLang.Scan
