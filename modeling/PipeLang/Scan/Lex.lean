import PipeLang.Scan.Step

/-! Reading a whole text into tokens. The state after two texts is the state after the second, run from
the state after the first, so what is said of one step carries over to all texts. -/

namespace PipeLang.Scan

namespace State

def run (inner : Option Inner) (s : State) (cs : List Char) : State := cs.foldl (step inner) s

@[simp] theorem run_nil (inner : Option Inner) (s : State) : s.run inner [] = s := rfl

@[simp] theorem run_cons (inner : Option Inner) (s : State) (c : Char) (cs : List Char) :
    s.run inner (c :: cs) = (s.step inner c).run inner cs := rfl

theorem run_append (inner : Option Inner) (s : State) (cs ds : List Char) :
    s.run inner (cs ++ ds) = (s.run inner cs).run inner ds := by
  simp [run, List.foldl_append]

def emitEof (s : State) : State := s.emit s.position .eof

/-- The end of a whole text ends its last line, unless that has shown no token, and every block. -/
def finish (s : State) : State :=
  if s.mode.atLineStart then s.closeAll.emitEof
  else
    let t := s.settle
    (t.emit t.position .newline).closeAll.emitEof

def finishInside (s : State) : State := s.settle.emitEof

end State

/-- Reads the text of an interpolation in which others may nest `levels` deep. -/
def readInside : Nat → Inner
  | 0, p, cs =>
    let s := ((State.inside p).run none cs).finishInside
    (s.tokenList, s.errorList)
  | levels + 1, p, cs =>
    let s := ((State.inside p).run (some (readInside levels)) cs).finishInside
    (s.tokenList, s.errorList)

def inner? : Nat → Option Inner
  | 0 => none
  | levels + 1 => some (readInside levels)

def scan (cs : List Char) : State := State.initial.run (inner? nestingLimit) cs

/-- The tokens of a text, or else everything wrong with its characters. -/
def lex (source : String) : Except (List Diagnostic) (List Token) :=
  let s := (scan source.toList).finish
  if s.errors.isEmpty then .ok s.tokenList else .error s.errorList

theorem readInside_eq (levels : Nat) (p : Position) (cs : List Char) :
    readInside levels p cs =
      let s := ((State.inside p).run (inner? levels) cs).finishInside
      (s.tokenList, s.errorList) := by
  cases levels <;> rfl

theorem scan_append (cs ds : List Char) :
    scan (cs ++ ds) = (scan cs).run (inner? nestingLimit) ds :=
  State.run_append _ _ _ _

end PipeLang.Scan
