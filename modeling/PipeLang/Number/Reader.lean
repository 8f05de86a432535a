import PipeLang.Number.Decimal

/-! Numbers from free-standing text, wider than the literals of the language: a sign, an infinite or
undefined value by name, and a decimal with an optional point and exponent. -/

namespace PipeLang

namespace Number

def isSign (c : Char) : Bool := c == '+' || c == '-'

def splitSign : List Char → Bool × List Char
  | c :: cs => if isSign c then (c == '-', cs) else (false, c :: cs)
  | [] => (false, [])

/-- The exponent after an `e`, if nothing but digits follows its sign. -/
def exponent? : List Char → Option Int
  | [] => some 0
  | c :: cs =>
    let (minus, ds) := splitSign cs
    if (c == 'e' || c == 'E') && !ds.isEmpty && ds.all Char.isDigit then
      some (if minus then -(digitsValue ds : Int) else digitsValue ds)
    else none

/-- A decimal whose exponent may lie far outside the range of finite values. -/
def clampedMagnitude (d : Decimal) : Magnitude :=
  let size : Int := (Nat.toDigits 10 d.digits).length + d.exponent
  if d.digits = 0 ∨ size < -400 then .zero
  else if 400 < size then .infinite
  else d.magnitude

/-- Digits with an optional point among or around them, and an optional exponent. -/
def decimal? (cs : List Char) : Option Decimal :=
  let whole := cs.takeWhile Char.isDigit
  let rest := cs.dropWhile Char.isDigit
  let (fraction, rest) :=
    match rest with
    | '.' :: ds => (ds.takeWhile Char.isDigit, ds.dropWhile Char.isDigit)
    | _ => ([], rest)
  if whole.isEmpty && fraction.isEmpty then none
  else (exponent? rest).map fun e => ⟨digitsValue (whole ++ fraction), e - fraction.length⟩

def magnitude? (cs : List Char) : Option Magnitude :=
  let name := String.ofList (cs.map Char.toLower)
  if name == "inf" || name == "infinity" then some .infinite
  else if name == "nan" then some .undefined
  else (decimal? cs).map clampedMagnitude

def ofText? (s : String) : Option Number :=
  let (minus, cs) := splitSign s.toList
  (magnitude? cs).map fun m => ⟨minus, m⟩

end Number

end PipeLang
