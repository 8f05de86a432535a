import PipeLang.Number.Rounding

/-! Decimals and the magnitudes they round to. -/

namespace PipeLang

structure Decimal where
  digits : Nat
  exponent : Int
  deriving DecidableEq

def digitsValue (cs : List Char) : Nat := Nat.ofDigitChars 10 cs 0

theorem digitsValue_toDigits (n : Nat) : digitsValue (Nat.toDigits 10 n) = n :=
  Nat.ofDigitChars_toDigits (by decide) (by decide)

namespace Decimal

def magnitude (d : Decimal) : Magnitude :=
  if d.exponent < 0 then .ofRatio d.digits (Nat.pow 10 (-d.exponent).toNat)
  else .ofRatio (d.digits * Nat.pow 10 d.exponent.toNat) 1

def ofPlaces (whole fraction : List Char) : Decimal :=
  ⟨digitsValue (whole ++ fraction), -fraction.length⟩

/-- Digits without an exponent. A value below one starts with a zero, and no zero ends the fraction. -/
def text (d : Decimal) : String :=
  if d.exponent < 0 then
    let places := (-d.exponent).toNat
    let fraction := Nat.toDigits 10 (d.digits % Nat.pow 10 places)
    let padded := List.replicate (places - fraction.length) '0' ++ fraction
    let kept := (padded.reverse.dropWhile (· == '0')).reverse
    let whole := Nat.toDigits 10 (d.digits / Nat.pow 10 places)
    String.ofList (if kept.isEmpty then whole else whole ++ '.' :: kept)
  else String.ofList (Nat.toDigits 10 (d.digits * Nat.pow 10 d.exponent.toNat))

end Decimal

namespace Number

def ofLiteral (whole fraction : List Char) : Number :=
  ⟨false, (Decimal.ofPlaces whole fraction).magnitude⟩

end Number

end PipeLang
