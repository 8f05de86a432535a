/-! Numbers are binary64 values. A finite magnitude is held by its rank among the non-negative finite
values in increasing order; its value is a whole number of units of `2 ^ -1074`. -/

namespace PipeLang

namespace Magnitude

/-- How many finite magnitudes there are: 2047 exponents of `2 ^ 52` fractions each. -/
def finiteCount : Nat := 2047 * Nat.pow 2 52

end Magnitude

inductive Magnitude
  | finite (rank : Fin Magnitude.finiteCount)
  | infinite
  | undefined
  deriving DecidableEq

namespace Magnitude

def unitsPerOne : Nat := Nat.pow 2 1074

/-- The power of two that a step from this rank to the next one is worth, in units. -/
def scale (rank : Nat) : Nat := rank / Nat.pow 2 52 - 1

/-- The value of a rank in units of `2 ^ -1074`. -/
def units (rank : Nat) : Nat := (rank - scale rank * Nat.pow 2 52) * Nat.pow 2 (scale rank)

def zero : Magnitude := .finite ⟨0, by decide⟩

theorem units_of_lt {rank : Nat} (h : rank < Nat.pow 2 53) : units rank = rank := by
  have : scale rank = 0 := by
    simp only [scale, Nat.pow_eq] at h ⊢
    omega
  simp [units, this]

end Magnitude

/-- A sign and a magnitude; zero and the undefined value carry a sign too. -/
structure Number where
  negative : Bool
  magnitude : Magnitude
  deriving DecidableEq

namespace Number

def zero : Number := ⟨false, .zero⟩

instance : Inhabited Number := ⟨zero⟩

def neg (x : Number) : Number := { x with negative := !x.negative }

def isFinite (x : Number) : Bool :=
  match x.magnitude with
  | .finite _ => true
  | _ => false

@[simp] theorem neg_neg (x : Number) : x.neg.neg = x := by simp [neg]

@[simp] theorem neg_negative (x : Number) : x.neg.negative = !x.negative := rfl

@[simp] theorem neg_magnitude (x : Number) : x.neg.magnitude = x.magnitude := rfl

end Number

end PipeLang
