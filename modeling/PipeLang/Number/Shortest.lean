import PipeLang.Number.Decimal

/-! The text of a number: the fewest decimal digits that round back to it, and of those the nearest.
Grids of powers of ten are tried from coarse to fine; on each only the two neighbours of the value
can round back, so these two are tested in exact arithmetic. -/

namespace PipeLang

namespace Magnitude

/-- A value in units divided by `10 ^ e`, as a numerator and a denominator. -/
def onGrid (u : Nat) (e : Int) : Nat × Nat :=
  if e < 0 then (u * Nat.pow 10 (-e).toNat, unitsPerOne) else (u, unitsPerOne * Nat.pow 10 e.toNat)

/-- Of two candidates those that round to `m`; if both do, the lower one only when `down` is set. -/
def choose? (m : Magnitude) (down : Bool) (lower upper : Decimal) : Option Decimal :=
  if upper.magnitude = m then
    if down && lower.magnitude = m then some lower else some upper
  else if lower.magnitude = m then some lower
  else none

/-- The neighbour on the grid `10 ^ e` that rounds to `rank`; of two the nearer, and the upper one
when both are as near. A grid coarser than the value itself is passed over. -/
def shortOn? (rank : Fin finiteCount) (e : Int) : Option Decimal :=
  let (n, d) := onGrid (units rank) e
  if n / d = 0 then none
  else choose? (.finite rank) (2 * (n % d) < d) ⟨n / d, e⟩ ⟨n / d + 1, e⟩

def exact (rank : Nat) : Decimal := ⟨units rank * Nat.pow 5 1074, -1074⟩

/-- The first hit on the grids `10 ^ e`, `10 ^ (e - 1)`, …; the exact value after the last of them. -/
def shortFrom (rank : Fin finiteCount) : Nat → Int → Decimal
  | 0, _ => exact rank
  | grids + 1, e => (shortOn? rank e).getD (shortFrom rank grids (e - 1))

/-- No decimal needs more than 17 digits, and none starts further down than `10 ^ -324`. -/
def shortest (rank : Fin finiteCount) : Decimal :=
  if rank.val = 0 then ⟨0, 0⟩
  else shortFrom rank 660 (Nat.toDigits 10 (units rank / unitsPerOne)).length

theorem choose?_magnitude {m : Magnitude} {down : Bool} {lower upper d : Decimal}
    (h : choose? m down lower upper = some d) : d.magnitude = m := by
  unfold choose? at h
  split at h
  · split at h
    · next hl =>
      simp only [Bool.and_eq_true, decide_eq_true_eq] at hl
      exact Option.some.inj h ▸ hl.2
    · exact Option.some.inj h ▸ by assumption
  · split at h
    · exact Option.some.inj h ▸ by assumption
    · exact absurd h (by simp)

theorem shortOn?_magnitude {rank : Fin finiteCount} {e : Int} {d : Decimal}
    (h : shortOn? rank e = some d) : d.magnitude = .finite rank := by
  unfold shortOn? at h
  generalize onGrid (units rank) e = g at h
  obtain ⟨n, k⟩ := g
  dsimp only at h
  split at h
  · exact absurd h (by simp)
  · exact choose?_magnitude h

def text : Magnitude → String
  | .finite rank => (shortest rank).text
  | .infinite => "inf"
  | .undefined => "NaN"

end Magnitude

namespace Number

/-- The undefined value shows no sign. -/
def text (x : Number) : String :=
  if x.negative && x.magnitude != .undefined then "-" ++ x.magnitude.text else x.magnitude.text

end Number

end PipeLang
