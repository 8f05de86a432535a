import PipeLang.Number.Basic

/-! The magnitude nearest to a ratio of natural numbers, ties to the even rank, in exact arithmetic.
Scaling both terms of the ratio changes nothing. -/

namespace PipeLang

/-- The integer nearest to `n / d`; halfway between two, the even one. -/
def roundHalfEven (n d : Nat) : Nat :=
  let q := n / d
  let r := n % d
  if 2 * r < d then q else if d < 2 * r then q + 1 else q + q % 2

theorem roundHalfEven_mul {k : Nat} (hk : 0 < k) (n d : Nat) :
    roundHalfEven (k * n) (k * d) = roundHalfEven n d := by
  have lt_iff : ∀ a b : Nat, k * a < k * b ↔ a < b := fun a b => Nat.mul_lt_mul_left hk
  simp only [roundHalfEven, Nat.mul_div_mul_left _ _ hk, Nat.mul_mod_mul_left,
    Nat.mul_left_comm 2 k, lt_iff]

namespace Magnitude

/-- A ratio in units rounds on the grid of its own power of two. Past the largest finite value the
rank runs off the end, and the result is infinite. -/
def ofRatio (n d : Nat) : Magnitude :=
  let u := n * unitsPerOne
  let s := (u / d).log2 - 52
  let rank := s * Nat.pow 2 52 + roundHalfEven u (d * Nat.pow 2 s)
  if h : rank < finiteCount then .finite ⟨rank, h⟩ else .infinite

theorem ofRatio_mul {k : Nat} (hk : 0 < k) (n d : Nat) :
    ofRatio (k * n) (k * d) = ofRatio n d := by
  simp only [ofRatio, Nat.mul_assoc k, Nat.mul_div_mul_left _ _ hk, roundHalfEven_mul hk]

end Magnitude

end PipeLang
