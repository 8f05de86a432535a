import Mathlib
import PipeLang.Number.Shortest

/-! The text of a finite number reads back to the number. A rank is the nearest one to its own value, so
the exact value reads back, and so does every candidate that the shortest text is chosen from;
zeros at the end of a fraction change nothing. -/

namespace PipeLang

theorem roundHalfEven_mul_self {d : Nat} (hd : 0 < d) (m : Nat) : roundHalfEven (m * d) d = m := by
  have hq : m * d / d = m := Nat.mul_div_cancel m hd
  have hr : m * d % d = 0 := Nat.mul_mod_left m d
  simp only [roundHalfEven, hq, hr, Nat.mul_zero, if_pos hd]

namespace Magnitude

theorem scale_units (rank : Nat) : (units rank).log2 - 52 = scale rank := by
  by_cases h : rank < Nat.pow 2 53
  · have hs : scale rank = 0 := by simp only [scale, Nat.pow_eq] at h ⊢; omega
    have hl : rank.log2 ≤ 52 := by
      by_cases h0 : rank = 0
      · simp [h0]
      · have := (Nat.log2_lt h0).mpr h
        omega
    rw [units_of_lt h, hs]
    omega
  · have hlow : 2 ^ 52 ≤ rank - scale rank * 2 ^ 52 := by
      simp only [scale, Nat.pow_eq] at h ⊢
      omega
    have hhigh : rank - scale rank * 2 ^ 52 < 2 ^ 53 := by
      simp only [scale, Nat.pow_eq] at h ⊢
      omega
    have hunits : (units rank).log2 = 52 + scale rank := by
      have hpos : 0 < units rank :=
        Nat.mul_pos (Nat.lt_of_lt_of_le (by decide) hlow) (Nat.two_pow_pos _)
      rw [Nat.log2_eq_iff (Nat.ne_of_gt hpos), units, Nat.pow_eq, Nat.pow_eq, Nat.add_right_comm,
        Nat.pow_add, Nat.pow_add]
      exact ⟨Nat.mul_le_mul_right _ hlow, Nat.mul_lt_mul_of_pos_right hhigh (Nat.two_pow_pos _)⟩
    omega

theorem rank_eq (rank : Nat) :
    scale rank * Nat.pow 2 52 + (rank - scale rank * Nat.pow 2 52) = rank := by
  simp only [scale, Nat.pow_eq]
  omega

theorem unitsPerOne_pos : 0 < unitsPerOne := by
  rw [unitsPerOne]
  exact Nat.two_pow_pos _

theorem ofRatio_units (rank : Fin finiteCount) :
    ofRatio (units rank) unitsPerOne = .finite rank := by
  have hdiv : units rank * unitsPerOne / unitsPerOne = units rank :=
    Nat.mul_div_cancel _ unitsPerOne_pos
  have hround : roundHalfEven (units rank * unitsPerOne) (unitsPerOne * Nat.pow 2 (scale rank)) =
      rank - scale rank * Nat.pow 2 52 := by
    rw [units, Nat.mul_right_comm, Nat.mul_assoc, Nat.mul_comm unitsPerOne]
    exact roundHalfEven_mul_self (Nat.mul_pos (Nat.two_pow_pos _) unitsPerOne_pos) _
  simp only [ofRatio, hdiv, scale_units, hround, rank_eq, rank.isLt, dif_pos]

theorem exact_magnitude (rank : Fin finiteCount) : (exact rank).magnitude = .finite rank := by
  have hpow : Nat.pow 10 1074 = Nat.pow 5 1074 * unitsPerOne := by
    rw [unitsPerOne, Nat.pow_eq, Nat.pow_eq, Nat.pow_eq, ← Nat.mul_pow]
  have hneg : ((-1074 : Int) < 0) := by decide
  have hexp : (-(-1074 : Int)).toNat = 1074 := by decide
  have hpos : 0 < Nat.pow 5 1074 := Nat.pow_pos (by decide)
  simp only [exact, Decimal.magnitude, if_pos hneg, hexp, hpow]
  rw [Nat.mul_comm (units rank), ofRatio_mul hpos, ofRatio_units]

theorem shortFrom_magnitude (rank : Fin finiteCount) (grids : Nat) (e : Int) :
    (shortFrom rank grids e).magnitude = .finite rank := by
  induction grids generalizing e with
  | zero => exact exact_magnitude rank
  | succ grids ih =>
    rw [shortFrom]
    cases h : shortOn? rank e with
    | some d => exact shortOn?_magnitude h
    | none => exact ih (e - 1)

/-- The zero rank has the value zero, over whatever denominator. -/
theorem ofRatio_zero {rank : Fin finiteCount} (h : rank.val = 0) : ofRatio 0 1 = .finite rank := by
  have hunits : units rank = 0 := by
    rw [h]
    exact units_of_lt (by decide)
  have hrank := ofRatio_units rank
  rw [hunits] at hrank
  rw [← ofRatio_mul unitsPerOne_pos 0 1, Nat.mul_zero, Nat.mul_one, hrank]

theorem shortest_magnitude (rank : Fin finiteCount) : (shortest rank).magnitude = .finite rank := by
  rw [shortest]
  split
  · next h =>
    have hz : Decimal.magnitude ⟨0, 0⟩ = ofRatio 0 1 := by simp [Decimal.magnitude]
    rw [hz, ofRatio_zero h]
  · exact shortFrom_magnitude rank 660 _

end Magnitude

theorem digitsValue_append (as bs : List Char) :
    digitsValue (as ++ bs) = digitsValue as * Nat.pow 10 bs.length + digitsValue bs := by
  rw [digitsValue, Nat.ofDigitChars_append, Nat.ofDigitChars_eq_ofDigitChars_zero, Nat.mul_comm]
  rfl

theorem digitsValue_replicate_zero (n : Nat) : digitsValue (List.replicate n '0') = 0 := by
  rw [digitsValue, Nat.ofDigitChars_replicate_zero, Nat.mul_zero]

namespace Decimal

/-- The digits of a text without exponent: those before the point, and those after it if there are
any. -/
structure Written (text : String) where
  whole : List Char
  fraction : List Char
  toList_eq : text.toList = whole ++ (if fraction = [] then [] else '.' :: fraction)
  whole_ne_nil : whole ≠ []
  isDigit_whole : ∀ c ∈ whole, c.isDigit = true
  isDigit_fraction : ∀ c ∈ fraction, c.isDigit = true

theorem isDigit_of_mem_toDigits {n : Nat} {c : Char} (h : c ∈ Nat.toDigits 10 n) :
    c.isDigit = true :=
  Nat.isDigit_of_mem_toDigits (by decide) (by decide) h

/-- The places of a fraction, filled up with zeros in front. -/
def padded (n places : Nat) : List Char :=
  List.replicate (places - (Nat.toDigits 10 n).length) '0' ++ Nat.toDigits 10 n

def trimmed (cs : List Char) : List Char := (cs.reverse.dropWhile (· == '0')).reverse

theorem digitsValue_padded (n places : Nat) : digitsValue (padded n places) = n := by
  rw [padded, digitsValue_append, digitsValue_replicate_zero, digitsValue_toDigits]
  omega

theorem length_padded {n places : Nat} (hp : 0 < places) (h : n < Nat.pow 10 places) :
    (padded n places).length = places := by
  have := (Nat.length_toDigits_le_iff (b := 10) (by decide) hp).mpr h
  simp only [padded, List.length_append, List.length_replicate]
  omega

theorem trimmed_append (cs : List Char) :
    ∃ n, cs = trimmed cs ++ List.replicate n '0' := by
  have hz : ∀ c ∈ (cs.reverse.takeWhile (· == '0')).reverse, c = '0' := by
    intro c hc
    have hall := List.all_takeWhile (p := (· == '0')) (l := cs.reverse)
    simpa using List.all_eq_true.mp hall c (List.mem_reverse.mp hc)
  refine ⟨(cs.reverse.takeWhile (· == '0')).length, ?_⟩
  rw [trimmed, ← List.length_reverse, ← List.eq_replicate_of_mem hz, ← List.reverse_append,
    List.takeWhile_append_dropWhile, List.reverse_reverse]

theorem isDigit_of_mem_padded {n places : Nat} {c : Char} (h : c ∈ padded n places) :
    c.isDigit = true := by
  rcases List.mem_append.mp h with h | h
  · rw [(List.mem_replicate.mp h).2]; decide
  · exact isDigit_of_mem_toDigits h

theorem isDigit_of_mem_trimmed {n places : Nat} {c : Char} (h : c ∈ trimmed (padded n places)) :
    c.isDigit = true := by
  obtain ⟨k, hk⟩ := trimmed_append (padded n places)
  have hmem : c ∈ padded n places := by
    rw [hk]
    exact List.mem_append_left _ h
  exact isDigit_of_mem_padded hmem

/-- Cutting zeros off the end of a fraction leaves the value as it is. -/
theorem magnitude_ofPlaces_append_zeros (whole fraction : List Char) (n : Nat) :
    (ofPlaces whole (fraction ++ List.replicate n '0')).magnitude =
      (ofPlaces whole fraction).magnitude := by
  have hvalue : digitsValue (whole ++ (fraction ++ List.replicate n '0')) =
      Nat.pow 10 n * digitsValue (whole ++ fraction) := by
    rw [← List.append_assoc, digitsValue_append _ (List.replicate n '0'),
      digitsValue_replicate_zero, List.length_replicate, Nat.add_zero, Nat.mul_comm]
  have magnitude_eq : ∀ whole fraction, (ofPlaces whole fraction).magnitude =
      .ofRatio (digitsValue (whole ++ fraction)) (Nat.pow 10 fraction.length) := by
    intro whole fraction
    by_cases h : fraction.length = 0
    · simp [ofPlaces, magnitude, h]
    · have hneg : (-(fraction.length : Int)) < 0 := by omega
      simp only [ofPlaces, magnitude, if_pos hneg, Int.neg_neg, Int.toNat_natCast]
  rw [magnitude_eq, magnitude_eq, hvalue, List.length_append, List.length_replicate,
    Nat.pow_eq, Nat.pow_eq, Nat.pow_eq, Nat.pow_add, Nat.mul_comm (10 ^ fraction.length)]
  exact Magnitude.ofRatio_mul (Nat.pow_pos (by decide)) _ _

theorem text_written (d : Decimal) :
    ∃ w : Written d.text, (ofPlaces w.whole w.fraction).magnitude = d.magnitude := by
  by_cases h : d.exponent < 0
  · obtain ⟨places, hplaces⟩ : ∃ places : Nat, d.exponent = -(places : Int) ∧ 0 < places :=
      ⟨(-d.exponent).toNat, by omega, by omega⟩
    have hto : (-d.exponent).toNat = places := by omega
    let rest := d.digits % Nat.pow 10 places
    let first := d.digits / Nat.pow 10 places
    have hrest : rest < Nat.pow 10 places := Nat.mod_lt _ (Nat.pow_pos (by decide))
    have htext : d.text = String.ofList (if (trimmed (padded rest places)).isEmpty
        then Nat.toDigits 10 first
        else Nat.toDigits 10 first ++ '.' :: trimmed (padded rest places)) := by
      simp only [text, if_pos h, hto]
      rfl
    refine ⟨⟨Nat.toDigits 10 first, trimmed (padded rest places), ?_, Nat.toDigits_ne_nil,
      fun _ hc => isDigit_of_mem_toDigits hc, fun _ hc => isDigit_of_mem_trimmed hc⟩, ?_⟩
    · rw [htext]
      cases trimmed (padded rest places) <;> simp
    · obtain ⟨n, hn⟩ := trimmed_append (padded rest places)
      have hwhole : ofPlaces (Nat.toDigits 10 first) (padded rest places) = d := by
        have hlen := length_padded hplaces.2 hrest
        have hval : first * Nat.pow 10 places + rest = d.digits := Nat.div_add_mod' _ _
        simp only [ofPlaces, digitsValue_append, digitsValue_padded, hlen, digitsValue_toDigits,
          hval, ← hplaces.1]
      rw [← magnitude_ofPlaces_append_zeros _ _ n, ← hn, hwhole]
  · refine ⟨⟨Nat.toDigits 10 (d.digits * Nat.pow 10 d.exponent.toNat), [], ?_, Nat.toDigits_ne_nil,
      fun _ hc => isDigit_of_mem_toDigits hc, fun _ hc => absurd hc List.not_mem_nil⟩, ?_⟩
    · simp [text, if_neg h]
    · simp [ofPlaces, magnitude, if_neg h, digitsValue_toDigits]

end Decimal

namespace Number

/-- The text of a finite number without a sign is a literal of that number. -/
theorem text_written {x : Number} (hs : x.negative = false) (hf : x.isFinite = true) :
    ∃ w : Decimal.Written x.text, ofLiteral w.whole w.fraction = x := by
  obtain ⟨negative, magnitude⟩ := x
  cases magnitude with
  | finite rank =>
    have htext : (Number.mk negative (.finite rank)).text = (Magnitude.shortest rank).text := by
      have hs' : negative = false := hs
      simp [text, hs', Magnitude.text]
    obtain ⟨w, hw⟩ := Decimal.text_written (Magnitude.shortest rank)
    rw [htext]
    refine ⟨w, ?_⟩
    rw [ofLiteral, hw, Magnitude.shortest_magnitude, ← hs]
  | infinite => exact absurd hf (by simp [isFinite])
  | undefined => exact absurd hf (by simp [isFinite])

/-- A negative number is written as a minus and the number without its sign. -/
theorem toList_text_of_negative {x : Number} (hs : x.negative = true) (hf : x.isFinite = true) :
    x.text.toList = '-' :: x.neg.text.toList := by
  have hdefined : x.magnitude ≠ .undefined := by
    intro he
    unfold isFinite at hf
    rw [he] at hf
    cases hf
  have hsigned : (x.magnitude != .undefined) = true := by simpa using hdefined
  have htext : x.text = "-" ++ x.magnitude.text := by
    unfold text
    rw [hs, hsigned]
    rfl
  have hneg : x.neg.text = x.magnitude.text := by
    unfold text
    rw [neg_negative, hs]
    rfl
  rw [htext, hneg, String.toList_append]
  rfl

end Number

end PipeLang
