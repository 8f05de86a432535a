import PipeLang.Proofs.Parse.Run

/-! What a rule gives when it succeeds. A fact about the result and one about the cursor, the second a
fact of every cursor a rule starts from as well, are put together rule by rule. -/

namespace PipeLang.Parse

/-- From a cursor with `I` a success of `rule` has `Q` and leaves a cursor with `I`. -/
def Yields (I : Cursor → Prop) (Q : α → Prop) (rule : Parse α) : Prop :=
  ∀ c, I c → ∀ a c', rule c = .ok a c' → Q a ∧ I c'

namespace Yields

variable {I : Cursor → Prop} {Q : α → Prop} {R : β → Prop}

theorem pure {a : α} (h : Q a) : Yields I Q (pure a : Parse α) := by
  intro c hc a' c' he
  cases he
  exact ⟨h, hc⟩

theorem bind {x : Parse α} {f : α → Parse β} (hx : Yields I Q x)
    (hf : ∀ a, Q a → Yields I R (f a)) : Yields I R (x >>= f) := by
  intro c hc b c'' he
  obtain ⟨a, c', ha, hb⟩ := bind_eq_ok.mp he
  obtain ⟨hq, hc'⟩ := hx c hc a c' ha
  exact hf a hq c' hc' b c'' hb

theorem mono {Q' : α → Prop} {rule : Parse α} (h : Yields I Q rule) (hq : ∀ a, Q a → Q' a) :
    Yields I Q' rule := by
  intro c hc a c' he
  obtain ⟨ha, hc'⟩ := h c hc a c' he
  exact ⟨hq a ha, hc'⟩

theorem test {p : Cursor → α} (h : ∀ c, I c → Q (p c)) : Yields I Q (test p) := by
  intro c hc a c' he
  cases he
  exact ⟨h c hc, hc⟩

/-- A test whose answer the rest of the rule may rely on for the cursor it was made at. -/
theorem test_bind {p : Cursor → α} {f : α → Parse β}
    (h : ∀ c, I c → ∀ b c', f (p c) c = .ok b c' → R b ∧ I c') : Yields I R (Parse.test p >>= f) :=
  h

theorem fail {d : Cursor → Diagnostic} : Yields I Q (Parse.fail d) := by
  intro c _ a c' he
  cases he

theorem ite {p : Prop} [Decidable p] {x y : Parse α} (hx : p → Yields I Q x)
    (hy : ¬p → Yields I Q y) : Yields I Q (if p then x else y) := by
  by_cases h : p
  · rw [if_pos h]; exact hx h
  · rw [if_neg h]; exact hy h

theorem manyUpTo {ready : Cursor → Bool} {item : Parse α} (h : Yields I Q item) (n : Nat) :
    Yields I (fun as => ∀ a ∈ as, Q a) (manyUpTo ready item n) := by
  induction n with
  | zero => exact pure (fun a ha => absurd ha List.not_mem_nil)
  | succ n ih =>
    refine bind (test (Q := fun _ => True) fun _ _ => trivial) fun b _ => ite (fun _ => ?_) fun _ => ?_
    · refine bind h fun a ha => bind ih fun as has => pure ?_
      intro b hb
      rcases List.mem_cons.mp hb with rfl | hb
      · exact ha
      · exact has b hb
    · exact pure (fun a ha => absurd ha List.not_mem_nil)

theorem many {ready : Cursor → Bool} {item : Parse α} (h : Yields I Q item) :
    Yields I (fun as => ∀ a ∈ as, Q a) (many ready item) :=
  fun c hc => manyUpTo h (c.rest.length + 1) c hc

/-- What a round makes of its state: `P` as long as there are more, `Q` after the last. -/
def Rounds (P Q : σ → Prop) : Round σ → Prop
  | .again s => P s
  | .done s => Q s

theorem roundsUpTo {P Q : σ → Prop} {round : σ → Parse (Round σ)}
    (h : ∀ s, P s → Yields I (Rounds P Q) (round s)) (hpq : ∀ s, P s → Q s) (n : Nat) :
    ∀ s, P s → Yields I Q (roundsUpTo round n s) := by
  induction n with
  | zero => exact fun s hs => pure (hpq s hs)
  | succ n ih =>
    intro s hs
    refine bind (h s hs) fun r hr => ?_
    cases r with
    | again s' => exact ih s' hr
    | done s' => exact pure hr

/-- The first round starts from `s`, each further one from a state with `P`. -/
theorem rounds_first {P Q : σ → Prop} {round : σ → Parse (Round σ)}
    (h : ∀ s, P s → Yields I (Rounds P Q) (round s)) (hpq : ∀ s, P s → Q s) {s : σ}
    (hs : Yields I (Rounds P Q) (round s)) : Yields I Q (rounds round s) := by
  intro c hc
  refine bind hs (fun r hr => ?_) c hc
  cases r with
  | again s' => exact roundsUpTo h hpq c.rest.length s' hr
  | done s' => exact pure hr

theorem rounds {P Q : σ → Prop} {round : σ → Parse (Round σ)}
    (h : ∀ s, P s → Yields I (Rounds P Q) (round s)) (hpq : ∀ s, P s → Q s) {s : σ} (hs : P s) :
    Yields I Q (rounds round s) :=
  rounds_first h hpq (h s hs)

end Yields

end PipeLang.Parse
