import PipeLang.Proofs.Scan.Reads

/-! How the text of an interpolation is passed over until its brace closes. A text whose braces and quotes
are balanced leaves what encloses it as it was. -/

namespace PipeLang.Scan.State

variable {inner : Option Inner} {s : State} {c : Char}

theorem step_text {q : Quoted} (hs : s.mode = .text q) (hc : c ≠ '\n') :
    s.step inner c = (s.past c).quote q s.position c := by
  refine step_of_join ?_
  have hmode : (s.past c).mode = .text q := hs
  unfold join
  rw [hmode]
  exact if_neg hc

theorem step_hole {q : Quoted} {h : Hole} (hs : s.mode = .hole q h) (hc : c ≠ '\n') :
    s.step inner c = (s.past c).burrow inner q h c := by
  refine step_of_join ?_
  have hmode : (s.past c).mode = .hole q h := hs
  unfold join
  rw [hmode]
  exact if_neg hc

/-- A character after a backslash means nothing. -/
theorem step_holeEscape {q : Quoted} {h : Hole} (hs : s.mode = .holeEscape q h) (hc : c ≠ '\n') :
    s.step inner c = (s.past c).become (.hole q { h with body := c :: h.body }) := by
  refine step_of_join ?_
  have hmode : (s.past c).mode = .holeEscape q h := hs
  unfold join
  rw [hmode]
  exact if_neg hc

/-- A character after which something still encloses the next one. -/
theorem step_burrow {q : Quoted} {h : Hole} {top : Enclosing} {up : List Enclosing}
    (hs : s.mode = .hole q h) (hc : c ≠ '\n') (hnext : Enclosing.next c h.enclosing = top :: up)
    (hplain : c = '\\' → h.enclosing.head? ≠ some .quote) :
    s.step inner c =
      (s.past c).become (.hole q { h with body := c :: h.body, enclosing := top :: up }) := by
  rw [step_hole hs hc]
  unfold burrow
  rw [hnext]
  dsimp only
  rw [if_neg fun hn => hplain hn.1 hn.2]

/-- Reading `cs` inside an interpolation adds it to the body and leaves `top` innermost. -/
def Burrows (top : Enclosing) (cs : List Char) : Prop :=
  ∀ (inner : Option Inner) (s : State) (q : Quoted) (h : Hole) (up : List Enclosing),
    s.mode = .hole q h → h.enclosing = top :: up →
    s.run inner cs =
      { s with
        mode := .hole q { h with body := cs.reverse ++ h.body }, position := s.position.after cs }

namespace Burrows

variable {top : Enclosing} {cs ds : List Char}

theorem nil : Burrows top [] := by
  intro inner s q h up hs _
  cases s
  cases hs
  rfl

theorem append (hc : Burrows top cs) (hd : Burrows top ds) : Burrows top (cs ++ ds) := by
  intro inner s q h up hs hup
  rw [run_append, hc inner s q h up hs hup,
    hd inner _ q { h with body := cs.reverse ++ h.body } up rfl hup]
  simp [Position.after_append]

theorem single (hn : c ≠ '\n') (hnext : ∀ up, Enclosing.next c (top :: up) = top :: up)
    (hplain : c = '\\' → top ≠ .quote) : Burrows top [c] := by
  intro inner s q h up hs hup
  rw [run_cons, run_nil, step_burrow hs hn (by rw [hup]; exact hnext up)
    (by rw [hup]; exact fun hc he => hplain hc (Option.some.inj he))]
  obtain ⟨brace, start, body, enclosing⟩ := h
  cases hup
  rfl

/-- Outside quotes only braces, quotes and line feeds have a meaning. -/
theorem plain {k : Nat} (hn : c ≠ '\n') (hq : c ≠ '"') (hl : c ≠ '\x7b') (hr : c ≠ '\x7d') :
    Burrows (.brace k) [c] :=
  single hn (fun up => by simp [Enclosing.next, hq, hl, hr]) fun _ => nofun

theorem ofPlain {k : Nat}
    (h : ∀ c ∈ cs, c ≠ '\n' ∧ c ≠ '"' ∧ c ≠ '\x7b' ∧ c ≠ '\x7d') : Burrows (.brace k) cs := by
  induction cs with
  | nil => exact nil
  | cons c cs ih =>
    obtain ⟨hn, hq, hl, hr⟩ := h c List.mem_cons_self
    exact (plain hn hq hl hr).append (ih fun d hd => h d (List.mem_cons_of_mem c hd))

/-- Between a brace or a quote and the one that closes it. -/
theorem between {inside : Enclosing} {l r : Char} (hl : l ≠ '\n' ∧ l ≠ '\\')
    (hr : r ≠ '\n' ∧ r ≠ '\\')
    (h : ∀ up, ∃ up', Enclosing.next l (top :: up) = inside :: up' ∧
      Enclosing.next r (inside :: up') = top :: up)
    (hc : Burrows inside cs) : Burrows top (l :: (cs ++ [r])) := by
  intro inner s q hole up hs hup
  obtain ⟨up', hopen, hclose⟩ := h up
  have hstep : s.step inner l = (s.past l).become
      (.hole q { hole with body := l :: hole.body, enclosing := inside :: up' }) :=
    step_burrow hs hl.1 (by rw [hup]; exact hopen) fun he => absurd he hl.2
  rw [run_cons, hstep, run_append, hc inner _ q _ up' rfl rfl, run_cons, run_nil,
    step_burrow rfl hr.1 hclose fun he => absurd he hr.2]
  obtain ⟨brace, start, body, enclosing⟩ := hole
  cases hup
  simp [past, become, Position.after_append]

theorem braces {k : Nat} (hc : Burrows (.brace (k + 1)) cs) :
    Burrows (.brace k) ('\x7b' :: (cs ++ ['\x7d'])) :=
  between (by decide) (by decide) (fun up => ⟨up, rfl, rfl⟩) hc

theorem quotes {k : Nat} (hc : Burrows .quote cs) : Burrows (.brace k) ('"' :: (cs ++ ['"'])) :=
  between (by decide) (by decide) (fun up => ⟨.brace k :: up, rfl, rfl⟩) hc

/-- An interpolation in a string. -/
theorem hole (hc : Burrows (.brace 0) cs) : Burrows .quote ('\x7b' :: (cs ++ ['\x7d'])) :=
  between (by decide) (by decide) (fun up => ⟨.quote :: up, rfl, rfl⟩) hc

theorem escaped {d : Char} (hd : d ≠ '\n') : Burrows .quote ['\\', d] := by
  intro inner s q h up hs hup
  have hslash : s.step inner '\\' = (s.past '\\').become
      (.holeEscape q { h with body := '\\' :: h.body, enclosing := .quote :: up }) := by
    rw [step_hole hs (by decide)]
    unfold burrow
    rw [hup]
    rfl
  rw [run_cons, hslash, run_cons, run_nil, step_holeEscape rfl hd]
  obtain ⟨brace, start, body, enclosing⟩ := h
  cases hup
  rfl

theorem literal (text : List Char) : Burrows .quote (text.flatMap escapeChar) := by
  induction text with
  | nil => exact nil
  | cons c text ih =>
    rw [List.flatMap_cons]
    refine append ?_ ih
    rcases escapeChar_cases c with ⟨he, hs, hq, hl, hr, hn⟩ | ⟨d, he, _, hd⟩
    · rw [he]
      exact single hn (fun up => by simp [Enclosing.next, hq, hl]) fun h => absurd h hs
    · rw [he]
      exact escaped hd

end Burrows

/-- Text that reads alike wherever it stands between braces. -/
def Passes (cs : List Char) : Prop := ∀ k, Burrows (.brace k) cs

end PipeLang.Scan.State
