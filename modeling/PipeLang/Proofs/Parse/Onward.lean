import PipeLang.Proofs.Parse.CoupledProgram

/-! A rule stops at a cursor further on in the same tokens, whether it succeeds or fails. -/

namespace PipeLang

/-- `d` is `c` past some tokens, the end marker not among them. -/
def Cursor.Onward (c d : Cursor) : Prop :=
  d.Ended ∧ ∃ taken, c.rest = taken ++ d.rest ∧ d.before = taken.reverse ++ c.before

namespace Cursor.Onward

variable {c d e : Cursor}

theorem refl (h : c.Ended) : c.Onward c := ⟨h, [], rfl, rfl⟩

theorem trans (h : c.Onward d) (h' : d.Onward e) : c.Onward e := by
  obtain ⟨-, taken, hrest, hbefore⟩ := h
  obtain ⟨hended, more, hrest', hbefore'⟩ := h'
  refine ⟨hended, taken ++ more, ?_, ?_⟩
  · rw [hrest, hrest', List.append_assoc]
  · rw [hbefore', hbefore, List.reverse_append, List.append_assoc]

theorem forward (h : c.Ended) (hk : c.kind ≠ .eof) : c.Onward c.forward := by
  refine ⟨(h.forward hk).1, ?_⟩
  obtain ⟨t, ts, hrest⟩ := h.exists_cons
  exact ⟨[t], by rw [Cursor.forward, hrest]; rfl, by rw [Cursor.forward, hrest]; rfl⟩

theorem enterBlock (h : c.Ended) {p : TokenKind → Bool} (hb : c.atBlock p = true) :
    c.Onward c.forward.forward := by
  simp only [atBlock, Bool.and_eq_true] at hb
  obtain ⟨⟨hline, hindent⟩, _⟩ := hb
  obtain ⟨t, ts, hr⟩ := h.exists_cons
  have hforward : c.Onward c.forward :=
    forward h fun he => by rw [atNewline, he] at hline; cases hline
  refine hforward.trans (forward hforward.1 fun he => ?_)
  rw [kindAt_one hr, he] at hindent
  cases hindent

theorem next (h : c.Ended) : c.Onward c.next := by
  unfold Cursor.next
  split
  · exact refl h
  · next hend => exact forward h fun hk => hend (by rw [atEnd, hk]; rfl)

end Cursor.Onward

namespace Parse

variable {α β : Type} {R : α → β → Prop}

inductive GoesOn (c : Cursor) (R : α → β → Prop) :
    EStateM.Result Diagnostic Cursor α → EStateM.Result Diagnostic Cursor β → Prop
  | ok {a : α} {b : β} {d : Cursor} (value : R a b) (onward : c.Onward d) :
    GoesOn c R (.ok a d) (.ok b d)
  | error {e e' : Diagnostic} {d : Cursor} (onward : c.Onward d) :
    GoesOn c R (.error e d) (.error e' d)

theorem GoesOn.from {c d : Cursor} {r : EStateM.Result Diagnostic Cursor α}
    {r' : EStateM.Result Diagnostic Cursor β} (hcd : c.Onward d) (h : GoesOn d R r r') :
    GoesOn c R r r' := by
  cases h with
  | ok value onward => exact .ok value (hcd.trans onward)
  | error onward => exact .error (hcd.trans onward)

/-- The grammar beside itself, both runs at the same cursor. -/
def onward (o : ParseOptions) : Coupling o o where
  left := id
  right := id
  holes := (· = ·)
  budgets := (· = ·)
  agree R x y := ∀ c, c.Ended → GoesOn c R (x c) (y c)
  resolve := .inl rfl
  merge := Coupling.merge_id
  succ := Coupling.succ_eq
  ret hab := fun _ hc => .ok hab (.refl hc)
  bind {_ _ _ _ _ _ x y f g} hx hf := by
    intro c hc
    have hout := hx c hc
    generalize hxc : x c = r at hout
    generalize hyc : y c = r' at hout
    cases hout with
    | ok value on =>
      rw [bind_of_ok hxc, bind_of_ok hyc]
      exact (hf _ _ value _ on.1).from on
    | error on =>
      rw [bind_of_error hxc, bind_of_error hyc]
      exact .error on
  peek := fun _ hc => .ok (.refl fun _ _ => rfl) (.refl hc)
  look _ := fun _ hc => .ok rfl (.refl hc)
  skip := fun _ hc => .ok rfl (.next hc)
  openBlock {p} _ := by
    intro c hc
    unfold openBlock
    split
    · next hb => exact .ok rfl (.enterBlock hc hb)
    · exact .ok rfl (.refl hc)
  fail _ := fun _ hc => .error (.refl hc)
  deep hb hy := by
    intro c hc
    rw [hy hb.symm]
    exact .error (.refl hc)
  bounded _ hx := fun c hc => hx _ c hc

section

variable (o : ParseOptions)

theorem onward_hole (p : Primary) (b : Nat) (ts : List Token) (s : Span) :
    (onward o).agree ((onward o).same Expr.relocate) (hole o p b ts s) (hole o p b ts s) := by
  intro c hc
  unfold hole
  split
  · exact .ok rfl (.refl hc)
  · exact .ok rfl ⟨hc, [], rfl, rfl⟩
  · exact .error (.refl hc)

theorem onward_primary (levels : Nat) : ∀ b,
    (onward o).agree ((onward o).same Expr.relocate) (primary o levels b) (primary o levels b) := by
  induction levels with
  | zero => exact fun b => (onward o).deep (b := 0) rfl fun _ => rfl
  | succ levels ih =>
    intro b
    cases b with
    | zero => exact (onward o).deep (b := 0) rfl fun _ => rfl
    | succ b =>
      refine Coupling.primaryInside (C := onward o) (moves_primary o levels)
        (fun {b _} h => by cases h; exact ih b) rfl fun hts hs => ?_
      obtain rfl := hts
      obtain rfl := hs
      exact onward_hole o _ b _ _

theorem goesOn_statementLine {c : Cursor} (hc : c.Ended) :
    GoesOn c ((onward o).same Statement.relocate) (statementLine o c) (statementLine o c) :=
  Coupling.statementLine (C := onward o)
    (fun {b _} h => by cases h; exact onward_primary o _ b) rfl c hc

theorem onward_of_statementLine {c c' : Cursor} {s : Statement} (hc : c.Ended)
    (h : statementLine o c = .ok s c') : c.Onward c' := by
  have hline := goesOn_statementLine o hc
  rw [h] at hline
  cases hline with
  | ok _ onward => exact onward

theorem onward_statementLine {c c' : Cursor} {d : Diagnostic} (hc : c.Ended)
    (h : statementLine o c = .error d c') : c.Onward c' := by
  have hline := goesOn_statementLine o hc
  rw [h] at hline
  cases hline with
  | error onward => exact onward

end

end Parse

end PipeLang
