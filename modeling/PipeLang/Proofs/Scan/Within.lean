import PipeLang.Proofs.Scan.Effects

/-! A text that is read inside blocks and brackets. What encloses it and what comes before it is looked at
where a line begins, and where a bracket closes that the text did not open; everything else is read as it is
read alone. -/

namespace PipeLang.Scan

namespace State

/-- The state as it is inside the blocks with the margins `frames` and inside the brackets `outer`, after the
tokens `under`. -/
def within (frames : List (List Char)) (outer : List (Punctuation × Span)) (under : List Token)
    (s : State) : State :=
  { s with frames, brackets := s.brackets ++ outer, tokens := s.tokens ++ under }

section

variable (frames : List (List Char)) (outer : List (Punctuation × Span)) (under : List Token) {s : State}

@[simp] theorem within_mode : (s.within frames outer under).mode = s.mode := rfl

@[simp] theorem within_position : (s.within frames outer under).position = s.position := rfl

theorem within_past (c : Char) :
    (s.within frames outer under).past c = (s.past c).within frames outer under := rfl

/-- Where a line begins its margin is compared with those of the blocks. -/
theorem within_settle (hs : s.mode.atMargin = false) :
    (s.within frames outer under).settle = s.settle.within frames outer under := by
  unfold settle
  rw [within_mode]
  cases hm : s.mode with
  | margin m => rw [hm] at hs; cases hs
  | marginSlash m p => rw [hm] at hs; cases hs
  | marginRemark m => rw [hm] at hs; cases hs
  | _ => rfl

theorem within_closeHole (inner : Option Inner) (q : Quoted) (h : Hole) :
    (s.within frames outer under).closeHole inner q h = (s.closeHole inner q h).within frames outer under := by
  unfold closeHole
  dsimp only
  split
  · rfl
  · cases inner <;> rfl

theorem within_quote (q : Quoted) (p : Position) (c : Char) :
    (s.within frames outer under).quote q p c = (s.quote q p c).within frames outer under := by
  unfold quote
  repeat' split
  all_goals rfl

theorem within_burrow (inner : Option Inner) (q : Quoted) (h : Hole) (c : Char) :
    (s.within frames outer under).burrow inner q h c = (s.burrow inner q h c).within frames outer under := by
  unfold burrow
  split
  · exact within_closeHole frames outer under inner q h
  · dsimp only
    split <;> rfl

theorem within_remark (p : Position) (depth : Nat) (last : Option Char) (back : Option Margin) (c : Char) :
    (s.within frames outer under).remark p depth last back c =
      (s.remark p depth last back c).within frames outer under := by
  unfold remark
  repeat' split
  all_goals rfl

/-- What joins a pending token depends on the token alone. -/
theorem within_join (inner : Option Inner) (p : Position) (c : Char) :
    (s.within frames outer under).join inner p c =
      (s.join inner p c).map (within frames outer under) := by
  unfold join
  rw [within_mode]
  cases s.mode with
  | remark opened depth last back =>
    exact congrArg some (within_remark frames outer under opened depth last back c)
  | text q =>
    dsimp only
    split
    · rfl
    · exact congrArg some (within_quote frames outer under q p c)
  | hole q h =>
    dsimp only
    split
    · rfl
    · exact congrArg some (within_burrow frames outer under inner q h c)
  | margin m =>
    dsimp only
    unfold margin
    repeat' split
    all_goals rfl
  | _ =>
    dsimp only
    repeat' split
    all_goals rfl

/-- A bracket closes one that the text opened, and a line ends inside brackets of its own or in none. -/
theorem within_start {p : Position} {c : Char}
    (h : outer = [] ∨ c ≠ '\n' ∧ (s.start p c).errors = []) :
    (s.within frames outer under).start p c = (s.start p c).within frames outer under := by
  have hclose : ∀ b, (outer = [] ∨ (s.closeBracket p b).errors = []) →
      (s.within frames outer under).closeBracket p b = (s.closeBracket p b).within frames outer under := by
    intro b hb
    unfold closeBracket at hb ⊢
    rw [show (s.within frames outer under).brackets = s.brackets ++ outer from rfl]
    cases hs : s.brackets with
    | nil =>
      rcases hb with rfl | hb
      · obtain ⟨mode, position, blocks, brackets, tokens, errors⟩ := s
        obtain rfl : brackets = [] := hs
        rfl
      · rw [hs] at hb
        cases hb
    | cons x xs =>
      simp only [List.cons_append]
      split <;> rfl
  have hline : (outer = [] ∨ c ≠ '\n') → c = '\n' →
      (s.within frames outer under).endLine p = (s.endLine p).within frames outer under := by
    intro hb hc
    obtain rfl : outer = [] := hb.resolve_right (absurd hc)
    unfold endLine
    rw [show (s.within frames [] under).brackets = s.brackets ++ [] from rfl, List.append_nil]
    split <;> rfl
  unfold start at h ⊢
  split
  · rfl
  next hblank =>
  rw [if_neg hblank] at h
  split
  · next hc => exact hline (h.imp_right And.left) hc
  next hc =>
  rw [if_neg hc] at h
  cases hsymbol : symbol? c with
  | some kind => rfl
  | none =>
    cases hopening : opening? c with
    | some b => rfl
    | none =>
      cases hclosing : closing? c with
      | some b =>
        rw [hsymbol, hopening, hclosing] at h
        exact hclose b (h.imp_right And.right)
      | none => cases pending? p c <;> rfl

/-- A step that shows no first token of a line. -/
theorem within_step {inner : Option Inner} {c : Char}
    (hs : (s.past c).join inner s.position c = none → s.mode.atMargin = false)
    (h : outer = [] ∨ c ≠ '\n' ∧ (s.step inner c).errors = []) :
    (s.within frames outer under).step inner c = (s.step inner c).within frames outer under := by
  unfold step at h ⊢
  rw [within_past, within_position, within_join]
  cases hj : (s.past c).join inner s.position c with
  | some t => rfl
  | none =>
    rw [hj] at h
    rw [Option.map_none, within_settle frames outer under (hs hj)]
    exact within_start frames outer under h

end

end State

end PipeLang.Scan
