import PipeLang.Proofs.Parse.Alike
import PipeLang.Proofs.Scan.Errors

/-! What holds of every interpolation when it is read holds of all that are in the tokens. No interpolation
is empty: one without text is reported and leaves no part, and the others are as long as their text. -/

namespace PipeLang

/-- What `P` says of the tokens and the span of each interpolation in a string. -/
def TokenKind.Holds (P : List Token → Span → Prop) (k : TokenKind) : Prop :=
  ∀ parts, k = .text parts → ∀ us span, .hole us span ∈ parts → P us span

theorem TokenKind.holds_of_not_text {P : List Token → Span → Prop} {k : TokenKind}
    (h : k.isText = false) : k.Holds P := by
  rintro parts rfl
  cases h

/-- An interpolation that is not empty, nor any in it. -/
inductive Filled : List Token → Span → Prop
  | mk {us : List Token} {span : Span} (nonempty : span.start < span.stop)
    (inside : ∀ u ∈ us, ∀ parts, u.kind = .text parts → ∀ vs s, .hole vs s ∈ parts → Filled vs s) :
    Filled us span

theorem Position.offset_lt_after (p : Position) {cs : List Char} (h : cs ≠ []) :
    p.offset < (p.after cs).offset := by
  obtain ⟨c, cs, rfl⟩ := List.exists_cons_of_ne_nil h
  rw [Position.after_cons]
  have hc : p.offset < (p.advance c).offset := by
    rw [Position.advance_offset]
    exact Nat.lt_add_of_pos_right (Char.utf8Size_pos c)
  exact Nat.lt_of_lt_of_le hc (Position.offset_le_after _ cs)

namespace Scan

/-- The parts of the string that is being read. -/
def Mode.parts : Mode → List StringPart
  | .text q | .escape q | .hole q _ | .holeEscape q _ => q.parts
  | _ => []

theorem Quoted.hole_mem_flush {q : Quoted} {us : List Token} {span : Span}
    (h : .hole us span ∈ q.flush.parts) : .hole us span ∈ q.parts := by
  unfold Quoted.flush at h
  split at h
  · exact h
  · simpa using h

/-- What holds of the interpolations that `inner` reads. -/
def Inner.Holds (P : List Token → Span → Prop) (inner : Option Inner) : Prop :=
  ∀ scan, inner = some scan → ∀ p body, body ≠ [] → P (scan p body).1 (p.to (p.after body))

structure State.Holds (P : List Token → Span → Prop) (s : State) : Prop where
  tokens : ∀ t ∈ s.tokens, t.kind.Holds P
  mode : ∀ us span, .hole us span ∈ s.mode.parts → P us span

namespace State

variable {P : List Token → Span → Prop} {inner : Option Inner} {s t : State}

theorem holds_initial : initial.Holds P :=
  ⟨fun _ ht => absurd ht List.not_mem_nil, fun _ _ hp => absurd hp List.not_mem_nil⟩

theorem holds_inside (p : Position) : (inside p).Holds P :=
  ⟨fun _ ht => absurd ht List.not_mem_nil, fun _ _ hp => absurd hp List.not_mem_nil⟩

theorem Holds.become (h : s.Holds P) {m : Mode}
    (hm : ∀ us span, .hole us span ∈ m.parts → P us span) : (s.become m).Holds P := ⟨h.tokens, hm⟩

/-- A mode outside strings. -/
theorem Holds.leave (h : s.Holds P) {m : Mode} (hm : m.parts = []) : (s.become m).Holds P :=
  h.become fun _ _ hp => absurd (hm ▸ hp) List.not_mem_nil

theorem Holds.token (h : s.Holds P) {u : Token} (hu : u.kind.Holds P) :
    ∀ t ∈ u :: s.tokens, t.kind.Holds P :=
  fun _ ht => (List.mem_cons.mp ht).elim (fun he => he ▸ hu) (h.tokens _)

theorem Holds.emit (h : s.Holds P) {p : Position} {k : TokenKind} (hk : k.Holds P) :
    (s.emit p k).Holds P :=
  ⟨h.token hk, fun _ _ hp => absurd hp List.not_mem_nil⟩

theorem Holds.plain (h : s.Holds P) {p : Position} {k : TokenKind} (hk : k.isText = false) :
    (s.emit p k).Holds P :=
  h.emit (TokenKind.holds_of_not_text hk)

theorem Holds.report (h : s.Holds P) (d : Diagnostic) : (s.report d).Holds P := ⟨h.tokens, h.mode⟩

theorem Holds.fail (h : s.Holds P) (p : Position) (cause : Cause) : (s.fail p cause).Holds P :=
  ⟨h.tokens, fun _ _ hp => absurd hp List.not_mem_nil⟩

theorem Holds.emitWord (h : s.Holds P) (p : Position) (text : List Char) :
    (s.emitWord p text).Holds P := by
  unfold State.emitWord
  dsimp only
  split <;> exact h.plain rfl

theorem Holds.emitText (h : s.Holds P) {q : Quoted}
    (hq : ∀ us span, .hole us span ∈ q.parts → P us span) : (s.emitText q).Holds P := by
  refine h.emit fun parts hparts us span hp => hq us span (Quoted.hole_mem_flush ?_)
  cases hparts
  exact List.mem_reverse.mp hp

theorem Holds.openBracket (h : s.Holds P) (p : Position) (b : Punctuation) :
    (s.openBracket p b).Holds P :=
  ⟨h.token (TokenKind.holds_of_not_text rfl), fun _ _ hp => absurd hp List.not_mem_nil⟩

theorem Holds.closeBracket (h : s.Holds P) (p : Position) (b : Punctuation) :
    (s.closeBracket p b).Holds P := by
  have hb : (TokenKind.punctuation b).Holds P := TokenKind.holds_of_not_text rfl
  unfold State.closeBracket
  split
  · exact (h.fail p _).emit hb
  · dsimp only
    split <;> exact ⟨h.token hb, fun _ _ hp => absurd hp List.not_mem_nil⟩

theorem Holds.closeTo (h : s.Holds P) (m : List Char) (p : Position) : (s.closeTo m p).Holds P := by
  refine ⟨fun t ht => ?_, h.mode⟩
  rcases List.mem_append.mp ht with ht | ht
  · obtain ⟨_, _, rfl⟩ := List.mem_map.mp ht
    exact TokenKind.holds_of_not_text rfl
  · exact h.tokens t ht

theorem Holds.settleMargin (h : s.Holds P) (p : Position) (m : List Char) :
    (s.settleMargin p m).Holds P := by
  simp only [State.settleMargin]
  repeat' split
  case _ => exact h
  case _ => exact ⟨h.tokens, h.mode⟩
  case _ => exact ⟨h.token (TokenKind.holds_of_not_text rfl), h.mode⟩
  case _ => exact ⟨h.tokens, h.mode⟩
  case _ => exact h.closeTo _ _
  case _ => exact ⟨h.tokens, h.mode⟩

theorem Holds.leaveMargin (h : s.Holds P) (m : Margin) : (s.leaveMargin m).Holds P :=
  (h.settleMargin _ _).leave rfl

theorem Holds.endLine (h : s.Holds P) (p : Position) : (s.endLine p).Holds P := by
  unfold State.endLine
  split
  · exact (h.plain rfl).leave rfl
  · exact h.leave rfl

theorem not_text_of_symbol {c : Char} {k : TokenKind} (h : symbol? c = some k) : k.isText = false := by
  unfold symbol? at h
  split at h <;> cases h <;> rfl

theorem hole_not_mem_pending {p : Position} {c : Char} {m : Mode} (h : pending? p c = some m) :
    m.parts = [] := by
  unfold pending? at h
  repeat' split at h
  all_goals cases h <;> rfl

theorem Holds.start (h : s.Holds P) (p : Position) (c : Char) : (s.start p c).Holds P := by
  unfold State.start
  split
  · exact h.leave rfl
  split
  · exact h.endLine p
  split
  · next hsymbol => exact h.plain (not_text_of_symbol hsymbol)
  · exact h.openBracket p _
  · exact h.closeBracket p _
  · next hpending _ _ _ => exact h.leave (hole_not_mem_pending hpending)
  · exact h.fail p _

theorem Holds.settle (h : s.Holds P) : s.settle.Holds P := by
  have hm := h.mode
  unfold State.settle
  cases hs : s.mode with
  | ready => exact h
  | margin m | marginRemark m => exact h.leaveMargin m
  | marginSlash m slash => exact (h.leaveMargin m).plain rfl
  | note alone => exact h.leave rfl
  | word p text => exact h.emitWord p text
  | point p whole dot | secondPoint p whole places dot =>
    have hnumber : ∀ v : Number, (TokenKind.number v).Holds P := fun _ => TokenKind.holds_of_not_text rfl
    exact Holds.plain (s := { s with tokens := _ :: s.tokens }) ⟨h.token (hnumber _), h.mode⟩ rfl
  | slash p | minus p | less p | greater p | bar p | underscore p | digits p whole
  | fraction p whole places => exact h.plain rfl
  | remark opened depth last back | bang p | underscoreWord p text | repeatedPoint p text
  | digitWord p text => exact h.fail _ _
  | text q | escape q | hole q b | holeEscape q b =>
    rw [hs] at hm
    exact (h.fail _ _).emitText hm

/-- The one step that adds an interpolation. -/
theorem Holds.closeHole (hinner : Inner.Holds P inner) (h : s.Holds P) {q : Quoted} (b : Hole)
    (hq : ∀ us span, .hole us span ∈ q.parts → P us span) : (s.closeHole inner q b).Holds P := by
  unfold State.closeHole
  dsimp only
  split
  · exact (h.report _).become hq
  next hblank =>
  have hbody : b.body.reverse ≠ [] := fun hnil => hblank (by rw [hnil]; rfl)
  cases inner with
  | none => exact (h.report _).become hq
  | some scan =>
    refine ⟨h.tokens, fun us span hp => ?_⟩
    rcases List.mem_cons.mp hp with he | hp
    · obtain ⟨rfl, rfl⟩ := StringPart.hole.inj he
      exact hinner scan rfl b.start _ hbody
    · exact hq us span hp

theorem Holds.burrow (hinner : Inner.Holds P inner) (h : s.Holds P) {q : Quoted} (b : Hole) (c : Char)
    (hq : ∀ us span, .hole us span ∈ q.parts → P us span) : (s.burrow inner q b c).Holds P := by
  unfold State.burrow
  split
  · exact h.closeHole hinner b hq
  · dsimp only
    split <;> exact h.become hq

theorem Holds.quote (h : s.Holds P) {q : Quoted} (p : Position) (c : Char)
    (hq : ∀ us span, .hole us span ∈ q.parts → P us span) : (s.quote q p c).Holds P := by
  unfold State.quote
  split
  · exact h.emitText hq
  split
  · exact h.become hq
  split
  · exact h.become fun us span hp => hq us span (Quoted.hole_mem_flush hp)
  split
  · exact (h.report _).become hq
  · exact h.become hq

theorem Holds.remark (h : s.Holds P) (opened : Position) (depth : Nat) (last : Option Char)
    (back : Option Margin) (c : Char) : (s.remark opened depth last back c).Holds P := by
  unfold State.remark
  repeat' split
  all_goals exact h.leave rfl

theorem Holds.join (hinner : Inner.Holds P inner) (h : s.Holds P) {p : Position} {c : Char}
    (hj : s.join inner p c = some t) : t.Holds P := by
  have hm := h.mode
  unfold State.join at hj
  cases hs : s.mode with
  | text q =>
    rw [hs] at hm
    simp only [hs] at hj
    split at hj <;> cases hj
    exact h.quote p c hm
  | escape q =>
    rw [hs] at hm
    simp only [hs] at hj
    split at hj <;> cases hj
    exact h.become hm
  | hole q b =>
    rw [hs] at hm
    simp only [hs] at hj
    split at hj <;> cases hj
    exact h.burrow hinner b c hm
  | holeEscape q b =>
    rw [hs] at hm
    simp only [hs] at hj
    split at hj <;> cases hj
    exact h.become hm
  | remark opened depth last back =>
    simp only [hs] at hj
    cases hj
    exact h.remark opened depth last back c
  | margin m =>
    simp only [hs, State.margin] at hj
    repeat' split at hj
    all_goals
      cases hj
    all_goals exact h.leave rfl
  | word start text =>
    simp only [hs] at hj
    repeat' split at hj
    all_goals cases hj
    · exact h.leave rfl
    · exact h.emitWord start _
  | _ =>
    simp only [hs] at hj
    repeat' split at hj
    all_goals cases hj
    all_goals first
      | exact h
      | exact h.leave rfl
      | exact h.plain rfl
      | exact h.fail _ _

theorem Holds.step (hinner : Inner.Holds P inner) (h : s.Holds P) (c : Char) :
    (s.step inner c).Holds P := by
  have hpast : ∀ {u : State}, u.Holds P → (u.past c).Holds P := fun hu => ⟨hu.tokens, hu.mode⟩
  unfold State.step
  split
  · next hj => exact (hpast h).join hinner hj
  · exact (hpast h.settle).start _ c

theorem Holds.run (hinner : Inner.Holds P inner) (h : s.Holds P) (cs : List Char) :
    (s.run inner cs).Holds P := by
  induction cs generalizing s with
  | nil => exact h
  | cons c cs ih => exact ih (h.step hinner c)

theorem Holds.finish (h : s.Holds P) : s.finish.Holds P := by
  unfold State.finish
  split
  · exact (h.closeTo _ _).plain rfl
  · exact ((h.settle.plain rfl).closeTo _ _).plain rfl

theorem Holds.finishInside (h : s.Holds P) : s.finishInside.Holds P := h.settle.plain rfl

end State

theorem inner_filled (levels : Nat) : Inner.Holds Filled (inner? levels) := by
  induction levels with
  | zero => exact fun _ hscan => nomatch hscan
  | succ levels ih =>
    intro scan hscan p body hbody
    cases hscan
    rw [readInside_eq]
    have hread := ((State.holds_inside p).run ih body).finishInside
    exact .mk (p.offset_lt_after hbody) fun u hu => hread.tokens u (List.mem_reverse.mp hu)

theorem filled_scan (cs : List Char) : ∀ t ∈ (scan cs).finish.tokenList, t.kind.Holds Filled :=
  fun t ht => ((State.holds_initial.run (inner_filled nestingLimit) cs).finish).tokens t
    (List.mem_reverse.mp ht)

end Scan

end PipeLang
