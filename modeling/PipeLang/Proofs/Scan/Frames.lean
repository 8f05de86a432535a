import PipeLang.Proofs.Parse.Climbs
import PipeLang.Proofs.Scan.Pending

/-! The margins of the open blocks, in a text with errors as in one without. Each margin grows from the
one around it, down to the empty margin of the text, and the tokens so far have opened and not closed as
many blocks as there are margins above that one. A margin that is reported opens and closes nothing. -/

namespace PipeLang.Scan

/-- The margin of a block: that of the block around it, then two spaces or more, or one tab or more. -/
inductive Deepens (outer : List Char) : List Char → Prop
  | spaces (n : Nat) : Deepens outer (outer ++ List.replicate (n + 2) ' ')
  | tabs (n : Nat) : Deepens outer (outer ++ List.replicate (n + 1) '\t')

/-- Spaces only or tabs only. -/
def Uniform (m : List Char) : Prop := ∃ n, m = List.replicate n ' ' ∨ m = List.replicate n '\t'

/-- The margins of blocks one inside the other, innermost first. -/
structure Chain (frames : List (List Char)) : Prop where
  base : frames.getLast? = some []
  deepens : frames.IsChain fun inner outer => Deepens outer inner
  uniform : ∀ m ∈ frames, Uniform m

theorem uniform_of_blanks {m : List Char} (blanks : ∀ c ∈ m, c = ' ' ∨ c = '\t')
    (unmixed : ¬ (' ' ∈ m ∧ '\t' ∈ m)) : Uniform m := by
  refine ⟨m.length, ?_⟩
  by_cases hspace : ' ' ∈ m
  · exact .inl (List.eq_replicate_of_mem fun c hc =>
      (blanks c hc).resolve_right fun htab => unmixed ⟨hspace, htab ▸ hc⟩)
  · exact .inr (List.eq_replicate_of_mem fun c hc =>
      (blanks c hc).resolve_left fun h => hspace (h ▸ hc))

theorem Uniform.deepens {m top : List Char} (h : Uniform m) (grows : top <+: m)
    (opens : opensBlock (m.drop top.length) = true) : Deepens top m := by
  obtain ⟨added, rfl⟩ := grows
  rw [List.drop_left] at opens
  -- what was added is of one kind too, so that its length is all that is left to tell
  obtain ⟨n, h | h⟩ := h <;> obtain ⟨-, hk, hadded⟩ := List.append_eq_replicate_iff.mp h <;>
    rw [hadded] at opens ⊢
  · obtain ⟨k, hlength⟩ : ∃ k, added.length = k + 2 := by
      refine ⟨added.length - 2, ?_⟩
      cases hl : added.length with
      | zero => rw [hl] at opens; cases opens
      | succ l => simp [hl, opensBlock, List.replicate_succ] at opens; omega
    rw [hlength]
    exact .spaces k
  · obtain ⟨k, hlength⟩ : ∃ k, added.length = k + 1 := by
      refine Nat.exists_eq_succ_of_ne_zero fun hl => ?_
      rw [hl] at opens
      cases opens
    rw [hlength]
    exact .tabs k

namespace Chain

variable {frames : List (List Char)} {m : List Char}

theorem ne_nil (h : Chain frames) : frames ≠ [] := by
  rintro rfl
  cases h.base

theorem base_mem (h : Chain frames) : [] ∈ frames := List.mem_of_getLast? h.base

theorem push (h : Chain frames) (hm : Uniform m) (grows : Deepens (frames.headD []) m) :
    Chain (m :: frames) := by
  obtain ⟨top, rest, rfl⟩ := List.exists_cons_of_ne_nil h.ne_nil
  exact ⟨h.base, .cons_cons grows h.deepens, List.forall_mem_cons.mpr ⟨hm, h.uniform⟩⟩

/-- The blocks inside an open one come to an end. -/
theorem close (h : Chain frames) (hm : m ∈ frames) : Chain (frames.dropWhile (· != m)) := by
  have hsuffix : frames.dropWhile (· != m) <:+ frames := List.dropWhile_suffix _
  have hne : frames.dropWhile (· != m) ≠ [] := fun hnil => by
    simpa using List.dropWhile_eq_nil_iff.mp hnil m hm
  refine ⟨?_, h.deepens.suffix hsuffix, fun f hf => h.uniform f (hsuffix.mem hf)⟩
  obtain ⟨inner, happend⟩ := hsuffix
  rw [← h.base, ← List.getLast?_append_of_ne_nil inner hne, happend]

end Chain

/-- What has been read of a margin is blank. -/
def Margin.Blank (m : Margin) : Prop := ∀ b ∈ m.blanks, b = ' ' ∨ b = '\t'

theorem Margin.blank_new (p : Position) : (⟨p, []⟩ : Margin).Blank := fun _ hb => nomatch hb

/-- The margin that the line began with, while nothing but blanks and comments has followed it. -/
def Mode.margin? : Mode → Option Margin
  | .margin m | .marginSlash m _ | .marginRemark m => some m
  | .remark _ _ _ back => back
  | _ => none

namespace State

/-- What holds of the blocks in every state. -/
structure Chained (s : State) : Prop where
  frames : Chain s.frames
  level : levelsOf s.tokens = s.frames.length - 1
  blanks : ∀ m ∈ s.mode.margin?, m.Blank

variable {inner : Option Inner} {s t : State}

theorem chained_initial : initial.Chained :=
  ⟨⟨rfl, .singleton _, fun _ hm => ⟨0, .inl (List.mem_singleton.mp hm)⟩⟩, rfl,
    fun _ hm => by cases hm; exact Margin.blank_new _⟩

namespace Chained

theorem become (h : s.Chained) {mode : Mode}
    (hm : ∀ m ∈ mode.margin?, m.Blank) : (s.become mode).Chained :=
  ⟨h.frames, h.level, hm⟩

/-- A mode in the middle of a line. -/
theorem leave (h : s.Chained) {mode : Mode} (hm : mode.margin? = none) : (s.become mode).Chained :=
  h.become fun m hback => by rw [hm] at hback; cases hback

theorem token (h : s.Chained) {u : Token} (hu : u.kind.levelChange = 0) :
    levelsOf (u :: s.tokens) = s.frames.length - 1 := by
  rw [levelsOf_cons, hu, h.level, Int.zero_add]

theorem emit (h : s.Chained) {p : Position} {k : TokenKind} (hk : k.levelChange = 0) :
    (s.emit p k).Chained :=
  ⟨h.frames, h.token hk, fun _ hm => nomatch hm⟩

theorem report (h : s.Chained) (d : Diagnostic) : (s.report d).Chained := ⟨h.frames, h.level, h.blanks⟩

theorem fail (h : s.Chained) (p : Position) (cause : Cause) : (s.fail p cause).Chained :=
  ⟨h.frames, h.level, fun _ hm => nomatch hm⟩

theorem emitWord (h : s.Chained) (p : Position) (text : List Char) : (s.emitWord p text).Chained := by
  unfold State.emitWord
  dsimp only
  split <;> exact h.emit rfl

theorem closeBracket (h : s.Chained) (p : Position) (b : Punctuation) : (s.closeBracket p b).Chained := by
  unfold State.closeBracket
  split
  · exact (h.fail p _).emit rfl
  · dsimp only
    split <;> exact ⟨h.frames, h.token rfl, fun _ hm => by cases hm⟩

theorem endLine (h : s.Chained) (p : Position) : (s.endLine p).Chained := by
  unfold State.endLine
  split
  · exact (h.emit rfl).become fun _ hm => by cases hm; exact Margin.blank_new _
  · exact h.leave rfl

/-- As many blocks are closed as margins are given up. -/
theorem closeTo (h : s.Chained) {m : List Char} (hm : m ∈ s.frames) (p : Position) :
    (s.closeTo m p).Chained := by
  refine ⟨h.frames.close hm, ?_, h.blanks⟩
  have hlength := congrArg List.length (s.frames.takeWhile_append_dropWhile (p := (· != m)))
  have hclosed : levelsOf ((s.frames.takeWhile (· != m)).map fun _ => (⟨.dedent, p.to p⟩ : Token)) =
      -(s.frames.takeWhile (· != m)).length := by
    generalize s.frames.takeWhile (· != m) = closed
    induction closed with
    | nil => rfl
    | cons f closed ih =>
      rw [List.map_cons, levelsOf_cons, ih, List.length_cons, TokenKind.levelChange]
      omega
  rw [List.length_append] at hlength
  simp only [State.closeTo, levelsOf_append, hclosed, h.level]
  omega

theorem settleMargin (h : s.Chained) (p : Position) {m : List Char} (hm : ∀ b ∈ m, b = ' ' ∨ b = '\t') :
    (s.settleMargin p m).Chained := by
  simp only [State.settleMargin]
  split
  · exact h
  split
  · exact h.report _
  next hunmixed =>
  split
  · next hbegins =>
    split
    · next hopens =>
      have huniform := uniform_of_blanks hm hunmixed
      refine ⟨h.frames.push huniform (huniform.deepens hbegins hopens), ?_, h.blanks⟩
      simp only [levelsOf_cons, h.level, TokenKind.levelChange, List.length_cons]
      omega
    · exact h.report _
  split
  · next hmem => exact h.closeTo hmem _
  · exact h.report _

theorem leaveMargin (h : s.Chained) {m : Margin} (hm : m.Blank) :
    (s.leaveMargin m).Chained :=
  (h.settleMargin _ fun b hb => hm b (List.mem_reverse.mp hb)).leave rfl

theorem level_of_symbol {c : Char} {k : TokenKind} (h : symbol? c = some k) : k.levelChange = 0 := by
  unfold symbol? at h
  split at h <;> cases h <;> rfl

theorem margin_of_pending {p : Position} {c : Char} {mode : Mode} (h : pending? p c = some mode) :
    mode.margin? = none := by
  unfold pending? at h
  repeat' split at h
  all_goals cases h <;> rfl

theorem start (h : s.Chained) (p : Position) (c : Char) : (s.start p c).Chained := by
  unfold State.start
  split
  · exact h.leave rfl
  split
  · exact h.endLine p
  split
  · next hsymbol => exact h.emit (level_of_symbol hsymbol)
  · exact ⟨h.frames, h.token rfl, fun _ hm => nomatch hm⟩
  · exact h.closeBracket p _
  · next hpending _ _ _ => exact h.leave (margin_of_pending hpending)
  · exact h.fail p _

theorem settle (h : s.Chained) : s.settle.Chained := by
  have hm := h.blanks
  unfold State.settle
  cases hs : s.mode with
  | ready => exact h
  | margin m | marginRemark m => rw [hs] at hm; exact h.leaveMargin (hm m rfl)
  | marginSlash m slash => rw [hs] at hm; exact (h.leaveMargin (hm m rfl)).emit rfl
  | note alone => exact h.leave rfl
  | word p text => exact h.emitWord p text
  | point p whole dot | secondPoint p whole places dot =>
    exact emit (s := { s with tokens := _ :: s.tokens }) ⟨h.frames, h.token rfl, h.blanks⟩ rfl
  | slash p | minus p | less p | greater p | bar p | underscore p | digits p whole
  | fraction p whole places => exact h.emit rfl
  | remark opened depth last back | bang p | underscoreWord p text | repeatedPoint p text
  | digitWord p text => exact h.fail _ _
  | text q | escape q | hole q b | holeEscape q b => exact (h.fail _ _).emit rfl

theorem closeHole (h : s.Chained) (q : Quoted) (b : Hole) : (s.closeHole inner q b).Chained := by
  unfold State.closeHole
  dsimp only
  split
  · exact (h.report _).leave rfl
  cases inner with
  | none => exact (h.report _).leave rfl
  | some scan => exact ⟨h.frames, h.level, fun _ hm => by cases hm⟩

theorem burrow (h : s.Chained) (q : Quoted) (b : Hole) (c : Char) : (s.burrow inner q b c).Chained := by
  unfold State.burrow
  split
  · exact h.closeHole q b
  · dsimp only
    split <;> exact h.leave rfl

theorem quote (h : s.Chained) (q : Quoted) (p : Position) (c : Char) : (s.quote q p c).Chained := by
  unfold State.quote
  repeat' split
  all_goals first
    | exact h.emit rfl
    | exact h.leave rfl
    | exact (h.report _).leave rfl

theorem remark (h : s.Chained) (opened : Position) (depth : Nat) (last : Option Char)
    {back : Option Margin} (hback : ∀ m ∈ back, m.Blank) (c : Char) :
    (s.remark opened depth last back c).Chained := by
  unfold State.remark
  repeat' split
  all_goals exact h.become hback

theorem margin (h : s.Chained) {m : Margin} (hm : m.Blank) {p : Position}
    {c : Char} (hj : s.margin m p c = some t) : t.Chained := by
  unfold State.margin at hj
  split at hj
  · next hc =>
    cases hj
    refine h.become fun m' hm' b hb => ?_
    cases hm'
    exact (List.mem_cons.mp hb).elim (fun he => he ▸ hc) (hm b)
  split at hj
  · cases hj
    exact h.become fun _ hm' => by cases hm'; exact Margin.blank_new _
  split at hj
  · cases hj
    exact h.leave rfl
  split at hj
  · cases hj
    exact h.become fun m' hm' => by cases hm'; exact hm
  · cases hj

theorem join (h : s.Chained) {p : Position} {c : Char} (hj : s.join inner p c = some t) :
    t.Chained := by
  have hm := h.blanks
  unfold State.join at hj
  cases hs : s.mode with
  | margin m =>
    rw [hs] at hm
    simp only [hs] at hj
    exact h.margin (hm m rfl) hj
  | marginSlash m slash =>
    rw [hs] at hm
    simp only [hs] at hj
    split at hj <;> cases hj
    exact h.become hm
  | marginRemark m =>
    simp only [hs] at hj
    repeat' split at hj
    all_goals cases hj
    · exact h
    · exact h.become fun _ hm' => by cases hm'; exact Margin.blank_new _
    · exact h.leave rfl
  | note alone =>
    simp only [hs] at hj
    repeat' split at hj
    all_goals cases hj
    · exact h
    · exact h.become fun _ hm' => by cases hm'; exact Margin.blank_new _
  | remark opened depth last back =>
    rw [hs] at hm
    simp only [hs] at hj
    cases hj
    exact h.remark opened depth last hm c
  | word start text =>
    simp only [hs] at hj
    repeat' split at hj
    all_goals cases hj
    · exact h.leave rfl
    · exact h.emitWord start _
  | text q | hole q b =>
    simp only [hs] at hj
    split at hj <;> cases hj
    first
      | exact h.quote q p c
      | exact h.burrow q b c
  | _ =>
    simp only [hs] at hj
    repeat' split at hj
    all_goals cases hj
    all_goals first
      | exact h.leave rfl
      | exact h.emit rfl
      | exact h.fail _ _

theorem step (h : s.Chained) (c : Char) : (s.step inner c).Chained := by
  have hpast : ∀ {u : State}, u.Chained → (u.past c).Chained :=
    fun hu => ⟨hu.frames, hu.level, hu.blanks⟩
  unfold State.step
  split
  · next hj => exact (hpast h).join hj
  · exact (hpast h.settle).start _ c

theorem run (h : s.Chained) (cs : List Char) : (s.run inner cs).Chained := by
  induction cs generalizing s with
  | nil => exact h
  | cons c cs ih => exact ih (h.step c)

theorem closeAll (h : s.Chained) : s.closeAll.Chained := h.closeTo h.frames.base_mem _

theorem finish (h : s.Chained) : s.finish.Chained := by
  unfold State.finish
  split
  · exact h.closeAll.emit rfl
  · exact (h.settle.emit rfl).closeAll.emit rfl

/-- Each margin but the empty one of the text is that of a block that was opened and not closed. -/
theorem count (h : s.Chained) :
    s.tokens.countP (·.kind.isIndent) = s.tokens.countP (·.kind.isDedent) + (s.frames.length - 1) := by
  have hlevel := h.level
  have hpos := List.length_pos_of_ne_nil h.frames.ne_nil
  rw [levelsOf_eq_count] at hlevel
  omega

end Chained

/-- A margin is reported instead of opening or closing blocks. -/
theorem settleMargin_of_reported {p : Position} {m : List Char}
    (h : (s.settleMargin p m).errors ≠ s.errors) :
    (s.settleMargin p m).frames = s.frames ∧ (s.settleMargin p m).tokens = s.tokens := by
  simp only [settleMargin] at h ⊢
  split
  · exact ⟨rfl, rfl⟩
  split
  · exact ⟨rfl, rfl⟩
  split
  · split
    · simp_all
    · exact ⟨rfl, rfl⟩
  split
  · simp_all
  · exact ⟨rfl, rfl⟩

end State

/-- The states of the scanner in a text: after any part of it, also once what was pending there has come
to an end, and at its end. -/
inductive Visits (cs : List Char) : State → Prop
  | read {before : List Char} (part : before <+: cs) : Visits cs (scan before)
  | settled {before : List Char} (part : before <+: cs) : Visits cs (scan before).settle
  | finished : Visits cs (scan cs).finish

theorem chained_of_visits {cs : List Char} {s : State} (h : Visits cs s) : s.Chained := by
  have hscan : ∀ before, (scan before).Chained := fun before => State.chained_initial.run before
  cases h with
  | @read before part => exact hscan before
  | @settled before part => exact (hscan before).settle
  | finished => exact (hscan cs).finish

/-- The margins of the open blocks grow from the empty one, and the tokens say how many blocks are open.
A margin that is reported leaves both as they were. -/
theorem frames_chain {cs : List Char} {s : State} (h : Visits cs s) :
    Chain s.frames ∧
      s.tokens.countP (·.kind.isIndent) =
        s.tokens.countP (·.kind.isDedent) + (s.frames.length - 1) ∧
      ∀ m, (s.leaveMargin m).errors ≠ s.errors →
        (s.leaveMargin m).frames = s.frames ∧ (s.leaveMargin m).tokens = s.tokens :=
  have hs := chained_of_visits h
  ⟨hs.frames, hs.count, fun _ hm => State.settleMargin_of_reported hm⟩

/-- Three spaces, where two and four are open. -/
theorem frames_chain_three :
    let s := scan "a\n  b\n    c\n   ".toList
    let m : Margin := ⟨⟨12, 4, 1⟩, [' ', ' ', ' ']⟩
    s.mode.margin?.map (·.blanks) = some m.blanks ∧ (s.leaveMargin m).errors.length = 1 ∧
      Chain s.frames ∧ (s.leaveMargin m).frames = s.frames ∧
      s.tokens.countP (·.kind.isIndent) = s.tokens.countP (·.kind.isDedent) + 2 := by
  intro s m
  have hvisits : Visits "a\n  b\n    c\n   ".toList s := .read List.prefix_rfl
  have hreported : (s.leaveMargin m).errors.length = 1 := by decide +kernel
  have hnone : s.errors.length = 0 := by decide +kernel
  have hframes : s.frames.length = 3 := by decide +kernel
  obtain ⟨hchain, hcount, hleave⟩ := frames_chain hvisits
  rw [hframes] at hcount
  refine ⟨by decide +kernel, hreported, hchain, (hleave m fun he => ?_).1, hcount⟩
  rw [he, hnone] at hreported
  cases hreported

end PipeLang.Scan
