import PipeLang.Proofs.Format.WrittenExpr

/-! Lines as they are read. The margin of a line opens a block, stays in it or closes it, and the line
feed after the last token ends the line, for no bracket is open there. -/

namespace PipeLang

open Scan State

namespace Scan.State

variable {inner : Option Inner} {s : State} {c : Char} {start : Position}

/-- A character that ends a margin. -/
structure LeavesMargin (c : Char) : Prop where
  visible : isBlank c = false
  no_note : c ≠ '#'
  no_slash : c ≠ '/'

theorem run_blanks {blanks : List Char} (k : Nat) (hs : s.mode = .margin ⟨start, blanks⟩) :
    s.run inner (List.replicate k ' ') =
      { s with
        mode := .margin ⟨start, List.replicate k ' ' ++ blanks⟩
        position := s.position.after (List.replicate k ' ') } := by
  induction k generalizing s blanks with
  | zero =>
    cases s
    cases hs
    rfl
  | succ k ih =>
    have hstep : s.step inner ' ' = (s.past ' ').become (.margin ⟨start, ' ' :: blanks⟩) := by
      refine step_of_join ?_
      have hmode : (s.past ' ').mode = .margin ⟨start, blanks⟩ := hs
      unfold join
      rw [hmode]
      rfl
    have hblanks : List.replicate k ' ' ++ ' ' :: blanks =
        List.replicate (k + 1) ' ' ++ blanks := by
      rw [List.replicate_succ', List.append_assoc]
      rfl
    rw [List.replicate_succ, run_cons, hstep, ih rfl, hblanks]
    rfl

theorem run_leave {m : Margin} (hs : s.mode = .margin m) (hc : LeavesMargin c) (cs : List Char) :
    s.run inner (c :: cs) = (s.leaveMargin m).run inner (c :: cs) := by
  have hmode : (s.past c).mode = .margin m := hs
  have hne : ∀ d, isBlank d = true → c ≠ d := by
    rintro d hd rfl
    rw [hc.visible] at hd
    cases hd
  have hnone : (s.past c).join inner s.position c = none := by
    unfold join
    rw [hmode]
    dsimp only
    unfold margin
    rw [if_neg (by simp [hne ' ' (by decide), hne '\t' (by decide)]),
      if_neg (by simp [hne '\n' (by decide), hne '\r' (by decide)]), if_neg hc.no_note,
      if_neg hc.no_slash]
  have hsettle : s.settle = s.leaveMargin m := by
    unfold settle
    rw [hs]
  rw [run_cons, run_cons, step_of_none hnone, hsettle, step_of_ready rfl]

/-! What a margin of blanks does, where at most one block of blanks is open. -/

theorem settleMargin_same {m : List Char} (h : s.frames.headD [] = m) :
    s.settleMargin start m = s := by
  unfold settleMargin
  exact if_pos h.symm

theorem settleMargin_opens {k : Nat} (hk : 2 ≤ k) (h : s.frames = [[]]) :
    s.settleMargin start (List.replicate k ' ') =
      { s with
        frames := [List.replicate k ' ', []]
        tokens := ⟨.indent, start.to (start.after (List.replicate k ' '))⟩ :: s.tokens } := by
  have hne : List.replicate k ' ' ≠ [] := by
    rw [ne_eq, List.replicate_eq_nil_iff]
    omega
  have htab : '\t' ∉ List.replicate k ' ' := by
    intro hm
    exact absurd (List.eq_of_mem_replicate hm) (by decide)
  have hopens : opensBlock (List.replicate k ' ') = true := by
    unfold opensBlock
    rw [List.length_replicate]
    simp [hk]
  unfold settleMargin
  rw [h]
  dsimp only [List.headD]
  rw [if_neg hne, if_neg (fun hm => htab hm.2), if_pos (List.nil_prefix), List.length_nil,
    List.drop_zero, if_pos hopens]

theorem settleMargin_closes {m : List Char} (hm : m ≠ []) (h : s.frames = [m, []]) :
    s.settleMargin start [] =
      { s with frames := [[]], tokens := ⟨.dedent, start.to start⟩ :: s.tokens } := by
  have hprefix : ¬ m <+: [] := by
    intro hp
    exact hm (List.prefix_nil.mp hp)
  unfold settleMargin
  rw [h]
  dsimp only [List.headD]
  rw [if_neg hm.symm, if_neg (fun hn => absurd hn.1 List.not_mem_nil), if_neg hprefix,
    if_pos (by simp)]
  unfold closeTo
  rw [h]
  simp [hm, Position.after]

/-- At the start of a line, with `blocks` open and nothing wrong so far. -/
structure Starts (s : State) (blocks : List (List Char)) : Prop where
  mode : s.mode = .margin ⟨s.position, []⟩
  frames : s.frames = blocks ++ [[]]
  brackets : s.brackets = []
  errors : s.errors = []

end Scan.State

namespace Parse

open Format

variable {cs ds : List Char} {ps qs : List Piece} {blocks blocks' blocks'' : List (List Char)}

/-- Reading the lines `cs` gives the tokens of `ps` and leaves `blocks'` open. -/
def ReadsLines (blocks : List (List Char)) (cs : List Char) (ps : List Piece)
    (blocks' : List (List Char)) : Prop :=
  ∀ s : State, s.Starts blocks → (s.run (inner? nestingLimit) cs).Starts blocks' ∧
    (s.run (inner? nestingLimit) cs).position = s.position.after cs ∧
    ∃ ts, (s.run (inner? nestingLimit) cs).tokens = ts.reverse ++ s.tokens ∧
      Laid s.position.offset s.position.offset ps ts (s.position.after cs).offset
        (s.position.after cs).offset

namespace ReadsLines

theorem nil : ReadsLines blocks [] [] blocks :=
  fun _ hs => ⟨hs, rfl, [], rfl, .nil _ _⟩

theorem append (hc : ReadsLines blocks cs ps blocks') (hd : ReadsLines blocks' ds qs blocks'') :
    ReadsLines blocks (cs ++ ds) (ps ++ qs) blocks'' := by
  intro s hs
  obtain ⟨hstarts, hpos, ts, htokens, hlaid⟩ := hc s hs
  obtain ⟨hstarts', hpos', us, htokens', hlaid'⟩ := hd _ hstarts
  rw [hpos] at hpos' hlaid'
  refine ⟨?_, ?_, ts ++ us, ?_, ?_⟩
  · rwa [run_append]
  · rw [run_append, hpos', Position.after_append]
  · rw [run_append, htokens', htokens, List.reverse_append, List.append_assoc]
  · rw [Position.after_append]
    exact hlaid.append hlaid'

end ReadsLines

/-- Leaving the margin `m` gives the tokens of `ps` and turns the open blocks to `blocks'`. -/
def Enters (blocks : List (List Char)) (m : List Char) (ps : List Piece)
    (blocks' : List (List Char)) : Prop :=
  ∀ (s : State) (start : Position), s.frames = blocks ++ [[]] → ∃ es v q,
    s.settleMargin start m =
      { s with frames := blocks' ++ [[]], tokens := es.reverse ++ s.tokens } ∧
    Laid start.offset start.offset ps es v q ∧ q ≤ (start.after m).offset

theorem enters_same (blocks : List (List Char)) : Enters blocks (blocks.headD []) [] blocks := by
  intro s start hs
  refine ⟨[], start.offset, start.offset, ?_, .nil _ _, Position.offset_le_after _ _⟩
  have htop : s.frames.headD [] = blocks.headD [] := by
    rw [hs]
    cases blocks <;> rfl
  rw [settleMargin_same htop, ← hs]
  rfl

theorem enters_opens {k : Nat} (hk : 2 ≤ k) :
    Enters [] (List.replicate k ' ') [.plain .indent] [List.replicate k ' '] := by
  intro s start hs
  refine ⟨_, _, _, settleMargin_opens hk hs, laid_token (Position.offset_le_after _ _), ?_⟩
  exact Nat.le_refl _

theorem enters_closes {m : List Char} (hm : m ≠ []) :
    Enters [m] [] [.plain .dedent] [] := by
  intro s start hs
  refine ⟨[_], _, _, settleMargin_closes hm hs, laid_token (Nat.le_refl _), Nat.le_refl _⟩

/-- A line, from its margin to its line feed. -/
theorem readsLines_line {k : Nat} (hm : Enters blocks (List.replicate k ' ') qs blocks')
    (h : Written nestingLimit cs ps) (hslash : ps.head? ≠ some (.plain (.operator .slash))) :
    ReadsLines blocks (List.replicate k ' ' ++ (cs ++ ['\n'])) (qs ++ (ps ++ [.plain .newline]))
      blocks' := by
  obtain ⟨c, rest, x, more, rfl, rfl, hx⟩ := h.head
  have hc : LeavesMargin c := by
    refine ⟨hx.visible, hx.no_note, fun he => hslash ?_⟩
    rw [hx.slash he]
    rfl
  intro s hs
  obtain ⟨es, v, q, hsettle, hentry, hq⟩ :=
    hm { s with
          mode := .margin ⟨s.position, List.replicate k ' ' ++ []⟩
          position := s.position.after (List.replicate k ' ') } s.position hs.frames
  let t : State :=
    { s with
      mode := .ready
      position := s.position.after (List.replicate k ' ')
      frames := blocks' ++ [[]]
      tokens := es.reverse ++ s.tokens }
  have hleave : s.run (inner? nestingLimit) (List.replicate k ' ' ++ (c :: rest ++ ['\n'])) =
      (t.run (inner? nestingLimit) (c :: rest)).run (inner? nestingLimit) ['\n'] := by
    rw [run_append, run_blanks k hs.mode, ← run_append]
    refine (run_leave rfl hc (rest ++ ['\n'])).trans ?_
    unfold leaveMargin
    rw [List.append_nil, List.reverse_replicate]
    rw [List.append_nil] at hsettle
    rw [hsettle]
    rfl
  obtain ⟨hmode, ts, hread, hlaid⟩ := h.reads t rfl
  have hend : (t.run (inner? nestingLimit) (c :: rest)).run (inner? nestingLimit) ['\n'] =
      (((t.read (c :: rest) ts).past '\n').emit (t.position.after (c :: rest)) .newline).become
        (.margin ⟨(t.position.after (c :: rest)).advance '\n', []⟩) := by
    rw [run_cons, run_nil, step_of_isBreak hmode rfl, hread, step_of_ready rfl]
    have hbrackets : ((t.read (c :: rest) ts).past '\n').brackets = [] := hs.brackets
    show State.endLine _ _ = _
    unfold endLine
    rw [hbrackets]
    rfl
  have hafter : s.position.after (List.replicate k ' ' ++ (c :: rest ++ ['\n'])) =
      (t.position.after (c :: rest)).advance '\n' := by
    rw [Position.after_append, Position.after_append]
    rfl
  let feed : Token := ⟨.newline, (t.position.after (c :: rest)).to
    ((t.position.after (c :: rest)).advance '\n')⟩
  rw [hleave, hend, hafter]
  refine ⟨⟨rfl, rfl, hs.brackets, hs.errors⟩, rfl, es ++ (ts ++ [feed]), ?_, ?_⟩
  · simp [t, feed, emit, become, past, State.read]
  · refine hentry.append (.skip hq ?_)
    have hfeed : Laid _ _ [.plain .newline] [feed] _ _ :=
      laid_token (Nat.le_of_lt (offset_lt_advance (t.position.after (c :: rest)) '\n'))
    have hline := hlaid.append hfeed
    exact Laid.of_isToken hx.token hline v

end Parse

end PipeLang
