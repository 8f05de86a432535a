import PipeLang.Proofs.Format.ReadArguments

/-! Stages are read back, and so are pipelines and whole expressions. -/

namespace PipeLang

namespace Format

/-- The arguments of a stage that are written. -/
def written : List Expr → List Expr
  | [] => []
  | a :: rest => if a.isPlaceholder then rest else a :: rest

theorem writtenPieces_withPieces (args : List Expr) :
    writtenPieces (withPieces args) = withPieces (written args) := by
  cases args with
  | nil => rfl
  | cons a rest =>
    simp only [withPieces, writtenPieces, written]
    split <;> simp [withPieces]

theorem mem_of_written {args : List Expr} {a : Expr} (h : a ∈ written args) : a ∈ args := by
  unfold written at h
  split at h
  · exact h
  · split at h
    · exact List.mem_cons_of_mem _ h
    · exact h

theorem sizeOf_written (args : List Expr) : sizeOf (written args) ≤ sizeOf args := by
  unfold written
  split
  · exact Nat.le_refl _
  · split
    · simp only [List.cons.sizeOf_spec]
      omega
    · exact Nat.le_refl _

theorem placeholders_of_written (args : List Expr) :
    ((written args).filter Expr.isPlaceholder).length ≤
      (args.filter Expr.isPlaceholder).length := by
  unfold written
  split
  · exact Nat.le_refl _
  · next a rest =>
    split
    · next hp =>
      rw [List.filter_cons_of_pos hp, List.length_cons]
      omega
    · exact Nat.le_refl _

def stagePieces (g : Stage) : List Piece :=
  Parse.argumentPieces g.callee ++ spacedPieces (itemPieces (withPieces (written g.args)))

/-- A line end, an indented block with a line for each stage, and the end of the block. -/
def stageBlock (stages : List Stage) : List Piece :=
  .plain .newline :: .plain .indent ::
    (stages.flatMap (fun g => stagePieces g ++ [.plain .newline]) ++ [.plain .dedent])

theorem pipePieces_eq_flatMap (stages : List Stage) :
    pipePieces stages = stages.flatMap fun g => .gap :: .mark .pipe :: .gap :: stagePieces g := by
  induction stages with
  | nil => rfl
  | cons g rest ih =>
    obtain ⟨_, callee, args⟩ := g
    rw [pipePieces, ih, writtenPieces_withPieces]
    rfl

theorem needsParens_of_isPath {e : Expr} (h : e.isPath = true) : needsParens .argument e = false := by
  cases e <;> first | rfl | cases h

end Format

namespace Parse

open Format

variable {o : ParseOptions} {S : Cursor → Prop}

theorem pieces_of_isPath {e : Expr} (h : e.isPath = true) :
    ∃ s rest, argumentPieces e = .name s :: rest := by
  unfold argumentPieces
  rw [placePieces_of_false (needsParens_of_isPath h)]
  induction e using Expr.isPath.induct with
  | case1 s name => exact ⟨name, [], by rw [pieces]⟩
  | case2 s target field ih =>
    have htarget : target.isPath = true := h
    obtain ⟨name, rest, he⟩ := ih htarget
    refine ⟨name, rest ++ fieldPieces field.text, ?_⟩
    rw [pieces]
    have hp : targetPieces target (pieces target) = pieces target := by
      unfold targetPieces
      split
      · cases htarget
      · exact placePieces_of_false (needsParens_of_isPath htarget) _
    rw [hp, he]
    rfl
  | case3 e h1 h2 =>
    unfold Expr.isPath at h
    split at h
    · exact absurd rfl (h1 _ _)
    · exact absurd rfl (h2 _ _ _)
    · cases h

theorem filter_length_of_same {args found : List Expr} (h : List.Forall₂ Expr.Same args found) :
    (found.filter Expr.isPlaceholder).length = (args.filter Expr.isPlaceholder).length := by
  induction h with
  | nil => rfl
  | cons hv _ ih =>
    rw [List.filter_cons, List.filter_cons, hv.isPlaceholder]
    split
    · rw [List.length_cons, List.length_cons, ih]
    · exact ih

theorem any_isPlaceholder {args : List Expr} :
    args.any Expr.isPlaceholder = decide (0 < (args.filter Expr.isPlaceholder).length) := by
  cases hany : args.any Expr.isPlaceholder with
  | true =>
    obtain ⟨a, ha, hp⟩ := List.any_eq_true.mp hany
    have := List.length_pos_of_mem (List.mem_filter.mpr ⟨ha, hp⟩)
    exact (decide_eq_true this).symm
  | false =>
    have hnone : args.filter Expr.isPlaceholder = [] := by
      rw [List.filter_eq_nil_iff]
      intro a ha hp
      rw [List.any_eq_true.mpr ⟨a, ha, hp⟩] at hany
      cases hany
    rw [hnone]
    rfl

/-- The placeholder that is not written is put back in front. -/
theorem erase_stageOf {g : Stage} (hg : g.Formed) {head : Expr} {found : List Expr}
    (hhead : g.callee.Same head) (hfound : List.Forall₂ Expr.Same (written g.args) found) :
    (stageOf head found).erase = g.erase := by
  obtain ⟨s, callee, args⟩ := g
  have hhead : head.erase = callee.erase := hhead
  have hmap : found.map Expr.erase = (written args).map Expr.erase := map_eq_of_forall₂ hfound
  have hlen := filter_length_of_same hfound
  have hone : (args.filter Expr.isPlaceholder).length = 1 := hg.2
  have hargs : (if found.any Expr.isPlaceholder then found
      else .wildcard head.span [] :: found).map Expr.erase = args.map Expr.erase := by
    cases args with
    | nil => cases hone
    | cons a rest =>
      cases hp : a.isPlaceholder with
      | true =>
        have hrest : written (a :: rest) = rest := by rw [written, if_pos hp]
        rw [hrest] at hmap hlen
        rw [List.filter_cons_of_pos hp, List.length_cons] at hone
        have hany : found.any Expr.isPlaceholder = false := by
          rw [any_isPlaceholder, hlen]
          exact decide_eq_false (by omega)
        rw [hany, if_neg Bool.false_ne_true, List.map_cons, List.map_cons, hmap]
        cases a with
        | wildcard t path =>
          have hpath : path = [] := by simpa [Expr.isPlaceholder] using hp
          rw [hpath]
          rfl
        | _ => cases hp
      | false =>
        have hrest : written (a :: rest) = a :: rest := by rw [written, hp]; rfl
        rw [hrest] at hmap hlen
        have hany : found.any Expr.isPlaceholder = true := by
          rw [any_isPlaceholder, hlen, hone]
          rfl
        rw [hany, if_pos rfl, hmap]
  simp only [stageOf, Stage.erase, Stage.relocate]
  exact congr (congrArg _ hhead) hargs

/-- A stage of a pipeline that takes up `room`. -/
structure IsStage (o : ParseOptions) (n room : Nat) (g : Stage) : Prop where
  formed : g.Formed
  callee : g.callee.Formed n
  args : ∀ a ∈ g.args, a.Formed n
  below : Below o room
  size : sizeOf g ≤ room

theorem IsStage.written {n room : Nat} {g : Stage} (h : IsStage o n room g) :
    IsArguments o n room (written g.args) := by
  have hsize := h.size
  have hg : sizeOf g.args ≤ sizeOf g := by
    cases g
    simp only [Stage.mk.sizeOf_spec]
    omega
  refine ⟨fun e he => h.args e (mem_of_written he), h.below, ?_⟩
  have := sizeOf_written g.args
  omega

theorem reads_stage {n room levels budget : Nat} {g : Stage} (h : IsStage o n room g)
    (hl : room ≤ levels) (hb : room ≤ budget) :
    Reads (stage o (primary o levels) budget) (stagePieces g) (Cursor.StopsChain 0)
      (fun v => v.erase = g.erase) := by
  have hsize := h.size
  have hcallee : sizeOf g.callee + 1 ≤ sizeOf g := by
    cases g
    simp only [Stage.mk.sizeOf_spec]
    omega
  have hread := h.below n g.callee h.callee (by omega)
  have hident : ∀ c, At (stagePieces g) (Cursor.StopsChain 0) c → c.atIdent = true := by
    intro c hc
    obtain ⟨s, rest, he⟩ := pieces_of_isPath h.formed.1
    unfold stagePieces at hc
    rw [he] at hc
    unfold Cursor.atIdent
    rw [At.kind hc]
    rfl
  refine .test_bind (a := true) hident ?_
  rw [if_pos rfl, stagePieces]
  have hlevels : sizeOf g.callee + 1 ≤ levels := by omega
  have hbudget : sizeOf g.callee + 1 ≤ budget := by omega
  refine .bind (hread.argument.reads (fun _ hc => hc) hlevels hbudget) (fun head hhead => ?_) ?_
  · rw [← List.append_nil (spacedPieces _)]
    refine .bind (reads_spaced h.written hl hb) (fun found hfound => ?_) fun c hc => hc
    have hle : (found.filter Expr.isPlaceholder).length ≤ 1 := by
      rw [filter_length_of_same hfound]
      exact Nat.le_trans (placeholders_of_written g.args) (Nat.le_of_eq h.formed.2)
    rcases hf : found.filter Expr.isPlaceholder with _ | ⟨first, _ | ⟨second, rest⟩⟩
    · exact .pure (erase_stageOf h.formed hhead hfound)
    · exact .pure (erase_stageOf h.formed hhead hfound)
    · rw [hf] at hle
      simp at hle
  · intro c hc
    exact stopsAccess_of_items h.written.formed (fun c hc => hc.1.1) hc

/-! Pipelines, on one line or with a line for each stage. -/

theorem erase_stages {stages found : List Stage}
    (h : List.Forall₂ (fun g v => Stage.erase v = Stage.erase g) stages found) :
    found.map Stage.erase = stages.map Stage.erase :=
  map_eq_of_forall₂ h

/-- A round of `inlineStages`. -/
def inlineRound (o : ParseOptions) (primary : Primary) (s : Stages) : Parse (Round Stages) := do
  if ← accept (·.atPunctuation .pipe) then
    let s ← pushStage o primary s
    pure (.again s)
  else pure (.done s)

section

variable {n room levels budget : Nat} {stages : List Stage} (hpipe : o.resolvePipelines = false)
  (hst : ∀ g ∈ stages, IsStage o n room g) (hl : room ≤ levels) (hb : room ≤ budget)

/-- The stages read so far, with the budget that was there at first. -/
def StagesRead (budget : Nat) (past : List Stage) (s : Stages) : Prop :=
  s.budget = budget ∧ List.Forall₂ (fun g v => Stage.erase v = Stage.erase g) past s.stages.reverse

theorem StagesRead.push {past : List Stage} {s : Stages} (h : StagesRead budget past s) {g v : Stage}
    (hv : v.erase = g.erase) : StagesRead budget (past ++ [g]) ⟨s.budget, v :: s.stages⟩ := by
  refine ⟨h.1, ?_⟩
  rw [List.reverse_cons]
  exact List.rel_append h.2 (.cons hv .nil)

theorem count_pos_of_stage {g : Stage} (h : IsStage o n room g) :
    0 < ((stagePieces g).map Piece.count).sum := by
  obtain ⟨s, rest, he⟩ := pieces_of_isPath h.formed.1
  rw [stagePieces, he]
  simp only [List.cons_append, List.map_cons, List.sum_cons, Piece.count]
  omega

include hpipe

theorem reads_pushStage {g : Stage} {past : List Stage} {s : Stages} (hg : IsStage o n room g)
    (hl : room ≤ levels) (hb : room ≤ budget) (hs : StagesRead budget past s) :
    Reads (pushStage o (primary o levels) s) (stagePieces g) (Cursor.StopsChain 0)
      (StagesRead budget (past ++ [g])) := by
  have hbudget : s.budget = budget := hs.1
  unfold pushStage
  rw [hpipe, if_neg Bool.false_ne_true, hbudget, ← List.append_nil (stagePieces g)]
  refine .bind (reads_stage hg hl hb) (fun v hv => .pure ?_) fun c hc => hc
  have hpush := hs.push hv
  rwa [hbudget] at hpush

omit hpipe in
theorem inlineStages_done {primary : Primary} {s : Stages} {c : Cursor}
    (h : c.atPunctuation .pipe = false) : inlineStages o primary s c = .ok s c := by
  refine roundsUpTo_done ?_ _
  rw [accept_bind_of_false h]
  rfl

include hst hl hb

theorem reads_inlineStages :
    Reads (inlineStages o (primary o levels) ⟨budget, []⟩) (pipePieces stages)
      (fun c => c.StopsChain 0 ∧ c.atPunctuation .pipe = false) (StagesRead budget stages) := by
  intro K hk c hc
  rw [pipePieces_eq_flatMap] at hc
  have hlen := hc.length_le fun g hg => by
    have := count_pos_of_stage (hst g hg)
    simp only [List.map_cons, List.sum_cons, Piece.count]
    omega
  have hround : ∀ past g todo, stages = past ++ g :: todo → ∀ s, StagesRead budget past s →
      Reads (inlineRound o (primary o levels) s) (.gap :: .mark .pipe :: .gap :: stagePieces g)
        (Cursor.StopsChain 0) fun r => ∃ s', r = .again s' ∧ StagesRead budget (past ++ [g]) s' := by
    intro past g todo he s hs
    have hg := hst g (he ▸ List.mem_append_right _ List.mem_cons_self)
    refine .gap (.accept_bind (by simp) (fun c hc => TokenKind.isPunctuation_iff.mpr hc) (.gap ?_))
    rw [if_pos rfl, ← List.append_nil (stagePieces g)]
    exact .bind (reads_pushStage hpipe hg hl hb hs) (fun s' hs' => .pure ⟨s', rfl, hs'⟩)
      fun c hc => hc
  have hnext : ∀ g ∈ stages, ∀ c, At (.gap :: .mark .pipe :: .gap :: stagePieces g)
      (Cursor.StopsChain 0) c → c.StopsChain 0 := by
    intro g _ c hc
    have hc : At (.mark .pipe :: .gap :: stagePieces g) (Cursor.StopsChain 0) c := hc.2
    exact stopsChain_of_pipeMark hc
  have hnone : StagesRead budget [] ⟨budget, []⟩ := ⟨rfl, .nil⟩
  obtain ⟨s, c', hs, hc', hrun⟩ := roundsUpTo_again hround hnext (fun c hc => (hk c hc).1) hnone hc
    (c.rest.length + 1 - stages.length)
  refine ⟨s, c', ?_, hs, hc'⟩
  show roundsUpTo (inlineRound o (primary o levels)) (c.rest.length + 1) _ c = _
  rw [show c.rest.length + 1 = stages.length + (c.rest.length + 1 - stages.length) by omega, hrun]
  refine roundsUpTo_done ?_ _
  rw [inlineRound, accept_bind_of_false (hk c' hc').2]
  rfl

theorem reads_allStages :
    Reads (allStages o (primary o levels) budget) (pipePieces stages) Cursor.StopsStages
      (List.Forall₂ (fun g v => Stage.erase v = Stage.erase g) stages) := by
  intro K hk c hc
  obtain ⟨s, c', hrun, hs, hc'⟩ := reads_inlineStages hpipe hst hl hb K
    (fun c hc => ⟨(hk c hc).chain, (hk c hc).inline⟩) c hc
  refine ⟨s.stages.reverse, c', ?_, hs.2, hc'⟩
  unfold allStages
  rw [bind_of_ok hrun]
  have hblock : openBlock TokenKind.isIdent c' = .ok false c' := by
    unfold openBlock
    rw [(hk c' hc').block]
    rfl
  rw [bind_of_ok hblock]
  rfl

end

/-! Stages on lines of their own, in an indented block. -/

theorem At.block {p : TokenKind → Bool} {ps : List Piece} {K : Cursor → Prop} {c : Cursor}
    (h : At (.plain .newline :: .plain .indent :: ps) K c)
    (hp : ∀ c, At ps K c → p c.kind = true) :
    c.atBlock p = true ∧ At ps K c.forward.forward := by
  have hline : c.atNewline = true := by
    unfold Cursor.atNewline
    rw [h.kind]
    rfl
  obtain ⟨⟨t, rest, hr, _⟩, hindent⟩ := h
  have hindent : At (.plain .indent :: ps) K c.forward := hindent
  have hkind : (c.kindAt 1).isIndent = true := by
    rw [Cursor.kindAt_one hr, hindent.kind]
    rfl
  obtain ⟨⟨u, rest', hr', _⟩, hps⟩ := hindent
  have hps : At ps K c.forward.forward := hps
  have htwo : c.kindAt 2 = c.forward.forward.kind := by
    unfold Cursor.kindAt Cursor.kind
    rw [Cursor.peekAt_succ hr, Cursor.peekAt_one hr']
  refine ⟨?_, hps⟩
  rw [Cursor.atBlock, hline, hkind, htwo, hp _ hps]
  rfl

/-- What `stageLine` does after its stages. -/
def stageLineEnd (s : Stages) : Parse (Round Stages) := do
  if ← accept Cursor.atNewline then
    if ← accept Cursor.atDedent then pure (.done s)
    else if ← test (·.kind.isIndent) then
      fail fun c => (c.failure .unevenStages).withNote
        "a stage line cannot be indented deeper than the stage before it"
    else pure (.again s)
  else if ← accept Cursor.atDedent then pure (.done s)
  else unexpected .afterStage [.newline, .punctuation .pipe]

theorem stageLine_eq (primary : Primary) (s : Stages) :
    stageLine o primary s =
      (pushStage o primary s >>= fun s => inlineStages o primary s >>= stageLineEnd) := rfl

section

variable {n room levels budget : Nat} {stages : List Stage} (hpipe : o.resolvePipelines = false)

theorem atIdent_of_stage {g : Stage} (hg : IsStage o n room g) {ps : List Piece}
    {K : Cursor → Prop} {c : Cursor} (hc : At (stagePieces g ++ ps) K c) : c.kind.isIdent = true := by
  obtain ⟨s, rest, he⟩ := pieces_of_isPath hg.formed.1
  rw [stagePieces, he] at hc
  rw [At.kind hc]
  rfl

include hpipe

theorem reads_stageLine {g : Stage} {past : List Stage} {s : Stages} {ps : List Piece}
    {Q : Round Stages → Prop} (hg : IsStage o n room g) (hl : room ≤ levels) (hb : room ≤ budget)
    (hs : StagesRead budget past s)
    (hend : ∀ s, StagesRead budget (past ++ [g]) s →
      Reads (stageLineEnd s) (.plain .newline :: ps) S Q) :
    Reads (stageLine o (primary o levels) s) (stagePieces g ++ .plain .newline :: ps) S Q := by
  rw [stageLine_eq]
  refine .bind (reads_pushStage hpipe hg hl hb hs) (fun s' hs' => ?_)
    fun c hc => Cursor.stopsChain_of_newline hc.kind 0
  refine .congr (fun c hc => bind_of_ok (inlineStages_done ?_)) (hend s' hs')
  unfold Cursor.atPunctuation
  rw [hc.kind]
  rfl

theorem reads_stageBlock (hst : ∀ g ∈ stages, IsStage o n room g) (hne : stages ≠ [])
    (hl : room ≤ levels) (hb : room ≤ budget) :
    Reads (allStages o (primary o levels) budget) (stageBlock stages) S
      (List.Forall₂ (fun g v => Stage.erase v = Stage.erase g) stages) := by
  intro K hk c hc
  obtain ⟨init, last, rfl⟩ : ∃ init last, stages = init ++ [last] :=
    ⟨_, _, (List.dropLast_append_getLast hne).symm⟩
  have hlast := hst last (List.mem_append_right _ List.mem_cons_self)
  have hinit : ∀ g ∈ init, IsStage o n room g := fun g hg => hst g (List.mem_append_left _ hg)
  have hpieces : (init ++ [last]).flatMap (fun g => stagePieces g ++ [.plain .newline]) ++
      [.plain .dedent] = init.flatMap (fun g => stagePieces g ++ [.plain .newline]) ++
        (stagePieces last ++ [.plain .newline, .plain .dedent]) := by
    simp
  unfold stageBlock at hc
  rw [hpieces] at hc
  have hinline : c.atPunctuation .pipe = false := by
    unfold Cursor.atPunctuation
    rw [hc.kind]
    rfl
  have hnext : ∀ g ∈ init, ∀ c, At (stagePieces g ++ [.plain .newline])
      (fun c => c.kind.isIdent = true) c → c.kind.isIdent = true :=
    fun g hg c hc => atIdent_of_stage (hinit g hg) hc
  have hafter : ∀ c, At (stagePieces last ++ [.plain .newline, .plain .dedent]) K c →
      c.kind.isIdent = true := fun c hc => atIdent_of_stage hlast hc
  obtain ⟨hblock, hc⟩ := hc.block (p := TokenKind.isIdent) fun c hc =>
    stop_flatMap hnext hafter c ((at_append _ _).mp hc)
  have hround : ∀ past g todo, init = past ++ g :: todo → ∀ s, StagesRead budget past s →
      Reads (stageLine o (primary o levels) s) (stagePieces g ++ [.plain .newline])
        (fun c => c.kind.isIdent = true)
        fun r => ∃ s', r = .again s' ∧ StagesRead budget (past ++ [g]) s' := by
    intro past g todo he s hs
    have hg := hinit g (he ▸ List.mem_append_right _ List.mem_cons_self)
    refine reads_stageLine hpipe hg hl hb hs fun s' hs' => ?_
    have hkind : ∀ c : Cursor, c.kind.isIdent = true → ∃ name, c.kind = .ident name := by
      intro c hc
      cases hk : c.kind with
      | ident name => exact ⟨name, rfl⟩
      | _ => rw [hk] at hc; cases hc
    refine .accept_bind (by simp) (fun c hc => by unfold Cursor.atNewline; rw [hc]; rfl) ?_
    refine .accept_bind_false (fun c hc => ?_) (.test_bind (a := false) (fun c hc => ?_) ?_)
    · obtain ⟨name, hk⟩ := hkind c hc
      unfold Cursor.atDedent
      rw [hk]
      rfl
    · obtain ⟨name, hk⟩ := hkind c hc
      rw [hk]
      rfl
    · exact .pure ⟨s', rfl, hs'⟩
  have hlen := ((at_append _ _).mp hc).length_le fun g hg => by
    have := count_pos_of_stage (hinit g hg)
    simp only [List.map_append, List.sum_append, List.map_cons, List.sum_cons, Piece.count]
    omega
  have hnone : StagesRead budget [] ⟨budget, []⟩ := ⟨rfl, .nil⟩
  obtain ⟨s, c1, hs, hc1, hrun⟩ := roundsUpTo_again hround hnext hafter hnone
    ((at_append _ _).mp hc) (c.forward.forward.rest.length + 1 - init.length)
  obtain ⟨r, c2, hrun2, ⟨s', rfl, hs'⟩, hc2⟩ : ∃ r c2,
      stageLine o (primary o levels) s c1 = .ok r c2 ∧
        (∃ s', r = .done s' ∧ StagesRead budget (init ++ [last]) s') ∧ K c2 := by
    refine reads_stageLine (S := fun _ => True) hpipe hlast hl hb hs (fun s' hs' => ?_) K
      (fun _ _ => trivial) c1 hc1
    refine .accept_bind (by simp) (fun c hc => by unfold Cursor.atNewline; rw [hc]; rfl) ?_
    refine .accept_bind (by simp) (fun c hc => by unfold Cursor.atDedent; rw [hc]; rfl) ?_
    exact .pure ⟨s', rfl, hs'⟩
  refine ⟨s'.stages.reverse, c2, ?_, hs'.2, hc2⟩
  unfold allStages
  rw [bind_of_ok (inlineStages_done hinline)]
  have hopen : openBlock TokenKind.isIdent c = .ok true c.forward.forward := by
    unfold openBlock
    rw [hblock]
    rfl
  have hall : rounds (stageLine o (primary o levels)) ⟨budget, []⟩ c.forward.forward =
      .ok s' c2 := by
    obtain ⟨m, hm⟩ : ∃ m, c.forward.forward.rest.length + 1 - init.length = m + 1 :=
      ⟨c.forward.forward.rest.length - init.length, by omega⟩
    rw [hm] at hrun
    unfold rounds
    rw [show c.forward.forward.rest.length + 1 = init.length + (m + 1) by omega, hrun]
    exact bind_of_ok hrun2
  rw [bind_of_ok hopen, if_pos rfl, bind_of_ok hall]
  rfl

end

/-! Whole expressions. -/

/-- The stages after `seed`, if there are any. -/
def staged (o : ParseOptions) (primary : Primary) (budget : Nat) (seed : Expr) : Parse Expr := do
  let stages ← allStages o primary budget
  match stages.getLast? with
  | some last => pure (.pipeline (seed.span.merge last.span) seed stages)
  | none => pure seed

theorem expression_eq (primary : Primary) (budget : Nat) :
    expression o primary budget = (climb o primary budget 0 >>= staged o primary budget) := by
  unfold climb
  rw [bind_assoc]
  rfl

theorem Climbs.reads {ps : List Piece} {e : Expr} {room : Nat} (h : Climbs o ps S e room 0)
    (hs : ∀ c : Cursor, c.StopsChain 0 → S c) {levels budget : Nat} (hl : room ≤ levels)
    (hb : room ≤ budget) :
    Reads (climb o (primary o levels) budget 0) ps (Cursor.StopsChain 0) e.Same := by
  intro K hk c hc
  obtain ⟨v, c', used, _, hv, hc', hrun⟩ :=
    h levels budget hl hb K (fun c hc => hs c (hk c hc)) c hc
  exact ⟨v, c', by rw [hrun, chain_of_stop (hk c' hc').2], hv, hc'⟩

theorem staged_of_stop {primary : Primary} {budget : Nat} {v : Expr} {c : Cursor}
    (h : c.StopsStages) : staged o primary budget v c = .ok v c := by
  have hopen : openBlock TokenKind.isIdent c = .ok false c := by
    unfold openBlock
    rw [h.block]
    rfl
  have hall : allStages o primary budget c = .ok [] c := by
    unfold allStages
    rw [bind_of_ok (inlineStages_done h.inline), bind_of_ok hopen]
    rfl
  rw [staged, bind_of_ok hall]
  rfl

/-- An expression that no stages follow. -/
theorem reads_unstaged {ps : List Piece} {e : Expr} {levels budget : Nat}
    (h : Reads (climb o (primary o levels) budget 0) ps (Cursor.StopsChain 0) e.Same) :
    Reads (expression o (primary o levels) budget) ps Cursor.StopsStages e.Same := by
  intro K hk c hc
  obtain ⟨v, c', hrun, hv, hc'⟩ := h K (fun c hc => (hk c hc).chain) c hc
  exact ⟨v, c', by rw [expression_eq, bind_of_ok hrun, staged_of_stop (hk c' hc')], hv, hc'⟩

theorem Readable.seed {e : Expr} (h : Readable o e) {levels budget : Nat}
    (hl : sizeOf e + 1 ≤ levels) (hb : sizeOf e + 1 ≤ budget) :
    Reads (climb o (primary o levels) budget 0) (placePieces .seed e (pieces e))
      (Cursor.StopsChain 0) e.Same := by
  cases hn : needsParens .seed e with
  | true =>
    rw [placePieces_of_true hn]
    exact (climbs_parens h 0).reads (fun c hc => hc.1) hl hb
  | false =>
    rw [placePieces_of_false hn]
    have hslot : Slot.seed ≠ .clause := by simp
    refine (h.climbs (isConstruct_of_needsParens hn) (isPipeline_of_needsParens hslot hn) 0
      (fun _ _ => Nat.zero_le _)).reads (fun c hc => ⟨hc.1, fun op _ => ?_⟩) (by omega) (by omega)
    exact Cursor.operator?_eq_none_of_le hc.2 (Nat.zero_le _)

theorem reads_staged {seed : Expr} {stages : List Stage} {ps qs : List Piece} {levels budget : Nat}
    (s : Span) (hne : stages ≠ [])
    (hseed : Reads (climb o (primary o levels) budget 0) ps (Cursor.StopsChain 0) seed.Same)
    (hstages : Reads (allStages o (primary o levels) budget) qs S
      (List.Forall₂ (fun g v => Stage.erase v = Stage.erase g) stages))
    (hstop : ∀ c, At qs S c → c.StopsChain 0) :
    Reads (expression o (primary o levels) budget) (ps ++ qs) S
      (Expr.pipeline s seed stages).Same := by
  rw [expression_eq]
  refine .bind hseed (fun v hv => ?_) hstop
  unfold staged
  rw [← List.append_nil qs]
  refine .bind hstages (fun found hfound => ?_) fun c hc => hc
  cases hlast : found.getLast? with
  | none =>
    rw [List.getLast?_eq_none_iff] at hlast
    rw [hlast] at hfound
    cases hfound
    exact absurd rfl hne
  | some last =>
    refine .pure ?_
    have hv : v.erase = seed.erase := hv
    have hg := erase_stages hfound
    show (Expr.pipeline _ v found).erase = (Expr.pipeline s seed stages).erase
    unfold Expr.erase at hv ⊢
    simp only [Expr.relocate, relocateStages_eq_map]
    rw [hv]
    exact congrArg _ hg

end Parse

end PipeLang
