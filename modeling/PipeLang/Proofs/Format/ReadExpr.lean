import PipeLang.Proofs.Format.ReadClause

/-! Every tree of the language is read back from what is written for it, up to spans. A tree is read with
the smaller trees in it, each with a level of the nesting budget less. -/

namespace PipeLang

namespace Parse

open Format

variable {o : ParseOptions} {n : Nat} {e : Expr}

/-! What is read as an operand, or folded from operands, is read as an expression. -/

theorem readable_of_climbs
    (h : ∀ least, (∀ op, e.operator? = some op → least ≤ op.precedence) →
      Climbs o (pieces e)
        (fun c => c.StopsArguments ∧
          ∀ op, e.operator? = some op → c.operator? (op.precedence + 1) = none) e (sizeOf e) least)
    (hop : e.isOperand = true → ReadsOperand o (pieces e) e.stop e (sizeOf e)) : Readable o e := by
  have hclause : ∀ levels budget, sizeOf e ≤ levels → sizeOf e ≤ budget →
      Reads (expression o (primary o levels) budget) (pieces e) Cursor.StopsStages e.Same := by
    intro levels budget hl hb
    refine reads_unstaged ((h 0 fun _ _ => Nat.zero_le _).reads (fun c hc => ⟨hc.1, ?_⟩) hl hb)
    intro op _
    exact Cursor.operator?_eq_none_of_le hc.2 (Nat.zero_le _)
  refine ⟨?_, fun _ => hclause, fun _ _ => h, hop⟩
  intro levels budget hl hb
  exact (hclause levels budget hl hb).mono (fun c hc => hc.stages) fun _ hv => hv

theorem readable_of_operand (he : e.Formed n) (hi : e.isOperand = true)
    (h : ReadsOperand o (pieces e) e.stop e (sizeOf e)) : Readable o e := by
  have hc : e.isConstruct = false := by
    cases e <;> first | rfl | cases hi
  have hstop : ∀ c : Cursor, c.StopsAccess → e.stop c := by
    intro c hc
    cases e <;> trivial
  refine readable_of_climbs (fun least _ => ?_) fun _ => h
  refine Climbs.mono (climbs_of_application least fun levels budget hl hb => ?_)
    (fun c hc => hc.1) (Nat.le_refl _)
  exact reads_application_of_operand (h.mono hstop (Nat.le_refl _)) ((begins he).2 hc) hl hb

/-- What the rule for primary expressions reads with a level less is an operand. -/
theorem readable_of_primary (room : Nat) (he : e.Formed n) (hi : e.isOperand = true)
    (hroom : room + 1 ≤ sizeOf e)
    (h : ∀ levels budget, room ≤ levels → room ≤ budget →
      Reads (primaryInside o (primary o levels) budget) (pieces e) e.stop e.Same) :
    Readable o e :=
  readable_of_operand he hi ((readsOperand_of_primary h).mono (fun _ hc => hc) hroom)

theorem readable_of_construct (room : Nat) (hc : e.isConstruct = true)
    (hat : ∀ K c, At (pieces e) K c → c.atConstruct = true) (hroom : room + 1 ≤ sizeOf e)
    (h : ∀ levels budget, room ≤ levels → room ≤ budget →
      Reads (primaryInside o (primary o levels) budget) (pieces e) Cursor.Ends e.Same) :
    Readable o e := by
  have hnot : e.isOperand = false ∧ e.isPipeline = false := by
    cases e <;> first | exact ⟨rfl, rfl⟩ | cases hc
  refine ⟨?_, fun he => ?_, fun he => ?_, fun he => ?_⟩
  · intro levels budget hl hb K hk c hat'
    obtain ⟨v, c', used, hu, hv, hc', hrun⟩ :=
      (readsOperand_of_primary h) levels budget (by omega) (by omega) K hk c hat'
    have hstop := (hk c' hc').stages
    rw [accesses_of_atAccess hstop.access.1] at hrun
    have happ : application o (primary o levels) budget c = .ok v c' := by
      rw [application, test_bind, hat K c hat', bind_of_ok hrun]
      rfl
    have hclimb : climb o (primary o levels) budget 0 c = .ok v c' := by
      rw [climb, bind_of_ok happ, chain_of_stop hstop.chain.2]
    exact ⟨v, c', by rw [expression_eq, bind_of_ok hclimb, staged_of_stop hstop], hv, hc'⟩
  · rw [hc] at he; cases he
  · rw [hc] at he; cases he
  · rw [hnot.1] at he; cases he

theorem atConstruct_of_word {k : Keyword} {ps : List Piece} {K : Cursor → Prop} {c : Cursor}
    (hk : k = .let_ ∨ k = .if_ ∨ k = .match_ ∨ k = .try_) (hc : At (.word k :: ps) K c) :
    c.atConstruct = true := by
  unfold Cursor.atConstruct
  rw [hc.kind]
  rcases hk with rfl | rfl | rfl | rfl <;> rfl

/-- The stages of a pipeline, as parts of it. -/
theorem isStage_of_mem {stages : List Stage} (hb : Below o (sizeOf stages))
    (hst : ∀ g ∈ stages, g.Formed) (hc : ∀ g ∈ stages, g.callee.Formed n)
    (ha : ∀ g ∈ stages, ∀ a ∈ g.args, a.Formed n) :
    ∀ g ∈ stages, IsStage o n (sizeOf stages) g := by
  intro g hg
  have := List.sizeOf_lt_of_mem hg
  exact ⟨hst g hg, hc g hg, ha g hg, hb, by omega⟩

theorem reads_pipeline (hpipe : o.resolvePipelines = false) {s : Span} {seed : Expr}
    {stages : List Stage} (hne : stages ≠ []) (hseed : Readable o seed)
    (hst : ∀ g ∈ stages, IsStage o n (sizeOf stages) g) {levels budget : Nat}
    (hl : sizeOf (Expr.pipeline s seed stages) ≤ levels)
    (hb : sizeOf (Expr.pipeline s seed stages) ≤ budget) :
    Reads (expression o (primary o levels) budget) (pieces (.pipeline s seed stages))
      Cursor.StopsStages (Expr.pipeline s seed stages).Same := by
  simp only [Expr.pipeline.sizeOf_spec] at hl hb
  rw [pieces]
  refine reads_staged s hne (hseed.seed (by omega) (by omega))
    (reads_allStages hpipe hst (by omega) (by omega)) fun c hc => ?_
  obtain ⟨g, rest, rfl⟩ := List.exists_cons_of_ne_nil hne
  rw [pipePieces_eq_flatMap, List.flatMap_cons] at hc
  exact stopsChain_of_pipeMark hc.2

section

variable (hpipe : o.resolvePipelines = false) (he : e.Formed n) (hbelow : Below o (sizeOf e))

include hpipe he hbelow

/-- A tree is read back if all smaller trees are. -/
theorem readable_of_below : Readable o e := by
  cases he with
  | @ident _ s name hn =>
    exact readable_of_primary 0 (.ident (n := n) hn) rfl
      (by simp only [Expr.ident.sizeOf_spec]; omega)
      fun _ _ _ _ => reads_ident s name
  | @wildcard _ s path hn =>
    exact readable_of_primary 0 (.wildcard (n := n) hn) rfl
      (by simp only [Expr.wildcard.sizeOf_spec]; omega)
      fun _ _ _ _ => reads_wildcard s path
  | @number _ s value =>
    exact readable_of_primary 0 (.number (n := n)) rfl
      (by simp only [Expr.number.sizeOf_spec]; omega)
      fun _ _ _ _ => reads_number s value
  | @bool _ s value =>
    exact readable_of_primary 0 (.bool (n := n)) rfl (by simp)
      fun _ _ _ _ => reads_bool s value
  | @nil _ s =>
    exact readable_of_primary 0 (.nil (n := n)) rfl (by simp) fun _ _ _ _ => reads_nil s
  | @text _ s segs hlit hapart hroom hholes =>
    simp only [Expr.text.sizeOf_spec] at hbelow
    have hparts : ∀ e, .hole e ∈ segs → Readable o e := by
      intro e hm
      have := List.sizeOf_lt_of_mem hm
      simp only [Segment.hole.sizeOf_spec] at this
      exact hbelow (n - 1) e (hholes e hm) (by omega)
    refine readable_of_primary (sizeOf segs) (.text hlit hapart hroom hholes) rfl
      (by simp only [Expr.text.sizeOf_spec]; omega)
      fun levels budget hl hb => reads_text s hparts hl hb
  | @record _ s fields hkeys hvalues =>
    simp only [Expr.record.sizeOf_spec] at hbelow
    have hparts : ∀ b ∈ fields, Readable o b.value := by
      intro b hm
      have h1 := List.sizeOf_lt_of_mem hm
      have h2 := sizeOf_value b
      exact hbelow n b.value (hvalues b hm) (by omega)
    refine readable_of_primary (sizeOf fields) (.record hkeys hvalues) rfl
      (by simp only [Expr.record.sizeOf_spec]; omega)
      fun levels budget hl hb => reads_record s hparts hl hb
  | @list _ s items hitems =>
    simp only [Expr.list.sizeOf_spec] at hbelow
    have hargs : IsArguments o n (sizeOf items) items :=
      ⟨hitems, hbelow.mono (by omega), Nat.le_refl _⟩
    refine readable_of_primary (sizeOf items) (.list hitems) rfl
      (by simp only [Expr.list.sizeOf_spec]; omega)
      fun levels budget hl hb => reads_list s hargs hl hb
  | @function _ s params body hne hparams hbody =>
    simp only [Expr.function.sizeOf_spec] at hbelow
    have hread : Readable o body := hbelow n body hbody (by omega)
    refine readable_of_primary (sizeOf body) (.function hne hparams hbody) rfl
      (by simp only [Expr.function.sizeOf_spec]; omega)
      fun levels budget hl hb => reads_function s hne hread hl hb
  | @access _ s target field ht hf =>
    simp only [Expr.access.sizeOf_spec] at hbelow
    have hread : Readable o target := hbelow n target ht (by omega)
    refine readable_of_operand (.access ht hf) rfl ?_
    rw [pieces]
    have htarget := readsOperand_access (S := fun _ => True) s field
      (hread.target.mono (fun _ _ => trivial) (Nat.le_refl _))
    refine htarget.mono (fun _ _ => trivial) ?_
    cases field
    simp only [Expr.access.sizeOf_spec, Name.mk.sizeOf_spec]
    omega
  | @binary _ s t left right op hl hr =>
    have hsize : sizeOf left + sizeOf right + 1 ≤
        sizeOf (Expr.apply s (.ident t op.spelling) [left, right]) := by
      simp only [Expr.apply.sizeOf_spec, List.cons.sizeOf_spec]
      omega
    have hleft : Readable o left := hbelow n left hl (by omega)
    have hright : Readable o right := hbelow n right hr (by omega)
    refine readable_of_climbs (fun least hleast => ?_) (by simp [Expr.isOperand])
    have hop := Expr.operator?_binary s t op left right
    refine (climbs_binary s t op hleft hright (hleast op hop)).mono (fun c hc => ⟨hc.1, ?_⟩)
      (Nat.le_refl _)
    exact hc.2 op hop
  | @apply _ s callee args hne hc ha =>
    simp only [Expr.apply.sizeOf_spec] at hbelow
    have hcallee : Readable o callee := hbelow n callee hc (by omega)
    have hargs : ∀ a ∈ args, Readable o a := by
      intro a hm
      have := List.sizeOf_lt_of_mem hm
      exact hbelow n a (ha a hm) (by omega)
    refine readable_of_climbs (fun least _ => ?_) (by simp [Expr.isOperand])
    refine Climbs.mono (climbs_of_application least fun levels budget hl hb => ?_)
      (fun c hc => hc.1) (Nat.le_refl _)
    exact reads_application s hc ha hne hcallee hargs hl hb
  | @pipeline _ s seed stages hs hne hst hcs has =>
    simp only [Expr.pipeline.sizeOf_spec] at hbelow
    have hseed : Readable o seed := hbelow n seed hs (by omega)
    have hstages := isStage_of_mem (hbelow.mono (by omega)) hst hcs has
    have hread : ∀ levels budget, sizeOf (Expr.pipeline s seed stages) ≤ levels →
        sizeOf (Expr.pipeline s seed stages) ≤ budget →
        Reads (expression o (primary o levels) budget) (pieces (.pipeline s seed stages))
          Cursor.StopsStages (Expr.pipeline s seed stages).Same :=
      fun levels budget hl hb => reads_pipeline hpipe hne hseed hstages hl hb
    refine ⟨fun levels budget hl hb => ?_, fun _ => hread, by simp [Expr.isPipeline], by simp [Expr.isOperand]⟩
    exact (hread levels budget hl hb).mono (fun c hc => hc.stages) fun _ hv => hv
  | @letIn _ s bs body hne hnames hvalues hbody =>
    simp only [Expr.letIn.sizeOf_spec] at hbelow
    have hroom : Below o (sizeOf bs + sizeOf body) := hbelow.mono (by omega)
    refine readable_of_construct (sizeOf bs + sizeOf body) rfl (fun K c hc => ?_)
      (by simp only [Expr.letIn.sizeOf_spec]; omega)
      fun levels budget hl hb => reads_letIn hl hb s hne (fun b hm => ?_) ⟨hbody, hroom, ?_⟩
    · rw [pieces] at hc
      exact atConstruct_of_word (.inl rfl) hc
    · have h1 := List.sizeOf_lt_of_mem hm
      have h2 := sizeOf_value b
      exact ⟨hvalues b hm, hroom, by omega⟩
    · obtain ⟨b, rest, rfl⟩ := List.exists_cons_of_ne_nil hne
      simp only [List.cons.sizeOf_spec]
      omega
  | @ifElse _ s bs fallback hne hconds hresults hf =>
    simp only [Expr.ifElse.sizeOf_spec] at hbelow
    have hroom : Below o (sizeOf bs + sizeOf fallback) := hbelow.mono (by omega)
    have hsize : ∀ b ∈ bs, sizeOf b.condition + sizeOf b.result < sizeOf bs := by
      intro b hm
      have := List.sizeOf_lt_of_mem hm
      cases b
      simp only [Branch.mk.sizeOf_spec] at this ⊢
      omega
    refine readable_of_construct (sizeOf bs + sizeOf fallback) rfl (fun K c hc => ?_)
      (by simp only [Expr.ifElse.sizeOf_spec]; omega)
      fun levels budget hl hb => reads_ifElse hl hb s hne (fun b hm => ?_)
        (fun b hm => ?_) ⟨hf, hroom, ?_⟩
    · obtain ⟨b, rest, rfl⟩ := List.exists_cons_of_ne_nil hne
      rw [pieces, branchPieces_eq, List.append_assoc] at hc
      exact atConstruct_of_word (.inr (.inl rfl)) hc
    · have := hsize b hm
      exact ⟨hconds b hm, hroom, by omega⟩
    · have := hsize b hm
      exact ⟨hresults b hm, hroom, by omega⟩
    · obtain ⟨b, rest, rfl⟩ := List.exists_cons_of_ne_nil hne
      simp only [List.cons.sizeOf_spec]
      omega
  | @matchOn _ s subject xs hs hne hp hg hr =>
    simp only [Expr.matchOn.sizeOf_spec] at hbelow
    have hroom : Below o (sizeOf subject + sizeOf xs) := hbelow.mono (by omega)
    have hsize : ∀ x ∈ xs, sizeOf x.guard + sizeOf x.result < sizeOf xs := by
      intro x hm
      have := List.sizeOf_lt_of_mem hm
      cases x
      simp only [Clause.mk.sizeOf_spec] at this ⊢
      omega
    refine readable_of_construct (sizeOf subject + sizeOf xs) rfl (fun K c hc => ?_)
      (by simp only [Expr.matchOn.sizeOf_spec]; omega)
      fun levels budget hl hb => reads_matchOn hl hb s hne ⟨hs, hroom, ?_⟩ hp
        (fun x hm g hguard => ?_) (fun x hm => ?_)
    · rw [pieces] at hc
      exact atConstruct_of_word (.inr (.inr (.inl rfl))) hc
    · obtain ⟨x, rest, rfl⟩ := List.exists_cons_of_ne_nil hne
      simp only [List.cons.sizeOf_spec]
      omega
    · have := hsize x hm
      rw [hguard, Option.some.sizeOf_spec] at this
      exact ⟨hg x hm g hguard, hroom, by omega⟩
    · have := hsize x hm
      exact ⟨hr x hm, hroom, by omega⟩
  | @tryCatch _ s body xs hs hne hnamed hr =>
    simp only [Expr.tryCatch.sizeOf_spec] at hbelow
    have hroom : Below o (sizeOf body + sizeOf xs) := hbelow.mono (by omega)
    refine readable_of_construct (sizeOf body + sizeOf xs) rfl (fun K c hc => ?_)
      (by simp only [Expr.tryCatch.sizeOf_spec]; omega)
      fun levels budget hl hb => reads_tryCatch hl hb s hne ⟨hs, hroom, ?_⟩ hnamed
        (fun x hm => ?_)
    · rw [pieces] at hc
      exact atConstruct_of_word (.inr (.inr (.inr rfl))) hc
    · obtain ⟨x, rest, rfl⟩ := List.exists_cons_of_ne_nil hne
      simp only [List.cons.sizeOf_spec]
      omega
    · have := List.sizeOf_lt_of_mem hm
      cases x
      simp only [Catch.mk.sizeOf_spec] at this
      exact ⟨hr _ hm, hroom, by dsimp only; omega⟩

end

/-- Every tree of the language is read back, by induction on how much it takes up. -/
theorem readable (hpipe : o.resolvePipelines = false) (he : e.Formed n) : Readable o e := by
  have below : ∀ room, Below o room := by
    intro room
    induction room with
    | zero => exact fun n e _ hs => absurd hs (Nat.not_lt_zero _)
    | succ room ih =>
      intro n e he hs
      exact readable_of_below hpipe he (ih.mono (by omega))
  exact below (sizeOf e + 1) n e he (Nat.lt_succ_self _)

end Parse

end PipeLang
