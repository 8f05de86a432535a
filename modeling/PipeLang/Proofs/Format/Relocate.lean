import PipeLang.Proofs.Tree.Nodes
import PipeLang.Format.Layout

/-! The text of a tree does not depend on the spans in it. -/

namespace PipeLang

variable (f : Span → Span)

namespace Expr

@[simp] theorem isIdent_relocate (e : Expr) : (e.relocate f).isIdent = e.isIdent := by
  cases e <;> simp [relocate, isIdent]

theorem binary?_relocate (e : Expr) :
    (e.relocate f).binary? = e.binary?.map fun x => (x.1, x.2.1.relocate f, x.2.2.relocate f) := by
  cases e with
  | apply s callee args =>
    cases callee with
    | ident t name =>
      rcases args with _ | ⟨left, _ | ⟨right, _ | ⟨more, rest⟩⟩⟩
      · rfl
      · rfl
      · simp [relocate, binary?, Function.comp_def]
      · rfl
    | _ => rfl
  | _ => rfl

@[simp] theorem operator?_relocate (e : Expr) : (e.relocate f).operator? = e.operator? := by
  unfold operator?
  rw [binary?_relocate, Option.map_map]
  rfl

end Expr

namespace Format

@[simp] theorem needsParens_relocate (slot : Slot) (e : Expr) :
    needsParens slot (e.relocate f) = needsParens slot e := by
  have hop := Expr.operator?_relocate f e
  cases e <;> simp_all [needsParens, Expr.relocate, Expr.isConstruct]

@[simp] theorem place_relocate (slot : Slot) (e : Expr) (text : String) :
    place slot (e.relocate f) text = place slot e text := by
  unfold place
  rw [needsParens_relocate]

@[simp] theorem placeOperand_relocate (precedence : Nat) (onRight : Bool) (e : Expr)
    (text : String) :
    placeOperand precedence onRight (e.relocate f) text = placeOperand precedence onRight e text := by
  unfold placeOperand
  rw [Expr.operator?_relocate, place_relocate]

@[simp] theorem placeTarget_relocate (e : Expr) (text : String) :
    placeTarget (e.relocate f) text = placeTarget e text := by
  have hplace := place_relocate f .argument e text
  cases e <;> first | exact hplace | rfl

@[simp] theorem trailsBare_relocate (e : Expr) : trailsBare (e.relocate f) = trailsBare e := by
  unfold trailsBare
  rw [Expr.binary?_relocate]
  cases e.binary? with
  | none => rfl
  | some x => simp

/-- Parts with their texts, the parts moved. -/
def moved (es : List (Expr × String)) : List (Expr × String) :=
  es.map fun x => (x.1.relocate f, x.2)

theorem applicationText_relocate (op : Option Operator) (callee : Expr × String)
    (args : List (Expr × String)) :
    applicationText op (callee.1.relocate f, callee.2) (moved f args) =
      applicationText op callee args := by
  have hjuxtaposed : ∀ es : List (Expr × String),
      (moved f es).map (fun x => place .argument x.1 x.2) =
        es.map fun x => place .argument x.1 x.2 := by
    intro es
    simp [moved, Function.comp_def]
  have happlied := congrArg joined (hjuxtaposed (callee :: args))
  cases op with
  | none => exact happlied
  | some op =>
    rcases args with _ | ⟨left, _ | ⟨right, _ | ⟨more, rest⟩⟩⟩
    · exact happlied
    · exact happlied
    · simp [applicationText, moved]
    · exact happlied

theorem placeItems_relocate (es : List (Expr × String)) :
    placeItems (moved f es) = placeItems es := by
  induction es with
  | nil => rfl
  | cons x rest ih =>
    have hempty : (moved f rest).isEmpty = rest.isEmpty := by cases rest <;> rfl
    show (if (moved f rest).isEmpty && trailsBare (x.1.relocate f) then x.2
      else place .argument (x.1.relocate f) x.2) :: placeItems (moved f rest) = _
    rw [ih, hempty, trailsBare_relocate, place_relocate]
    rfl

theorem writtenArguments_relocate (es : List (Expr × String)) :
    writtenArguments (moved f es) = moved f (writtenArguments es) := by
  cases es with
  | nil => rfl
  | cons x rest =>
    show (if (x.1.relocate f).isPlaceholder then moved f rest else _) = _
    rw [Expr.isPlaceholder_relocate]
    cases hp : x.1.isPlaceholder <;> simp [writtenArguments, moved, hp]

@[simp] theorem isNameRun_relocate (e : Expr) : isNameRun (e.relocate f) = isNameRun e := by
  have hop := Expr.operator?_relocate f e
  cases e with
  | apply s callee args =>
    cases callee <;> simp_all [isNameRun, Expr.relocate, Function.comp_def]
  | _ => rfl

@[simp] theorem startsLikeDefinition_relocate (e : Expr) :
    startsLikeDefinition (e.relocate f) = startsLikeDefinition e := by
  induction e using startsLikeDefinition.induct with
  | case1 s seed stages ih => simpa [Expr.relocate, startsLikeDefinition] using ih
  | case2 s t name left right hop =>
    simp [Expr.relocate, startsLikeDefinition, hop]
  | case3 s t name left right op hop ih =>
    simp [Expr.relocate, startsLikeDefinition, hop, ih]
  | case4 e hpipe happly =>
    cases e with
    | pipeline s seed stages => exact absurd rfl (hpipe s seed stages)
    | apply s callee args =>
      cases callee with
      | ident t name =>
        rcases args with _ | ⟨left, _ | ⟨right, _ | ⟨more, rest⟩⟩⟩
        · rfl
        · rfl
        · exact absurd rfl (happly s t name left right)
        · rfl
      | _ => rfl
    | _ => rfl

/-! ## Texts of the parts of a form -/

section

theorem withTexts_moved {es : List Expr} (h : ∀ e ∈ es, bare (e.relocate f) = bare e) :
    withTexts (es.map (Expr.relocate f)) = moved f (withTexts es) := by
  rw [withTexts_eq_map, withTexts_eq_map]
  unfold moved
  rw [List.map_map, List.map_map]
  exact List.map_congr_left fun e he => congrArg (Prod.mk (e.relocate f)) (h e he)

theorem segmentsText_relocate {segments : List Segment}
    (h : ∀ e, Segment.hole e ∈ segments → bare (e.relocate f) = bare e) :
    segmentsText (segments.map (Segment.relocate f)) = segmentsText segments := by
  induction segments with
  | nil => rfl
  | cons s rest ih =>
    have hrest := ih fun e he => h e (List.mem_cons_of_mem _ he)
    cases s with
    | literal text => simp [Segment.relocate, segmentsText, hrest]
    | hole e => simp [Segment.relocate, segmentsText, hrest, h e List.mem_cons_self]

theorem fieldTexts_relocate {fields : List Binding}
    (h : ∀ b ∈ fields, bare (b.value.relocate f) = bare b.value) :
    fieldTexts (fields.map (Binding.relocate f)) = fieldTexts fields := by
  induction fields with
  | nil => rfl
  | cons b rest ih =>
    have hrest := ih fun b hb => h b (List.mem_cons_of_mem _ hb)
    obtain ⟨key, value⟩ := b
    have hvalue : bare (value.relocate f) = bare value := h _ List.mem_cons_self
    simp [Binding.relocate, fieldTexts, hrest, hvalue, Name.relocate]

theorem definitionHead_relocate (name : Name) (params : List Name) :
    definitionHead (name.relocate f) (params.map (Name.relocate f)) = definitionHead name params := by
  simp [definitionHead, Name.relocate, Function.comp_def]

theorem not_function_relocate {e : Expr}
    (h : ∀ s params body, e = .function s params body → False) (s : Span) (params : List Name)
    (body : Expr) (hf : e.relocate f = .function s params body) : False := by
  cases e with
  | function s params body => exact h s params body rfl
  | _ => cases hf

/-- A function is written with its parameters to the left of the equals sign, so what has to be
known of it is the text of its body. -/
theorem definitionTexts_relocate {bindings : List Binding}
    (h : ∀ b ∈ bindings, bare (b.value.relocate f) = bare b.value)
    (hbody : ∀ b ∈ bindings, ∀ s params body, b.value = .function s params body →
      bare (body.relocate f) = bare body) :
    definitionTexts (bindings.map (Binding.relocate f)) = definitionTexts bindings := by
  induction bindings with
  | nil => rfl
  | cons b rest ih =>
    have hrest := ih (fun b hb => h b (List.mem_cons_of_mem _ hb))
      fun b hb => hbody b (List.mem_cons_of_mem _ hb)
    obtain ⟨name, value⟩ := b
    have hvalue : bare (value.relocate f) = bare value := h _ List.mem_cons_self
    by_cases hfun : ∃ s params body, value = .function s params body
    · obtain ⟨s, params, body, rfl⟩ := hfun
      have hb := hbody _ List.mem_cons_self s params body rfl
      simp [Binding.relocate, Expr.relocate, definitionTexts, hrest, hb, definitionHead_relocate]
    · have hnot : ∀ s params body, value = .function s params body → False :=
        fun s params body he => hfun ⟨s, params, body, he⟩
      have hhead : definitionHead (name.relocate f) [] = definitionHead name [] :=
        definitionHead_relocate f name []
      rw [List.map_cons, Binding.relocate,
        definitionTexts.eq_3 _ _ _ (not_function_relocate f hnot),
        definitionTexts.eq_3 _ _ _ hnot, hhead, place_relocate, hvalue, hrest]

theorem stageTexts_relocate {stages : List Stage}
    (h : ∀ g ∈ stages, bare (g.callee.relocate f) = bare g.callee)
    (hargs : ∀ g ∈ stages, ∀ a ∈ g.args, bare (a.relocate f) = bare a) :
    stageTexts (stages.map (Stage.relocate f)) = stageTexts stages := by
  induction stages with
  | nil => rfl
  | cons g rest ih =>
    have hrest := ih (fun g hg => h g (List.mem_cons_of_mem _ hg))
      fun g hg => hargs g (List.mem_cons_of_mem _ hg)
    have hcallee := h g List.mem_cons_self
    have htexts := withTexts_moved f (hargs g List.mem_cons_self)
    obtain ⟨s, callee, args⟩ := g
    dsimp only at hcallee htexts
    rw [List.map_cons, Stage.relocate]
    simp only [stageTexts]
    rw [htexts, writtenArguments_relocate, placeItems_relocate, place_relocate, hcallee, hrest]

theorem branchTexts_relocate {branches : List Branch}
    (h : ∀ b ∈ branches, bare (b.condition.relocate f) = bare b.condition)
    (hresult : ∀ b ∈ branches, bare (b.result.relocate f) = bare b.result) :
    branchTexts (branches.map (Branch.relocate f)) = branchTexts branches := by
  induction branches with
  | nil => rfl
  | cons b rest ih =>
    have hrest := ih (fun b hb => h b (List.mem_cons_of_mem _ hb))
      fun b hb => hresult b (List.mem_cons_of_mem _ hb)
    have hc := h b List.mem_cons_self
    have hr := hresult b List.mem_cons_self
    obtain ⟨condition, result⟩ := b
    dsimp only at hc hr
    rw [List.map_cons, Branch.relocate]
    simp only [branchTexts]
    rw [place_relocate, place_relocate, hc, hr, hrest]

theorem pattern_relocate (p : Pattern) : pattern (p.relocate f) = pattern p := by
  cases p with
  | record s fields =>
    simp only [Pattern.relocate, pattern, List.map_map]
    rfl
  | _ => rfl

theorem clausesText_relocate {clauses : List Clause}
    (hguard : ∀ c ∈ clauses, ∀ g, c.guard = some g → bare (g.relocate f) = bare g)
    (hresult : ∀ c ∈ clauses, bare (c.result.relocate f) = bare c.result) :
    clausesText (clauses.map (Clause.relocate f)) = clausesText clauses := by
  induction clauses with
  | nil => rfl
  | cons c rest ih =>
    have hrest := ih (fun c hc => hguard c (List.mem_cons_of_mem _ hc))
      fun c hc => hresult c (List.mem_cons_of_mem _ hc)
    have hg := hguard c List.mem_cons_self
    have hr := hresult c List.mem_cons_self
    obtain ⟨s, p, guard, result⟩ := c
    dsimp only at hg hr
    cases guard with
    | none => simp [Clause.relocate, clausesText, hrest, hr, pattern_relocate]
    | some guard =>
      simp [Clause.relocate, clausesText, hrest, hr, hg guard rfl, pattern_relocate]

theorem catchesText_relocate {catches : List Catch}
    (h : ∀ c ∈ catches, bare (c.handler.relocate f) = bare c.handler) :
    catchesText (catches.map (Catch.relocate f)) = catchesText catches := by
  induction catches with
  | nil => rfl
  | cons c rest ih =>
    have hrest := ih fun c hc => h c (List.mem_cons_of_mem _ hc)
    have hh := h c List.mem_cons_self
    obtain ⟨s, tag, binding, handler⟩ := c
    dsimp only at hh
    have hnames : catchNames (tag.map (Name.relocate f)) (binding.map (Name.relocate f)) =
        catchNames tag binding := by
      cases tag <;> cases binding <;> rfl
    simp [Catch.relocate, catchesText, hrest, hh, hnames]

theorem bare_relocate_of_parts {e : Expr} (ih : ∀ x ∈ e.children, bare (x.relocate f) = bare x)
    (hbody : ∀ x ∈ e.children, ∀ s params body, x = .function s params body →
      bare (body.relocate f) = bare body) : bare (e.relocate f) = bare e := by
  cases e with
  | text s segments =>
    have htexts := segmentsText_relocate f fun e (he : Segment.hole e ∈ segments) =>
      ih e (List.mem_flatMap.mpr ⟨_, he, List.mem_singleton_self e⟩)
    simp [Expr.relocate, bare, htexts]
  | record s fields =>
    have htexts := fieldTexts_relocate f fun b hb => ih _ (List.mem_map_of_mem hb)
    simp [Expr.relocate, bare, htexts]
  | list s items =>
    have htexts := withTexts_moved f fun e (he : e ∈ items) => ih e he
    simp [Expr.relocate, bare, htexts, placeItems_relocate]
  | function s params body =>
    simp [Expr.relocate, bare, ih body (List.mem_singleton_self _), Name.relocate,
      Function.comp_def]
  | apply s callee args =>
    have htexts := withTexts_moved f fun a ha => ih a (List.mem_cons_of_mem _ ha)
    have hop := Expr.operator?_relocate f (.apply s callee args)
    have hparts := applicationText_relocate f (Expr.apply s callee args).operator?
      (callee, bare callee) (withTexts args)
    simp only [Expr.relocate, relocateExprs_eq_map] at hop ⊢
    rw [bare, bare, htexts, hop, ih callee List.mem_cons_self]
    exact hparts
  | access s target field =>
    simp [Expr.relocate, bare, ih target (List.mem_singleton_self _), Name.relocate]
  | pipeline s seed stages =>
    have part : ∀ g ∈ stages, ∀ x ∈ g.callee :: g.args,
        bare (x.relocate f) = bare x := fun g hg x hx =>
      ih x (List.mem_cons_of_mem _ (List.mem_flatMap.mpr ⟨g, hg, hx⟩))
    have htexts := stageTexts_relocate f (fun g hg => part g hg _ List.mem_cons_self)
      fun g hg a ha => part g hg a (List.mem_cons_of_mem _ ha)
    simp [Expr.relocate, bare, ih seed List.mem_cons_self, htexts]
  | letIn s bindings body =>
    have part : ∀ b ∈ bindings, b.value ∈ (Expr.letIn s bindings body).children :=
      fun b hb => List.mem_append_left _ (List.mem_map_of_mem hb)
    have htexts := definitionTexts_relocate f (fun b hb => ih _ (part b hb))
      fun b hb => hbody _ (part b hb)
    simp [Expr.relocate, bare, htexts,
      ih body (List.mem_append_right _ (List.mem_singleton_self _))]
  | ifElse s branches fallback =>
    have part : ∀ b ∈ branches, ∀ x ∈ [b.condition, b.result],
        bare (x.relocate f) = bare x := fun b hb x hx =>
      ih x (List.mem_append_left _ (List.mem_flatMap.mpr ⟨b, hb, hx⟩))
    have htexts := branchTexts_relocate f (fun b hb => part b hb _ (by simp))
      fun b hb => part b hb b.result (by simp)
    simp [Expr.relocate, bare, htexts,
      ih fallback (List.mem_append_right _ (List.mem_singleton_self _))]
  | matchOn s subject clauses =>
    have part : ∀ c ∈ clauses, ∀ x ∈ c.guard.toList ++ [c.result],
        bare (x.relocate f) = bare x := fun c hc x hx =>
      ih x (List.mem_cons_of_mem _ (List.mem_flatMap.mpr ⟨c, hc, hx⟩))
    have htexts := clausesText_relocate f
      (fun c hc g hg => part c hc g (by simp [hg])) fun c hc => part c hc c.result (by simp)
    simp [Expr.relocate, bare, ih subject List.mem_cons_self, htexts]
  | tryCatch s body catches =>
    have htexts := catchesText_relocate f fun c hc =>
      ih c.handler (List.mem_cons_of_mem _ (List.mem_map_of_mem hc))
    simp [Expr.relocate, bare, ih body List.mem_cons_self, htexts]
  | _ => rfl

/-- The text of an expression is the same wherever it was read. -/
theorem bare_relocate (e : Expr) : bare (e.relocate f) = bare e := by
  suffices h : bare (e.relocate f) = bare e ∧ ∀ s params body, e = .function s params body →
    bare (body.relocate f) = bare body from h.1
  induction e using Expr.children_induction with
  | h e ih =>
    refine ⟨bare_relocate_of_parts f (fun x hx => (ih x hx).1) fun x hx => (ih x hx).2, ?_⟩
    rintro s params body rfl
    exact (ih body (List.mem_singleton_self _)).1

theorem valueLines_relocate (config : FormatConfig) (lead : String) (e : Expr) :
    valueLines config lead (e.relocate f) = valueLines config lead e := by
  have hbare := bare_relocate f e
  cases e with
  | pipeline s seed stages =>
    have htexts := stageTexts_relocate f (fun g (_ : g ∈ stages) => bare_relocate f g.callee)
      fun g _ a _ => bare_relocate f a
    simp only [Expr.relocate, relocateStages_eq_map] at hbare ⊢
    simp only [valueLines]
    rw [hbare, htexts, place_relocate, bare_relocate]
  | _ => exact congrArg (fun text => [lead ++ text]) hbare

theorem statementLines_relocate (config : FormatConfig) (s : Statement) :
    statementLines config (s.relocate f) = statementLines config s := by
  cases s with
  | error s => rfl
  | expr s e =>
    simp only [Statement.relocate, statementLines]
    rw [startsLikeDefinition_relocate, bare_relocate, valueLines_relocate]
  | assign s name value =>
    by_cases hfun : ∃ s params body, value = .function s params body
    · obtain ⟨t, params, body, rfl⟩ := hfun
      simp only [Statement.relocate, Expr.relocate, statementLines]
      rw [definitionHead_relocate, valueLines_relocate]
    · have hnot : ∀ s params body, value = .function s params body → False :=
        fun s params body he => hfun ⟨s, params, body, he⟩
      have hhead : definitionHead (name.relocate f) [] = definitionHead name [] :=
        definitionHead_relocate f name []
      rw [Statement.relocate, statementLines.eq_2 _ _ _ _ (not_function_relocate f hnot),
        statementLines.eq_2 _ _ _ _ hnot, hhead, valueLines_relocate]

end

/-- The text of a program is the same wherever it was read. -/
theorem program_relocate (config : FormatConfig) (p : Program) :
    program config (p.relocate f) = program config p := by
  unfold program programLines Program.relocate
  rw [List.flatMap_map]
  simp only [statementLines_relocate]

end Format

end PipeLang
