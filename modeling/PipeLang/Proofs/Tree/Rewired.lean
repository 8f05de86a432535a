import PipeLang.Proofs.Tree.Unmarked

/-! What resolving pipelines keeps of a tree. The parts without parts of their own stay, each as often as
before; only a placeholder that a value takes the place of is lost. -/

namespace PipeLang

namespace Expr

def ownStages : Expr → List Stage
  | pipeline _ _ stages => stages
  | _ => []

/-- The stages of all pipelines in an expression. -/
def stages (e : Expr) : List Stage := e.nodes.flatMap ownStages

/-- The parts of an expression, at any depth, that have no parts. -/
def leaves (e : Expr) : Multiset Expr := ↑(e.nodes.filter fun x => x.children.isEmpty)

end Expr

/-- The argument that the value that flows in takes the place of. -/
def Stage.slot? (g : Stage) : Option Expr := g.args.find? Expr.isPlaceholder

/-- The resolved arguments of a stage, with `value` at the position of the first bare placeholder, or first
when there is none. -/
def Stage.received (g : Stage) (value : Expr) : List Expr :=
  match g.args.findIdx? Expr.isPlaceholder with
  | some i => (g.args.map Expr.resolve).set i value
  | none => value :: g.args.map Expr.resolve

namespace Expr

/-- The placeholders that values take the place of. -/
def slots (e : Expr) : Multiset Expr := ↑(e.stages.filterMap Stage.slot?)

theorem isPlaceholder_of_mem_slots {e x : Expr} (h : x ∈ e.slots) : x.isPlaceholder = true := by
  obtain ⟨g, -, hslot⟩ := List.mem_filterMap.mp (Multiset.mem_coe.mp h)
  exact List.find?_some hslot

theorem card_slots (e : Expr) : e.slots.card = e.stages.countP fun g => g.args.any isPlaceholder := by
  rw [slots, Multiset.coe_card, List.length_filterMap_eq_countP]
  exact List.countP_congr fun g _ => by simp [Stage.slot?]

/-! ## Parts one by one -/

theorem leaves_leaf {e : Expr} (h : e.children = []) : e.leaves = {e} := by
  rw [leaves, nodes_eq, h]
  simp [h]

theorem coe_flatMap_eq_sum (f : α → List β) (as : List α) :
    ((as.flatMap f : List β) : Multiset β) = (as.map fun a => (f a : Multiset β)).sum := by
  induction as with
  | nil => rfl
  | cons a rest ih => rw [List.flatMap_cons, List.map_cons, List.sum_cons, ← ih, Multiset.coe_add]

theorem leaves_eq {e : Expr} (h : e.children ≠ []) : e.leaves = (e.children.map leaves).sum := by
  rw [leaves, nodes_eq, List.filter_cons_of_neg (by simpa using h), List.filter_flatMap,
    coe_flatMap_eq_sum]
  rfl

theorem slots_eq (e : Expr) :
    e.slots = ↑(e.ownStages.filterMap Stage.slot?) + (e.children.map slots).sum := by
  rw [slots, stages, nodes_eq, List.flatMap_cons, List.filterMap_append, ← Multiset.coe_add,
    List.flatMap_assoc, List.filterMap_flatMap, coe_flatMap_eq_sum]
  rfl

theorem self_mem_nodes (e : Expr) : e ∈ e.nodes := by
  rw [nodes_eq]
  exact List.mem_cons_self

theorem mem_nodes_of_child {e child x : Expr} (hc : child ∈ e.children) (hx : x ∈ child.nodes) :
    x ∈ e.nodes := by
  rw [nodes_eq]
  exact List.mem_cons_of_mem _ (List.mem_flatMap.mpr ⟨child, hc, hx⟩)

theorem mem_nodes_trans {x y e : Expr} (hx : x ∈ y.nodes) (hy : y ∈ e.nodes) : x ∈ e.nodes := by
  induction e using children_induction with
  | h e ih =>
    rw [nodes_eq] at hy
    rcases List.mem_cons.mp hy with rfl | hy
    · exact hx
    · obtain ⟨child, hc, hy⟩ := List.mem_flatMap.mp hy
      exact mem_nodes_of_child hc (ih child hc hy)

/-! ## One stage -/

theorem fillPlaceholder_eq (value : Expr) (args : List Expr) :
    fillPlaceholder value args =
      (args.findIdx? isPlaceholder).map fun i => (args.map resolve).set i value := by
  induction args with
  | nil => rfl
  | cons a rest ih =>
    rw [fillPlaceholder, List.findIdx?_cons, resolveExprs_eq_map, ih]
    split
    · rfl
    · cases rest.findIdx? isPlaceholder <;> rfl

/-- A stage without a placeholder has none to look for. -/
theorem received_eq (g : Stage) (value : Expr) :
    (fillPlaceholder value g.args).getD (value :: resolveExprs g.args) = g.received value := by
  rw [fillPlaceholder_eq, resolveExprs_eq_map, Stage.received]
  cases g.args.findIdx? isPlaceholder <;> rfl

theorem resolveStages_cons (value : Expr) (g : Stage) (rest : List Stage) :
    resolveStages value (g :: rest) =
      resolveStages (.apply (mergeSpans (g.span.merge g.callee.span) (g.received value)) g.callee.resolve
        (g.received value)) rest := by
  rw [← received_eq]
  cases g
  rfl

theorem resolveStages_append (value : Expr) (before after : List Stage) :
    resolveStages value (before ++ after) = resolveStages (resolveStages value before) after := by
  induction before generalizing value with
  | nil => rfl
  | cons g rest ih => rw [List.cons_append, resolveStages_cons, ih, resolveStages_cons]

theorem value_mem_received (g : Stage) (value : Expr) : value ∈ g.received value := by
  unfold Stage.received
  split
  · next i hi =>
    exact List.mem_set (by simpa using (List.findIdx?_eq_some_iff_findIdx_eq.mp hi).1) value
  · exact List.mem_cons_self

theorem value_mem_resolveStages (value : Expr) (stages : List Stage) :
    value ∈ (resolveStages value stages).nodes := by
  induction stages generalizing value with
  | nil => exact self_mem_nodes value
  | cons g rest ih =>
    rw [resolveStages_cons]
    refine mem_nodes_trans (mem_nodes_of_child ?_ (self_mem_nodes value)) (ih _)
    exact List.mem_cons_of_mem _ (value_mem_received g value)

theorem received_of_slot {g : Stage} {before after : List Expr} {slot : Expr}
    (hargs : g.args = before ++ slot :: after) (hslot : slot.isPlaceholder = true)
    (hbefore : ∀ a ∈ before, a.isPlaceholder = false) (value : Expr) :
    g.received value = before.map resolve ++ value :: after.map resolve := by
  have hnone : before.findIdx? isPlaceholder = none := List.findIdx?_eq_none_iff.mpr hbefore
  have hindex : g.args.findIdx? isPlaceholder = some before.length := by
    rw [hargs, List.findIdx?_append, hnone, List.findIdx?_cons, if_pos hslot]
    simp
  rw [Stage.received, hindex, hargs]
  simp

theorem received_of_no_slot {g : Stage} (h : g.slot? = none) (value : Expr) :
    g.received value = value :: g.args.map resolve := by
  have hnone : g.args.findIdx? isPlaceholder = none := by
    rw [List.findIdx?_eq_none_iff]
    simpa [Stage.slot?] using h
  rw [Stage.received, hnone]

theorem leaves_placeholder {a : Expr} (h : a.isPlaceholder = true) : a.leaves = {a} ∧ a.slots = 0 := by
  cases a with
  | wildcard s path => exact ⟨leaves_leaf rfl, rfl⟩
  | _ => cases h

/-- A value comes in and the placeholder it takes the place of goes out. -/
theorem sum_leaves_received {g : Stage} (h : ∀ a ∈ g.args, a.resolve.leaves + a.slots = a.leaves)
    (value : Expr) :
    ((g.received value).map leaves).sum + (↑g.slot?.toList + (g.args.map slots).sum) =
      value.leaves + (g.args.map leaves).sum := by
  have kept : ∀ as : List Expr, (∀ a ∈ as, a ∈ g.args) →
      (as.map leaves).sum = (as.map fun a => a.resolve.leaves).sum + (as.map slots).sum := by
    intro as has
    rw [← List.sum_map_add]
    exact congrArg List.sum (List.map_congr_left fun a ha => (h a (has a ha)).symm)
  cases hslot : g.slot? with
  | none =>
    rw [received_of_no_slot hslot, kept _ fun a ha => ha, List.map_cons, List.sum_cons, List.map_map]
    simp [Function.comp_def, add_assoc]
  | some slot =>
    obtain ⟨hp, before, after, hargs, hbefore⟩ := List.find?_eq_some_iff_append.mp hslot
    obtain ⟨hleaf, hnone⟩ := leaves_placeholder hp
    have hb := kept before fun a ha => hargs ▸ List.mem_append_left _ ha
    have ha := kept after fun a ha => hargs ▸ List.mem_append_right _ (List.mem_cons_of_mem _ ha)
    rw [received_of_slot hargs hp (by simpa using hbefore), hargs]
    simp only [List.map_append, List.map_cons, List.sum_append, List.sum_cons, List.map_map,
      Function.comp_def, hleaf, hnone, hb, ha, Option.toList_some, Multiset.coe_singleton, zero_add]
    abel

/-- By induction on the stages: the value that leaves one of them is the value that flows into the next. -/
theorem sum_leaves_resolveStages {stages : List Stage}
    (h : ∀ g ∈ stages, ∀ x ∈ g.callee :: g.args, x.resolve.leaves + x.slots = x.leaves) (value : Expr) :
    (resolveStages value stages).leaves + (↑(stages.filterMap Stage.slot?) +
        ((stages.flatMap fun g => g.callee :: g.args).map slots).sum) =
      value.leaves + ((stages.flatMap fun g => g.callee :: g.args).map leaves).sum := by
  induction stages generalizing value with
  | nil => rfl
  | cons g rest ih =>
    let t := mergeSpans (g.span.merge g.callee.span) (g.received value)
    let next := apply t g.callee.resolve (g.received value)
    have hnext : next.leaves = g.callee.resolve.leaves + ((g.received value).map leaves).sum :=
      leaves_eq (List.cons_ne_nil _ _)
    have hslots : (↑((g :: rest).filterMap Stage.slot?) : Multiset Expr) =
        ↑g.slot?.toList + ↑(rest.filterMap Stage.slot?) := by
      rw [List.filterMap_cons, Multiset.coe_add]
      cases g.slot? <;> rfl
    have hcallee := h g List.mem_cons_self g.callee List.mem_cons_self
    have hargs := sum_leaves_received (fun a ha => h g List.mem_cons_self a (List.mem_cons_of_mem _ ha)) value
    have hrest := ih (fun g hg => h g (List.mem_cons_of_mem _ hg)) next
    rw [hnext] at hrest
    rw [resolveStages_cons, hslots]
    simp only [List.flatMap_cons, List.map_append, List.map_cons, List.sum_append, List.sum_cons]
    generalize ((rest.flatMap fun g => g.callee :: g.args).map slots).sum = restSlots at hrest ⊢
    generalize ((rest.flatMap fun g => g.callee :: g.args).map leaves).sum = restLeaves at hrest ⊢
    calc (resolveStages next rest).leaves + (↑g.slot?.toList + ↑(rest.filterMap Stage.slot?) +
          (g.callee.slots + (g.args.map slots).sum + restSlots))
        = (resolveStages next rest).leaves + (↑(rest.filterMap Stage.slot?) + restSlots) +
            (g.callee.slots + (↑g.slot?.toList + (g.args.map slots).sum)) := by abel
      _ = (g.callee.resolve.leaves + g.callee.slots) + (((g.received value).map leaves).sum +
            (↑g.slot?.toList + (g.args.map slots).sum)) + restLeaves := by rw [hrest]; abel
      _ = value.leaves + (g.callee.leaves + (g.args.map leaves).sum + restLeaves) := by
          rw [hcallee, hargs]; abel

/-- A tree without pipelines has nothing to resolve. -/
theorem resolve_eq_self {e : Expr} (h : ∀ s seed stages, pipeline s seed stages ∉ e.nodes) :
    e.resolve = e := by
  induction e using children_induction with
  | h e ih =>
    have hform : ∀ s seed stages, e ≠ .pipeline s seed stages :=
      fun s seed stages he => h s seed stages (he ▸ self_mem_nodes e)
    rw [resolve_eq_mapChildren hform]
    exact mapChildren_eq_self fun child hc =>
      ih child hc fun s seed stages hx => h s seed stages (mem_nodes_of_child hc hx)

theorem no_pipeline_resolve (e : Expr) (s : Span) (seed : Expr) (stages : List Stage) :
    pipeline s seed stages ∉ e.resolve.nodes := by
  intro hx
  refine forall_nodes_resolve (P := fun x => ∀ s seed stages, x ≠ pipeline s seed stages)
    (fun _ _ _ _ _ _ => nofun) (fun x hx hform => ?_) _ hx s seed stages rfl
  rw [resolve_eq_mapChildren hform]
  cases x with
  | pipeline t seed stages => exact absurd rfl (hform t seed stages)
  | _ => exact fun _ _ _ => nofun

/-- Nothing is lost and nothing comes twice. -/
theorem leaves_resolve (e : Expr) : e.resolve.leaves + e.slots = e.leaves := by
  induction e using children_induction with
  | h e ih =>
    rcases e.eq_pipeline_or_ne with ⟨s, seed, stages, rfl⟩ | hform
    · have hseed := ih seed List.mem_cons_self
      have hparts : ∀ g ∈ stages, ∀ x ∈ g.callee :: g.args, x.resolve.leaves + x.slots = x.leaves :=
        fun g hg x hx => ih x (List.mem_cons_of_mem _ (List.mem_flatMap.mpr ⟨g, hg, hx⟩))
      have hstages := sum_leaves_resolveStages hparts seed.resolve
      rw [leaves_eq (show (pipeline s seed stages).children ≠ [] from List.cons_ne_nil _ _), slots_eq, resolve]
      simp only [children, ownStages, List.map_cons, List.sum_cons]
      rw [← hseed, add_right_comm, ← hstages]
      abel
    · have hown : e.ownStages = [] := by
        cases e with
        | pipeline s seed stages => exact absurd rfl (hform s seed stages)
        | _ => rfl
      rw [slots_eq, hown, List.filterMap_nil, Multiset.coe_nil, zero_add]
      by_cases hleaf : e.children = []
      · have hsame : e.resolve = e := by
          rw [resolve_eq_mapChildren hform]
          exact mapChildren_eq_self fun child hc => by rw [hleaf] at hc; cases hc
        rw [hsame, hleaf, List.map_nil, List.sum_nil, add_zero]
      · rw [leaves_eq hleaf, leaves_eq (by rw [children_resolve hform]; simpa using hleaf),
          children_resolve hform, List.map_map, ← List.sum_map_add]
        exact congrArg List.sum (List.map_congr_left ih)

/-! ## Where the values stand -/

/-- One more stage is an application around the value of the pipeline before it. -/
theorem resolve_pipeline_concat (s : Span) (seed : Expr) (before : List Stage) (g : Stage) :
    ∃ t, (pipeline s seed (before ++ [g])).resolve =
      apply t g.callee.resolve (g.received (pipeline s seed before).resolve) := by
  rw [resolve, resolve, resolveStages_append, resolveStages_cons]
  exact ⟨_, rfl⟩

/-- An argument that no value takes the place of is resolved where it stands. -/
theorem resolve_mem_received {g : Stage} {a : Expr} (ha : a ∈ g.args) (hp : a.isPlaceholder = false)
    (value : Expr) : a.resolve ∈ g.received value := by
  cases hslot : g.slot? with
  | none =>
    rw [received_of_no_slot hslot]
    exact List.mem_cons_of_mem _ (List.mem_map_of_mem ha)
  | some slot =>
    obtain ⟨hslot, before, after, hargs, hbefore⟩ := List.find?_eq_some_iff_append.mp hslot
    rw [received_of_slot hargs hslot (by simpa using hbefore)]
    rw [hargs] at ha
    rcases List.mem_append.mp ha with ha | ha
    · exact List.mem_append_left _ (List.mem_map_of_mem ha)
    · rcases List.mem_cons.mp ha with rfl | ha
      · rw [hp] at hslot
        cases hslot
      · exact List.mem_append_right _ (List.mem_cons_of_mem _ (List.mem_map_of_mem ha))

/-- What flows out of some of the stages is in the outcome of all of them. -/
theorem resolveStages_mem_nodes (value : Expr) (before after : List Stage) :
    resolveStages value before ∈ (resolveStages value (before ++ after)).nodes := by
  rw [resolveStages_append]
  exact value_mem_resolveStages _ after

theorem resolve_mem_resolveStages {stages : List Stage} {g : Stage} (hg : g ∈ stages) {part : Expr}
    (hpart : part ∈ g.callee :: g.args) (hp : part.isPlaceholder = false) (value : Expr) :
    part.resolve ∈ (resolveStages value stages).nodes := by
  obtain ⟨before, after, rfl⟩ := List.append_of_mem hg
  rw [resolveStages_append, resolveStages_cons]
  refine mem_nodes_trans (mem_nodes_of_child ?_ (self_mem_nodes part.resolve))
    (value_mem_resolveStages _ after)
  rcases List.mem_cons.mp hpart with rfl | ha
  · exact List.mem_cons_self
  · exact List.mem_cons_of_mem _ (resolve_mem_received ha hp _)

/-- Every expression in a tree but a placeholder is in the resolved tree, resolved itself. -/
theorem resolve_mem_nodes {e x : Expr} (hx : x ∈ e.nodes) (hp : x.isPlaceholder = false) :
    x.resolve ∈ e.resolve.nodes := by
  induction e using children_induction with
  | h e ih =>
    rw [nodes_eq] at hx
    rcases List.mem_cons.mp hx with rfl | hx
    · exact self_mem_nodes _
    obtain ⟨child, hc, hin⟩ := List.mem_flatMap.mp hx
    have hchild := ih child hc hin
    rcases e.eq_pipeline_or_ne with ⟨s, seed, stages, rfl⟩ | hform
    · refine mem_nodes_trans hchild ?_
      rcases List.mem_cons.mp hc with rfl | hc
      · exact value_mem_resolveStages _ stages
      · obtain ⟨g, hg, hc⟩ := List.mem_flatMap.mp hc
        refine resolve_mem_resolveStages hg hc ?_ _
        -- the only expression in a placeholder is the placeholder
        rw [nodes_eq] at hin
        cases child with
        | wildcard t path =>
          obtain rfl := List.mem_singleton.mp hin
          exact hp
        | _ => rfl
    · refine mem_nodes_of_child ?_ hchild
      rw [children_resolve hform]
      exact List.mem_map_of_mem hc

/-- Resolving takes every pipeline apart and loses nothing. The leaves of the tree stay, and of every stage
with a bare placeholder, at any depth, one such placeholder goes; the value that flows into a stage stands in
the place of the first one, or first where there is none; and where no pipeline is, everything stays. -/
theorem resolve_rewires (e : Expr) :
    (∀ s seed stages, pipeline s seed stages ∉ e.resolve.nodes) ∧
    (e.resolve.leaves + e.slots = e.leaves ∧ (∀ x ∈ e.slots, x.isPlaceholder = true) ∧
      e.slots.card = e.stages.countP fun g => g.args.any isPlaceholder) ∧
    (∀ s seed before g after, pipeline s seed (before ++ g :: after) ∈ e.nodes →
      ∃ t, let stage := apply t g.callee.resolve (g.received (pipeline s seed before).resolve)
        (pipeline s seed (before ++ [g])).resolve = stage ∧ stage ∈ e.resolve.nodes) ∧
    ((∀ s seed stages, pipeline s seed stages ∉ e.nodes) → e.resolve = e) ∧
    e.resolve.resolve = e.resolve := by
  refine ⟨no_pipeline_resolve e, ⟨leaves_resolve e, fun _ => isPlaceholder_of_mem_slots, card_slots e⟩, ?_,
    resolve_eq_self, resolve_eq_self (no_pipeline_resolve e)⟩
  intro s seed before g after hmem
  obtain ⟨t, hstage⟩ := resolve_pipeline_concat s seed before g
  refine ⟨t, hstage, ?_⟩
  rw [← hstage]
  have hall := resolve_mem_nodes hmem rfl
  refine mem_nodes_trans ?_ hall
  rw [resolve, resolve, ← List.singleton_append, ← List.append_assoc]
  exact resolveStages_mem_nodes _ _ _

/-- A pipeline in an argument of a stage, a stage with two placeholders, one with none, and no stages at
all. -/
example :
    let at0 := Span.origin
    let hole := wildcard at0 []
    let inner := pipeline at0 (ident at0 "a") []
    (pipeline at0 inner [⟨at0, ident at0 "f", [ident at0 "b", hole, hole]⟩, ⟨at0, ident at0 "g", []⟩]).resolve =
      apply at0 (ident at0 "g") [apply at0 (ident at0 "f") [ident at0 "b", ident at0 "a", hole]] := by
  rfl

end Expr

end PipeLang
