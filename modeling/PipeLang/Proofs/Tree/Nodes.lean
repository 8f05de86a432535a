import PipeLang.Proofs.Tree.Relocate

/-! The expressions in an expression, whatever their depths, and what is collected from them: the numbers,
and the reports of repeated keys. Replacing spans keeps them all. -/

namespace PipeLang

/-- The numbers that a pattern compares with. -/
def Pattern.numbers : Pattern → List Number
  | .record _ fields => fields.flatMap fun f =>
    match f.use with
    | .compare (.number value) => [value]
    | _ => []
  | .literal _ (.number value) => [value]
  | _ => []

namespace Expr

/-- The numbers of an expression that are not in its parts. -/
def ownNumbers : Expr → List Number
  | number _ value => [value]
  | matchOn _ _ clauses => clauses.flatMap fun c => c.pattern.numbers
  | _ => []

/-- An expression and all expressions in it. -/
def nodes (e : Expr) : List Expr := (e.preorder 0).map Prod.snd

/-- All numbers of an expression. -/
def numbers (e : Expr) : List Number := e.nodes.flatMap ownNumbers

theorem sizeOf_lt_of_mem_children {e child : Expr} (h : child ∈ e.children) :
    sizeOf child < sizeOf e := by
  cases e with
  | text s segments =>
    obtain ⟨segment, hm, hc⟩ := List.mem_flatMap.mp h
    have := List.sizeOf_lt_of_mem hm
    cases segment with
    | literal text => cases hc
    | hole value =>
      obtain rfl := List.mem_singleton.mp hc
      simp only [Segment.hole.sizeOf_spec, text.sizeOf_spec] at this ⊢
      omega
  | record s fields =>
    obtain ⟨b, hm, rfl⟩ := List.mem_map.mp h
    have := List.sizeOf_lt_of_mem hm
    cases b
    simp only [Binding.mk.sizeOf_spec, record.sizeOf_spec] at this ⊢
    omega
  | list s items =>
    have : sizeOf child < sizeOf items := List.sizeOf_lt_of_mem h
    simp only [list.sizeOf_spec]
    omega
  | function s params body =>
    obtain rfl := List.mem_singleton.mp h
    simp only [function.sizeOf_spec]
    omega
  | apply s callee args =>
    rcases List.mem_cons.mp h with rfl | h
    · simp only [apply.sizeOf_spec]
      omega
    · have := List.sizeOf_lt_of_mem h
      simp only [apply.sizeOf_spec]
      omega
  | access s target field =>
    obtain rfl := List.mem_singleton.mp h
    simp only [access.sizeOf_spec]
    omega
  | pipeline s seed stages =>
    rcases List.mem_cons.mp h with rfl | h
    · simp only [pipeline.sizeOf_spec]
      omega
    · obtain ⟨g, hm, hc⟩ := List.mem_flatMap.mp h
      have := List.sizeOf_lt_of_mem hm
      cases g
      rcases List.mem_cons.mp hc with rfl | hc
      · simp only [Stage.mk.sizeOf_spec, pipeline.sizeOf_spec] at this ⊢
        omega
      · have := List.sizeOf_lt_of_mem hc
        simp only [Stage.mk.sizeOf_spec, pipeline.sizeOf_spec] at *
        omega
  | letIn s bindings body =>
    rcases List.mem_append.mp h with h | h
    · obtain ⟨b, hm, rfl⟩ := List.mem_map.mp h
      have := List.sizeOf_lt_of_mem hm
      cases b
      simp only [Binding.mk.sizeOf_spec, letIn.sizeOf_spec] at this ⊢
      omega
    · obtain rfl := List.mem_singleton.mp h
      simp only [letIn.sizeOf_spec]
      omega
  | ifElse s branches fallback =>
    rcases List.mem_append.mp h with h | h
    · obtain ⟨b, hm, hc⟩ := List.mem_flatMap.mp h
      have := List.sizeOf_lt_of_mem hm
      cases b
      simp only [Branch.mk.sizeOf_spec] at this
      rcases List.mem_cons.mp hc with rfl | hc
      · simp only [ifElse.sizeOf_spec]
        omega
      · obtain rfl := List.mem_singleton.mp hc
        simp only [ifElse.sizeOf_spec]
        omega
    · obtain rfl := List.mem_singleton.mp h
      simp only [ifElse.sizeOf_spec]
      omega
  | matchOn s subject clauses =>
    rcases List.mem_cons.mp h with rfl | h
    · simp only [matchOn.sizeOf_spec]
      omega
    · obtain ⟨c, hm, hc⟩ := List.mem_flatMap.mp h
      have := List.sizeOf_lt_of_mem hm
      obtain ⟨t, pattern, guard, result⟩ := c
      simp only [Clause.mk.sizeOf_spec] at this
      rcases List.mem_append.mp hc with hc | hc
      · obtain rfl := Option.mem_toList.mp hc
        simp only [Option.some.sizeOf_spec, matchOn.sizeOf_spec] at this ⊢
        omega
      · obtain rfl := List.mem_singleton.mp hc
        simp only [matchOn.sizeOf_spec]
        omega
  | tryCatch s body catches =>
    rcases List.mem_cons.mp h with rfl | h
    · simp only [tryCatch.sizeOf_spec]
      omega
    · obtain ⟨c, hm, rfl⟩ := List.mem_map.mp h
      have := List.sizeOf_lt_of_mem hm
      cases c
      simp only [Catch.mk.sizeOf_spec, tryCatch.sizeOf_spec] at this ⊢
      omega
  | _ => cases h

/-- Whatever holds of a tree once it holds of its parts holds of all trees. -/
theorem children_induction {motive : Expr → Prop}
    (h : ∀ e, (∀ child ∈ e.children, motive child) → motive e) (e : Expr) : motive e := by
  have below : ∀ n e, sizeOf e < n → motive e := by
    intro n
    induction n with
    | zero => exact fun e hs => absurd hs (Nat.not_lt_zero _)
    | succ n ih =>
      intro e hs
      refine h e fun child hc => ih child ?_
      have := sizeOf_lt_of_mem_children hc
      omega
  exact below (sizeOf e + 1) e (Nat.lt_succ_self _)

theorem exprsPreorder_eq_flatMap (depth : Nat) (es : List Expr) :
    exprsPreorder depth es = es.flatMap (preorder depth) := by
  induction es with
  | nil => rfl
  | cons e rest ih => rw [exprsPreorder, ih, List.flatMap_cons]

/-- The depth from which a tree is listed changes the depths alone. -/
theorem map_snd_preorder (depth : Nat) (e : Expr) : (e.preorder depth).map Prod.snd = e.nodes := by
  unfold nodes
  suffices h : ∀ m n, (e.preorder m).map Prod.snd = (e.preorder n).map Prod.snd from h depth 0
  induction e using children_induction with
  | h e ih =>
    intro m n
    rw [preorder_eq, preorder_eq, exprsPreorder_eq_flatMap, exprsPreorder_eq_flatMap,
      List.map_cons, List.map_cons, List.map_flatMap, List.map_flatMap]
    refine congrArg (e :: ·) ?_
    rw [List.flatMap_def, List.flatMap_def]
    exact congrArg List.flatten (List.map_congr_left fun child hc => ih child hc (m + 1) (n + 1))

theorem nodes_eq (e : Expr) : e.nodes = e :: e.children.flatMap nodes := by
  unfold nodes
  rw [preorder_eq, exprsPreorder_eq_flatMap, List.map_cons, List.map_flatMap]
  refine congrArg (e :: ·) ?_
  rw [List.flatMap_def, List.flatMap_def]
  exact congrArg List.flatten (List.map_congr_left fun child _ => map_snd_preorder 1 child)

theorem numbers_eq (e : Expr) : e.numbers = e.ownNumbers ++ e.children.flatMap numbers := by
  unfold numbers
  rw [nodes_eq, List.flatMap_cons, List.flatMap_assoc]

theorem mem_numbers_of_child {e child : Expr} {x : Number} (hc : child ∈ e.children)
    (hx : x ∈ child.numbers) : x ∈ e.numbers := by
  rw [numbers_eq]
  exact List.mem_append_right _ (List.mem_flatMap.mpr ⟨child, hc, hx⟩)

theorem keyErrors_eq (e : Expr) : e.keyErrors = e.nodes.flatMap ownRepeatedKeys := by
  unfold keyErrors nodes
  rw [List.flatMap_map]

end Expr

/-- All expressions in a program. -/
def Program.nodes (p : Program) : List Expr := p.values.flatMap Expr.nodes

/-! Replacing spans. -/

/-- The report of a repeated key with its places replaced. -/
def Diagnostic.relocate (f : Span → Span) (d : Diagnostic) : Diagnostic :=
  { d with span := f d.span, labels := d.labels.map fun l => (f l.1, l.2) }

theorem map_eq_self {g : α → α} {as : List α} (h : ∀ a ∈ as, g a = a) : as.map g = as :=
  (List.map_congr_left h).trans (List.map_id as)

namespace Expr

/-- An expression with the image of each of its direct parts in the part's place. -/
def mapChildren (f : Expr → Expr) : Expr → Expr
  | text s segments => text s <| segments.map fun g =>
    match g with
    | .literal _ => g
    | .hole e => .hole (f e)
  | record s fields => record s (fields.map fun b => ⟨b.name, f b.value⟩)
  | list s items => list s (items.map f)
  | function s params body => function s params (f body)
  | apply s callee args => apply s (f callee) (args.map f)
  | access s target field => access s (f target) field
  | pipeline s seed stages =>
    pipeline s (f seed) (stages.map fun g => ⟨g.span, f g.callee, g.args.map f⟩)
  | letIn s bindings body => letIn s (bindings.map fun b => ⟨b.name, f b.value⟩) (f body)
  | ifElse s branches fallback =>
    ifElse s (branches.map fun b => ⟨f b.condition, f b.result⟩) (f fallback)
  | matchOn s subject clauses =>
    matchOn s (f subject) (clauses.map fun c => ⟨c.span, c.pattern, c.guard.map f, f c.result⟩)
  | tryCatch s body catches =>
    tryCatch s (f body) (catches.map fun c => ⟨c.span, c.tag, c.binding, f c.handler⟩)
  | e => e

theorem children_mapChildren (f : Expr → Expr) (e : Expr) :
    (e.mapChildren f).children = e.children.map f := by
  cases e with
  | text s segments =>
    rw [mapChildren, children, children, List.flatMap_map, List.map_flatMap]
    exact congrArg (List.flatMap · segments) (funext fun g => by cases g <;> rfl)
  | matchOn s subject clauses =>
    simp only [mapChildren, children, List.flatMap_map, List.map_flatMap, List.map_cons]
    refine congrArg (_ :: ·) (congrArg (List.flatMap · clauses) (funext fun c => ?_))
    cases hguard : c.guard <;> simp
  | _ => simp [mapChildren, children, List.flatMap_map, List.map_flatMap]

/-- Nothing changes where every part is its own image. -/
theorem mapChildren_eq_self {f : Expr → Expr} {e : Expr} (h : ∀ child ∈ e.children, f child = child) :
    e.mapChildren f = e := by
  have list : ∀ {es : List Expr}, (∀ x ∈ es, x ∈ e.children) → es.map f = es :=
    fun hes => map_eq_self fun x hx => h x (hes x hx)
  have bindings : ∀ {bs : List Binding}, (∀ b ∈ bs, b.value ∈ e.children) →
      (bs.map fun b => ⟨b.name, f b.value⟩) = bs :=
    fun hbs => map_eq_self fun b hb => by
      obtain ⟨name, value⟩ := b
      exact congrArg (Binding.mk name) (h value (hbs _ hb))
  cases e with
  | text s segments =>
    refine congrArg (text s) (map_eq_self fun g hg => ?_)
    cases g with
    | literal => rfl
    | hole e => exact congrArg Segment.hole (h e (List.mem_flatMap.mpr ⟨_, hg, List.mem_singleton_self e⟩))
  | record s fields => exact congrArg (record s) (bindings fun b hb => List.mem_map_of_mem hb)
  | list s items => exact congrArg (Expr.list s) (list fun x hx => hx)
  | function s params body => rw [mapChildren, h body (List.mem_singleton_self _)]
  | apply s callee args =>
    rw [mapChildren, h callee List.mem_cons_self, list fun x hx => List.mem_cons_of_mem _ hx]
  | access s target field => rw [mapChildren, h target (List.mem_singleton_self _)]
  | pipeline s seed stages =>
    rw [mapChildren, h seed List.mem_cons_self, map_eq_self fun g hg => ?_]
    have part : ∀ x ∈ g.callee :: g.args, x ∈ (pipeline s seed stages).children :=
      fun x hx => List.mem_cons_of_mem _ (List.mem_flatMap.mpr ⟨g, hg, hx⟩)
    obtain ⟨t, callee, args⟩ := g
    rw [h callee (part _ List.mem_cons_self), list fun x hx => part x (List.mem_cons_of_mem _ hx)]
  | letIn s bs body =>
    rw [mapChildren, bindings fun b hb => List.mem_append_left _ (List.mem_map_of_mem hb),
      h body (List.mem_append_right _ (List.mem_singleton_self _))]
  | ifElse s branches fallback =>
    rw [mapChildren, h fallback (List.mem_append_right _ (List.mem_singleton_self _)),
      map_eq_self fun b hb => ?_]
    have part : ∀ x ∈ [b.condition, b.result], x ∈ (ifElse s branches fallback).children :=
      fun x hx => List.mem_append_left _ (List.mem_flatMap.mpr ⟨b, hb, hx⟩)
    obtain ⟨condition, result⟩ := b
    rw [h condition (part _ (by simp)), h result (part _ (by simp))]
  | matchOn s subject clauses =>
    rw [mapChildren, h subject List.mem_cons_self, map_eq_self fun c hc => ?_]
    have part : ∀ x ∈ c.guard.toList ++ [c.result], x ∈ (matchOn s subject clauses).children :=
      fun x hx => List.mem_cons_of_mem _ (List.mem_flatMap.mpr ⟨c, hc, hx⟩)
    obtain ⟨t, pattern, guard, result⟩ := c
    rw [h result (part _ (by simp))]
    cases guard with
    | none => rfl
    | some guard => rw [Option.map_some, h guard (part _ (by simp))]
  | tryCatch s body catches =>
    rw [mapChildren, h body List.mem_cons_self, map_eq_self fun c hc => ?_]
    obtain ⟨t, tag, binding, handler⟩ := c
    rw [h handler (List.mem_cons_of_mem _ (List.mem_map.mpr ⟨_, hc, rfl⟩))]
  | _ => rfl

theorem relocate_id_eq_mapChildren (e : Expr) : e.relocate id = e.mapChildren (relocate id) := by
  cases e with
  | text s segments =>
    simp only [relocate, relocateSegments_eq_map, id]
    exact congrArg (text s) (List.map_congr_left fun g _ => by cases g <;> rfl)
  | function s params body =>
    rw [relocate, map_eq_self (g := Name.relocate id) fun _ _ => rfl]
    rfl
  | matchOn s subject clauses =>
    simp only [relocate, relocateClauses_eq_map, id]
    refine congrArg (matchOn s (subject.relocate id)) (List.map_congr_left fun c _ => ?_)
    obtain ⟨t, pattern, guard, result⟩ := c
    cases pattern with
    | record t fields =>
      simp only [Clause.relocate, Pattern.relocate, id]
      rw [map_eq_self (g := PatternField.relocate id) fun _ _ => rfl]
    | _ => rfl
  | tryCatch s body catches =>
    simp only [relocate, relocateCatches_eq_map, id]
    refine congrArg (tryCatch s (body.relocate id)) (List.map_congr_left fun c _ => ?_)
    obtain ⟨t, tag, binding, handler⟩ := c
    cases tag <;> cases binding <;> rfl
  | record s fields => simp [relocate, mapChildren, Binding.relocate, Name.relocate]
  | letIn s bindings body => simp [relocate, mapChildren, Binding.relocate, Name.relocate]
  | pipeline s seed stages => simp [relocate, mapChildren, Stage.relocate]
  | ifElse s branches fallback => simp [relocate, mapChildren, Branch.relocate]
  | _ => simp [relocate, mapChildren, Name.relocate]

/-- A tree stays as it is if all spans do. -/
theorem relocate_id (e : Expr) : e.relocate id = e := by
  induction e using children_induction with
  | h e ih => rw [relocate_id_eq_mapChildren, mapChildren_eq_self ih]

end Expr

theorem Statement.relocate_id (s : Statement) : s.relocate id = s := by
  cases s with
  | error => rfl
  | assign s name value => exact congrArg (assign s name) value.relocate_id
  | expr s value => exact congrArg (expr s) value.relocate_id

variable (f : Span → Span)

namespace Expr

theorem children_relocate (e : Expr) : (e.relocate f).children = e.children.map (relocate f) := by
  cases e with
  | text s segments =>
    simp only [relocate, relocateSegments_eq_map, children, List.flatMap_map, List.map_flatMap]
    refine congrArg (List.flatMap · segments) (funext fun g => ?_)
    cases g <;> rfl
  | matchOn s subject clauses =>
    simp only [relocate, relocateClauses_eq_map, children, List.flatMap_map, List.map_cons,
      List.map_flatMap]
    refine congrArg (relocate f subject :: List.flatMap · clauses) (funext fun c => ?_)
    obtain ⟨t, p, guard, result⟩ := c
    cases guard <;> rfl
  | record s fields => simp [relocate, children, Binding.relocate, Function.comp_def]
  | letIn s bindings body => simp [relocate, children, Binding.relocate, Function.comp_def]
  | pipeline s seed stages =>
    simp [relocate, children, Stage.relocate, List.flatMap_map, List.map_flatMap]
  | ifElse s branches fallback =>
    simp [relocate, children, Branch.relocate, List.flatMap_map, List.map_flatMap]
  | tryCatch s body catches => simp [relocate, children, Catch.relocate, Function.comp_def]
  | _ => simp [relocate, children]

theorem nodes_relocate (e : Expr) : (e.relocate f).nodes = e.nodes.map (relocate f) := by
  induction e using children_induction with
  | h e ih =>
    rw [nodes_eq, nodes_eq e, children_relocate, List.map_cons, List.flatMap_map, List.map_flatMap]
    refine congrArg (relocate f e :: ·) ?_
    rw [List.flatMap_def, List.flatMap_def]
    exact congrArg List.flatten (List.map_congr_left ih)

end Expr

theorem repeatedKeys_relocate (seen : List Name) (fields : List Binding) :
    repeatedKeys (seen.map (Name.relocate f)) (fields.map (Binding.relocate f)) =
      (repeatedKeys seen fields).map (Diagnostic.relocate f) := by
  induction fields generalizing seen with
  | nil => rfl
  | cons b rest ih =>
    obtain ⟨key, value⟩ := b
    have hfind : (seen.map (Name.relocate f)).find? (fun n => n.text == key.text) =
        (seen.find? fun n => n.text == key.text).map (Name.relocate f) := by
      rw [List.find?_map]
      rfl
    have hrest := ih (key :: seen)
    rw [List.map_cons] at hrest
    cases hs : seen.find? fun n => n.text == key.text with
    | none =>
      rw [hs] at hfind
      simp only [List.map_cons, repeatedKeys, Binding.relocate, hs]
      have hkey : (key.relocate f).text = key.text := rfl
      rw [hkey, hfind]
      exact hrest
    | some earlier =>
      rw [hs] at hfind
      simp only [List.map_cons, repeatedKeys, Binding.relocate, hs]
      have hkey : (key.relocate f).text = key.text := rfl
      rw [hkey, hfind]
      exact congrArg _ hrest

theorem Expr.ownRepeatedKeys_relocate (e : Expr) :
    (e.relocate f).ownRepeatedKeys = e.ownRepeatedKeys.map (Diagnostic.relocate f) := by
  cases e with
  | record s fields =>
    simp only [relocate, relocateBindings_eq_map, ownRepeatedKeys]
    exact repeatedKeys_relocate f [] fields
  | _ => simp [relocate, ownRepeatedKeys]

theorem Expr.keyErrors_relocate (e : Expr) :
    (e.relocate f).keyErrors = e.keyErrors.map (Diagnostic.relocate f) := by
  rw [keyErrors_eq, keyErrors_eq, nodes_relocate, List.flatMap_map, List.map_flatMap]
  exact congrArg (List.flatMap · e.nodes) (funext fun x => x.ownRepeatedKeys_relocate f)

theorem Program.values_relocate (p : Program) :
    (p.relocate f).values = p.values.map (Expr.relocate f) := by
  unfold Program.values Program.relocate
  dsimp only
  induction p.statements with
  | nil => rfl
  | cons s rest ih =>
    cases s with
    | error span => exact ih
    | assign span name value => exact congrArg (value.relocate f :: ·) ih
    | expr span value => exact congrArg (value.relocate f :: ·) ih

theorem Program.keyErrors_relocate (p : Program) :
    (p.relocate f).keyErrors = p.keyErrors.map (Diagnostic.relocate f) := by
  unfold Program.keyErrors
  rw [Program.values_relocate, List.flatMap_map, List.map_flatMap]
  exact congrArg (List.flatMap · p.values) (funext fun e => e.keyErrors_relocate f)

end PipeLang
