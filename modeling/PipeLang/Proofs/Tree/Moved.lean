import PipeLang.Proofs.Tree.Rewired

/-! Resolving a tree whose spans have been replaced. If the new spans merge as the old ones did, that gives
the resolved tree with its spans replaced. -/

namespace PipeLang

variable {f : Span → Span}

namespace Expr

/-- What is done to the parts of a tree commutes with replacing its spans if it does so for every part. -/
theorem mapChildren_relocate {g : Expr → Expr} {e : Expr}
    (h : ∀ child ∈ e.children, g (child.relocate f) = (g child).relocate f) :
    (e.relocate f).mapChildren g = (e.mapChildren g).relocate f := by
  have list : ∀ {es : List Expr}, (∀ x ∈ es, x ∈ e.children) →
      (es.map (relocate f)).map g = (es.map g).map (relocate f) := fun hes => by
    rw [List.map_map, List.map_map]
    exact List.map_congr_left fun x hx => h x (hes x hx)
  have bindings : ∀ {bs : List Binding}, (∀ b ∈ bs, b.value ∈ e.children) →
      ((bs.map (Binding.relocate f)).map fun b => (⟨b.name, g b.value⟩ : Binding)) =
        (bs.map fun b => (⟨b.name, g b.value⟩ : Binding)).map (Binding.relocate f) := fun hbs => by
    rw [List.map_map, List.map_map]
    exact List.map_congr_left fun b hb => congrArg (Binding.mk (b.name.relocate f)) (h b.value (hbs b hb))
  cases e with
  | text s segments =>
    simp only [relocate, mapChildren, relocateSegments_eq_map, List.map_map]
    refine congrArg (text (f s)) (List.map_congr_left fun segment hs => ?_)
    cases segment with
    | literal text => rfl
    | hole e => exact congrArg Segment.hole (h e (List.mem_flatMap.mpr ⟨_, hs, List.mem_singleton_self e⟩))
  | record s fields =>
    simp only [relocate, mapChildren, relocateBindings_eq_map]
    rw [bindings fun b hb => List.mem_map_of_mem hb]
  | list s items =>
    simp only [relocate, mapChildren, relocateExprs_eq_map]
    exact congrArg (Expr.list (f s)) (list fun x hx => hx)
  | function s params body =>
    simp only [relocate, mapChildren]
    rw [h body (List.mem_singleton_self _)]
  | apply s callee args =>
    simp only [relocate, mapChildren, relocateExprs_eq_map]
    rw [h callee List.mem_cons_self, list fun x hx => List.mem_cons_of_mem _ hx]
  | access s target field =>
    simp only [relocate, mapChildren]
    rw [h target (List.mem_singleton_self _)]
  | pipeline s seed stages =>
    simp only [relocate, mapChildren, relocateStages_eq_map, List.map_map]
    rw [h seed List.mem_cons_self]
    refine congrArg (pipeline (f s) _) (List.map_congr_left fun stage hs => ?_)
    have part : ∀ x ∈ stage.callee :: stage.args, x ∈ (pipeline s seed stages).children :=
      fun x hx => List.mem_cons_of_mem _ (List.mem_flatMap.mpr ⟨stage, hs, hx⟩)
    obtain ⟨t, callee, args⟩ := stage
    simp only [Function.comp_apply, Stage.relocate]
    rw [h callee (part _ List.mem_cons_self), list fun x hx => part x (List.mem_cons_of_mem _ hx)]
  | letIn s bs body =>
    simp only [relocate, mapChildren, relocateBindings_eq_map]
    rw [h body (List.mem_append_right _ (List.mem_singleton_self _)),
      bindings fun b hb => List.mem_append_left _ (List.mem_map_of_mem hb)]
  | ifElse s branches fallback =>
    simp only [relocate, mapChildren, relocateBranches_eq_map, List.map_map]
    rw [h fallback (List.mem_append_right _ (List.mem_singleton_self _))]
    refine congrArg (ifElse (f s) · _) (List.map_congr_left fun b hb => ?_)
    have part : ∀ x ∈ [b.condition, b.result], x ∈ (ifElse s branches fallback).children :=
      fun x hx => List.mem_append_left _ (List.mem_flatMap.mpr ⟨b, hb, hx⟩)
    obtain ⟨condition, result⟩ := b
    simp only [Function.comp_apply, Branch.relocate]
    rw [h condition (part _ (by simp)), h result (part _ (by simp))]
  | matchOn s subject clauses =>
    simp only [relocate, mapChildren, relocateClauses_eq_map, List.map_map]
    rw [h subject List.mem_cons_self]
    refine congrArg (matchOn (f s) _) (List.map_congr_left fun c hc => ?_)
    have part : ∀ x ∈ c.guard.toList ++ [c.result], x ∈ (matchOn s subject clauses).children :=
      fun x hx => List.mem_cons_of_mem _ (List.mem_flatMap.mpr ⟨c, hc, hx⟩)
    obtain ⟨t, pattern, guard, result⟩ := c
    simp only [Function.comp_apply, Clause.relocate]
    rw [h result (part _ (by simp))]
    cases guard with
    | none => rfl
    | some guard => simp only [Option.map_some, h guard (part _ (by simp))]
  | tryCatch s body catches =>
    simp only [relocate, mapChildren, relocateCatches_eq_map, List.map_map]
    rw [h body List.mem_cons_self]
    refine congrArg (tryCatch (f s) _) (List.map_congr_left fun c hc => ?_)
    obtain ⟨t, tag, binding, handler⟩ := c
    simp only [Function.comp_apply, Catch.relocate]
    rw [h handler (List.mem_cons_of_mem _ (List.mem_map.mpr ⟨_, hc, rfl⟩))]
  | _ => rfl

end Expr

theorem Stage.received_relocate {g : Stage} {value : Expr}
    (hargs : ∀ a ∈ g.args, (a.relocate f).resolve = a.resolve.relocate f) :
    (g.relocate f).received (value.relocate f) = (g.received value).map (Expr.relocate f) := by
  have hresolved : (g.args.map (Expr.relocate f)).map Expr.resolve =
      (g.args.map Expr.resolve).map (Expr.relocate f) := by
    rw [List.map_map, List.map_map]
    exact List.map_congr_left hargs
  have hslot : (g.args.map (Expr.relocate f)).findIdx? Expr.isPlaceholder =
      g.args.findIdx? Expr.isPlaceholder := by
    rw [List.findIdx?_map]
    exact congrArg (List.findIdx? · g.args) (funext fun a => a.isPlaceholder_relocate f)
  unfold received relocate
  dsimp only
  rw [hslot, hresolved]
  cases g.args.findIdx? Expr.isPlaceholder with
  | none => rfl
  | some i => exact List.map_set.symm

variable (hf : ∀ s t, f (s.merge t) = (f s).merge (f t))

include hf

theorem mergeSpans_relocate (s : Span) (es : List Expr) :
    mergeSpans (f s) (es.map (Expr.relocate f)) = f (mergeSpans s es) := by
  unfold mergeSpans
  induction es generalizing s with
  | nil => rfl
  | cons e rest ih =>
    rw [List.map_cons, List.foldl_cons, List.foldl_cons, e.span_relocate, ← hf]
    exact ih _

namespace Expr

theorem resolveStages_relocate {stages : List Stage}
    (h : ∀ g ∈ stages, ∀ part ∈ g.callee :: g.args, (part.relocate f).resolve = part.resolve.relocate f)
    (value : Expr) :
    resolveStages (value.relocate f) (stages.map (Stage.relocate f)) =
      (resolveStages value stages).relocate f := by
  induction stages generalizing value with
  | nil => rfl
  | cons g rest ih =>
    have hg := h g List.mem_cons_self
    have hspan : (g.relocate f).span.merge (g.relocate f).callee.span = f (g.span.merge g.callee.span) := by
      rw [hf, ← g.callee.span_relocate f]
      rfl
    have hcallee : (g.relocate f).callee.resolve = g.callee.resolve.relocate f := hg _ List.mem_cons_self
    have happly : ∀ s (callee : Expr) args, Expr.apply (f s) (callee.relocate f) (args.map (relocate f)) =
        (Expr.apply s callee args).relocate f := fun s callee args => by
      rw [relocate, relocateExprs_eq_map]
    rw [List.map_cons, resolveStages_cons, resolveStages_cons,
      Stage.received_relocate fun a ha => hg a (List.mem_cons_of_mem _ ha), hspan, mergeSpans_relocate hf,
      hcallee, happly]
    exact ih (fun g hg => h g (List.mem_cons_of_mem _ hg)) _

/-- Resolving commutes with replacing spans. -/
theorem resolve_relocate (e : Expr) : (e.relocate f).resolve = e.resolve.relocate f := by
  induction e using children_induction with
  | h e ih =>
    rcases e.eq_pipeline_or_ne with ⟨s, seed, stages, rfl⟩ | hform
    · rw [relocate, resolve, resolve, relocateStages_eq_map, ih seed List.mem_cons_self]
      refine resolveStages_relocate hf (fun g hg part hpart => ih part ?_) _
      exact List.mem_cons_of_mem _ (List.mem_flatMap.mpr ⟨g, hg, hpart⟩)
    · have hmoved : ∀ s seed stages, e.relocate f ≠ pipeline s seed stages := fun s seed stages he => by
        cases e with
        | pipeline t seed stages => exact hform t seed stages rfl
        | _ => cases he
      rw [resolve_eq_mapChildren hform, resolve_eq_mapChildren hmoved, mapChildren_relocate ih]

end Expr

end PipeLang
