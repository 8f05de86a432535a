import PipeLang.Proofs.Tree.Outline
import PipeLang.Proofs.Tree.Unmarked

/-! What becomes of spans when pipelines are rewired. The applications that take the place of a pipeline
stay inside it, and each spans the value that flows into it. -/

namespace PipeLang

open Outline

variable {text : List Char}

/-- An expression that is held by another one nests inside the same span. -/
theorem Expr.within_of_holds {e f : Expr} {s : Span} (h : e.outline.Holds text f.outline)
    (he : e.outline.Nests text ∧ s.Covers e.span) : f.outline.Nests text ∧ s.Covers f.span := by
  obtain ⟨hnests, hinside⟩ := h he.1
  rw [Expr.span_outline, Expr.span_outline] at hinside
  exact ⟨hnests, he.2.trans hinside⟩

theorem Expr.located_of_nests {e : Expr} (h : e.outline.Nests text) : e.span.Located text :=
  e.span_outline ▸ h.located

theorem Stage.nests_part {g : Stage} (hg : g.outline.Nests text) {x : Expr} (hx : x ∈ g.callee :: g.args) :
    x.outline.Nests text ∧ g.span.Covers x.span := by
  have hmem : x.outline ∈ g.outline.children := List.mem_map_of_mem (f := Expr.outline) hx
  have hpart := hg.child hmem
  rwa [Expr.span_outline] at hpart

/-- One more stage around a value: what flows in may come from outside the stage, but not from outside what
`outer` spans. -/
theorem nests_resolvedStage {outer : Span} {g : Stage} (hg : g.outline.Nests text ∧ outer.Covers g.span)
    (hparts : ∀ x ∈ g.callee :: g.args, x.outline.Holds text x.resolve.outline) {filled : List Expr}
    (hfilled : ∀ a ∈ filled, a.outline.Nests text ∧ outer.Covers a.span) :
    let e : Expr := .apply (mergeSpans (g.span.merge g.callee.span) filled) g.callee.resolve filled
    e.outline.Nests text ∧ outer.Covers e.span := by
  obtain ⟨hnests, hcovers⟩ := hg
  obtain ⟨hcallee, hinside⟩ := Stage.nests_part hnests List.mem_cons_self
  obtain ⟨hfirst, hrest⟩ := Span.covers_foldl_merge Expr.span (g.span.merge g.callee.span) filled
  have hspan : (mergeSpans (g.span.merge g.callee.span) filled).Located text :=
    (hnests.located.merge (Expr.located_of_nests hcallee).placed).foldl_merge fun a ha =>
      (Expr.located_of_nests (hfilled a ha).1).placed
  refine ⟨?_, (hcovers.merge (hcovers.trans hinside)).foldl_merge fun a ha => (hfilled a ha).2⟩
  have hall : ∀ x ∈ g.callee.resolve :: filled, x.outline.Nests text ∧
      (mergeSpans (g.span.merge g.callee.span) filled).Covers x.span := by
    intro x hx
    rcases List.mem_cons.mp hx with rfl | hx
    · exact Expr.within_of_holds (hparts _ List.mem_cons_self)
        ⟨hcallee, hfirst.trans Span.covers_merge_right⟩
    · exact ⟨(hfilled x hx).1, hrest x hx⟩
  rw [Expr.outline, exprOutlines_eq_map, ← List.map_cons]
  refine nests_node hspan (fun o ho => ?_) (held_of_subset (List.Subset.refl _))
  obtain ⟨x, hx, rfl⟩ := List.mem_map.mp ho
  rw [Expr.span_outline]
  exact hall x hx

theorem nests_resolveStages {outer : Span} {stages : List Stage}
    (hstages : ∀ g ∈ stages, g.outline.Nests text ∧ outer.Covers g.span)
    (hparts : ∀ g ∈ stages, ∀ x ∈ g.callee :: g.args, x.outline.Holds text x.resolve.outline)
    {value : Expr} (hvalue : value.outline.Nests text ∧ outer.Covers value.span) :
    (resolveStages value stages).outline.Nests text ∧ outer.Covers (resolveStages value stages).span := by
  induction stages generalizing value with
  | nil => exact hvalue
  | cons g rest ih =>
    obtain ⟨hnests, hcovers⟩ := hstages g List.mem_cons_self
    have hfilled : ∀ a ∈ (fillPlaceholder value g.args).getD (value :: resolveExprs g.args),
        a.outline.Nests text ∧ outer.Covers a.span := by
      intro a ha
      rcases Expr.mem_of_filled ha with rfl | ⟨x, hx, rfl⟩
      · exact hvalue
      · have hmem := List.mem_cons_of_mem g.callee hx
        obtain ⟨hpart, hinside⟩ := Stage.nests_part hnests hmem
        exact Expr.within_of_holds (hparts g List.mem_cons_self x hmem) ⟨hpart, hcovers.trans hinside⟩
    have hnext := nests_resolvedStage ⟨hnests, hcovers⟩ (hparts g List.mem_cons_self) hfilled
    cases g
    exact ih (fun g hg => hstages g (List.mem_cons_of_mem _ hg))
      (fun g hg => hparts g (List.mem_cons_of_mem _ hg)) hnext

theorem held_resolveExprs {es : List Expr} (h : ∀ e ∈ es, e.outline.Holds text e.resolve.outline) :
    Held text (exprOutlines es) (exprOutlines (resolveExprs es)) := by
  induction es with
  | nil => exact .nil
  | cons e rest ih =>
    rw [resolveExprs, exprOutlines, exprOutlines]
    exact .cons (h e List.mem_cons_self) (ih fun f hf => h f (List.mem_cons_of_mem e hf))

theorem held_resolveSegments {gs : List Segment}
    (h : ∀ e ∈ gs.flatMap Segment.exprs, e.outline.Holds text e.resolve.outline) :
    Held text (segmentOutlines gs) (segmentOutlines (resolveSegments gs)) := by
  induction gs with
  | nil => exact .nil
  | cons g rest ih =>
    have hrest := ih fun e he => h e (List.mem_append_right _ he)
    cases g with
    | literal => simpa only [resolveSegments, segmentOutlines] using hrest
    | hole e =>
      rw [resolveSegments, segmentOutlines, segmentOutlines]
      exact .cons (h e List.mem_cons_self) hrest

theorem held_resolveBindings {bs : List Binding}
    (h : ∀ e ∈ bs.map Binding.value, e.outline.Holds text e.resolve.outline) :
    Held text (bindingOutlines bs) (bindingOutlines (resolveBindings bs)) := by
  induction bs with
  | nil => exact .nil
  | cons b rest ih =>
    obtain ⟨name, value⟩ := b
    rw [resolveBindings, bindingOutlines, bindingOutlines]
    exact .cons .refl (.cons (h value List.mem_cons_self) (ih fun e he => h e (List.mem_cons_of_mem _ he)))

theorem held_resolveBranches {bs : List Branch}
    (h : ∀ e ∈ bs.flatMap fun b => [b.condition, b.result], e.outline.Holds text e.resolve.outline) :
    Held text (branchOutlines bs) (branchOutlines (resolveBranches bs)) := by
  induction bs with
  | nil => exact .nil
  | cons b rest ih =>
    obtain ⟨condition, result⟩ := b
    rw [resolveBranches, branchOutlines, branchOutlines]
    exact .cons (h condition (by simp)) (.cons (h result (by simp))
      (ih fun e he => h e (List.mem_append_right _ he)))

theorem held_resolveClauses {cs : List Clause}
    (h : ∀ e ∈ cs.flatMap fun c => c.guard.toList ++ [c.result], e.outline.Holds text e.resolve.outline) :
    Held text (clauseOutlines cs) (clauseOutlines (resolveClauses cs)) := by
  induction cs with
  | nil => exact .nil
  | cons c rest ih =>
    have hrest := ih fun e he => h e (List.mem_append_right _ he)
    obtain ⟨s, pattern, guard, result⟩ := c
    have hresult := h result (by simp)
    cases guard with
    | none =>
      rw [resolveClauses, clauseOutlines, clauseOutlines]
      exact .cons (.node (.cons .refl (.cons hresult .nil))) hrest
    | some guard =>
      rw [resolveClauses, clauseOutlines, clauseOutlines]
      exact .cons (.node (.cons .refl (.cons (h guard (by simp)) (.cons hresult .nil)))) hrest

theorem held_resolveCatches {cs : List Catch}
    (h : ∀ e ∈ cs.map Catch.handler, e.outline.Holds text e.resolve.outline) :
    Held text (catchOutlines cs) (catchOutlines (resolveCatches cs)) := by
  induction cs with
  | nil => exact .nil
  | cons c rest ih =>
    obtain ⟨s, tag, binding, handler⟩ := c
    rw [resolveCatches, catchOutlines, catchOutlines]
    have hhandler := h handler List.mem_cons_self
    exact .cons (.node (.append (held_of_subset (List.Subset.refl _)) (.cons hhandler .nil)))
      (ih fun e he => h e (List.mem_cons_of_mem _ he))

/-- By induction on the parts of the expression. -/
theorem Expr.holds_resolve (e : Expr) : e.outline.Holds text e.resolve.outline := by
  induction e using Expr.children_induction with
  | h e ih =>
    cases e with
    | pipeline s seed stages =>
      intro hnests
      have part : ∀ o ∈ seed.outline :: stages.map Stage.outline, o.Nests text ∧ s.Covers o.span := by
        intro o ho
        refine hnests.child ?_
        rwa [Expr.outline, stageOutlines_eq_map]
      have hseed := part seed.outline List.mem_cons_self
      rw [Expr.span_outline] at hseed
      rw [Expr.resolve, Expr.span_outline, Expr.span_outline]
      refine nests_resolveStages (fun g hg => part g.outline ?_) (fun g hg x hx => ih x ?_)
        (Expr.within_of_holds (ih seed List.mem_cons_self) hseed)
      · exact List.mem_cons_of_mem _ (List.mem_map_of_mem hg)
      · exact List.mem_cons_of_mem _ (List.mem_flatMap.mpr ⟨g, hg, hx⟩)
    | text s segments => exact .node (held_resolveSegments ih)
    | record s fields => exact .node (held_resolveBindings ih)
    | list s items => exact .node (held_resolveExprs ih)
    | function s params body =>
      exact .node (.append (held_of_subset (List.Subset.refl _)) (.cons (ih body List.mem_cons_self) .nil))
    | apply s callee args =>
      exact .node (.cons (ih callee List.mem_cons_self)
        (held_resolveExprs fun e he => ih e (List.mem_cons_of_mem _ he)))
    | access s target field => exact .node (.cons (ih target List.mem_cons_self) (.cons .refl .nil))
    | letIn s bindings body =>
      exact .node (.append (held_resolveBindings fun e he => ih e (List.mem_append_left _ he))
        (.cons (ih body (List.mem_append_right _ List.mem_cons_self)) .nil))
    | ifElse s branches fallback =>
      exact .node (.append (held_resolveBranches fun e he => ih e (List.mem_append_left _ he))
        (.cons (ih fallback (List.mem_append_right _ List.mem_cons_self)) .nil))
    | matchOn s subject clauses =>
      exact .node (.cons (ih subject List.mem_cons_self)
        (held_resolveClauses fun e he => ih e (List.mem_cons_of_mem _ he)))
    | tryCatch s body catches =>
      exact .node (.cons (ih body List.mem_cons_self)
        (held_resolveCatches fun e he => ih e (List.mem_cons_of_mem _ he)))
    | _ => exact .refl

theorem Statement.holds_resolve (s : Statement) :
    s.outline.Holds text (s.mapValue Expr.resolve).outline := by
  cases s with
  | assign s name value => exact .node (.cons .refl (.cons value.holds_resolve .nil))
  | expr s value => exact .node (.cons value.holds_resolve .nil)
  | error s => exact .refl

@[simp] theorem Statement.span_mapValue (f : Expr → Expr) (s : Statement) : (s.mapValue f).span = s.span := by
  cases s <;> rfl

theorem Program.SpansNest.resolve {p : Program} (h : p.SpansNest text) : p.resolve.SpansNest text := by
  constructor
  · intro hne
    have hnests := h.nests fun hnil => hne (by rw [Program.resolve, hnil]; rfl)
    have hheld : Held text (p.statements.map Statement.outline)
        (p.resolve.statements.map Statement.outline) := by
      intro o ho
      obtain ⟨t, ht, rfl⟩ := List.mem_map.mp ho
      obtain ⟨s, hs, rfl⟩ := List.mem_map.mp ht
      exact ⟨s.outline, List.mem_map_of_mem hs, s.holds_resolve⟩
    exact (Holds.node hheld hnests).1
  · rw [Program.resolve, List.pairwise_map]
    simpa using h.ordered

theorem Program.SpansNest.desugar (o : ParseOptions) {p : Program} (h : p.SpansNest text) :
    (p.desugar o).SpansNest text := by
  unfold Program.desugar
  split
  · exact h.resolve
  · exact h

end PipeLang
