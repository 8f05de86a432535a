import PipeLang.Proofs.Scan.Row
import PipeLang.Tree.Basic

/-! A tree with nothing but its spans: each node with the nodes that are directly in it. Names, patterns,
stages, clauses and handlers have spans of their own; a definition or a branch has none, and what is in it
belongs to the node around it. -/

namespace PipeLang

inductive Outline
  | node (span : Span) (children : List Outline)

namespace Outline

def span : Outline → Span
  | node s _ => s

def children : Outline → List Outline
  | node _ os => os

def leaf (s : Span) : Outline := node s []

@[simp] theorem span_node (s : Span) (os : List Outline) : (node s os).span = s := rfl

@[simp] theorem span_leaf (s : Span) : (leaf s).span = s := rfl

@[simp] theorem children_node (s : Span) (os : List Outline) : (node s os).children = os := rfl

/-- Every node is a place in `text` that is not empty, and those in it lie inside it. -/
inductive Nests (text : List Char) : Outline → Prop
  | node {s : Span} {os : List Outline} (located : s.Located text) (covers : ∀ o ∈ os, s.Covers o.span)
    (inside : ∀ o ∈ os, Nests text o) : Nests text (node s os)

/-- If `o` nests, then `p` does inside it. -/
def Holds (text : List Char) (o p : Outline) : Prop := o.Nests text → p.Nests text ∧ o.span.Covers p.span

/-- Each of `ps` is held by one of `os`. -/
def Held (text : List Char) (os ps : List Outline) : Prop := ∀ p ∈ ps, ∃ o ∈ os, o.Holds text p

variable {text : List Char} {o p : Outline} {os ps os' ps' : List Outline} {s : Span}

theorem Nests.located (h : o.Nests text) : o.span.Located text := by
  cases h with
  | node located => exact located

theorem Nests.child (h : o.Nests text) (hp : p ∈ o.children) : p.Nests text ∧ o.span.Covers p.span := by
  cases h with
  | node _ covers inside => exact ⟨inside p hp, covers p hp⟩

theorem nests_leaf (h : s.Located text) : (leaf s).Nests text :=
  .node h (fun _ ho => absurd ho List.not_mem_nil) fun _ ho => absurd ho List.not_mem_nil

theorem Holds.refl : o.Holds text o := fun h => ⟨h, .refl⟩

theorem Holds.child (hp : p ∈ o.children) : o.Holds text p := fun h => h.child hp

theorem held_of_subset (h : ps ⊆ os) : Held text os ps := fun p hp => ⟨p, h hp, .refl⟩

theorem Held.nil : Held text os [] := fun _ hp => absurd hp List.not_mem_nil

theorem Held.append (h : Held text os ps) (h' : Held text os' ps') :
    Held text (os ++ os') (ps ++ ps') := by
  intro p hp
  rcases List.mem_append.mp hp with hp | hp
  · obtain ⟨o, ho, hheld⟩ := h p hp
    exact ⟨o, List.mem_append_left _ ho, hheld⟩
  · obtain ⟨o, ho, hheld⟩ := h' p hp
    exact ⟨o, List.mem_append_right _ ho, hheld⟩

theorem Held.cons (h : o.Holds text p) (h' : Held text os ps) : Held text (o :: os) (p :: ps) :=
  have hone : Held text [o] [p] := fun _ hq =>
    ⟨o, List.mem_singleton_self o, List.mem_singleton.mp hq ▸ h⟩
  hone.append h'

/-- A node that spans what nests holds what is held by that. -/
theorem nests_node (hs : s.Located text) (hos : ∀ o ∈ os, o.Nests text ∧ s.Covers o.span)
    (hps : Held text os ps) : (node s ps).Nests text := by
  refine .node hs (fun p hp => ?_) fun p hp => ?_
  · obtain ⟨o, ho, hheld⟩ := hps p hp
    obtain ⟨hnests, hcovers⟩ := hos o ho
    exact hcovers.trans (hheld hnests).2
  · obtain ⟨o, ho, hheld⟩ := hps p hp
    exact (hheld (hos o ho).1).1

theorem Holds.node (h : Held text os ps) :
    (Outline.node s os).Holds text (Outline.node s ps) := fun hos =>
  ⟨nests_node hos.located (fun _ ho => hos.child ho) h, .refl⟩

end Outline

def Name.outline (n : Name) : Outline := .leaf n.span

def Pattern.outline : Pattern → Outline
  | .record s fields => .node s (fields.map fun f => f.key.outline)
  | .literal s _ | .bind s _ | .wildcard s | .otherwise s => .leaf s

mutual

def Expr.outline : Expr → Outline
  | .ident s _ | .wildcard s _ | .number s _ | .bool s _ | .nil s | .error s => .leaf s
  | .text s segments => .node s (segmentOutlines segments)
  | .record s fields => .node s (bindingOutlines fields)
  | .list s items => .node s (exprOutlines items)
  | .function s params body => .node s (params.map Name.outline ++ [body.outline])
  | .apply s callee args => .node s (callee.outline :: exprOutlines args)
  | .access s target field => .node s [target.outline, field.outline]
  | .pipeline s seed stages => .node s (seed.outline :: stageOutlines stages)
  | .letIn s bindings body => .node s (bindingOutlines bindings ++ [body.outline])
  | .ifElse s branches fallback => .node s (branchOutlines branches ++ [fallback.outline])
  | .matchOn s subject clauses => .node s (subject.outline :: clauseOutlines clauses)
  | .tryCatch s body catches => .node s (body.outline :: catchOutlines catches)

def exprOutlines : List Expr → List Outline
  | [] => []
  | e :: rest => e.outline :: exprOutlines rest

def segmentOutlines : List Segment → List Outline
  | [] => []
  | .literal _ :: rest => segmentOutlines rest
  | .hole e :: rest => e.outline :: segmentOutlines rest

def bindingOutlines : List Binding → List Outline
  | [] => []
  | ⟨name, value⟩ :: rest => name.outline :: value.outline :: bindingOutlines rest

def stageOutlines : List Stage → List Outline
  | [] => []
  | ⟨s, callee, args⟩ :: rest => .node s (callee.outline :: exprOutlines args) :: stageOutlines rest

def branchOutlines : List Branch → List Outline
  | [] => []
  | ⟨condition, result⟩ :: rest => condition.outline :: result.outline :: branchOutlines rest

def clauseOutlines : List Clause → List Outline
  | [] => []
  | ⟨s, pattern, none, result⟩ :: rest =>
    .node s [pattern.outline, result.outline] :: clauseOutlines rest
  | ⟨s, pattern, some guard, result⟩ :: rest =>
    .node s [pattern.outline, guard.outline, result.outline] :: clauseOutlines rest

def catchOutlines : List Catch → List Outline
  | [] => []
  | ⟨s, tag, binding, handler⟩ :: rest =>
    .node s (tag.toList.map Name.outline ++ binding.toList.map Name.outline ++ [handler.outline]) ::
      catchOutlines rest

end

def Binding.outlines (b : Binding) : List Outline := [b.name.outline, b.value.outline]

def Stage.outline (g : Stage) : Outline := .node g.span (g.callee.outline :: g.args.map Expr.outline)

def Branch.outlines (b : Branch) : List Outline := [b.condition.outline, b.result.outline]

def Clause.outline (c : Clause) : Outline :=
  .node c.span (c.pattern.outline :: (c.guard.toList.map Expr.outline ++ [c.result.outline]))

def Catch.outline (c : Catch) : Outline :=
  .node c.span (c.tag.toList.map Name.outline ++ c.binding.toList.map Name.outline ++ [c.handler.outline])

def Statement.outline : Statement → Outline
  | .assign s name value => .node s [name.outline, value.outline]
  | .expr s value => .node s [value.outline]
  | .error s => .leaf s

def Program.outline (p : Program) : Outline := .node p.span (p.statements.map Statement.outline)

@[simp] theorem exprOutlines_eq_map (es : List Expr) : exprOutlines es = es.map Expr.outline := by
  induction es with
  | nil => simp [exprOutlines]
  | cons e rest ih => simp [exprOutlines, ih]

@[simp] theorem segmentOutlines_eq_map (gs : List Segment) :
    segmentOutlines gs = (gs.flatMap Segment.exprs).map Expr.outline := by
  induction gs with
  | nil => simp [segmentOutlines]
  | cons g rest ih => cases g <;> simp [segmentOutlines, Segment.exprs, ih]

@[simp] theorem bindingOutlines_eq_flatMap (bs : List Binding) :
    bindingOutlines bs = bs.flatMap Binding.outlines := by
  induction bs with
  | nil => simp [bindingOutlines]
  | cons b rest ih => cases b; simp [bindingOutlines, Binding.outlines, ih]

@[simp] theorem stageOutlines_eq_map (gs : List Stage) : stageOutlines gs = gs.map Stage.outline := by
  induction gs with
  | nil => simp [stageOutlines]
  | cons g rest ih => cases g; simp [stageOutlines, Stage.outline, ih]

@[simp] theorem branchOutlines_eq_flatMap (bs : List Branch) :
    branchOutlines bs = bs.flatMap Branch.outlines := by
  induction bs with
  | nil => simp [branchOutlines]
  | cons b rest ih => cases b; simp [branchOutlines, Branch.outlines, ih]

@[simp] theorem clauseOutlines_eq_map (cs : List Clause) : clauseOutlines cs = cs.map Clause.outline := by
  induction cs with
  | nil => simp [clauseOutlines]
  | cons c rest ih =>
    obtain ⟨s, pattern, guard, result⟩ := c
    cases guard <;> simp [clauseOutlines, Clause.outline, ih]

@[simp] theorem catchOutlines_eq_map (cs : List Catch) : catchOutlines cs = cs.map Catch.outline := by
  induction cs with
  | nil => simp [catchOutlines]
  | cons c rest ih => cases c; simp [catchOutlines, Catch.outline, ih]

@[simp] theorem Name.span_outline (n : Name) : n.outline.span = n.span := rfl

@[simp] theorem Expr.span_outline (e : Expr) : e.outline.span = e.span := by
  cases e <;> simp [Expr.outline, Expr.span]

@[simp] theorem Stage.span_outline (g : Stage) : g.outline.span = g.span := rfl

@[simp] theorem Clause.span_outline (c : Clause) : c.outline.span = c.span := rfl

@[simp] theorem Catch.span_outline (c : Catch) : c.outline.span = c.span := rfl

@[simp] theorem Statement.span_outline (s : Statement) : s.outline.span = s.span := by
  cases s <;> rfl

theorem Expr.outline_eq_node (e : Expr) : e.outline = .node e.span e.outline.children := by
  rw [← e.span_outline]
  cases e.outline
  rfl

theorem Expr.outline_withSpan (s : Span) (e : Expr) :
    (e.withSpan s).outline = .node s e.outline.children := by
  cases e <;> simp [Expr.withSpan, Expr.outline, Outline.leaf]

/-- Every span of the tree but that of a program without statements is a place in `text` that is not empty,
inside the span of the node around it, and the statements stand in order. -/
structure Program.SpansNest (text : List Char) (p : Program) : Prop where
  nests : p.statements ≠ [] → p.outline.Nests text
  ordered : p.statements.Pairwise fun s t => s.span.stop ≤ t.span.start

/-! ## Nodes in a row -/

/-- Nodes that nest, one after the other between the bytes `lo` and `hi`. -/
inductive Strung (text : List Char) : Nat → List Outline → Nat → Prop
  | nil {lo hi : Nat} (le : lo ≤ hi) : Strung text lo [] hi
  | cons {lo hi : Nat} {o : Outline} {os : List Outline} (after : lo ≤ o.span.start) (nests : o.Nests text)
    (rest : Strung text o.span.stop os hi) : Strung text lo (o :: os) hi

namespace Strung

variable {text : List Char} {lo mid hi : Nat} {o a b : Outline} {os ps : List Outline}

theorem le (h : Strung text lo os hi) : lo ≤ hi := by
  induction h with
  | nil le => exact le
  | cons after nests _ ih =>
    exact Nat.le_trans after (Nat.le_trans (Nat.le_of_lt nests.located.nonempty) ih)

theorem mono (h : Strung text lo os hi) {lo' : Nat} (hle : lo' ≤ lo) : Strung text lo' os hi := by
  cases h with
  | nil le => exact .nil (Nat.le_trans hle le)
  | cons after nests rest => exact .cons (Nat.le_trans hle after) nests rest

theorem append (h : Strung text lo os mid) (h' : Strung text mid ps hi) : Strung text lo (os ++ ps) hi := by
  induction h with
  | nil le => exact h'.mono le
  | cons after nests _ ih => exact .cons after nests (ih h')

theorem mem (h : Strung text lo os hi) (ho : o ∈ os) :
    o.Nests text ∧ lo ≤ o.span.start ∧ o.span.stop ≤ hi := by
  induction h with
  | nil => cases ho
  | cons after nests rest ih =>
    rcases List.mem_cons.mp ho with rfl | ho
    · exact ⟨nests, after, rest.le⟩
    · obtain ⟨hnests, hlo, hhi⟩ := ih ho
      exact ⟨hnests, Nat.le_trans after (Nat.le_trans (Nat.le_of_lt nests.located.nonempty) hlo), hhi⟩

theorem ordered (h : Strung text lo os hi) : os.Pairwise fun o p => o.span.stop ≤ p.span.start := by
  induction h with
  | nil => exact .nil
  | cons _ _ rest ih => exact .cons (fun p hp => (rest.mem hp).2.1) ih

/-- Up to where the last one stops. -/
theorem upTo (h : Strung text lo os hi) (hlast : os.getLast? = some b) : Strung text lo os b.span.stop := by
  induction h with
  | nil => cases hlast
  | @cons lo hi o os after nests rest ih =>
    refine .cons after nests ?_
    cases os with
    | nil =>
      obtain rfl : o = b := Option.some.inj hlast
      exact .nil (Nat.le_refl _)
    | cons p os => exact ih (by rwa [List.getLast?_cons_cons] at hlast)

/-- A single node over some that are in a row. -/
theorem node (h : Strung text lo os hi) {s : Span} (hs : s.Located text) (hlo : lo ≤ s.start)
    (hhi : s.stop ≤ hi) (hcovers : ∀ o ∈ os, s.Covers o.span) (hps : Outline.Held text os ps) :
    Strung text lo [.node s ps] hi :=
  .cons hlo (Outline.nests_node hs (fun o ho => ⟨(h.mem ho).1, hcovers o ho⟩) hps) (.nil hhi)

/-- From the start of the first one to the end of the last one is over all of them. -/
theorem between (h : Strung text lo os hi) (hfirst : os.head? = some a) (hlast : os.getLast? = some b)
    (hps : Outline.Held text os ps) : Strung text lo [.node (a.span.merge b.span) ps] hi := by
  obtain ⟨hb, hblo, hbhi⟩ := h.mem (List.mem_of_getLast? hlast)
  obtain ⟨ha, halo, hahi⟩ := h.mem (List.mem_of_head? hfirst)
  have hstart : ∀ o ∈ os, a.span.start ≤ o.span.start := by
    cases h with
    | nil => cases hfirst
    | cons after nests rest =>
      cases hfirst
      exact fun o ho => ((Strung.cons (Nat.le_refl _) nests rest).mem ho).2.1
  have hspan : (Span.mk lo hi 0 0).Covers (a.span.merge b.span) :=
    Span.Covers.merge ⟨halo, hahi⟩ ⟨hblo, hbhi⟩
  refine h.node (ha.located.merge hb.located.placed) hspan.start hspan.stop (fun o ho => ⟨?_, ?_⟩) hps
  · exact Nat.le_trans Span.covers_merge_left.start (hstart o ho)
  · exact Nat.le_trans ((h.upTo hlast).mem ho).2.2 Span.covers_merge_right.stop

/-- So is what the spans of all of them merge to. -/
theorem merged (h : Strung text lo (a :: os) hi) {α : Type} {f : α → Span} {as : List α}
    (hos : os.map Outline.span = as.map f) (hps : Outline.Held text (a :: os) ps) :
    Strung text lo [.node (as.foldl (fun s x => s.merge (f x)) a.span) ps] hi := by
  have hmem : ∀ x ∈ as, ∃ o ∈ os, o.span = f x := fun x hx => by
    have hfx : f x ∈ os.map Outline.span := hos ▸ List.mem_map_of_mem hx
    exact List.mem_map.mp hfx
  obtain ⟨ha, halo, hahi⟩ := h.mem List.mem_cons_self
  obtain ⟨hfirst, hrest⟩ := Span.covers_foldl_merge f a.span as
  have hspan : (Span.mk lo hi 0 0).Covers (as.foldl (fun s x => s.merge (f x)) a.span) := by
    refine Span.Covers.foldl_merge ⟨halo, hahi⟩ fun x hx => ?_
    obtain ⟨o, ho, hox⟩ := hmem x hx
    obtain ⟨-, holo, hohi⟩ := h.mem (List.mem_cons_of_mem a ho)
    exact hox ▸ ⟨holo, hohi⟩
  refine h.node (ha.located.foldl_merge fun x hx => ?_) hspan.start hspan.stop (fun o ho => ?_) hps
  · obtain ⟨o, ho, hox⟩ := hmem x hx
    exact hox ▸ (h.mem (List.mem_cons_of_mem a ho)).1.located.placed
  · rcases List.mem_cons.mp ho with rfl | ho
    · exact hfirst
    · have hspans : o.span ∈ as.map f := hos ▸ List.mem_map_of_mem ho
      obtain ⟨x, hx, hox⟩ := List.mem_map.mp hspans
      exact hox ▸ hrest x hx

end Strung

end PipeLang
