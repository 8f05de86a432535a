import PipeLang.Parse.Program
import PipeLang.Proofs.Tree.Formed
import PipeLang.Proofs.Tree.Nodes

/-! Trees without markers for what could not be read. Well formed ones have none, and resolving the
pipelines of a tree makes none. -/

namespace PipeLang

namespace Expr

/-- No marker stands for the expression or for any part of it. -/
def Unmarked (e : Expr) : Prop := ∀ s, error s ∉ e.nodes

/-- The parts of what is well formed are well formed, some of them with less room; but the operator of a
binary expression is a name that is none of the language. -/
theorem Formed.child {n : Nat} {e child : Expr} (h : e.Formed n) (hc : child ∈ e.children) :
    (∃ m, child.Formed m) ∨ ∃ t, ∃ op : Operator, child = .ident t op.spelling := by
  cases h with
  | text literals apart room holes =>
    obtain ⟨segment, hs, hc⟩ := List.mem_flatMap.mp hc
    cases segment with
    | literal => cases hc
    | hole e =>
      obtain rfl := List.mem_singleton.mp hc
      exact .inl ⟨_, holes child hs⟩
  | record keys values =>
    obtain ⟨b, hb, rfl⟩ := List.mem_map.mp hc
    exact .inl ⟨n, values b hb⟩
  | list items_ok => exact .inl ⟨n, items_ok child hc⟩
  | function some_param params_ok body_ok =>
    obtain rfl := List.mem_singleton.mp hc
    exact .inl ⟨n, body_ok⟩
  | binary op left_ok right_ok =>
    simp only [children, List.mem_cons, List.not_mem_nil, or_false] at hc
    rcases hc with rfl | rfl | rfl
    · exact .inr ⟨_, op, rfl⟩
    · exact .inl ⟨n, left_ok⟩
    · exact .inl ⟨n, right_ok⟩
  | apply some_arg callee_ok args_ok =>
    rcases List.mem_cons.mp hc with rfl | hc
    · exact .inl ⟨n, callee_ok⟩
    · exact .inl ⟨n, args_ok child hc⟩
  | access target_ok field_ok =>
    obtain rfl := List.mem_singleton.mp hc
    exact .inl ⟨n, target_ok⟩
  | pipeline seed_ok some_stage stages_ok callees args =>
    rcases List.mem_cons.mp hc with rfl | hc
    · exact .inl ⟨n, seed_ok⟩
    · obtain ⟨g, hg, hc⟩ := List.mem_flatMap.mp hc
      rcases List.mem_cons.mp hc with rfl | hc
      · exact .inl ⟨n, callees g hg⟩
      · exact .inl ⟨n, args g hg child hc⟩
  | letIn some_binding names values body_ok =>
    rcases List.mem_append.mp hc with hc | hc
    · obtain ⟨b, hb, rfl⟩ := List.mem_map.mp hc
      exact .inl ⟨n, values b hb⟩
    · obtain rfl := List.mem_singleton.mp hc
      exact .inl ⟨n, body_ok⟩
  | ifElse some_branch conditions results fallback_ok =>
    rcases List.mem_append.mp hc with hc | hc
    · obtain ⟨b, hb, hc⟩ := List.mem_flatMap.mp hc
      simp only [List.mem_cons, List.not_mem_nil, or_false] at hc
      rcases hc with rfl | rfl
      · exact .inl ⟨n, conditions b hb⟩
      · exact .inl ⟨n, results b hb⟩
    · obtain rfl := List.mem_singleton.mp hc
      exact .inl ⟨n, fallback_ok⟩
  | matchOn subject_ok some_clause patterns guards results =>
    rcases List.mem_cons.mp hc with rfl | hc
    · exact .inl ⟨n, subject_ok⟩
    · obtain ⟨c, hm, hc⟩ := List.mem_flatMap.mp hc
      rcases List.mem_append.mp hc with hc | hc
      · exact .inl ⟨n, guards c hm child (Option.mem_toList.mp hc)⟩
      · obtain rfl := List.mem_singleton.mp hc
        exact .inl ⟨n, results c hm⟩
  | tryCatch body_ok some_catch named handlers =>
    rcases List.mem_cons.mp hc with rfl | hc
    · exact .inl ⟨n, body_ok⟩
    · obtain ⟨c, hm, rfl⟩ := List.mem_map.mp hc
      exact .inl ⟨n, handlers c hm⟩
  | _ => cases hc

/-- What holds of every well formed expression, and of the names of operators, holds of all expressions in a
well formed tree. -/
theorem Formed.forall_nodes {P : Expr → Prop} (hformed : ∀ {n : Nat} {e : Expr}, e.Formed n → P e)
    (hname : ∀ t (op : Operator), P (.ident t op.spelling)) {n : Nat} {e : Expr} (h : e.Formed n) :
    ∀ x ∈ e.nodes, P x := by
  induction e using children_induction generalizing n with
  | h e ih =>
    rw [nodes_eq, List.forall_mem_cons]
    refine ⟨hformed h, fun x hx => ?_⟩
    obtain ⟨child, hc, hx⟩ := List.mem_flatMap.mp hx
    rcases h.child hc with ⟨m, hm⟩ | ⟨t, op, rfl⟩
    · exact ih child hc hm x hx
    · rw [List.mem_singleton.mp hx]
      exact hname t op

theorem Formed.unmarked {n : Nat} {e : Expr} (h : e.Formed n) : e.Unmarked := by
  intro s hs
  refine h.forall_nodes (P := fun x => ∀ s, x ≠ error s) (fun hx t ht => ?_) (fun _ _ _ => nofun)
    _ hs s rfl
  rw [ht] at hx
  cases hx

/-! ## Resolved pipelines -/

theorem eq_pipeline_or_ne (e : Expr) :
    (∃ s seed stages, e = pipeline s seed stages) ∨ ∀ s seed stages, e ≠ pipeline s seed stages := by
  cases e with
  | pipeline s seed stages => exact .inl ⟨s, seed, stages, rfl⟩
  | _ => exact .inr nofun

/-- All forms but the pipeline are kept. -/
theorem resolve_eq_mapChildren {e : Expr} (h : ∀ s seed stages, e ≠ .pipeline s seed stages) :
    e.resolve = e.mapChildren resolve := by
  cases e with
  | text s segments =>
    rw [resolve, resolveSegments_eq_map]
    exact congrArg (text s) (List.map_congr_left fun g _ => by cases g <;> rfl)
  | pipeline s seed stages => exact absurd rfl (h s seed stages)
  | record s fields => simp [resolve, mapChildren, resolveBindings_eq_map, Binding.resolve]
  | letIn s bindings body => simp [resolve, mapChildren, resolveBindings_eq_map, Binding.resolve]
  | ifElse s branches fallback => simp [resolve, mapChildren, resolveBranches_eq_map, Branch.resolve]
  | matchOn s subject clauses => simp [resolve, mapChildren, resolveClauses_eq_map, Clause.resolve]
  | tryCatch s body catches => simp [resolve, mapChildren, resolveCatches_eq_map, Catch.resolve]
  | _ => simp [resolve, mapChildren, resolveExprs_eq_map]

theorem children_resolve {e : Expr} (h : ∀ s seed stages, e ≠ .pipeline s seed stages) :
    e.resolve.children = e.children.map resolve := by
  rw [resolve_eq_mapChildren h, children_mapChildren]

theorem mem_of_fillPlaceholder {value x : Expr} {args filled : List Expr}
    (h : fillPlaceholder value args = some filled) (hx : x ∈ filled) :
    x = value ∨ ∃ a ∈ args, x = a.resolve := by
  induction args generalizing filled with
  | nil => cases h
  | cons a rest ih =>
    unfold fillPlaceholder at h
    split at h
    · obtain rfl := Option.some.inj h
      rw [resolveExprs_eq_map] at hx
      rcases List.mem_cons.mp hx with rfl | hx
      · exact .inl rfl
      · obtain ⟨b, hb, rfl⟩ := List.mem_map.mp hx
        exact .inr ⟨b, List.mem_cons_of_mem _ hb, rfl⟩
    · obtain ⟨more, hmore, rfl⟩ := Option.map_eq_some_iff.mp h
      rcases List.mem_cons.mp hx with rfl | hx
      · exact .inr ⟨a, List.mem_cons_self, rfl⟩
      · rcases ih hmore hx with heq | ⟨b, hb, heq⟩
        · exact .inl heq
        · exact .inr ⟨b, List.mem_cons_of_mem _ hb, heq⟩

theorem mem_of_filled {value x : Expr} {args : List Expr}
    (hx : x ∈ (fillPlaceholder value args).getD (value :: resolveExprs args)) :
    x = value ∨ ∃ a ∈ args, x = a.resolve := by
  cases h : fillPlaceholder value args with
  | some filled =>
    rw [h] at hx
    exact mem_of_fillPlaceholder h hx
  | none =>
    rw [h, Option.getD_none, resolveExprs_eq_map] at hx
    rcases List.mem_cons.mp hx with rfl | hx
    · exact .inl rfl
    · obtain ⟨a, ha, rfl⟩ := List.mem_map.mp hx
      exact .inr ⟨a, ha, rfl⟩

section

variable {P : Expr → Prop} (happly : ∀ s callee args, P (apply s callee args))

include happly

theorem forall_nodes_resolveStages {stages : List Stage}
    (h : ∀ g ∈ stages, ∀ part ∈ g.callee :: g.args, ∀ x ∈ part.resolve.nodes, P x) {value : Expr}
    (hvalue : ∀ x ∈ value.nodes, P x) : ∀ x ∈ (resolveStages value stages).nodes, P x := by
  induction stages generalizing value with
  | nil => exact hvalue
  | cons g rest ih =>
    have hg := h g List.mem_cons_self
    obtain ⟨s, callee, args⟩ := g
    refine ih (fun g hg => h g (List.mem_cons_of_mem _ hg)) ?_
    rw [nodes_eq, List.forall_mem_cons]
    refine ⟨happly _ _ _, fun x hmem => ?_⟩
    obtain ⟨part, hpart, hx⟩ := List.mem_flatMap.mp hmem
    clear hmem
    rcases List.mem_cons.mp hpart with rfl | hpart
    · exact hg callee List.mem_cons_self x hx
    · rcases mem_of_filled hpart with rfl | ⟨a, ha, rfl⟩
      · exact hvalue x hx
      · exact hg a (List.mem_cons_of_mem _ ha) x hx

/-- What holds of every resolved expression that kept its form, and of all applications, holds of all
expressions in a resolved tree. -/
theorem forall_nodes_resolve {e : Expr}
    (h : ∀ x ∈ e.nodes, (∀ s seed stages, x ≠ .pipeline s seed stages) → P x.resolve) :
    ∀ x ∈ e.resolve.nodes, P x := by
  induction e using children_induction with
  | h e ih =>
    rw [nodes_eq, List.forall_mem_cons] at h
    obtain ⟨hself, hparts⟩ := h
    have hchild : ∀ child ∈ e.children, ∀ x ∈ child.resolve.nodes, P x := fun child hc =>
      ih child hc fun x hx => hparts x (List.mem_flatMap.mpr ⟨child, hc, hx⟩)
    rcases e.eq_pipeline_or_ne with ⟨s, seed, stages, rfl⟩ | hform
    · refine forall_nodes_resolveStages happly (fun g hg part hpart => hchild part ?_)
        (hchild seed List.mem_cons_self)
      exact List.mem_cons_of_mem _ (List.mem_flatMap.mpr ⟨g, hg, hpart⟩)
    · rw [nodes_eq, List.forall_mem_cons, children_resolve hform]
      refine ⟨hself hform, fun x hx => ?_⟩
      obtain ⟨part, hpart, hx⟩ := List.mem_flatMap.mp hx
      obtain ⟨child, hc, rfl⟩ := List.mem_map.mp hpart
      exact hchild child hc x hx

end

theorem Unmarked.resolve {e : Expr} (h : e.Unmarked) : e.resolve.Unmarked := by
  intro s hs
  refine forall_nodes_resolve (P := fun x => ∀ s, x ≠ error s) (fun _ _ _ _ => nofun) (fun x hx hform => ?_)
    _ hs s rfl
  cases x with
  | pipeline t seed stages => exact absurd rfl (hform t seed stages)
  | error t => exact absurd hx (h t)
  | _ => exact fun _ => nofun

end Expr

/-- No marker stands for a statement or in one. -/
def Statement.Unmarked : Statement → Prop
  | .assign _ _ value | .expr _ value => value.Unmarked
  | .error _ => False

def Program.Unmarked (p : Program) : Prop := ∀ s ∈ p.statements, s.Unmarked

theorem Program.Formed.unmarked {n : Nat} {p : Program} (h : p.Formed n) : p.Unmarked := by
  intro s hs
  have hformed := h s hs
  cases s with
  | assign s name value => exact hformed.2.unmarked
  | expr s value => exact hformed.unmarked
  | error s => exact hformed

theorem Program.Unmarked.desugar (o : ParseOptions) {p : Program} (h : p.Unmarked) :
    (p.desugar o).Unmarked := by
  unfold Program.desugar
  split
  · intro s hs
    obtain ⟨t, ht, rfl⟩ := List.mem_map.mp hs
    have hunmarked := h t ht
    cases t with
    | assign s name value => exact Expr.Unmarked.resolve hunmarked
    | expr s value => exact Expr.Unmarked.resolve hunmarked
    | error s => exact hunmarked
  · exact h

end PipeLang
