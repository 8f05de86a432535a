import PipeLang.Parse.Options
import PipeLang.Proofs.Tree.Unmarked

/-! How deep a tree is, as it is handed out: with its pipelines resolved or with them as they were
written. -/

namespace PipeLang

namespace Expr

/-- No chain of expressions, each a part of the one before, starts here and is longer. -/
def Within : Nat → Expr → Prop
  | 0, _ => False
  | n + 1, e => ∀ child ∈ e.children, child.Within n

theorem Within.mono {n m : Nat} {e : Expr} (h : e.Within n) (hnm : n ≤ m) : e.Within m := by
  induction n generalizing m e with
  | zero => exact h.elim
  | succ n ih =>
    obtain ⟨k, rfl⟩ : ∃ k, m = k + 1 := ⟨m - 1, by omega⟩
    exact fun child hc => ih (h child hc) (by omega)

/-- A chain of expressions, each a part of the one before. -/
abbrev Chain (es : List Expr) : Prop := es.IsChain fun e child => child ∈ e.children

theorem within_iff_chains {n : Nat} {e : Expr} :
    e.Within n ↔ ∀ es, Chain (e :: es) → (e :: es).length ≤ n := by
  induction n generalizing e with
  | zero =>
    constructor
    · exact fun h => h.elim
    · exact fun h => absurd (h [] (List.isChain_singleton e)) (Nat.not_succ_le_zero _)
  | succ n ih =>
    constructor
    · intro h es hes
      cases es with
      | nil => simp
      | cons child rest =>
        obtain ⟨hc, hrest⟩ := List.isChain_cons_cons.mp hes
        exact Nat.succ_le_succ (ih.mp (h child hc) rest hrest)
    · intro h child hc
      refine ih.mpr fun es hes => ?_
      exact Nat.succ_le_succ_iff.mp (h (child :: es) (List.isChain_cons_cons.mpr ⟨hc, hes⟩))

instance decidableWithin : (n : Nat) → (e : Expr) → Decidable (e.Within n)
  | 0, _ => isFalse id
  | n + 1, e =>
    have (child : Expr) : Decidable (child.Within n) := decidableWithin n child
    inferInstanceAs (Decidable (∀ child ∈ e.children, child.Within n))

/-- The expression as it is handed out. -/
def desugar (o : ParseOptions) (e : Expr) : Expr := if o.resolvePipelines then e.resolve else e

/-- How deep the expression is once it is handed out. -/
def Shallow (o : ParseOptions) (n : Nat) (e : Expr) : Prop := (e.desugar o).Within n

variable {o : ParseOptions} {n m : Nat} {e : Expr}

theorem Shallow.mono (h : e.Shallow o n) (hnm : n ≤ m) : e.Shallow o m := Within.mono h hnm

theorem shallow_of_children (hpipe : ∀ s seed stages, e ≠ .pipeline s seed stages)
    (h : ∀ child ∈ e.children, child.Shallow o n) : e.Shallow o (n + 1) := by
  intro child hc
  unfold desugar at hc
  split at hc
  · next hr =>
    rw [children_resolve hpipe] at hc
    obtain ⟨x, hx, rfl⟩ := List.mem_map.mp hc
    have hx := h x hx
    unfold Shallow desugar at hx
    rw [if_pos hr] at hx
    exact hx
  · next hr =>
    have hx := h child hc
    unfold Shallow desugar at hx
    rw [if_neg hr] at hx
    exact hx

/-- What has no parts. -/
theorem shallow_leaf (hpipe : ∀ s seed stages, e ≠ .pipeline s seed stages) (h : e.children = [])
    (hn : 0 < n) : e.Shallow o n := by
  obtain ⟨k, rfl⟩ : ∃ k, n = k + 1 := ⟨n - 1, by omega⟩
  refine shallow_of_children hpipe fun child hc => ?_
  rw [h] at hc
  cases hc

/-- Each stage of a resolved pipeline is an application around the value so far. -/
theorem Within.resolveStages {stages : List Stage}
    (h : ∀ g ∈ stages, ∀ x ∈ g.callee :: g.args, x.resolve.Within n) {value : Expr}
    (hvalue : value.Within n) : (resolveStages value stages).Within (n + stages.length) := by
  suffices hgrow : ∀ m, n ≤ m → ∀ value : Expr, value.Within m →
      (PipeLang.resolveStages value stages).Within (m + stages.length) from hgrow n le_rfl value hvalue
  clear hvalue value
  induction stages with
  | nil => exact fun m _ value hvalue => hvalue
  | cons g rest ih =>
    intro m hm value hvalue
    have hg := h g List.mem_cons_self
    obtain ⟨s, callee, args⟩ := g
    rw [List.length_cons, show m + (rest.length + 1) = m + 1 + rest.length by omega]
    refine ih (fun g hg => h g (List.mem_cons_of_mem _ hg)) (m + 1) (by omega) _ ?_
    intro x hx
    rcases List.mem_cons.mp hx with rfl | hx
    · exact (hg callee List.mem_cons_self).mono hm
    · rcases mem_of_filled hx with rfl | ⟨a, ha, rfl⟩
      · exact hvalue
      · exact (hg a (List.mem_cons_of_mem _ ha)).mono hm

/-- A pipeline is as deep as its parts, and one more as it was written, or one more for each stage once
it is resolved. -/
theorem shallow_pipeline {s : Span} {seed : Expr} {stages : List Stage} {k : Nat}
    (hk : if o.resolvePipelines then stages.length ≤ k else 1 ≤ k)
    (h : ∀ child ∈ (pipeline s seed stages).children, child.Shallow o n) :
    (pipeline s seed stages).Shallow o (n + k) := by
  unfold Shallow desugar at h ⊢
  split
  · next hr =>
    rw [if_pos hr] at hk
    simp only [if_pos hr] at h
    refine (Within.resolveStages (fun g hg x hx => h x ?_) (h seed List.mem_cons_self)).mono (by omega)
    exact List.mem_cons_of_mem _ (List.mem_flatMap.mpr ⟨g, hg, hx⟩)
  · next hr =>
    rw [if_neg hr] at hk
    simp only [if_neg hr] at h
    exact Within.mono (n := n + 1) h (by omega)

theorem Shallow.withSpan (h : e.Shallow o n) (s : Span) : (e.withSpan s).Shallow o n := by
  unfold Shallow desugar at h ⊢
  cases n with
  | zero => exact h.elim
  | succ n =>
    by_cases hr : o.resolvePipelines = true
    · rw [if_pos hr] at h ⊢
      cases e <;> exact h
    · rw [if_neg hr] at h ⊢
      cases e <;> exact h

end Expr

end PipeLang
