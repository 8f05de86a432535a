import PipeLang.Proofs.Tree.Nodes

/-! Binary expressions read in order: what is on the left of an operator, the operator, what is on its right.
Where the operators bind as their places in the tree say, the order settles the tree. -/

namespace PipeLang

/-- What a chain of operands and operators is made of. -/
inductive Symbol
  | operand (value : Expr)
  | operator (op : Operator)

namespace Expr

/-- The operands and operators of an expression from left to right. -/
def inorder : Expr → List Symbol
  | .apply s (.ident t name) [left, right] =>
    match Operator.ofSpelling? name with
    | some op => left.inorder ++ .operator op :: right.inorder
    | none => [.operand (.apply s (.ident t name) [left, right])]
  | e => [.operand e]

/-- The operand on the left of an operator binds as tightly as that at least, the one on its right binds
tighter. -/
def Graded (e : Expr) : Prop :=
  ∀ op left right, e.binary? = some (op, left, right) →
    (∀ p, left.operator? = some p → op.precedence ≤ p.precedence) ∧
      ∀ p, right.operator? = some p → op.precedence < p.precedence

theorem binary?_eq_some {e left right : Expr} {op : Operator}
    (h : e.binary? = some (op, left, right)) :
    ∃ s t, e = .apply s (.ident t op.spelling) [left, right] := by
  unfold binary? at h
  split at h
  · next s t name l r =>
    obtain ⟨op', hop, heq⟩ := Option.map_eq_some_iff.mp h
    cases heq
    exact ⟨s, t, by rw [Operator.spelling_of_ofSpelling? hop]⟩
  · cases h

theorem operator?_of_binary? {e left right : Expr} {op : Operator}
    (h : e.binary? = some (op, left, right)) : e.operator? = some op := by
  rw [operator?, h]
  rfl

theorem inorder_of_binary? {e left right : Expr} {op : Operator}
    (h : e.binary? = some (op, left, right)) :
    e.inorder = left.inorder ++ .operator op :: right.inorder := by
  obtain ⟨s, t, rfl⟩ := binary?_eq_some h
  rw [inorder, Operator.ofSpelling?_spelling]

theorem inorder_of_operand {e : Expr} (h : e.binary? = none) : e.inorder = [.operand e] := by
  unfold inorder
  split
  · next s t name left right =>
    cases hop : Operator.ofSpelling? name with
    | none => rfl
    | some op =>
      rw [binary?, hop] at h
      cases h
  · rfl

/-- An expression by its operands, as deep as they are binary. -/
theorem inorder_induction {motive : Expr → Prop} (operand : ∀ e, e.binary? = none → motive e)
    (binary : ∀ e op left right, e.binary? = some (op, left, right) → motive left → motive right →
      motive e) (e : Expr) : motive e := by
  induction e using children_induction with
  | h e ih =>
    cases h : e.binary? with
    | none => exact operand e h
    | some found =>
      obtain ⟨op, left, right⟩ := found
      obtain ⟨s, t, rfl⟩ := binary?_eq_some h
      exact binary _ op left right h (ih left (by simp [children])) (ih right (by simp [children]))

theorem inorder_ne_nil (e : Expr) : e.inorder ≠ [] := by
  cases h : e.binary? with
  | none => simp [inorder_of_operand h]
  | some found =>
    obtain ⟨op, left, right⟩ := found
    simp [inorder_of_binary? h]

/-- All nodes of a binary expression are graded: itself and those of its operands. -/
theorem graded_nodes {e left right : Expr} {op : Operator} (h : e.binary? = some (op, left, right)) :
    (∀ x ∈ e.nodes, x.Graded) ↔
      e.Graded ∧ (∀ x ∈ left.nodes, x.Graded) ∧ ∀ x ∈ right.nodes, x.Graded := by
  obtain ⟨s, t, rfl⟩ := binary?_eq_some h
  have hname : ∀ x ∈ (ident t op.spelling).nodes, x.Graded := by
    intro x hx
    obtain rfl : x = .ident t op.spelling := by simpa [nodes_eq, children] using hx
    intro op left right h
    cases h
  rw [nodes_eq]
  simp only [children, List.flatMap_cons, List.flatMap_nil, List.append_nil, List.forall_mem_cons,
    List.forall_mem_append]
  exact ⟨fun ⟨he, _, hl, hr⟩ => ⟨he, hl, hr⟩, fun ⟨he, hl, hr⟩ => ⟨he, hname, hl, hr⟩⟩

/-- An expression with an operator in it is binary. -/
theorem exists_operator?_of_mem {e : Expr} {p : Operator} (h : .operator p ∈ e.inorder) :
    ∃ q, e.operator? = some q := by
  cases hb : e.binary? with
  | none => simp [inorder_of_operand hb] at h
  | some found =>
    obtain ⟨q, left, right⟩ := found
    exact ⟨q, operator?_of_binary? hb⟩

/-- No operator in a graded tree is looser than the one at its root. -/
theorem le_precedence_of_graded {e : Expr} {op p : Operator} (h : ∀ x ∈ e.nodes, x.Graded)
    (hop : e.operator? = some op) (hp : .operator p ∈ e.inorder) : op.precedence ≤ p.precedence := by
  induction e using inorder_induction generalizing op with
  | operand e he =>
    rw [operator?, he] at hop
    cases hop
  | binary e op' left right he ihl ihr =>
    obtain rfl : op' = op := Option.some.inj ((operator?_of_binary? he).symm.trans hop)
    obtain ⟨hroot, hl, hr⟩ := (graded_nodes he).mp h
    obtain ⟨hleft, hright⟩ := hroot op' left right he
    rw [inorder_of_binary? he] at hp
    rcases List.mem_append.mp hp with hp | hp
    · obtain ⟨q, hq⟩ := exists_operator?_of_mem hp
      exact (hleft q hq).trans (ihl hl hq hp)
    · rcases List.mem_cons.mp hp with heq | hp
      · cases heq
        exact Nat.le_refl _
      · obtain ⟨q, hq⟩ := exists_operator?_of_mem hp
        exact (hright q hq).le.trans (ihr hr hq hp)

/-- The operators on the left of one are no looser than that, the ones on its right are tighter. -/
theorem precedence_of_graded {e left right : Expr} {op : Operator} (h : ∀ x ∈ e.nodes, x.Graded)
    (he : e.binary? = some (op, left, right)) (p : Operator) :
    (.operator p ∈ left.inorder → op.precedence ≤ p.precedence) ∧
      (.operator p ∈ right.inorder → op.precedence < p.precedence) := by
  obtain ⟨hroot, hl, hr⟩ := (graded_nodes he).mp h
  obtain ⟨hleft, hright⟩ := hroot op left right he
  constructor
  · intro hp
    obtain ⟨q, hq⟩ := exists_operator?_of_mem hp
    exact (hleft q hq).trans (le_precedence_of_graded hl hq hp)
  · intro hp
    obtain ⟨q, hq⟩ := exists_operator?_of_mem hp
    exact (hright q hq).trans_le (le_precedence_of_graded hr hq hp)

/-- Of two graded trees over one chain neither has more of it on the left of its root. -/
theorem left_not_longer {e left right f left' right' : Expr} {op op' : Operator}
    (he : e.binary? = some (op, left, right)) (hf : f.binary? = some (op', left', right'))
    (hge : ∀ x ∈ e.nodes, x.Graded) (hgf : ∀ x ∈ f.nodes, x.Graded) {more : List Symbol}
    (hl : left'.inorder = left.inorder ++ more)
    (hr : .operator op :: right.inorder = more ++ .operator op' :: right'.inorder) : more = [] := by
  cases more with
  | nil => rfl
  | cons s more =>
    obtain ⟨rfl, hright⟩ : s = .operator op ∧ right.inorder = more ++ .operator op' :: right'.inorder := by
      simpa [eq_comm] using hr
    have hop : op'.precedence ≤ op.precedence :=
      (precedence_of_graded hgf hf op).1 (by rw [hl]; simp)
    have hop' : op.precedence < op'.precedence :=
      (precedence_of_graded hge he op').2 (by rw [hright]; simp)
    omega

/-- A chain of operands and operators has one graded tree. -/
theorem erase_eq_of_inorder {e f : Expr} (he : ∀ x ∈ e.nodes, x.Graded)
    (hf : ∀ x ∈ f.nodes, x.Graded) (h : e.inorder = f.inorder) : e.erase = f.erase := by
  induction e using inorder_induction generalizing f with
  | operand e hb =>
    rw [inorder_of_operand hb] at h
    cases hb' : f.binary? with
    | none =>
      rw [inorder_of_operand hb'] at h
      cases h
      rfl
    | some found =>
      obtain ⟨op, left, right⟩ := found
      rw [inorder_of_binary? hb'] at h
      rcases List.append_eq_singleton_iff.mp h.symm with ⟨hnil, _⟩ | ⟨_, hnil⟩
      · exact absurd hnil (inorder_ne_nil _)
      · cases hnil
  | binary e op left right hb ihl ihr =>
    rw [inorder_of_binary? hb] at h
    cases hb' : f.binary? with
    | none =>
      rw [inorder_of_operand hb'] at h
      rcases List.append_eq_singleton_iff.mp h with ⟨hnil, _⟩ | ⟨_, hnil⟩
      · exact absurd hnil (inorder_ne_nil _)
      · cases hnil
    | some found =>
      obtain ⟨op', left', right'⟩ := found
      rw [inorder_of_binary? hb'] at h
      have hsame : left.inorder = left'.inorder ∧
          Symbol.operator op :: right.inorder = .operator op' :: right'.inorder := by
        rcases List.append_eq_append_iff.mp h with ⟨more, hl, hr⟩ | ⟨more, hl, hr⟩
        · obtain rfl := left_not_longer hb hb' he hf hl hr
          exact ⟨by simpa using hl.symm, hr⟩
        · obtain rfl := left_not_longer hb' hb hf he hl hr
          exact ⟨by simpa using hl, hr.symm⟩
      obtain ⟨hleft, hright⟩ := hsame
      obtain ⟨rfl, hafter⟩ : op = op' ∧ right.inorder = right'.inorder := by simpa using hright
      obtain ⟨_, hel, her⟩ := (graded_nodes hb).mp he
      obtain ⟨_, hfl, hfr⟩ := (graded_nodes hb').mp hf
      have hl := ihl hel hfl hleft
      have hr := ihr her hfr hafter
      obtain ⟨s, t, rfl⟩ := binary?_eq_some hb
      obtain ⟨s', t', rfl⟩ := binary?_eq_some hb'
      simp only [erase, relocate, relocateExprs] at hl hr ⊢
      rw [hl, hr]

end Expr

end PipeLang
