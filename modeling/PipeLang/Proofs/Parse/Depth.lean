import PipeLang.Proofs.Parse.Yields
import PipeLang.Proofs.Tree.Height

/-! How deep the trees get that are read under a limit. The levels that a field path, a chain of
operators or a pipeline takes are free again after it, while what it wraps stays as deep as it was. So a
tree may be deeper than the limit, but by no more than the square of it. -/

namespace PipeLang

namespace Operator

theorem precedence_le (op : Operator) : op.precedence ≤ 50 := by
  cases op <;> decide

theorem ten_dvd_precedence (op : Operator) : 10 ∣ op.precedence := by
  cases op <;> decide

end Operator

theorem Cursor.precedence_of_operator? {c : Cursor} {least : Nat} {op : Operator}
    (h : c.operator? least = some op) : least ≤ op.precedence :=
  of_decide_eq_true (Option.filter_eq_some_iff.mp h).2

namespace Parse

/-- Every success of `rule` has `Q`. -/
abbrev Gives (Q : α → Prop) (rule : Parse α) : Prop := Yields (fun _ => True) Q rule

namespace Yields

variable {Q : α → Prop} {R : β → Prop}

theorem any {rule : Parse α} : Gives (fun _ => True) rule := fun _ _ _ _ _ => ⟨trivial, trivial⟩

/-- After a rule whose result does not matter. -/
theorem after {x : Parse α} {f : α → Parse β} (h : ∀ a, Gives R (f a)) : Gives R (x >>= f) :=
  Yields.bind any fun a _ => h a

theorem of_eq_ok {rule : Parse α} (h : Gives Q rule) {c c' : Cursor} {a : α}
    (he : rule c = .ok a c') : Q a :=
  (h c trivial a c' he).1

theorem of_forall {rule : Parse α} (h : ∀ c a c', rule c = .ok a c' → Q a) : Gives Q rule :=
  fun c _ a c' he => ⟨h c a c' he, trivial⟩

end Yields

/-- Rounds that keep a fact about their state and the cursor. -/
theorem rounds_keep {P : σ → Cursor → Prop} {round : σ → Parse (Round σ)}
    (h : ∀ s c, P s c → ∀ r c', round s c = .ok r c' → Yields.Rounds (P · c') (P · c') r) {s s' : σ}
    {c c' : Cursor} (hs : P s c) (he : rounds round s c = .ok s' c') : P s' c' := by
  suffices hrun : ∀ n s c, P s c → roundsUpTo round n s c = .ok s' c' → P s' c' from
    hrun _ s c hs he
  clear hs he s c
  intro n
  induction n with
  | zero =>
    intro s c hs he
    cases he
    exact hs
  | succ n ih =>
    intro s c hs he
    unfold roundsUpTo at he
    obtain ⟨r, c1, hr, he⟩ := bind_eq_ok.mp he
    have hround := h s c hs r c1 hr
    cases r with
    | again t => exact ih t c1 hround he
    | done t =>
      cases he
      exact hround

/-- How deep a primary expression gets with so many levels of nesting left. -/
def reach (budget : Nat) : Nat := 4 * budget ^ 2

theorem reach_succ (budget : Nat) : reach (budget + 1) = reach budget + 8 * budget + 4 := by
  unfold reach
  ring

theorem reach_mono {a b : Nat} (h : a ≤ b) : reach a ≤ reach b :=
  Nat.mul_le_mul_left 4 (Nat.pow_le_pow_left h 2)

section

variable {o : ParseOptions} {primary : Primary}

theorem shallow_accesses (budget : Nat) {n : Nat} {target : Expr} (h : target.Shallow o n) :
    Gives (Expr.Shallow o (n + budget)) (accesses o budget target) := by
  induction budget generalizing n target with
  | zero => exact .after fun _ => .ite (fun _ => .fail) fun _ => .pure h
  | succ budget ih =>
    refine .after fun _ => .ite (fun _ => .after fun _ => .after fun field => ?_) fun _ =>
      .pure (h.mono (by omega))
    rw [show n + (budget + 1) = n + 1 + budget by omega]
    refine ih (Expr.shallow_of_children (by simp) fun child hc => ?_)
    obtain rfl := List.mem_singleton.mp hc
    exact h

theorem shallow_binary {op : Operator} {span : Span} {left right : Expr} {n : Nat} (hn : 0 < n)
    (hleft : left.Shallow o n) (hright : right.Shallow o n) :
    (binary op span left right).Shallow o (n + 1) := by
  refine Expr.shallow_of_children (by simp [binary]) fun child hc => ?_
  simp only [binary, Expr.children, List.mem_cons, List.not_mem_nil, or_false] at hc
  rcases hc with rfl | rfl | rfl
  · exact Expr.shallow_leaf (by simp) rfl hn
  · exact hleft
  · exact hright

/-- With `m` steps of precedence left from `least` on. Every operator adds one to the deeper of its two
sides, and its right side has one step less. -/
theorem shallow_chain {d : Nat} (hd : 0 < d) (budget : Nat)
    (happ : ∀ b < budget, Gives (Expr.Shallow o d) (application o primary b)) :
    ∀ (m n least : Nat) (left : Expr), left.Shallow o n →
      (∀ op : Operator, least ≤ op.precedence → 60 ≤ op.precedence + 10 * m) →
      Gives (Expr.Shallow o (max n (d + m * budget) + budget)) (chain o primary budget left least) := by
  induction budget with
  | zero =>
    intro m n least left hleft _
    refine .after fun found => ?_
    split
    · exact .fail
    · exact .pure (hleft.mono (by omega))
  | succ budget ih =>
    intro m n least left hleft hsteps
    have ih := ih fun b hb => happ b (by omega)
    refine Yields.test_bind fun c _ => ?_
    cases hop : c.operator? least with
    | none =>
      intro e c' he
      cases he
      exact ⟨hleft.mono (by omega), trivial⟩
    | some op =>
      have hstep := hsteps op (Cursor.precedence_of_operator? hop)
      have hle := op.precedence_le
      obtain ⟨k, rfl⟩ : ∃ k, m = k + 1 := ⟨m - 1, by omega⟩
      have hmul : (k + 1) * (budget + 1) = k * budget + budget + k + 1 := by ring
      have hmul' : (k + 1) * budget = k * budget + budget := by ring
      have hrest : Gives (Expr.Shallow o (max n (d + (k + 1) * (budget + 1)) + (budget + 1))) (do
          let span ← skip
          let first ← application o primary budget
          let right ← chain o primary budget first (op.precedence + 1)
          chain o primary budget (binary op span left right) least) := by
        refine .after fun span => Yields.bind (happ budget (by omega)) fun first hfirst => ?_
        refine Yields.bind (ih k d _ first hfirst fun op' hop' => ?_) fun right hright => ?_
        · have := op.ten_dvd_precedence
          have := op'.ten_dvd_precedence
          omega
        · refine (ih (k + 1) _ least _ (shallow_binary (n := max n (d + k * budget + budget))
            (by omega) (hleft.mono (by omega)) (hright.mono (by omega))) hsteps).mono
            fun e he => he.mono (by omega)
      exact hrest c trivial

/-- Nothing binds to a chain any more once it has been read. -/
theorem operator?_of_chain {budget least : Nat} {left e : Expr} {c c' : Cursor}
    (he : chain o primary budget left least c = .ok e c') : c'.operator? least = none := by
  induction budget generalizing left c with
  | zero =>
    unfold chain at he
    rw [test_bind] at he
    cases hop : c.operator? least with
    | some op => rw [hop] at he; cases he
    | none => rw [hop] at he; cases he; exact hop
  | succ budget ih =>
    unfold chain at he
    rw [test_bind] at he
    cases hop : c.operator? least with
    | some op =>
      rw [hop] at he
      obtain ⟨span, c1, _, he⟩ := bind_eq_ok.mp he
      obtain ⟨first, c2, _, he⟩ := bind_eq_ok.mp he
      obtain ⟨right, c3, _, he⟩ := bind_eq_ok.mp he
      exact ih he
    | none => rw [hop] at he; cases he; exact hop

variable (hp : ∀ budget, Gives (Expr.Shallow o (reach budget)) (primary budget)) (budget : Nat)

include hp

theorem shallow_operand :
    Gives (Expr.Shallow o (reach budget + budget)) (operand o primary budget) :=
  Yields.bind (hp budget) fun _ he => shallow_accesses budget he

theorem shallow_application :
    Gives (Expr.Shallow o (reach budget + budget + 1)) (application o primary budget) := by
  refine .after fun construct => Yields.bind (shallow_operand hp budget) fun head hhead => ?_
  refine .ite (fun _ => .pure (hhead.mono (by omega))) fun _ => ?_
  refine Yields.bind (.many (shallow_operand hp budget)) fun args hargs => ?_
  split
  · refine .pure (Expr.shallow_of_children (by simp) fun child hc => ?_)
    rcases List.mem_cons.mp hc with rfl | hc
    · exact hhead
    · exact hargs child hc
  · exact .pure (hhead.mono (by omega))

/-- A whole chain; there are five steps of precedence. -/
theorem shallow_wholeChain {left : Expr} (h : left.Shallow o (reach budget + budget + 1)) :
    Gives (Expr.Shallow o (reach budget + 7 * budget + 1)) (chain o primary budget left 0) := by
  refine (shallow_chain (d := reach budget + budget + 1) (by omega) budget (fun b hb => ?_) 5 _ 0
    left h fun op _ => ?_).mono fun e he => he.mono (by omega)
  · exact (shallow_application hp b).mono fun e he => he.mono (by have := reach_mono hb.le; omega)
  · cases op <;> decide

/-- Only the latest argument may have an operator after it, and none does once it has been part of a
chain. -/
theorem shallow_stageArguments :
    Gives (fun args => ∀ a ∈ args, a.Shallow o (reach budget + 7 * budget + 1))
      (stageArguments o primary budget) := by
  refine .of_forall fun c args c' he => ?_
  obtain ⟨found, c1, hrounds, he⟩ := bind_eq_ok.mp he
  cases he
  refine fun a ha => (rounds_keep (P := fun args c =>
    (∀ a ∈ args, a.Shallow o (reach budget + 7 * budget + 1)) ∧
      ((c.operator? 0).isSome → ∀ a, args.head? = some a → a.Shallow o (reach budget + budget)))
    ?_ ⟨fun a ha => absurd ha List.not_mem_nil, fun _ a ha => by cases ha⟩ hrounds).1 a
      (List.mem_reverse.mp ha)
  rintro args c ⟨hall, hlast⟩ r c' he
  rw [test_bind] at he
  split at he
  · obtain ⟨e, c1, hoperand, he⟩ := bind_eq_ok.mp he
    cases he
    have hshallow := (shallow_operand hp budget).of_eq_ok hoperand
    refine ⟨fun a ha => ?_, fun _ a ha => ?_⟩
    · rcases List.mem_cons.mp ha with rfl | ha
      · exact hshallow.mono (by omega)
      · exact hall a ha
    · cases ha
      exact hshallow
  · rw [test_bind] at he
    cases hop : c.operator? 0 with
    | none =>
      rw [hop] at he
      cases he
      exact ⟨hall, hlast⟩
    | some op =>
      rw [hop] at he
      cases args with
      | nil =>
        cases he
        exact ⟨hall, hlast⟩
      | cons last others =>
        obtain ⟨e, c1, hchain, he⟩ := bind_eq_ok.mp he
        cases he
        have hfresh := hlast (by rw [hop]; rfl) last rfl
        have hshallow := (shallow_wholeChain hp budget (hfresh.mono (by omega))).of_eq_ok hchain
        refine ⟨fun a ha => ?_, fun hsome => ?_⟩
        · rcases List.mem_cons.mp ha with rfl | ha
          · exact hshallow
          · exact hall a (List.mem_cons_of_mem _ ha)
        · rw [operator?_of_chain hchain] at hsome
          cases hsome

/-- The parts of a stage get as deep as that. -/
def StageShallow (o : ParseOptions) (n : Nat) (g : Stage) : Prop :=
  ∀ x ∈ g.callee :: g.args, x.Shallow o n

theorem shallow_stage :
    Gives (StageShallow o (reach budget + 7 * budget + 1)) (stage o primary budget) := by
  refine .after fun _ => .ite (fun _ => ?_) fun _ => .fail
  refine Yields.bind (shallow_operand hp budget) fun head hhead => ?_
  refine Yields.bind (shallow_stageArguments hp budget) fun args hargs => ?_
  split
  · exact .fail
  · refine .pure fun x hx => ?_
    unfold stageOf at hx
    rcases List.mem_cons.mp hx with rfl | hx
    · exact hhead.mono (by omega)
    · dsimp only at hx
      split at hx
      · exact hargs x hx
      · rcases List.mem_cons.mp hx with rfl | hx
        · exact Expr.shallow_leaf (by simp) rfl (by omega)
        · exact hargs x hx

omit hp

/-- Stages that were read with `budget` levels left at first. -/
structure StagesShallow (o : ParseOptions) (budget : Nat) (s : Stages) : Prop where
  budget_le : s.budget ≤ budget
  taken : o.resolvePipelines = true → s.stages.length + s.budget = budget
  parts : ∀ g ∈ s.stages, StageShallow o (reach budget + 7 * budget + 1) g

include hp

theorem shallow_pushStage {s : Stages} (hs : StagesShallow o budget s) :
    Gives (StagesShallow o budget) (pushStage o primary s) := by
  have hparts : ∀ b ≤ s.budget, ∀ g, StageShallow o (reach b + 7 * b + 1) g →
      ∀ f ∈ g :: s.stages, StageShallow o (reach budget + 7 * budget + 1) f := by
    intro b hb g hg f hf
    have hle := hb.trans hs.budget_le
    rcases List.mem_cons.mp hf with rfl | hf
    · exact fun x hx => (hg x hx).mono (by have := reach_mono hle; omega)
    · exact hs.parts f hf
  unfold pushStage
  split
  · next hr =>
    split
    · exact .fail
    · next b hb =>
      refine Yields.bind (shallow_stage hp b) fun next hnext => .pure ⟨?_, fun _ => ?_, ?_⟩
      · have := hs.budget_le
        dsimp only
        omega
      · have := hs.taken hr
        show s.stages.length + 1 + b = budget
        omega
      · exact hparts b (by omega) next hnext
  · next hr =>
    refine Yields.bind (shallow_stage hp s.budget) fun next hnext =>
      .pure ⟨hs.budget_le, fun hres => absurd hres hr, ?_⟩
    exact hparts s.budget le_rfl next hnext

theorem shallow_inlineStages {s : Stages} (hs : StagesShallow o budget s) :
    Gives (StagesShallow o budget) (inlineStages o primary s) := by
  refine .rounds (P := StagesShallow o budget) (fun s hs => ?_) (fun _ h => h) hs
  refine .after fun _ => .ite (fun _ => ?_) fun _ => .pure hs
  exact .bind (shallow_pushStage hp budget hs) fun t ht => .pure ht

theorem shallow_stageLine {s : Stages} (hs : StagesShallow o budget s) :
    Gives (Yields.Rounds (StagesShallow o budget) (StagesShallow o budget))
      (stageLine o primary s) := by
  refine Yields.bind (shallow_pushStage hp budget hs) fun t ht => ?_
  refine Yields.bind (shallow_inlineStages hp budget ht) fun u hu => ?_
  refine .after fun _ => .ite (fun _ => ?_) fun _ => ?_
  · refine .after fun _ => .ite (fun _ => .pure hu) fun _ => ?_
    exact .after fun _ => .ite (fun _ => .fail) fun _ => .pure hu
  · exact .after fun _ => .ite (fun _ => .pure hu) fun _ => .fail

theorem shallow_allStages :
    Gives (fun gs => (o.resolvePipelines = true → gs.length ≤ budget) ∧
      ∀ g ∈ gs, StageShallow o (reach budget + 7 * budget + 1) g) (allStages o primary budget) := by
  have start : StagesShallow o budget ⟨budget, []⟩ :=
    ⟨le_rfl, fun _ => Nat.zero_add _, fun g hg => absurd hg List.not_mem_nil⟩
  have finish : ∀ s, StagesShallow o budget s →
      (o.resolvePipelines = true → s.stages.reverse.length ≤ budget) ∧
        ∀ g ∈ s.stages.reverse, StageShallow o (reach budget + 7 * budget + 1) g := by
    refine fun s hs => ⟨fun hr => ?_, fun g hg => hs.parts g (List.mem_reverse.mp hg)⟩
    have := hs.taken hr
    rw [List.length_reverse]
    omega
  refine Yields.bind (shallow_inlineStages hp budget start) fun s hs => .after fun _ => ?_
  refine .ite (fun _ => ?_) fun _ => .pure (finish s hs)
  exact .bind (.rounds (fun s hs => shallow_stageLine hp budget hs) (fun _ h => h) hs)
    fun s hs => .pure (finish s hs)

/-- An expression with all its stages. Written down it is a level deeper than its parts; resolved it is
as many levels deeper as it has stages. -/
theorem shallow_expression :
    Gives (Expr.Shallow o (reach budget + 8 * budget + 2)) (expression o primary budget) := by
  refine Yields.bind (shallow_application hp budget) fun first hfirst => ?_
  refine Yields.bind (shallow_wholeChain hp budget hfirst) fun seed hseed => ?_
  refine Yields.bind (shallow_allStages hp budget) fun stages hstages => ?_
  split
  · refine .pure ((Expr.shallow_pipeline (n := reach budget + 7 * budget + 1) (k := budget + 1)
      ?_ fun child hc => ?_).mono (by omega))
    · split
      · next hr => exact (hstages.1 hr).trans (by omega)
      · omega
    · rcases List.mem_cons.mp hc with rfl | hc
      · exact hseed
      · obtain ⟨g, hg, hc⟩ := List.mem_flatMap.mp hc
        exact hstages.2 g hg child hc
  · exact .pure (hseed.mono (by omega))

end

end Parse

end PipeLang
