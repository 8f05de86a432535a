import PipeLang.Proofs.Format.ReadOperand

/-! Applications and binary expressions are read back. The rules fold operators onto the expression read so
far, so a binary expression whose left side is one again is read as a run of folds: reading it comes
down to folding the rest, with some of the nesting budget spent. -/

namespace PipeLang

namespace Expr

/-- Neither a construct nor a pipeline nor an application. -/
def isOperand : Expr → Bool
  | letIn .. | ifElse .. | matchOn .. | tryCatch .. | pipeline .. | apply .. => false
  | _ => true

def isPipeline : Expr → Bool
  | pipeline .. => true
  | _ => false

/-- Where an operand is read to its end: field accesses belong to the path of a placeholder. -/
def stop : Expr → Cursor → Prop
  | wildcard .., c => c.StopsAccess
  | _, _ => True

end Expr

namespace Parse

open Format

variable {o : ParseOptions} {S : Cursor → Prop}

/-- An application, and the operators after it that bind as tightly as `least`. -/
def climb (o : ParseOptions) (primary : Primary) (budget least : Nat) : Parse Expr := do
  let first ← application o primary budget
  chain o primary budget first least

/-- From where the tokens of `ps` are ahead, reading on comes down to folding what follows onto an
expression equal to `e`. -/
def Climbs (o : ParseOptions) (ps : List Piece) (S : Cursor → Prop) (e : Expr) (room least : Nat) :
    Prop :=
  ∀ levels budget, room ≤ levels → room ≤ budget → ∀ K : Cursor → Prop, (∀ c, K c → S c) →
    ∀ c, At ps K c → ∃ v c' used, used ≤ room ∧ e.Same v ∧ K c' ∧
      climb o (primary o levels) budget least c =
        chain o (primary o levels) (budget - used) v least c'

/-- What holds of an expression that is read back wherever it may stand. -/
structure Readable (o : ParseOptions) (e : Expr) : Prop where
  tail : ReadsTail o e
  clause : e.isConstruct = false → ∀ levels budget, sizeOf e ≤ levels → sizeOf e ≤ budget →
    Reads (expression o (primary o levels) budget) (pieces e) Cursor.StopsStages e.Same
  climbs : e.isConstruct = false → e.isPipeline = false → ∀ least,
    (∀ op, e.operator? = some op → least ≤ op.precedence) →
    Climbs o (pieces e)
      (fun c => c.StopsArguments ∧
        ∀ op, e.operator? = some op → c.operator? (op.precedence + 1) = none) e (sizeOf e) least
  operand : e.isOperand = true → ReadsOperand o (pieces e) e.stop e (sizeOf e)

theorem isOperand_of_needsParens {e : Expr} (h : needsParens .argument e = false) :
    e.isOperand = true := by
  cases e <;> first | rfl | cases h

theorem Readable.argument {e : Expr} (h : Readable o e) :
    ReadsOperand o (placePieces .argument e (pieces e)) Cursor.StopsAccess e (sizeOf e + 1) := by
  cases hn : needsParens .argument e with
  | true =>
    rw [placePieces_of_true hn]
    exact readsOperand_parens h.tail
  | false =>
    rw [placePieces_of_false hn]
    refine (h.operand (isOperand_of_needsParens hn)).mono (fun c hc => ?_) (Nat.le_succ _)
    cases e <;> trivial

theorem Readable.target {e : Expr} (h : Readable o e) :
    ReadsOperand o (targetPieces e (pieces e)) (fun _ => True) e (sizeOf e + 1) := by
  unfold targetPieces
  split
  · exact readsOperand_parens h.tail
  · next hw =>
    cases hn : needsParens .argument e with
    | true =>
      rw [placePieces_of_true hn]
      exact readsOperand_parens h.tail
    | false =>
      rw [placePieces_of_false hn]
      refine (h.operand (isOperand_of_needsParens hn)).mono (fun c _ => ?_) (Nat.le_succ _)
      cases e <;> first | trivial | exact absurd rfl (hw _ _)

/-! Applications. -/

theorem reads_application_of_operand {ps : List Piece} {e : Expr} {room : Nat}
    (h : ReadsOperand o ps Cursor.StopsAccess e room) (hb : BeginsOperand ps)
    {levels budget : Nat} (hl : room ≤ levels) (hbudget : room ≤ budget) :
    Reads (application o (primary o levels) budget) ps Cursor.StopsArguments e.Same := by
  refine .test_bind (a := false) (fun c hc => atConstruct_of_beginsOperand hb hc) ?_
  rw [← List.append_nil ps]
  refine .bind (h.reads (fun _ hc => hc) hl hbudget) (fun v hv => ?_) fun c hc => hc.1
  rw [if_neg Bool.false_ne_true]
  intro K hk c hc
  have hnone : many Cursor.atArgument (operand o (primary o levels) budget) c = .ok [] c := by
    unfold many manyUpTo
    rw [test_bind, (hk c hc).2]
    rfl
  exact ⟨v, c, bind_of_ok hnone, hv, hc⟩

theorem erase_apply {s t : Span} {callee head : Expr} {args found : List Expr}
    (hhead : callee.Same head) (hfound : List.Forall₂ Expr.Same args found) :
    (Expr.apply s callee args).Same (.apply t head found) := by
  have hhead : head.erase = callee.erase := hhead
  have hargs : found.map Expr.erase = args.map Expr.erase := map_eq_of_forall₂ hfound
  show (Expr.apply t head found).erase = (Expr.apply s callee args).erase
  unfold Expr.erase at hhead hargs ⊢
  simp only [Expr.relocate, relocateExprs_eq_map]
  rw [hhead]
  exact congrArg _ hargs

theorem stopsAccess_of_gap_argument {K : Cursor → Prop} {c : Cursor} {ps : List Piece}
    (hb : BeginsArgument ps) (h : At (.gap :: ps) K c) : c.StopsAccess :=
  stopsAccess_of_beginsExpression (.inl hb.beginsOperand) (show At ps K c from h.2)

theorem count_pos_of_gap {ps : List Piece} (h : BeginsArgument ps) :
    0 < ((Piece.gap :: ps).map Piece.count).sum := by
  have := count_pos_of_beginsArgument h
  simp only [List.map_cons, List.sum_cons, Piece.count]
  omega

theorem reads_application {n : Nat} {callee : Expr} {args : List Expr} (s : Span)
    (hcallee : callee.Formed n) (hargs : ∀ a ∈ args, a.Formed n) (hne : args ≠ [])
    (hc : Readable o callee) (ha : ∀ a ∈ args, Readable o a) {levels budget : Nat}
    (hl : sizeOf (Expr.apply s callee args) ≤ levels)
    (hb : sizeOf (Expr.apply s callee args) ≤ budget) :
    Reads (application o (primary o levels) budget) (pieces (.apply s callee args))
      Cursor.StopsArguments (Expr.apply s callee args).Same := by
  have hsize : ∀ a ∈ args, sizeOf a + 1 ≤ sizeOf (Expr.apply s callee args) := by
    intro a hm
    have := List.sizeOf_lt_of_mem hm
    simp only [Expr.apply.sizeOf_spec]
    omega
  have hcsize : sizeOf callee + 1 ≤ sizeOf (Expr.apply s callee args) := by
    simp only [Expr.apply.sizeOf_spec]
    omega
  have hbegin := begins hcallee
  rw [pieces_apply hcallee]
  refine .test_bind (a := false)
    (fun c h => atConstruct_of_beginsOperand (hbegin.1.beginsOperand.append _) h) ?_
  have harg : ∀ a ∈ args, BeginsArgument (placePieces .argument a (pieces a)) :=
    fun a hm => (begins (hargs a hm)).1
  refine .bind (hc.argument.reads (fun _ h => h) (by omega) (by omega)) (fun head hhead => ?_) ?_
  · rw [if_neg Bool.false_ne_true, ← List.append_nil (spacedPieces _), spacedPieces,
      List.flatMap_map]
    refine .bind (.many (T := Cursor.StopsAccess) (Q := Expr.Same)
      (fun a hm => .gap ((ha a hm).argument.reads (fun _ h => h) ?_ ?_))
      (fun a hm c h => atArgument_of_beginsArgument (harg a hm) h.2)
      (fun a hm c h => stopsAccess_of_gap_argument (harg a hm) h) (fun c h => h)
      (fun a hm => count_pos_of_gap (harg a hm))) (fun found hfound => ?_) fun c h => h
    · have := hsize a hm; omega
    · have := hsize a hm; omega
    · cases hlast : found.getLast? with
      | some last => exact .pure (erase_apply hhead hfound)
      | none =>
        rw [List.getLast?_eq_none_iff] at hlast
        rw [hlast] at hfound
        cases hfound
        exact absurd rfl hne
  · intro c h
    obtain ⟨a, rest, rfl⟩ := List.exists_cons_of_ne_nil hne
    rw [List.map_cons, spacedPieces, List.flatMap_cons] at h
    exact stopsAccess_of_gap_argument (harg a List.mem_cons_self) ((at_append _ _).mp h)

/-! Operators. -/

theorem chain_of_stop {primary : Primary} {c : Cursor} {least : Nat}
    (h : c.operator? least = none) (budget : Nat) (v : Expr) :
    chain o primary budget v least c = .ok v c := by
  cases budget with
  | zero => rw [chain, test_bind, h]; rfl
  | succ budget => rw [chain, test_bind, h]; rfl

theorem climbs_of_application {ps : List Piece} {e : Expr} {room : Nat} (least : Nat)
    (h : ∀ levels budget, room ≤ levels → room ≤ budget →
      Reads (application o (primary o levels) budget) ps Cursor.StopsArguments e.Same) :
    Climbs o ps Cursor.StopsArguments e room least := by
  intro levels budget hl hb K hk c hc
  obtain ⟨v, c', hrun, hv, hc'⟩ := h levels budget hl hb K hk c hc
  exact ⟨v, c', 0, Nat.zero_le _, hv, hc', bind_of_ok hrun⟩

theorem Climbs.mono {ps : List Piece} {e : Expr} {m n least : Nat} {T : Cursor → Prop}
    (h : Climbs o ps T e m least) (hs : ∀ c, S c → T c) (hmn : m ≤ n) :
    Climbs o ps S e n least := by
  intro levels budget hl hb K hk c hc
  obtain ⟨v, c', used, hu, hv, hc', hrun⟩ :=
    h levels budget (by omega) (by omega) K (fun c hc => hs c (hk c hc)) c hc
  exact ⟨v, c', used, by omega, hv, hc', hrun⟩

theorem climbs_parens {e : Expr} (h : Readable o e) (least : Nat) :
    Climbs o (parensPieces (pieces e)) Cursor.StopsArguments e (sizeOf e + 1) least :=
  climbs_of_application least fun _ _ hl hb =>
    reads_application_of_operand (readsOperand_parens h.tail)
      (beginsArgument_parens _).beginsOperand hl hb

theorem isPipeline_of_needsParens {slot : Slot} {e : Expr} (hs : slot ≠ .clause)
    (h : needsParens slot e = false) : e.isPipeline = false := by
  cases e with
  | pipeline s seed stages =>
    cases slot <;> first | exact absurd rfl hs | cases h
  | _ => rfl

/-- An operand of an operator: it stands between parentheses, or its own operator binds at least as
tightly, on the right more tightly. -/
theorem Readable.climbs_operand {e : Expr} (h : Readable o e) (op : Operator) (onRight : Bool)
    {least : Nat} (hleast : least ≤ op.precedence + onRight.toNat) :
    Climbs o (operandPieces op.precedence onRight e (pieces e))
      (Cursor.StopsChain (op.precedence + 1)) e (sizeOf e + 1) least := by
  have parens := (climbs_parens h least).mono (S := Cursor.StopsChain (op.precedence + 1))
    (fun _ hc => hc.1) (Nat.le_refl _)
  unfold operandPieces
  cases hop : e.operator? with
  | none =>
    cases hn : needsParens .operand e with
    | true =>
      rw [placePieces_of_true hn]
      exact parens
    | false =>
      rw [placePieces_of_false hn]
      refine (h.climbs (isConstruct_of_needsParens hn)
        (isPipeline_of_needsParens (by decide : Slot.operand ≠ .clause) hn) least (fun inner hi => ?_)).mono
          (fun c hc => ⟨hc.1, fun inner hi => ?_⟩) (Nat.le_succ _)
      · rw [hop] at hi; cases hi
      · rw [hop] at hi; cases hi
  | some inner =>
    dsimp only
    split
    · exact parens
    · next hp =>
      have hge : op.precedence + onRight.toNat ≤ inner.precedence := by
        simp only [Bool.or_eq_true, decide_eq_true_eq, Bool.and_eq_true, beq_iff_eq] at hp
        cases onRight with
        | true => simp only [true_and] at hp; simp only [Bool.toNat_true]; omega
        | false => simp only [Bool.toNat_false]; omega
      have hpipeline : e.isPipeline = false := by
        cases e <;> first | rfl | cases hop
      refine (h.climbs (isConstruct_of_operator? hop) hpipeline least (fun inner' hi => ?_)).mono
        (fun c hc => ⟨hc.1, fun inner' hi => ?_⟩) (Nat.le_succ _)
      · rw [hop] at hi
        obtain rfl := Option.some.inj hi
        omega
      · rw [hop] at hi
        obtain rfl := Option.some.inj hi
        exact Cursor.operator?_eq_none_of_le hc.2 (by omega)

theorem same_binary {s t u w : Span} {op : Operator} {left right l r : Expr} (hl : left.Same l)
    (hr : right.Same r) :
    (Expr.apply s (.ident t op.spelling) [left, right]).Same
      (.apply u (.ident w op.spelling) [l, r]) :=
  erase_apply rfl (.cons hl (.cons hr .nil))

/-- One operator and its right operand, folded onto what was read before. -/
theorem chain_step {right l : Expr} {op : Operator} {least : Nat} (s t : Span) {left : Expr}
    (hr : Readable o right) (hl : left.Same l) (hleast : least ≤ op.precedence)
    {levels budget : Nat} (hlevels : sizeOf right + 1 ≤ levels)
    (hbudget : sizeOf right + 2 ≤ budget) {K : Cursor → Prop}
    (hk : ∀ c, K c → c.StopsChain (op.precedence + 1)) {c : Cursor}
    (hc : At (.gap :: .plain (operatorKind op) :: .gap ::
      operandPieces op.precedence true right (pieces right)) K c) :
    ∃ v c', (Expr.apply s (.ident t op.spelling) [left, right]).Same v ∧ K c' ∧
      chain o (primary o levels) budget l least c =
        chain o (primary o levels) (budget - 1) v least c' := by
  obtain ⟨b, rfl⟩ : ∃ b, budget = b + 1 := ⟨budget - 1, by omega⟩
  have hop : At (.plain (operatorKind op) :: .gap ::
      operandPieces op.precedence true right (pieces right)) K c := hc.2
  have hnext : At (operandPieces op.precedence true right (pieces right)) K c.next :=
    (hop.next (by cases op <;> nofun)).2
  have hright : op.precedence + 1 ≤ op.precedence + true.toNat := by simp
  obtain ⟨v, c', used, hu, hv, hc', hrun⟩ :=
    hr.climbs_operand op true hright levels b hlevels (by omega) K hk c.next hnext
  rw [chain_of_stop (hk c' hc').2] at hrun
  refine ⟨binary op c.peek.span l v, c', same_binary hl hv, hc', ?_⟩
  rw [chain, test_bind, operator?_of_at hop, if_pos hleast]
  dsimp only
  rw [skip_bind]
  obtain ⟨first, c1, hfirst, hchain⟩ := bind_eq_ok.mp hrun
  rw [bind_of_ok hfirst, bind_of_ok hchain]
  rfl

/-- A binary expression, its left side bare or not. -/
theorem climbs_binary {left right : Expr} (s t : Span) (op : Operator) (hl : Readable o left)
    (hr : Readable o right) {least : Nat} (hleast : least ≤ op.precedence) :
    Climbs o (pieces (.apply s (.ident t op.spelling) [left, right]))
      (Cursor.StopsChain (op.precedence + 1))
      (.apply s (.ident t op.spelling) [left, right])
      (sizeOf (Expr.apply s (.ident t op.spelling) [left, right])) least := by
  intro levels budget hlevels hbudget K hk c hc
  have hsize : sizeOf left + sizeOf right + 5 ≤
      sizeOf (Expr.apply s (.ident t op.spelling) [left, right]) := by
    simp only [Expr.apply.sizeOf_spec, Expr.ident.sizeOf_spec, List.cons.sizeOf_spec,
      List.nil.sizeOf_spec]
    omega
  rw [pieces_binary] at hc
  have hleft : least ≤ op.precedence + false.toNat := by simpa using hleast
  obtain ⟨l, c1, used, hu, hl', hc1, hrun⟩ := hl.climbs_operand op false hleft levels budget
    (by omega) (by omega) _ (fun c hc => stopsChain_of_operator hc (Nat.lt_succ_self _)) c
    ((at_append _ _).mp hc)
  have hlevels' : sizeOf right + 1 ≤ levels := by omega
  have hbudget' : sizeOf right + 2 ≤ budget - used := by omega
  obtain ⟨v, c2, hv, hc2, hstep⟩ := chain_step s t hr hl' hleast hlevels' hbudget' hk hc1
  refine ⟨v, c2, used + 1, by omega, hv, hc2, ?_⟩
  rw [hrun, hstep, Nat.sub_sub]

end Parse

end PipeLang
