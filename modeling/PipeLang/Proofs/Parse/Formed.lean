import PipeLang.Proofs.Parse.Yields
import PipeLang.Proofs.Tree.Formed

/-! A program that is read from well formed tokens without errors is well formed. One fact for each rule,
given what holds of the primary expressions a level further down; the recursion of the grammar then
closes by induction on that level. -/

namespace PipeLang

/-- Every token that the cursor can see is well formed. -/
def Cursor.Formed (n : Nat) (c : Cursor) : Prop :=
  (∀ t ∈ c.before, t.Formed n) ∧ ∀ t ∈ c.rest, t.Formed n

namespace Cursor

theorem formed_peek {n : Nat} {c : Cursor} (h : c.Formed n) : c.peek.Formed n := by
  unfold peek
  split
  · next t ts hr => exact h.2 t (hr ▸ List.mem_cons_self)
  · cases hb : c.before with
    | nil => exact .plain rfl
    | cons t ts => exact h.1 t (hb ▸ List.mem_cons_self)

theorem formed_forward {n : Nat} {c : Cursor} (h : c.Formed n) : c.forward.Formed n := by
  unfold forward
  split
  · next t ts hr =>
    refine ⟨?_, fun u hu => h.2 u (hr ▸ List.mem_cons_of_mem t hu)⟩
    intro u hu
    rcases List.mem_cons.mp hu with rfl | hu
    · exact h.2 u (hr ▸ List.mem_cons_self)
    · exact h.1 u hu
  · exact h

theorem formed_next {n : Nat} {c : Cursor} (h : c.Formed n) : c.next.Formed n := by
  unfold next
  split
  · exact h
  · exact formed_forward h

end Cursor

theorem Token.Formed.name_ok {n : Nat} {t : Token} (h : t.Formed n) {name : String}
    (ht : t.kind = .ident name) : isIdentifier name = true := by
  cases h with
  | ident hk hn => rw [hk] at ht; cases ht; exact hn
  | text hk => rw [hk] at ht; cases ht
  | plain hk => rw [ht] at hk; cases hk

namespace Parse

section

variable {n : Nat}

theorem yields_skip : Yields (Cursor.Formed n) (fun _ => True) skip := by
  intro c hc a c' he
  cases he
  exact ⟨trivial, Cursor.formed_next hc⟩

theorem yields_accept (p : Cursor → Bool) :
    Yields (Cursor.Formed n) (fun _ => True) (accept p) := by
  intro c hc a c' he
  unfold accept at he
  split at he
  · cases he; exact ⟨trivial, Cursor.formed_next hc⟩
  · cases he; exact ⟨trivial, hc⟩

theorem yields_peek : Yields (Cursor.Formed n) (Token.Formed n) (test Cursor.peek) :=
  .test fun _ hc => Cursor.formed_peek hc

theorem yields_test (p : Cursor → Bool) : Yields (Cursor.Formed n) (fun _ => True) (test p) :=
  .test fun _ _ => trivial

theorem yields_unexpected {Q : α → Prop} (place : Place) (expected : List Expected) :
    Yields (Cursor.Formed n) Q (unexpected place expected) :=
  .fail

theorem yields_expectPunctuation (p : Punctuation) (place : Place) :
    Yields (Cursor.Formed n) (fun _ => True) (expectPunctuation p place) :=
  .bind (yields_test _) fun _ _ => .ite (fun _ => yields_skip) fun _ => yields_unexpected _ _

theorem yields_expectOperator (op : Operator) (place : Place) :
    Yields (Cursor.Formed n) (fun _ => True) (expectOperator op place) :=
  .bind (yields_test _) fun _ _ => .ite (fun _ => yields_skip) fun _ => yields_unexpected _ _

theorem yields_identifier (place : Place) :
    Yields (Cursor.Formed n) (fun x => isIdentifier x.text = true) (identifier place) := by
  refine .bind yields_peek fun t ht => ?_
  split
  · next name hk => exact .bind yields_skip fun span _ => .pure (ht.name_ok hk)
  · exact yields_unexpected _ _

theorem yields_stillOpen (form : Form) (opened : Span) (expected : List Expected) :
    Yields (Cursor.Formed n) (fun _ => True) (stillOpen form opened expected) := by
  intro c hc a c' he
  unfold stillOpen at he
  split at he
  · cases he
  · cases he; exact ⟨trivial, hc⟩

theorem yields_noComma (form : Form) (sample : String) (expected : List Expected) :
    Yields (Cursor.Formed n) (fun _ => True) (noComma form sample expected) := by
  intro c hc a c' he
  unfold noComma at he
  split at he
  · cases he
  · cases he; exact ⟨trivial, hc⟩

theorem yields_openBlock (p : TokenKind → Bool) :
    Yields (Cursor.Formed n) (fun _ => True) (openBlock p) := by
  intro c hc a c' he
  unfold openBlock at he
  split at he
  · cases he; exact ⟨trivial, Cursor.formed_forward (Cursor.formed_forward hc)⟩
  · cases he; exact ⟨trivial, hc⟩

theorem yields_closeBlock (place : Place) :
    Yields (Cursor.Formed n) (fun _ => True) (closeBlock place) :=
  .bind (yields_accept _) fun _ _ => .bind (yields_test _) fun _ _ =>
    .ite (fun _ => .bind yields_skip fun _ _ => .pure trivial) fun _ => yields_unexpected _ _

theorem yields_closeBlockIf (inBlock : Bool) (place : Place) :
    Yields (Cursor.Formed n) (fun _ => True) (closeBlockIf inBlock place) :=
  .ite (fun _ => yields_closeBlock place) fun _ => .pure trivial

theorem yields_clauseAhead (inBlock : Bool) (p : TokenKind → Bool) :
    Yields (Cursor.Formed n) (fun _ => True) (clauseAhead inBlock p) := by
  intro c hc a c' he
  unfold clauseAhead at he
  repeat' split at he
  all_goals cases he
  all_goals refine ⟨trivial, ?_⟩
  all_goals first
    | exact hc
    | exact Cursor.formed_next hc
    | exact Cursor.formed_forward (Cursor.formed_forward hc)

theorem yields_clauses {Q : α → Prop} {p : TokenKind → Bool} {clause : Bool → Parse (α × Bool)}
    (h : ∀ b, Yields (Cursor.Formed n) (fun x => Q x.1) (clause b)) (inBlock : Bool) :
    Yields (Cursor.Formed n) (fun x => ∀ a ∈ x.1, Q a) (clauses p clause inBlock) := by
  refine .bind (.rounds (P := fun s => ∀ a ∈ s.1, Q a) (Q := fun s => ∀ a ∈ s.1, Q a) ?_
    (fun _ hs => hs) fun a ha => absurd ha List.not_mem_nil) fun s hs => .pure ?_
  · intro s hs
    refine .bind (yields_clauseAhead _ _) fun found _ => ?_
    cases found with
    | none => exact .pure hs
    | some inBlock =>
      refine .bind (h inBlock) fun x hx => .pure ?_
      intro a ha
      rcases List.mem_cons.mp ha with rfl | ha
      · exact hx
      · exact hs a ha
  · intro a ha
    exact hs a (List.mem_reverse.mp ha)

theorem yields_body {Q : Expr → Prop} {expression : Parse Expr}
    (h : Yields (Cursor.Formed n) Q expression) : Yields (Cursor.Formed n) Q (body expression) :=
  .bind (yields_openBlock _) fun _ _ => .ite
    (fun _ => .bind h fun _ he => .bind (yields_closeBlock _) fun _ _ => .pure he)
    fun _ => h

/-! Patterns. -/

theorem yields_negativeNumber :
    Yields (Cursor.Formed n) (fun _ => True) negativeNumber := by
  refine .bind yields_skip fun _ _ => .bind yields_peek fun t _ => .bind yields_skip fun _ _ => ?_
  split <;> exact .pure trivial

theorem yields_literal : Yields (Cursor.Formed n) (fun _ => True) literal? := by
  have constant : ∀ value, Yields (Cursor.Formed n) (fun _ => True) (literal?.constant value) :=
    fun value => .bind yields_skip fun _ _ => .pure trivial
  refine .bind yields_peek fun t _ => ?_
  split
  · exact constant _
  · exact .bind (yields_test _) fun _ _ => .ite
      (fun _ => .bind yields_negativeNumber fun _ _ => .pure trivial) fun _ => .pure trivial
  · split
    · exact constant _
    · exact .fail
  · exact constant _
  · exact constant _
  · exact constant _
  · exact .pure trivial

theorem yields_fieldUse : Yields (Cursor.Formed n) FieldUse.Formed fieldUse := by
  refine .bind (yields_accept _) fun _ _ => .ite (fun _ => .pure trivial) fun _ =>
    .bind yields_peek fun t ht => ?_
  split
  · next name hk => exact .bind yields_skip fun _ _ => .pure (ht.name_ok hk)
  · refine .bind yields_literal fun found _ => ?_
    split
    · exact .pure trivial
    · exact yields_unexpected _ _

/-- Fields of a record pattern, in either order: named, and no key twice. -/
def FieldsFormed (fields : List PatternField) : Prop :=
  (∀ f ∈ fields, isIdentifier f.key.text = true ∧ f.use.Formed) ∧
    (fields.map fun f => f.key.text).Nodup

theorem FieldsFormed.cons {fields : List PatternField} (h : FieldsFormed fields) {f : PatternField}
    (hf : isIdentifier f.key.text = true ∧ f.use.Formed)
    (hnew : ∀ g ∈ fields, g.key.text ≠ f.key.text) : FieldsFormed (f :: fields) := by
  refine ⟨?_, ?_⟩
  · intro g hg
    rcases List.mem_cons.mp hg with rfl | hg
    · exact hf
    · exact h.1 g hg
  · rw [List.map_cons, List.nodup_cons]
    refine ⟨?_, h.2⟩
    intro hm
    obtain ⟨g, hg, he⟩ := List.mem_map.mp hm
    exact hnew g hg he

theorem yields_patternField (opened : Span) (fields : List PatternField)
    (hfields : FieldsFormed fields) :
    Yields (Cursor.Formed n) (fun f => FieldsFormed (f :: fields)) (patternField opened fields) := by
  refine .bind (yields_stillOpen _ _ _) fun _ _ => .bind (yields_noComma _ _ _) fun _ _ =>
    .bind (yields_test _) fun _ _ => .ite (fun _ => .bind (yields_identifier _) fun key hkey => ?_)
      fun _ => yields_unexpected _ _
  cases hfind : fields.find? fun f => f.key.text == key.text with
  | some first => exact .fail
  | none =>
    have hnew : ∀ g ∈ fields, g.key.text ≠ key.text := by
      intro g hg
      have := List.find?_eq_none.mp hfind g hg
      simpa using this
    exact .bind (yields_accept _) fun _ _ => .ite
      (fun _ => .bind yields_fieldUse fun use huse => .pure (hfields.cons ⟨hkey, huse⟩ hnew))
      fun _ => .pure (hfields.cons ⟨hkey, hkey⟩ hnew)

theorem yields_recordPattern : Yields (Cursor.Formed n) Pattern.Formed recordPattern := by
  refine .bind yields_skip fun opened _ => .bind (.rounds (P := FieldsFormed) (Q := FieldsFormed) ?_
    (fun _ h => h) ⟨fun f hf => absurd hf List.not_mem_nil, List.nodup_nil⟩) fun fields hfields =>
    .bind yields_skip fun closed _ => .pure ?_
  · intro fields hfields
    exact .bind (yields_test _) fun _ _ => .ite (fun _ => .pure hfields) fun _ =>
      .bind (yields_patternField opened fields hfields) fun _ h => .pure h
  · refine ⟨fun f hf => hfields.1 f (List.mem_reverse.mp hf), ?_⟩
    rw [List.map_reverse, List.Nodup, List.pairwise_reverse]
    exact hfields.2.imp Ne.symm

theorem yields_pattern (o : ParseOptions) (budget : Nat) :
    Yields (Cursor.Formed n) Pattern.Formed (pattern o budget) := by
  refine .ite (fun _ => .fail) fun _ => .bind yields_peek fun t ht => ?_
  split
  · exact yields_recordPattern
  · exact .bind yields_skip fun _ _ => .pure trivial
  · exact .bind yields_skip fun _ _ => .pure trivial
  · next name hk => exact .bind yields_skip fun _ _ => .pure (ht.name_ok hk)
  · refine .bind yields_literal fun found _ => ?_
    split
    · exact .pure trivial
    · exact yields_unexpected _ _

end

/-! Expressions, over primary expressions that are well formed. -/

/-- What the rules below ask of the primary expressions a level further down. -/
structure PrimaryFormed (n : Nat) (primary : Primary) : Prop where
  formed : ∀ budget, Yields (Cursor.Formed n) (Expr.Formed n) (primary budget)
  path : ∀ budget c e c', c.atIdent = true → primary budget c = .ok e c' → e.isPath = true

section

variable {n : Nat} {o : ParseOptions} {primary : Primary} (h : PrimaryFormed n primary)

theorem yields_accesses (budget : Nat) {target : Expr} (ht : target.Formed n) :
    Yields (Cursor.Formed n) (fun e => e.Formed n ∧ (target.isPath = true → e.isPath = true))
      (accesses o budget target) := by
  induction budget generalizing target with
  | zero =>
    exact .bind (yields_test _) fun _ _ => .ite (fun _ => .fail) fun _ => .pure ⟨ht, id⟩
  | succ budget ih =>
    refine .bind (yields_test _) fun _ _ => .ite (fun _ => ?_) fun _ => .pure ⟨ht, id⟩
    exact .bind yields_skip fun _ _ => .bind (yields_identifier _) fun field hfield =>
      (ih (.access ht hfield)).mono fun e he => ⟨he.1, fun hp => he.2 hp⟩

include h

theorem yields_operand (budget : Nat) :
    Yields (Cursor.Formed n) (Expr.Formed n) (operand o primary budget) :=
  .bind (h.formed budget) fun _ he => (yields_accesses budget he).mono fun _ hv => hv.1

/-- What starts with a name is a name or a field of one. -/
theorem isPath_of_operand {budget : Nat} {c c' : Cursor} {e : Expr} (hc : c.Formed n)
    (hi : c.atIdent = true) (he : operand o primary budget c = .ok e c') : e.isPath = true := by
  obtain ⟨head, c1, hp, ha⟩ := bind_eq_ok.mp he
  obtain ⟨hhead, hc1⟩ := h.formed budget c hc head c1 hp
  exact (yields_accesses budget hhead c1 hc1 e c' ha).1.2 (h.path budget c head c1 hi hp)

theorem yields_application (budget : Nat) :
    Yields (Cursor.Formed n) (Expr.Formed n) (application o primary budget) := by
  refine .bind (yields_test _) fun construct _ => .bind (yields_operand h budget) fun head hhead =>
    .ite (fun _ => .pure hhead) fun _ => .bind (.many (yields_operand h budget)) fun args hargs => ?_
  split
  · next last hlast =>
    refine .pure (.apply ?_ hhead hargs)
    intro he
    rw [he] at hlast
    cases hlast
  · exact .pure hhead

theorem yields_chain (budget : Nat) : ∀ left least, Expr.Formed n left →
    Yields (Cursor.Formed n) (Expr.Formed n) (chain o primary budget left least) := by
  induction budget with
  | zero =>
    intro left least hleft
    refine .bind (.test (Q := fun _ => True) fun _ _ => trivial) fun found _ => ?_
    split
    · exact .fail
    · exact .pure hleft
  | succ budget ih =>
    intro left least hleft
    refine .bind (.test (Q := fun _ => True) fun _ _ => trivial) fun found _ => ?_
    split
    · next op =>
      exact .bind yields_skip fun _ _ => .bind (yields_application h budget) fun first hfirst =>
        .bind (ih first _ hfirst) fun right hright => ih _ _ (.binary op hleft hright)
    · exact .pure hleft

theorem yields_stageArguments (budget : Nat) :
    Yields (Cursor.Formed n) (fun args => ∀ a ∈ args, Expr.Formed n a)
      (stageArguments o primary budget) := by
  have cons : ∀ {e : Expr} {es : List Expr}, e.Formed n → (∀ a ∈ es, a.Formed n) →
      ∀ a ∈ e :: es, a.Formed n := by
    intro e es he hes a ha
    rcases List.mem_cons.mp ha with rfl | ha
    · exact he
    · exact hes a ha
  refine .bind (.rounds (P := fun args => ∀ a ∈ args, Expr.Formed n a)
    (Q := fun args => ∀ a ∈ args, Expr.Formed n a) ?_ (fun _ h => h)
    fun a ha => absurd ha List.not_mem_nil) fun args hargs =>
    .pure fun a ha => hargs a (List.mem_reverse.mp ha)
  intro args hargs
  refine .bind (yields_test _) fun _ _ => .ite
    (fun _ => .bind (yields_operand h budget) fun e he => .pure (cons he hargs)) fun _ =>
    .bind (.test (Q := fun _ => True) fun _ _ => trivial) fun found _ => ?_
  split
  · next op last others =>
    exact .bind (yields_chain h budget last 0 (hargs last List.mem_cons_self)) fun e he =>
      .pure (cons he fun a ha => hargs a (List.mem_cons_of_mem _ ha))
  · exact .pure hargs

omit h in
theorem formed_stageOf {head : Expr} {args : List Expr} (hpath : head.isPath = true)
    (hone : (args.filter Expr.isPlaceholder).length ≤ 1) : (stageOf head args).Formed := by
  refine ⟨hpath, ?_⟩
  unfold stageOf
  dsimp only
  split
  · next hany =>
    obtain ⟨a, ha, hp⟩ := List.any_eq_true.mp hany
    have : a ∈ args.filter Expr.isPlaceholder := List.mem_filter.mpr ⟨ha, hp⟩
    have := List.length_pos_of_mem this
    omega
  · next hany =>
    have hnone : args.filter Expr.isPlaceholder = [] := by
      rw [List.filter_eq_nil_iff]
      intro a ha hp
      exact hany (List.any_eq_true.mpr ⟨a, ha, hp⟩)
    rw [List.filter_cons_of_pos rfl, hnone]
    rfl

/-- A stage with all its parts. -/
def StageFormed (n : Nat) (s : Stage) : Prop :=
  s.Formed ∧ s.callee.Formed n ∧ ∀ a ∈ s.args, a.Formed n

theorem yields_stage (budget : Nat) :
    Yields (Cursor.Formed n) (StageFormed n) (stage o primary budget) := by
  intro c hc s c' he
  unfold stage at he
  rw [test_bind] at he
  split at he
  · next hi =>
    obtain ⟨head, c1, hhead, he⟩ := bind_eq_ok.mp he
    have hpath := isPath_of_operand h hc hi hhead
    obtain ⟨hformed, hc1⟩ := yields_operand h budget c hc head c1 hhead
    obtain ⟨args, c2, hargs, he⟩ := bind_eq_ok.mp he
    obtain ⟨hall, hc2⟩ := yields_stageArguments h budget c1 hc1 args c2 hargs
    have hargs_ok : ∀ a ∈ (stageOf head args).args, a.Formed n := by
      intro a ha
      unfold stageOf at ha
      dsimp only at ha
      split at ha
      · exact hall a ha
      · rcases List.mem_cons.mp ha with rfl | ha
        · exact .wildcard fun f hf => absurd hf List.not_mem_nil
        · exact hall a ha
    rcases hf : args.filter Expr.isPlaceholder with _ | ⟨first, _ | ⟨second, rest⟩⟩
    · rw [hf] at he
      cases he
      exact ⟨⟨formed_stageOf hpath (by simp [hf]), hformed, hargs_ok⟩, hc2⟩
    · rw [hf] at he
      cases he
      exact ⟨⟨formed_stageOf hpath (by simp [hf]), hformed, hargs_ok⟩, hc2⟩
    · rw [hf] at he
      cases he
  · cases he

theorem yields_pushStage (s : Stages) (hs : ∀ g ∈ s.stages, StageFormed n g) :
    Yields (Cursor.Formed n) (fun t => ∀ g ∈ t.stages, StageFormed n g)
      (pushStage o primary s) := by
  have cons : ∀ {g : Stage}, StageFormed n g → ∀ f ∈ g :: s.stages, StageFormed n f := by
    intro g hg f hf
    rcases List.mem_cons.mp hf with rfl | hf
    · exact hg
    · exact hs f hf
  refine .ite (fun _ => ?_) fun _ => ?_
  · split
    · exact .fail
    · exact .bind (yields_stage h _) fun next hnext => .pure (cons hnext)
  · exact .bind (yields_stage h _) fun next hnext => .pure (cons hnext)

theorem yields_inlineStages (s : Stages) (hs : ∀ g ∈ s.stages, StageFormed n g) :
    Yields (Cursor.Formed n) (fun t => ∀ g ∈ t.stages, StageFormed n g)
      (inlineStages o primary s) := by
  refine .rounds (P := fun s : Stages => ∀ g ∈ s.stages, StageFormed n g) ?_ (fun _ h => h) hs
  intro s hs
  exact .bind (yields_accept _) fun _ _ => .ite
    (fun _ => .bind (yields_pushStage h s hs) fun t ht => .pure ht) fun _ => .pure hs

theorem yields_stageLine (s : Stages) (hs : ∀ g ∈ s.stages, StageFormed n g) :
    Yields (Cursor.Formed n)
      (Yields.Rounds (fun t => ∀ g ∈ t.stages, StageFormed n g)
        fun t => ∀ g ∈ t.stages, StageFormed n g) (stageLine o primary s) := by
  refine .bind (yields_pushStage h s hs) fun t ht => .bind (yields_inlineStages h t ht) fun u hu =>
    .bind (yields_accept _) fun _ _ => .ite (fun _ => ?_) fun _ => ?_
  · exact .bind (yields_accept _) fun _ _ => .ite (fun _ => .pure hu) fun _ =>
      .bind (yields_test _) fun _ _ => .ite (fun _ => .fail) fun _ => .pure hu
  · exact .bind (yields_accept _) fun _ _ => .ite (fun _ => .pure hu) fun _ =>
      yields_unexpected _ _

theorem yields_allStages (budget : Nat) :
    Yields (Cursor.Formed n) (fun gs => ∀ g ∈ gs, StageFormed n g)
      (allStages o primary budget) := by
  refine .bind (yields_inlineStages h _ fun g hg => absurd hg List.not_mem_nil) fun s hs =>
    .bind (yields_openBlock _) fun _ _ => .ite (fun _ => ?_) fun _ =>
      .pure fun g hg => hs g (List.mem_reverse.mp hg)
  exact .bind (.rounds (yields_stageLine h) (fun _ h => h) hs) fun t ht =>
    .pure fun g hg => ht g (List.mem_reverse.mp hg)

theorem yields_expression (budget : Nat) :
    Yields (Cursor.Formed n) (Expr.Formed n) (expression o primary budget) := by
  refine .bind (yields_application h budget) fun first hfirst =>
    .bind (yields_chain h budget first 0 hfirst) fun seed hseed =>
    .bind (yields_allStages h budget) fun stages hstages => ?_
  split
  · next last hlast =>
    refine .pure (.pipeline hseed ?_ (fun g hg => (hstages g hg).1)
      (fun g hg => (hstages g hg).2.1) fun g hg => (hstages g hg).2.2)
    intro he
    rw [he] at hlast
    cases hlast
  · exact .pure hseed

end

end Parse

end PipeLang
