import PipeLang.Scan.Lex
import PipeLang.Proofs.Parse.Depth

/-! The depth of the rest of the grammar: forms between brackets, constructs, strings with their
interpolations, and whole programs. -/

namespace PipeLang

namespace Parse

section

variable {o : ParseOptions}

theorem gives_clauses {Q : α → Prop} {p : TokenKind → Bool} {clause : Bool → Parse (α × Bool)}
    (h : ∀ b, Gives (fun x => Q x.1) (clause b)) (inBlock : Bool) :
    Gives (fun x => ∀ a ∈ x.1, Q a) (clauses p clause inBlock) := by
  refine Yields.bind (.rounds (P := fun s => ∀ a ∈ s.1, Q a) (Q := fun s => ∀ a ∈ s.1, Q a) ?_
    (fun _ hs => hs) fun a ha => absurd ha List.not_mem_nil) fun s hs =>
    .pure fun a ha => hs a (List.mem_reverse.mp ha)
  refine fun s hs => .after fun found => ?_
  cases found with
  | none => exact .pure hs
  | some inBlock =>
    refine Yields.bind (h inBlock) fun x hx => .pure fun a ha => ?_
    rcases List.mem_cons.mp ha with rfl | ha
    · exact hx
    · exact hs a ha

variable {primary : Primary} (hp : ∀ budget, Gives (Expr.Shallow o (reach budget)) (primary budget))
  (budget : Nat)

include hp

theorem shallow_result :
    Gives (Expr.Shallow o (reach budget + 8 * budget + 2)) (result o primary budget) := by
  refine .after fun _ => .ite (fun _ => ?_) fun _ => shallow_expression hp budget
  exact .bind (shallow_expression hp budget) fun e he => .after fun _ => .pure he

/-- A definition with parameters is a level deeper than its body. -/
theorem shallow_definition :
    Gives (fun b => b.value.Shallow o (reach budget + 8 * budget + 3))
      (definition o primary budget) := by
  refine .after fun name => .after fun params => .after fun _ => ?_
  refine Yields.bind (shallow_result hp budget) fun value hvalue => .pure ?_
  cases params with
  | nil => exact hvalue.mono (by omega)
  | cons first rest =>
    refine Expr.shallow_of_children (by simp [definedValue]) fun child hc => ?_
    obtain rfl := List.mem_singleton.mp hc
    exact hvalue

theorem shallow_binding :
    Gives (fun b => b.value.Shallow o (reach budget + 8 * budget + 3)) (binding o primary budget) :=
  .after fun _ => .ite (fun _ => shallow_definition hp budget) fun _ => .fail

theorem shallow_bindings :
    Gives (fun x => ∀ b ∈ x.1, b.value.Shallow o (reach budget + 8 * budget + 3))
      (bindings o primary budget) := by
  have cons : ∀ {b : Binding} {bs : List Binding},
      b.value.Shallow o (reach budget + 8 * budget + 3) →
      (∀ b ∈ bs, b.value.Shallow o (reach budget + 8 * budget + 3)) →
      ∀ d ∈ b :: bs, d.value.Shallow o (reach budget + 8 * budget + 3) := by
    intro b bs hb hbs d hd
    rcases List.mem_cons.mp hd with rfl | hd
    · exact hb
    · exact hbs d hd
  refine .after fun _ => .ite (fun _ => ?_) fun _ => ?_
  · refine Yields.bind (.rounds
      (P := fun s : List Binding × Bool => ∀ b ∈ s.1, b.value.Shallow o _)
      (Q := fun s => ∀ b ∈ s.1, b.value.Shallow o (reach budget + 8 * budget + 3)) (fun s hs => ?_)
      (fun _ h => h) fun b hb => absurd hb List.not_mem_nil) fun s hs =>
      .pure fun b hb => hs b (List.mem_reverse.mp hb)
    refine Yields.bind (shallow_binding hp budget) fun b hb => .after fun _ => ?_
    refine .ite (fun _ => .pure (cons hb hs)) fun _ => .after fun _ => .after fun _ => ?_
    refine .ite (fun _ => .pure (cons hb hs)) fun _ => .after fun _ => ?_
    refine .ite (fun _ => .pure (cons hb hs)) fun _ => .after fun _ => ?_
    exact .ite (fun _ => .pure (cons hb hs)) fun _ => .fail
  · refine Yields.bind (shallow_binding hp budget) fun first hfirst => ?_
    refine Yields.bind (.many (.after fun _ => shallow_binding hp budget)) fun rest hrest => ?_
    exact .pure (cons hfirst hrest)

theorem shallow_letIn : Gives (Expr.Shallow o (reach (budget + 1))) (letIn o primary budget) := by
  refine .after fun _ => Yields.bind (shallow_bindings hp budget) fun x hx => .after fun found => ?_
  cases found with
  | none => exact .fail
  | some inBlock =>
    refine .after fun _ => Yields.bind (shallow_result hp budget) fun value hvalue =>
      .after fun _ => .pure ?_
    rw [reach_succ]
    refine Expr.shallow_of_children (by simp) fun child hc => ?_
    rcases List.mem_append.mp hc with hc | hc
    · obtain ⟨b, hb, rfl⟩ := List.mem_map.mp hc
      exact hx b hb
    · obtain rfl := List.mem_singleton.mp hc
      exact hvalue.mono (by omega)

omit hp in
/-- A form whose parts are whole expressions. -/
theorem shallow_form {e : Expr} (hpipe : ∀ s seed stages, e ≠ .pipeline s seed stages)
    (h : ∀ child ∈ e.children, child.Shallow o (reach budget + 8 * budget + 2)) :
    e.Shallow o (reach (budget + 1)) := by
  rw [reach_succ]
  exact (Expr.shallow_of_children hpipe h).mono (by omega)

theorem shallow_branch (inBlock : Bool) :
    Gives (fun x => ∀ e ∈ [x.1.condition, x.1.result],
      e.Shallow o (reach budget + 8 * budget + 2)) (branch o primary budget inBlock) := by
  refine .after fun _ => Yields.bind (shallow_expression hp budget) fun condition hcondition =>
    .after fun found => ?_
  cases found with
  | none => exact .fail
  | some inBlock =>
    refine .after fun _ => Yields.bind (shallow_result hp budget) fun value hvalue =>
      .pure fun e he => ?_
    simp only [List.mem_cons, List.not_mem_nil, or_false] at he
    rcases he with rfl | rfl
    · exact hcondition
    · exact hvalue

theorem shallow_ifElse : Gives (Expr.Shallow o (reach (budget + 1))) (ifElse o primary budget) := by
  refine .after fun _ => Yields.bind (shallow_branch hp budget false) fun first hfirst => ?_
  refine Yields.bind (gives_clauses (Q := fun b : Branch => ∀ e ∈ [b.condition, b.result],
    e.Shallow o (reach budget + 8 * budget + 2)) (shallow_branch hp budget) _) fun others hothers => ?_
  refine .after fun found => ?_
  cases found with
  | none => exact .fail
  | some inBlock =>
    refine .after fun _ => Yields.bind (shallow_result hp budget) fun fallback hfallback =>
      .after fun _ => .pure (shallow_form budget (by simp) fun child hc => ?_)
    rcases List.mem_append.mp hc with hc | hc
    · obtain ⟨b, hb, hc⟩ := List.mem_flatMap.mp hc
      rcases List.mem_cons.mp hb with rfl | hb
      · exact hfirst child hc
      · exact hothers b hb child hc
    · obtain rfl := List.mem_singleton.mp hc
      exact hfallback

theorem shallow_guard :
    Gives (fun g => ∀ e ∈ g.toList, e.Shallow o (reach budget + 8 * budget + 2))
      (guard? o primary budget) := by
  refine .after fun _ => .ite (fun _ => ?_) fun _ => .pure fun e he => absurd he List.not_mem_nil
  refine Yields.bind (shallow_expression hp budget) fun e he => .pure fun x hx => ?_
  obtain rfl := List.mem_singleton.mp hx
  exact he

theorem shallow_matchClause :
    Gives (fun c => ∀ e ∈ c.guard.toList ++ [c.result],
      e.Shallow o (reach budget + 8 * budget + 2)) (matchClause o primary budget) := by
  refine .after fun _ => .after fun _ => Yields.bind (shallow_guard hp budget) fun guard hguard => ?_
  refine .after fun _ => Yields.bind (shallow_result hp budget) fun value hvalue =>
    .pure fun e he => ?_
  rcases List.mem_append.mp he with he | he
  · exact hguard e he
  · obtain rfl := List.mem_singleton.mp he
    exact hvalue

theorem shallow_matchOn : Gives (Expr.Shallow o (reach (budget + 1))) (matchOn o primary budget) := by
  refine .after fun _ => Yields.bind (shallow_expression hp budget) fun subject hsubject => ?_
  refine Yields.bind (gives_clauses (Q := fun c : Clause => ∀ e ∈ c.guard.toList ++ [c.result],
    e.Shallow o (reach budget + 8 * budget + 2))
    (fun _ => .bind (shallow_matchClause hp budget) fun c hc => .pure hc) _) fun found hfound => ?_
  dsimp only
  split
  · refine .after fun _ => .pure (shallow_form budget (by simp) fun child hc => ?_)
    rcases List.mem_cons.mp hc with rfl | hc
    · exact hsubject
    · obtain ⟨c, hm, hc⟩ := List.mem_flatMap.mp hc
      exact hfound c hm child hc
  · exact .fail

theorem shallow_catchClause :
    Gives (fun c => c.handler.Shallow o (reach budget + 8 * budget + 2))
      (catchClause o primary budget) := by
  refine .after fun _ => .after fun _ => .after fun _ => .ite (fun _ => .fail) fun _ => ?_
  exact .after fun _ => .bind (shallow_result hp budget) fun value hvalue => .pure hvalue

theorem shallow_tryCatch :
    Gives (Expr.Shallow o (reach (budget + 1))) (tryCatch o primary budget) := by
  refine .after fun _ => Yields.bind (shallow_result hp budget) fun value hvalue => ?_
  refine Yields.bind (gives_clauses (Q := fun c : Catch =>
    c.handler.Shallow o (reach budget + 8 * budget + 2))
    (fun _ => .bind (shallow_catchClause hp budget) fun c hc => .pure hc) _) fun found hfound => ?_
  dsimp only
  split
  · refine .after fun _ => .pure (shallow_form budget (by simp) fun child hc => ?_)
    rcases List.mem_cons.mp hc with rfl | hc
    · exact hvalue
    · obtain ⟨c, hm, rfl⟩ := List.mem_map.mp hc
      exact hfound c hm
  · exact .fail

theorem shallow_record : Gives (Expr.Shallow o (reach (budget + 1))) (record o primary budget) := by
  refine .after fun opened => Yields.bind (.many (Q := fun b : Binding =>
    b.value.Shallow o (reach budget + 8 * budget + 2)) ?_) fun fields hfields =>
    .after fun closed => .pure (shallow_form budget (by simp) fun child hc => ?_)
  · refine .after fun _ => .after fun _ => .after fun _ => .ite (fun _ => ?_) fun _ => .fail
    refine .after fun key => .after fun _ => ?_
    exact .bind (shallow_expression hp budget) fun value hvalue => .pure hvalue
  · obtain ⟨b, hb, rfl⟩ := List.mem_map.mp hc
    exact hfields b hb

theorem shallow_function :
    Gives (Expr.Shallow o (reach (budget + 1))) (function o primary budget) := by
  refine .after fun opened => .after fun params => .after fun _ =>
    Yields.bind (shallow_expression hp budget) fun value hvalue => .after fun _ =>
    .after fun closed => .pure (shallow_form budget (by simp) fun child hc => ?_)
  obtain rfl := List.mem_singleton.mp hc
  exact hvalue

theorem shallow_list : Gives (Expr.Shallow o (reach (budget + 1))) (list o primary budget) := by
  refine .after fun opened => .after fun _ => .ite (fun _ => .fail) fun _ => ?_
  refine Yields.bind (shallow_stageArguments hp budget) fun items hitems => .after fun _ => ?_
  refine .ite (fun _ => .after fun closed => .pure ?_) fun _ => .after fun _ => .after fun _ => .fail
  exact shallow_form budget (by simp) fun child hc => (hitems child hc).mono (by omega)

theorem shallow_parenthesized :
    Gives (Expr.Shallow o (reach (budget + 1))) (parenthesized o primary budget) := by
  refine .after fun opened => Yields.bind (shallow_expression hp budget) fun e he => ?_
  refine .after fun _ => .after fun closed => .pure ?_
  rw [reach_succ]
  exact (he.withSpan _).mono (by omega)

theorem shallow_interpolation {tokens : List Token} {e : Expr}
    (he : interpolation o primary budget tokens = .ok e) :
    e.Shallow o (reach budget + 8 * budget + 2) := by
  unfold interpolation at he
  cases hrun : expression o primary budget (.ofTokens tokens) with
  | error d c => rw [hrun] at he; cases he
  | ok x c =>
    rw [hrun] at he
    dsimp only at he
    split at he
    · cases he
      exact (shallow_expression hp budget).of_eq_ok hrun
    · cases he

theorem shallow_segments (parts : List StringPart) :
    Gives (fun found => ∀ e ∈ found.flatMap Segment.exprs,
      e.Shallow o (reach budget + 8 * budget + 2)) (segments o primary budget parts) := by
  induction parts with
  | nil => exact .pure fun e he => absurd he List.not_mem_nil
  | cons part rest ih =>
    cases part with
    | literal text => exact .bind ih fun more hmore => .pure hmore
    | hole tokens span =>
      refine Yields.bind (Q := fun e => e.Shallow o (reach budget + 8 * budget + 2))
        (.of_forall fun c e c' he => ?_) fun e he => Yields.bind ih fun more hmore =>
        .pure fun x hx => ?_
      · unfold hole at he
        split at he
        · next hok =>
          cases he
          exact shallow_interpolation hp budget hok
        · cases he
          exact Expr.shallow_leaf (by simp) rfl (by omega)
        · cases he
      · rcases List.mem_cons.mp hx with rfl | hx
        · exact he
        · exact hmore x hx

theorem shallow_primaryInside :
    Gives (Expr.Shallow o (reach (budget + 1))) (primaryInside o primary budget) := by
  have leaf : ∀ e : Expr, (∀ s seed stages, e ≠ .pipeline s seed stages) → e.children = [] →
      e.Shallow o (reach (budget + 1)) := by
    intro e hpipe hleaf
    exact Expr.shallow_leaf hpipe hleaf (by rw [reach_succ]; omega)
  refine .after fun t => ?_
  split
  · exact .after fun span => .pure (leaf _ (by simp) rfl)
  · exact .after fun span => .pure (leaf _ (by simp) rfl)
  · exact .after fun span => .bind (shallow_segments hp budget _) fun found hfound =>
      .pure (shallow_form budget (by simp) hfound)
  · refine .after fun _ => .ite (fun _ => ?_) fun _ => .fail
    exact .after fun x => .pure (leaf _ (by simp) rfl)
  · exact .after fun span => .pure (leaf _ (by simp) rfl)
  · exact .after fun span => .pure (leaf _ (by simp) rfl)
  · exact .after fun span => .pure (leaf _ (by simp) rfl)
  · exact shallow_letIn hp budget
  · exact shallow_ifElse hp budget
  · exact shallow_matchOn hp budget
  · exact shallow_tryCatch hp budget
  · exact shallow_record hp budget
  · exact .after fun _ => .ite (fun _ => shallow_function hp budget) fun _ => shallow_list hp budget
  · exact shallow_parenthesized hp budget
  · exact .after fun first => .after fun path => .pure (leaf _ (by simp) rfl)
  · exact .fail

end

theorem shallow_primary (o : ParseOptions) (levels : Nat) :
    ∀ budget, Gives (Expr.Shallow o (reach budget)) (primary o levels budget) := by
  induction levels with
  | zero => exact fun budget => .fail
  | succ levels ih =>
    intro budget
    cases budget with
    | zero => exact .fail
    | succ budget => exact shallow_primaryInside ih budget

theorem shallow_statementLine (o : ParseOptions) :
    Gives (fun s => ∀ e, s.value? = some e → e.Shallow o (reach (o.maxDepth + 1)))
      (statementLine o) := by
  have hp := shallow_primary o o.maxDepth
  refine Yields.bind (.after fun _ => .ite (fun _ => ?_) fun _ => ?_) fun s hs =>
    .after fun _ => .pure hs
  · refine Yields.bind (shallow_definition hp o.maxDepth) fun d hd => .pure fun e he => ?_
    obtain rfl := Option.some.inj he
    exact hd.mono (by rw [reach_succ]; omega)
  · refine Yields.bind (shallow_expression hp o.maxDepth) fun x hx => .pure fun e he => ?_
    obtain rfl := Option.some.inj he
    exact hx.mono (by rw [reach_succ]; omega)

theorem shallow_statementsUpTo (o : ParseOptions) (fuel : Nat) (c : Cursor) :
    ∀ s ∈ (statementsUpTo o fuel c).1, ∀ e, s.value? = some e →
      e.Shallow o (reach (o.maxDepth + 1)) := by
  induction fuel generalizing c with
  | zero => exact fun s hs => absurd hs List.not_mem_nil
  | succ fuel ih =>
    intro s hs
    unfold statementsUpTo at hs
    dsimp only at hs
    split at hs
    · exact absurd hs List.not_mem_nil
    split at hs
    · next first after hline =>
      rcases List.mem_cons.mp hs with rfl | hs
      · exact (shallow_statementLine o).of_eq_ok hline
      · exact ih after s hs
    · exact absurd hs List.not_mem_nil
    · rcases List.mem_cons.mp hs with rfl | hs
      · exact fun e he => by cases he
      · exact ih _ s hs

end Parse

theorem Program.mem_values_desugar {o : ParseOptions} {p : Program} {e : Expr}
    (he : e ∈ (p.desugar o).values) : ∃ x ∈ p.values, e = x.desugar o := by
  unfold Program.desugar at he
  unfold Expr.desugar
  split at he
  · next hr =>
    obtain ⟨s, hs, he⟩ := List.mem_filterMap.mp he
    obtain ⟨t, ht, rfl⟩ := List.mem_map.mp hs
    cases t with
    | error => cases he
    | assign s name value =>
      obtain rfl := Option.some.inj he
      exact ⟨value, List.mem_filterMap.mpr ⟨_, ht, rfl⟩, by rw [if_pos hr]⟩
    | expr s value =>
      obtain rfl := Option.some.inj he
      exact ⟨value, List.mem_filterMap.mpr ⟨_, ht, rfl⟩, by rw [if_pos hr]⟩
  · next hr => exact ⟨e, he, by rw [if_neg hr]⟩

/-- A source with a tree that deep. -/
theorem exists_chain_of_not_within {o : ParseOptions} {source : String} {n : Nat}
    (hread : (Scan.lex source).isOk = true)
    (hdeep : ∃ e ∈ ((parse o ((Scan.lex source).toOption.getD [])).toOption.map Program.values).getD [],
      ¬e.Within n) :
    ∃ tokens p, Scan.lex source = .ok tokens ∧ parse o tokens = .ok p ∧
      ∃ e ∈ p.values, ∃ es, Expr.Chain (e :: es) ∧ n < (e :: es).length := by
  cases hlex : Scan.lex source with
  | error errors =>
    rw [hlex] at hread
    cases hread
  | ok tokens =>
    obtain ⟨e, he, hdeep⟩ := hdeep
    rw [hlex] at he
    change e ∈ ((parse o tokens).toOption.map Program.values).getD [] at he
    cases hparse : parse o tokens with
    | error errors =>
      rw [hparse] at he
      cases he
    | ok p =>
      rw [hparse] at he
      rw [Expr.within_iff_chains] at hdeep
      push Not at hdeep
      obtain ⟨es, hes, hlong⟩ := hdeep
      exact ⟨tokens, p, rfl, hparse, e, he, es, hes, hlong⟩

/-- The limit bounds the depth of the tree by its square: no chain of expressions in it, each a part of
the one before, is longer than that. -/
theorem chain_length_le_of_parse {o : ParseOptions} {tokens : List Token} {p : Program}
    (h : parse o tokens = .ok p) {e : Expr} (he : e ∈ p.values) {es : List Expr}
    (hes : Expr.Chain (e :: es)) : (e :: es).length ≤ 4 * (o.maxDepth + 1) ^ 2 := by
  obtain ⟨-, -, rfl⟩ := parse_eq_ok.mp h
  obtain ⟨x, hx, rfl⟩ := Program.mem_values_desugar he
  obtain ⟨s, hs, hvalue⟩ := List.mem_filterMap.mp hx
  rw [Parse.run_statements] at hs
  exact Expr.within_iff_chains.mp (Parse.shallow_statementsUpTo o _ _ s hs x hvalue) es hes

/-- Each of the two stages takes a level of three, and the second is around the first. -/
theorem chain_length_le_of_parse_stages : ∃ tokens p,
    Scan.lex "x |> f |> g" = .ok tokens ∧
      parse { maxDepth := 3, resolvePipelines := true } tokens = .ok p ∧
      ∃ e ∈ p.values, ∃ es, Expr.Chain (e :: es) ∧ 2 < (e :: es).length ∧
        (e :: es).length ≤ 4 * (3 + 1) ^ 2 := by
  have hdeep : ∃ tokens p, Scan.lex "x |> f |> g" = .ok tokens ∧
      parse { maxDepth := 3, resolvePipelines := true } tokens = .ok p ∧
      ∃ e ∈ p.values, ∃ es, Expr.Chain (e :: es) ∧ 2 < (e :: es).length :=
    exists_chain_of_not_within (by decide +kernel) (by decide +kernel)
  obtain ⟨tokens, p, hlex, hparse, e, he, es, hes, hlong⟩ := hdeep
  exact ⟨tokens, p, hlex, hparse, e, he, es, hes, hlong, chain_length_le_of_parse hparse he hes⟩

/-- The levels of each field path are free again for the bracket around it, so the depth is not bounded
by four times the limit. -/
theorem nested_paths_outgrow : ∃ tokens p,
    Scan.lex "[[[[[[x.a].a.a].a.a.a].a.a.a.a].a.a.a.a.a].a.a.a.a.a.a].a.a.a.a.a.a.a" = .ok tokens ∧
      parse { maxDepth := 7 } tokens = .ok p ∧
      ∃ e ∈ p.values, ∃ es, Expr.Chain (e :: es) ∧ 4 * (7 + 1) < (e :: es).length :=
  exists_chain_of_not_within (by decide +kernel) (by decide +kernel)

end PipeLang
