import PipeLang.Proofs.Parse.SeamLayout

/-! Patterns, applications, pipelines and bracketed forms on either side of a seam. A form that ends with a
token of its own ends in the common lines; one that ends with an expression may end with a block. -/

namespace PipeLang.Seam

open Parse

variable {S : Seam}

/-! ## Patterns -/

/-- A sign and a number that touches it. -/
theorem meets_negativeNumber :
    S.Meets (fun c d => S.Inside c d ∧ c.atNegative = true) (fun _ => S.Moved) negativeNumber := by
  rintro c d ⟨h, hneg⟩
  simp only [Cursor.atNegative, Bool.and_eq_true] at hneg
  obtain ⟨⟨hminus, hnumber⟩, -⟩ := hneg
  have hk : c.kind ≠ .newline := fun hk => by rw [Cursor.atOperator, hk] at hminus; cases hminus
  have hnext := h.next hk
  have hsecond : c.next.kind.isNumber = true := by
    obtain ⟨t, ts, hrest⟩ := (Anywhere.ended (.inl h)).1.exists_cons
    rwa [next_eq_forward h.running, ← Cursor.kindAt_one hrest]
  unfold negativeNumber
  rw [skip_bind, skip_bind, test_bind, test_bind, skip_bind, skip_bind, h.peek, hnext.inside.peek]
  have hlast := hnext.inside.next fun hk => by rw [hk] at hsecond; cases hsecond
  cases d.next.peek.kind <;> exact .ok hlast

theorem meets_constant (value : Literal) :
    S.Meets (fun c d => S.Moved c d ∧ c.kind ≠ .newline) (fun _ => S.Moved) (literal?.constant value) :=
  (meets_single _).mono (fun _ _ h => ⟨h.1.inside, h.2⟩) fun _ _ _ h => h

theorem meets_literal : S.Meets S.Moved (fun _ => S.Moved) literal? := by
  intro c d h
  have constant : ∀ value, c.peek.kind ≠ .newline →
      S.Outcome (fun _ => S.Moved) (literal?.constant value c) (literal?.constant value d) :=
    fun value hk => meets_constant value c d ⟨h, hk⟩
  unfold literal?
  rw [test_bind, test_bind, ← h.inside.peek]
  cases hk : c.peek.kind with
  | number value => exact constant _ (by simp [hk])
  | text parts =>
    dsimp only
    cases plainText parts with
    | ok text => exact constant _ (by simp [hk])
    | error span => exact .error h.inside
  | keyword k => cases k <;> first | exact constant _ (by simp [hk]) | exact .ok h
  | operator op =>
    cases op with
    | minus =>
      have signed : S.Meets S.Moved (fun _ => S.Moved) (do
          if ← test Cursor.atNegative then
            let read ← negativeNumber
            pure (some (Literal.number read.1, read.2))
          else pure none) := by
        refine .choose (fun _ _ h => h.inside.atNegative) ?_ (.pure fun _ _ h => h.1)
        refine Meets.bind ?_ fun _ => .pure fun _ _ h => h
        exact meets_negativeNumber.mono (fun _ _ h => ⟨h.1.inside, h.2⟩) fun _ _ _ h => h
      exact signed c d h
    | _ => exact .ok h
  | _ => exact .ok h

theorem meets_fieldUse : S.Meets S.Moved (fun _ => S.Moved) fieldUse := by
  have other : S.Meets S.Moved (fun _ => S.Moved) comparison := by
    refine meets_literal.bind fun found => ?_
    cases found with
    | some value => exact .pure fun _ _ h => h
    | none => exact (meets_unexpected _ _).mono (fun _ _ h => h.anywhere) fun _ _ _ h => h
  refine (meets_accept_moved rfl).bind fun ignored => ?_
  cases ignored with
  | true => exact .pure fun _ _ h => h
  | false =>
    intro c d h
    simp only [Bool.false_eq_true, if_false]
    rw [test_bind, test_bind, ← h.inside.peek]
    cases hk : c.peek.kind with
    | ident name =>
      exact meets_single _ c d ⟨h.inside, by simp [Cursor.kind, hk]⟩
    | _ => exact other c d h

theorem meets_patternField (opened : Span) (fields : List PatternField) :
    S.Meets S.Moved (fun _ => S.Moved) (patternField opened fields) := by
  have hany : ∀ c d, S.Moved c d → S.Anywhere c d := fun _ _ h => h.anywhere
  refine (meets_stillOpen hany _ _ _).bind fun _ => (meets_noComma hany _ _ _).bind fun _ => ?_
  refine .choose (fun c d h => by rw [Cursor.atIdent, Cursor.atIdent, h.kind]) ?_
    ((meets_unexpected _ _).mono (fun _ _ h => h.1.anywhere) fun _ _ _ h => h)
  refine ((meets_identifier _).mono (fun _ _ h => h.1.anywhere) fun _ _ _ h => h).bind fun key => ?_
  cases fields.find? fun f => f.key.text == key.text with
  | some first => exact fun _ _ h => .error h.inside
  | none =>
    refine (meets_accept_moved rfl).bind fun colon => ?_
    cases colon with
    | true => exact meets_fieldUse.bind fun _ => .pure fun _ _ h => h
    | false => exact .pure fun _ _ h => h

theorem meets_recordPattern :
    S.Meets (fun c d => S.Inside c d ∧ c.kind ≠ .newline) (fun _ => S.Moved) recordPattern := by
  refine .skip fun opened => ?_
  refine Meets.bind (Q := fun _ c d => S.Inside c d ∧ c.kind ≠ .newline) ?_ fun fields =>
    .skip fun _ => .pure fun _ _ h => h
  refine meets_rounds (R := fun _ => S.Moved) (fun _ _ _ h => h.anywhere) (moves_patternRound opened)
    (fun fields => ?_) []
  refine .choose (fun c d h => by rw [Cursor.atPunctuation, Cursor.atPunctuation, h.kind]) ?_ ?_
  · refine .pure fun c d h => ⟨h.1.inside, fun hk => ?_⟩
    have hbrace := h.2
    rw [Cursor.atPunctuation, hk] at hbrace
    cases hbrace
  · refine Meets.bind ?_ fun _ => .pure fun _ _ h => h
    exact (meets_patternField opened fields).mono (fun _ _ h => h.1) fun _ _ _ h => h

theorem meets_patternInside : S.Meets S.Moved (fun _ => S.Moved) patternInside := by
  have other : S.Meets S.Moved (fun _ => S.Moved) literalPattern := by
    refine meets_literal.bind fun found => ?_
    cases found with
    | some value => exact .pure fun _ _ h => h
    | none => exact (meets_unexpected _ _).mono (fun _ _ h => h.anywhere) fun _ _ _ h => h
  intro c d h
  have single : ∀ f : Span → Pattern, c.kind ≠ .newline →
      S.Outcome (fun _ => S.Moved) ((do let span ← Parse.skip; pure (f span)) c)
        ((do let span ← Parse.skip; pure (f span)) d) :=
    fun f hk => meets_single f c d ⟨h.inside, hk⟩
  unfold patternInside
  rw [test_bind, test_bind, ← h.inside.peek]
  cases hk : c.peek.kind with
  | ident name => exact single _ (by simp [Cursor.kind, hk])
  | keyword k =>
    cases k with
    | otherwise_ => exact single _ (by simp [Cursor.kind, hk])
    | _ => exact other c d h
  | punctuation p =>
    cases p with
    | underscore => exact single _ (by simp [Cursor.kind, hk])
    | lbrace => exact meets_recordPattern c d ⟨h.inside, by simp [Cursor.kind, hk]⟩
    | _ => exact other c d h
  | _ => exact other c d h

theorem meets_pattern (o : ParseOptions) (b : Nat) :
    S.Meets S.Moved (fun _ => S.Moved) (pattern o b) := by
  unfold pattern
  split
  · exact (meets_tooDeep o).mono (fun _ _ h => h.anywhere) fun _ _ _ h => h
  · exact meets_patternInside

/-! ## Applications and binary expressions -/

theorem not_line_of_atAccess {c : Cursor} (h : c.atAccess = true) : c.kind ≠ .newline := fun hk => by
  unfold Cursor.atAccess Cursor.atPunctuation at h
  rw [hk] at h
  cases h

theorem meets_accesses_moved (o : ParseOptions) (b : Nat) (e : Expr) :
    S.Meets S.Moved (fun _ => S.Moved) (accesses o b e) := by
  induction b generalizing e with
  | zero =>
    refine .choose (fun _ _ h => h.atAccess) ?_ (.pure fun _ _ h => h.1)
    exact (meets_tooDeep o).mono (fun _ _ h => h.1.anywhere) fun _ _ _ h => h
  | succ b ih =>
    refine .choose (fun _ _ h => h.atAccess) ?_ (.pure fun _ _ h => h.1)
    refine (Meets.skip fun _ => ?_).mono (fun _ _ h => ⟨h.1.inside, not_line_of_atAccess h.2⟩) fun _ _ _ h => h
    refine ((meets_identifier _).mono (fun _ _ h => h.anywhere) fun _ _ _ h => h).bind fun field => ?_
    exact ih _

theorem meets_accesses (o : ParseOptions) (b : Nat) (e : Expr) :
    S.Meets S.Joined (fun _ => S.Joined) (accesses o b e) := by
  rintro c d (h | h)
  · exact (meets_accesses_moved o b e c d h).mono fun _ _ _ h => h.joined
  · obtain ⟨n, -, hpast⟩ := h.past
    obtain ⟨hc, hd⟩ := hpast.not_access
    cases b <;> unfold accesses <;> rw [test_bind, test_bind, hc, hd] <;> exact .ok (.inr h)

/-- A rule for primary expressions: only a construct may end with a block. -/
structure MeetsPrimary (S : Seam) (p : Primary) : Prop where
  plain : ∀ b, S.Meets (fun c d => S.Inside c d ∧ c.atConstruct = false) (fun _ => S.Moved) (p b)
  any : ∀ b, S.Meets S.Inside (fun _ => S.Joined) (p b)

/-- After an expression: if that has ended with a block, then `X`. -/
def Ending (S : Seam) (X : Prop) (c d : Cursor) : Prop := S.Moved c d ∨ S.Closed c d ∧ X

section

variable {c d : Cursor} {X : Prop}

theorem Ending.joined (h : S.Ending X c d) : S.Joined c d := h.imp_right And.left

theorem Inside.atConstruct (h : S.Inside c d) : c.atConstruct = d.atConstruct := by
  unfold Cursor.atConstruct
  rw [h.kind]

theorem not_construct_of_atArgument (h : c.atArgument = true) : c.atConstruct = false := by
  unfold Cursor.atArgument at h
  unfold Cursor.atConstruct
  cases hk : c.kind with
  | keyword k =>
    rw [hk] at h
    cases k <;> first | rfl | cases h
  | _ => rfl

end

section

variable (o : ParseOptions) {p : Primary} (hm : ∀ b, Moves (fun _ => 1) (p b))

section

variable (hp : S.MeetsPrimary p) (b : Nat)

include hp

theorem meets_operand : S.Meets S.Inside (fun _ => S.Joined) (operand o p b) :=
  (hp.any b).bind fun _ => meets_accesses o b _

theorem meets_operand_plain :
    S.Meets (fun c d => S.Inside c d ∧ c.atConstruct = false) (fun _ => S.Moved) (operand o p b) :=
  (hp.plain b).bind fun _ => meets_accesses_moved o b _

include hm

theorem meets_arguments : S.Meets S.Moved (fun _ => S.Moved) (many Cursor.atArgument (operand o p b)) := by
  refine (meets_many (fun _ _ h => h.anywhere) (moves_operand hm b) (fun _ _ h => h.atArgument) ?_).mono
    (fun _ _ h => h) fun _ _ _ h => h.1
  exact (meets_operand_plain o hp b).mono
    (fun _ _ h => ⟨h.1.inside, not_construct_of_atArgument h.2⟩) fun _ _ _ h => h

theorem meets_application_plain :
    S.Meets (fun c d => S.Inside c d ∧ c.atConstruct = false) (fun _ => S.Moved) (application o p b) := by
  rintro c d ⟨h, hplain⟩
  unfold application
  rw [test_bind, test_bind, ← h.atConstruct, hplain]
  refine (meets_operand_plain o hp b c d ⟨h, hplain⟩).bind fun head c' d' _ h' => ?_
  refine (meets_arguments o hm hp b c' d' h').bind fun args c'' d'' _ h'' => ?_
  cases args.getLast? <;> exact .ok h''

theorem meets_application : S.Meets S.Inside (fun _ => S.Joined) (application o p b) := by
  intro c d h
  cases hconstruct : c.atConstruct with
  | false => exact (meets_application_plain o hm hp b c d ⟨h, hconstruct⟩).mono fun _ _ _ h => h.joined
  | true =>
    unfold application
    rw [test_bind, test_bind, ← h.atConstruct, hconstruct]
    exact (meets_operand o hp b c d h).bind fun _ _ _ _ h => .ok h

/-- The right operand of an operator. -/
theorem meets_rightOperand {X : Prop} (hX : OpensAfterOperator S.line → X) (least : Nat) {c d : Cursor}
    (h : S.Moved c d) (hop : (c.operator? least).isSome = true) :
    S.Outcome (fun _ => S.Ending X) (application o p b c.next) (application o p b d.next) := by
  obtain ⟨m, r, hm', h⟩ := h
  obtain ⟨t, r, rfl⟩ := List.exists_cons_of_ne_nil h.more
  have hbinary : t.kind.binary?.isSome = true := by
    unfold Cursor.operator? at hop
    rw [h.kind.1] at hop
    cases hb : t.kind.binary? with
    | some op => rfl
    | none =>
      rw [hb] at hop
      cases hop
  have hnext := h.next (h.more_of_kind fun hk => by rw [hk] at hbinary; cases hbinary)
  have hinside : S.Inside c.next d.next := ⟨_, _, hnext⟩
  cases hconstruct : c.next.atConstruct with
  | false =>
    exact (meets_application_plain o hm hp b _ _ ⟨hinside, hconstruct⟩).mono fun _ _ _ h => .inl h
  | true =>
    obtain ⟨u, r, rfl⟩ := List.exists_cons_of_ne_nil hnext.more
    have hkind : u.kind.isConstruct = true := by
      unfold Cursor.atConstruct at hconstruct
      rw [hnext.kind.1] at hconstruct
      exact hconstruct
    have hopens : OpensAfterOperator S.line := ⟨m.reverse, t, u, r, h.line.symm, hbinary, hkind⟩
    exact (meets_application o hm hp b _ _ hinside).mono fun _ _ _ h => h.imp_right (⟨·, hX hopens⟩)

theorem meets_chain {X : Prop} (hX : OpensAfterOperator S.line → X) (left : Expr) (least : Nat) :
    S.Meets (S.Ending X) (fun _ => S.Ending X) (chain o p b left least) := by
  induction b generalizing left least with
  | zero =>
    rintro c d (h | h)
    · have hop : c.operator? least = d.operator? least := by
        unfold Cursor.operator?
        rw [h.kind]
      unfold chain
      rw [test_bind, test_bind, ← hop]
      cases c.operator? least with
      | some op => exact meets_tooDeep o c d h.anywhere
      | none => exact .ok (.inl h)
    · obtain ⟨hc, hd⟩ := h.1.operator? least
      unfold chain
      rw [test_bind, test_bind, hc, hd]
      exact .ok (.inr h)
  | succ b ih =>
    rintro c d (h | h)
    · have hop : c.operator? least = d.operator? least := by
        unfold Cursor.operator?
        rw [h.kind]
      unfold chain
      rw [test_bind, test_bind, ← hop]
      cases hsome : c.operator? least with
      | none => exact .ok (.inl h)
      | some op =>
        dsimp only
        rw [skip_bind, skip_bind, ← h.inside.peek]
        refine (meets_rightOperand o hm hp b hX least h (by rw [hsome]; rfl)).bind
          fun first c' d' _ h' => ?_
        exact (ih first _ c' d' h').bind fun right c'' d'' _ h'' => ih _ least c'' d'' h''
    · obtain ⟨hc, hd⟩ := h.1.operator? least
      unfold chain
      rw [test_bind, test_bind, hc, hd]
      exact .ok (.inr h)

end

end

end PipeLang.Seam
