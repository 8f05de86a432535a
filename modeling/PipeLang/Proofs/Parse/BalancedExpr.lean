import PipeLang.Proofs.Parse.Balanced

/-! Every rule of the grammar leaves the brackets as they were: given that a primary expression does, so
does every rule that reads one, and the recursion of the grammar closes by induction on its levels. -/

namespace PipeLang.Parse

variable {α β : Type}

theorem not_bracket_of_keyword {k : Keyword} {c : Cursor} (h : c.atKeyword k = true) :
    c.kind.isBracket = false := by
  rw [TokenKind.isKeyword_iff.mp h]
  rfl

theorem not_bracket_of_operator {op : Operator} {c : Cursor} (h : c.atOperator op = true) :
    c.kind.isBracket = false := by
  rw [TokenKind.isOperator_iff.mp h]
  rfl

theorem not_bracket_of_punctuation {p : Punctuation}
    (hp : (TokenKind.punctuation p).isBracket = false) {c : Cursor}
    (h : c.atPunctuation p = true) : c.kind.isBracket = false := by
  rw [TokenKind.isPunctuation_iff.mp h]
  exact hp

theorem not_bracket_of_layout {c : Cursor} (h : c.kind.isLayout = true) :
    c.kind.isBracket = false := by
  cases hk : c.kind <;> rw [hk] at h <;> first | rfl | cases h

theorem not_bracket_of_newline {c : Cursor} (h : c.atNewline = true) :
    c.kind.isBracket = false := by
  refine not_bracket_of_layout ?_
  unfold Cursor.atNewline at h
  cases hk : c.kind <;> rw [hk] at h <;> first | rfl | cases h

theorem not_bracket_of_dedent {c : Cursor} (h : c.atDedent = true) : c.kind.isBracket = false := by
  refine not_bracket_of_layout ?_
  unfold Cursor.atDedent at h
  cases hk : c.kind <;> rw [hk] at h <;> first | rfl | cases h

theorem not_bracket_of_access {c : Cursor} (h : c.atAccess = true) : c.kind.isBracket = false := by
  simp only [Cursor.atAccess, Bool.and_eq_true] at h
  exact not_bracket_of_punctuation rfl h.1.1.1

theorem not_bracket_of_operator? {least : Nat} {op : Operator} {c : Cursor}
    (h : c.operator? least = some op) : c.kind.isBracket = false := by
  unfold Cursor.operator? at h
  cases hk : c.kind <;> rw [hk] at h <;> first | rfl | cases h

theorem balanced_identifier (place : Place) : Balanced (identifier place) := by
  intro c bs _ hc a c' he
  obtain ⟨hk, _, rfl⟩ := identifier_eq_ok he
  exact hc.next (by rw [hk]; rfl)

theorem balanced_expectPunctuation {p : Punctuation}
    (hp : (TokenKind.punctuation p).isBracket = false) (place : Place) :
    Balanced (expectPunctuation p place) :=
  .test_bind fun _ => .ite (fun h => .skip (not_bracket_of_punctuation hp h)) fun _ => .fail

theorem balanced_expectOperator (op : Operator) (place : Place) :
    Balanced (expectOperator op place) :=
  .test_bind fun _ => .ite (fun h => .skip (not_bracket_of_operator h)) fun _ => .fail

theorem balanced_stillOpen (form : Form) (opened : Span) (expected : List Expected) :
    Balanced (stillOpen form opened expected) := by
  intro c bs _ hc a c' he
  unfold stillOpen at he
  split at he
  · cases he
  · cases he
    exact hc

theorem balanced_noComma (form : Form) (sample : String) (expected : List Expected) :
    Balanced (noComma form sample expected) := by
  intro c bs _ hc a c' he
  unfold noComma at he
  split at he
  · cases he
  · cases he
    exact hc

theorem opens_block {c : Cursor} {ts : List Token} {bs : List Punctuation} {p : TokenKind → Bool}
    (hc : c.Opens ts bs) (hb : c.atBlock p = true) : c.forward.forward.Opens ts bs := by
  simp only [Cursor.atBlock, Bool.and_eq_true] at hb
  obtain ⟨⟨hline, hindent⟩, _⟩ := hb
  have hnext : c.forward.Opens ts bs := by
    refine hc.forward (fun he => ?_) (bracketsAfter_of_not_bracket (not_bracket_of_newline hline) bs)
    rw [Cursor.atNewline, he] at hline
    cases hline
  obtain ⟨t, ts, hr⟩ := hc.ended.exists_cons
  rw [Cursor.kindAt_one hr] at hindent
  have hk : c.forward.kind = .indent := by
    cases hk : c.forward.kind <;> rw [hk] at hindent <;> first | rfl | cases hindent
  exact hnext.forward (by rw [hk]; simp) (by rw [hk]; rfl)

theorem balanced_openBlock (p : TokenKind → Bool) : Balanced (openBlock p) := by
  intro c bs _ hc a c' he
  unfold openBlock at he
  split at he
  · next hb =>
    cases he
    exact opens_block hc hb
  · cases he
    exact hc

theorem balanced_acceptNewline : Balanced (accept Cursor.atNewline) :=
  .accept fun _ => not_bracket_of_newline

theorem balanced_acceptDedent : Balanced (accept Cursor.atDedent) :=
  .accept fun _ => not_bracket_of_dedent

theorem balanced_acceptPunctuation {p : Punctuation}
    (hp : (TokenKind.punctuation p).isBracket = false) : Balanced (accept (·.atPunctuation p)) :=
  .accept fun _ => not_bracket_of_punctuation hp

theorem balanced_closeBlock (place : Place) : Balanced (closeBlock place) :=
  balanced_acceptNewline.bind fun _ =>
    .skipIf (fun _ => not_bracket_of_dedent) (fun _ => .pure _) .unexpected

theorem balanced_closeBlockIf (inBlock : Bool) (place : Place) :
    Balanced (closeBlockIf inBlock place) := by
  unfold closeBlockIf
  exact .ite (fun _ => balanced_closeBlock place) fun _ => .pure _

/-- The clause that is found starts at the cursor. -/
theorem clauseAhead_kind {c c' : Cursor} {inBlock block : Bool} {p : TokenKind → Bool}
    (hc : c.Ended) (he : clauseAhead inBlock p c = .ok (some block) c') : p c'.kind = true := by
  unfold clauseAhead at he
  obtain ⟨t, ts, hr⟩ := hc.exists_cons
  split at he
  · next hp => cases he; exact hp
  split at he
  · split at he
    · next hp =>
      cases he
      simp only [Bool.and_eq_true] at hp
      have hend : c.kind ≠ .eof := fun hk => by
        rw [Cursor.atNewline, hk] at hp
        cases hp.1
      rw [next_eq_forward hend, ← Cursor.kindAt_one hr]
      exact hp.2
    · cases he
  split at he
  · next hb =>
    cases he
    simp only [Cursor.atBlock, Bool.and_eq_true] at hb
    obtain ⟨⟨hline, hindent⟩, hp⟩ := hb
    have hforward : c.forward.Ended := by
      refine (hc.forward fun he => ?_).1
      rw [Cursor.atNewline, he] at hline
      cases hline
    obtain ⟨u, us, hr'⟩ := hforward.exists_cons
    have htwo : c.kindAt 2 = c.forward.forward.kind := by
      unfold Cursor.kindAt
      rw [Cursor.peekAt_succ hr, Cursor.peekAt_one hr']
      rfl
    rwa [← htwo]
  · cases he

theorem balanced_clauseAhead (inBlock : Bool) (p : TokenKind → Bool) :
    Balanced (clauseAhead inBlock p) := by
  intro c bs _ hc a c' he
  unfold clauseAhead at he
  split at he
  · cases he
    exact hc
  split at he
  · split at he
    · next hp =>
      cases he
      simp only [Bool.and_eq_true] at hp
      exact hc.next (bracketsAfter_of_not_bracket (not_bracket_of_newline hp.1) bs)
    · cases he
      exact hc
  split at he
  · next hb =>
    cases he
    exact opens_block hc hb
  · cases he
    exact hc

/-- What follows a search for a clause, the clause being at the cursor if there is one. -/
theorem balanced_clauseAhead_bind {inBlock : Bool} {p : TokenKind → Bool}
    {f : Option Bool → Parse β} (hsome : ∀ block c, p c.kind = true → BalancedFrom c (f (some block)))
    (hnone : Balanced (f none)) : Balanced (clauseAhead inBlock p >>= f) := by
  intro c bs ts hc b c'' he
  obtain ⟨found, c', hfound, he⟩ := bind_eq_ok.mp he
  have hc' := balanced_clauseAhead inBlock p c bs ts hc found c' hfound
  cases found with
  | none => exact hnone c' bs ts hc' b c'' he
  | some block => exact hsome block c' (clauseAhead_kind hc.ended hfound) bs ts hc' b c'' he

theorem balanced_clauses {p : TokenKind → Bool} {clause : Bool → Parse (α × Bool)}
    (h : ∀ inBlock c, p c.kind = true → BalancedFrom c (clause inBlock)) (inBlock : Bool) :
    Balanced (clauses p clause inBlock) := by
  refine .bind (.rounds (fun s => ?_) _) fun _ => .pure _
  refine balanced_clauseAhead_bind (fun block c hp => ?_) (.pure _)
  exact (h block c hp).bind fun _ => .pure _

theorem balanced_body {expression : Parse Expr} (h : Balanced expression) :
    Balanced (body expression) :=
  (balanced_openBlock _).bind fun _ =>
    .ite (fun _ => h.bind fun _ => (balanced_closeBlock _).bind fun _ => .pure _) fun _ => h

/-! ## Patterns -/

/-- A sign and its number. -/
theorem balanced_negativeNumber {c : Cursor} (hn : c.atNegative = true) :
    BalancedFrom c negativeNumber := by
  intro bs ts hc a c' he
  simp only [Cursor.atNegative, Bool.and_eq_true] at hn
  obtain ⟨⟨hminus, hnumber⟩, _⟩ := hn
  have hnext : c.next.Opens ts bs :=
    hc.next (bracketsAfter_of_not_bracket (not_bracket_of_operator hminus) bs)
  have hkind : c.next.kind.isBracket = false := by
    obtain ⟨t, ts, hr⟩ := hc.ended.exists_cons
    have hend : c.kind ≠ .eof := fun hk => by
      rw [Cursor.atOperator, hk] at hminus
      cases hminus
    rw [next_eq_forward hend, ← Cursor.kindAt_one hr]
    cases hk : c.kindAt 1 <;> rw [hk] at hnumber <;> first | rfl | cases hnumber
  obtain ⟨minus, c1, hskip, he⟩ := bind_eq_ok.mp he
  cases hskip
  rw [test_bind] at he
  refine BalancedFrom.skip_bind hkind (fun s => ?_) bs ts hnext a c' he
  cases c.next.peek.kind <;> exact .pure _

theorem balanced_literal : Balanced literal? := by
  refine .test_bind fun c => ?_
  have constant : ∀ value, c.kind.isBracket = false → BalancedFrom c (literal?.constant value) :=
    fun value hk => .skip_bind hk fun _ => .pure _
  cases hk : c.peek.kind with
  | number value => exact constant _ (by rw [Cursor.kind, hk]; rfl)
  | text parts =>
    dsimp only
    cases plainText parts with
    | ok text => exact constant _ (by rw [Cursor.kind, hk]; rfl)
    | error span => exact .fail
  | keyword k => cases k <;> first | exact constant _ (by rw [Cursor.kind, hk]; rfl) | exact .pure _
  | operator op =>
    cases op with
    | minus =>
      intro bs ts hc a c' he
      dsimp only at he
      rw [test_bind] at he
      cases hn : c.atNegative with
      | true =>
        rw [hn] at he
        exact ((balanced_negativeNumber hn).bind fun _ => .pure _) bs ts hc a c' he
      | false =>
        rw [hn] at he
        cases he
        exact hc
    | _ => exact .pure _
  | _ => exact .pure _

theorem balanced_fieldUse : Balanced fieldUse := by
  refine (balanced_acceptPunctuation rfl).bind fun _ => .ite (fun _ => .pure _) fun _ => ?_
  refine .test_bind fun c => ?_
  cases hk : c.peek.kind with
  | ident name => exact .skip_bind (by rw [Cursor.kind, hk]; rfl) fun _ => .pure _
  | _ =>
    refine (balanced_literal c).bind fun found => ?_
    cases found with
    | some v => exact .pure _
    | none => exact .unexpected

theorem balanced_patternField (opened : Span) (fields : List PatternField) :
    Balanced (patternField opened fields) := by
  refine (balanced_stillOpen _ _ _).bind fun _ => (balanced_noComma _ _ _).bind fun _ => ?_
  refine .bind .test fun _ => .ite (fun _ => ?_) fun _ => .unexpected
  refine (balanced_identifier _).bind fun key => ?_
  cases fields.find? fun f => f.key.text == key.text with
  | some first => exact .fail
  | none =>
    refine (balanced_acceptPunctuation rfl).bind fun _ => .ite (fun _ => ?_) fun _ => .pure _
    exact balanced_fieldUse.bind fun _ => .pure _

theorem balanced_patternRound (opened : Span) (fields : List PatternField) :
    Balanced (do
      if ← test (·.atPunctuation .rbrace) then pure (.done fields)
      else
        let field ← patternField opened fields
        pure (Round.again (field :: fields))) :=
  .bind .test fun _ => .ite (fun _ => .pure _) fun _ =>
    (balanced_patternField opened fields).bind fun _ => .pure _

theorem balanced_recordPattern {c : Cursor} (hk : c.kind = .punctuation .lbrace) :
    BalancedFrom c recordPattern := by
  refine .enclosed hk rfl fun opened c bs ts hc a c' he => ?_
  obtain ⟨fields, c1, hfields, he⟩ := bind_eq_ok.mp he
  have hc1 := Balanced.rounds (balanced_patternRound opened) _ c _ ts hc fields c1 hfields
  obtain ⟨s, d, hlast⟩ :=
    roundsUpTo_last (moves_patternRound opened) hc.ended (Nat.lt_succ_self _) hfields
  -- the last round has seen the closing brace
  have hrbrace : c1.atPunctuation .rbrace = true := by
    rw [test_bind] at hlast
    cases hd : d.atPunctuation .rbrace with
    | true =>
      rw [hd] at hlast
      cases hlast
      exact hd
    | false =>
      rw [hd] at hlast
      obtain ⟨_, _, _, hlast⟩ := bind_eq_ok.mp hlast
      cases hlast
  have hclosed := (Closes.skipFrom bs (b := .lbrace) rfl
    (TokenKind.isPunctuation_iff.mp hrbrace)).bind (f := fun closed =>
      (pure (Pattern.record (opened.merge closed) fields.reverse) : Parse Pattern))
      fun _ c' _ => Balanced.pure _ c' bs
  exact hclosed ts hc1 a c' he

theorem balanced_literalPattern : Balanced literalPattern := by
  refine balanced_literal.bind fun found => ?_
  cases found with
  | some v => exact .pure _
  | none => exact .unexpected

theorem balanced_patternInside : Balanced patternInside := by
  refine .test_bind fun c => ?_
  cases hk : c.peek.kind with
  | ident _ => exact .skip_bind (by rw [Cursor.kind, hk]; rfl) fun _ => .pure _
  | keyword k =>
    cases k with
    | otherwise_ => exact .skip_bind (by rw [Cursor.kind, hk]; rfl) fun _ => .pure _
    | _ => exact balanced_literalPattern c
  | punctuation p =>
    cases p with
    | underscore => exact .skip_bind (by rw [Cursor.kind, hk]; rfl) fun _ => .pure _
    | lbrace => exact balanced_recordPattern hk
    | _ => exact balanced_literalPattern c
  | _ => exact balanced_literalPattern c

theorem balanced_pattern (o : ParseOptions) (budget : Nat) : Balanced (pattern o budget) := by
  unfold pattern
  exact .ite (fun _ => .tooDeep) fun _ => balanced_patternInside

/-! ## Applications and pipelines -/

theorem balanced_accesses (o : ParseOptions) (budget : Nat) :
    ∀ e, Balanced (accesses o budget e) := by
  induction budget with
  | zero => exact fun e => .bind .test fun _ => .ite (fun _ => .tooDeep) fun _ => .pure _
  | succ budget ih =>
    intro e
    refine .skipIf (fun _ => not_bracket_of_access) (fun _ => ?_) (.pure _)
    exact (balanced_identifier _).bind fun _ => ih _

section

variable {o : ParseOptions} {primary : Primary}

section

variable (hp : ∀ budget, Balanced (primary budget)) (budget : Nat)

include hp

theorem balanced_operand : Balanced (operand o primary budget) :=
  (hp budget).bind fun _ => balanced_accesses o budget _

theorem balanced_application : Balanced (application o primary budget) := by
  refine .bind .test fun construct => (balanced_operand hp budget).bind fun head => ?_
  refine .ite (fun _ => .pure _) fun _ => ?_
  refine .bind (.many fun c _ => balanced_operand hp budget c) fun args => ?_
  cases args.getLast? <;> exact .pure _

theorem balanced_chain : ∀ left least, Balanced (chain o primary budget left least) := by
  induction budget with
  | zero =>
    intro left least
    refine .bind .test fun op => ?_
    cases op with
    | some op => exact .tooDeep
    | none => exact .pure _
  | succ budget ih =>
    intro left least
    refine .test_bind fun c => ?_
    cases hop : c.operator? least with
    | none => exact .pure _
    | some op =>
      refine .skip_bind (not_bracket_of_operator? hop) fun span => ?_
      refine (balanced_application hp budget).bind fun first => ?_
      exact (ih _ _).bind fun right => ih _ _

theorem balanced_argumentRound (args : List Expr) :
    Balanced (do
      if ← test Cursor.atArgument then
        let e ← operand o primary budget
        pure (.again (e :: args))
      else
        match ← test (Cursor.operator? 0), args with
        | some _, last :: others =>
          let e ← chain o primary budget last 0
          pure (.again (e :: others))
        | _, _ => pure (Round.done args)) := by
  refine .bind .test fun b => .ite (fun _ => ?_) fun _ => ?_
  · exact (balanced_operand hp budget).bind fun _ => .pure _
  · refine .bind .test fun op => ?_
    cases op with
    | none => exact .pure _
    | some op =>
      cases args with
      | nil => exact .pure _
      | cons last others => exact (balanced_chain hp budget _ _).bind fun _ => .pure _

theorem balanced_stageArguments : Balanced (stageArguments o primary budget) :=
  .bind (.rounds (balanced_argumentRound hp budget) _) fun _ => .pure _

theorem balanced_stage : Balanced (stage o primary budget) := by
  refine .bind .test fun b => .ite (fun _ => ?_) fun _ => .fail
  refine (balanced_operand hp budget).bind fun head => ?_
  refine (balanced_stageArguments hp budget).bind fun args => ?_
  split
  · exact .fail
  · exact .pure _

omit budget in
theorem balanced_pushStage (s : Stages) : Balanced (pushStage o primary s) := by
  unfold pushStage
  refine .ite (fun _ => ?_) fun _ => (balanced_stage hp _).bind fun _ => .pure _
  split
  · exact .tooDeep
  · exact (balanced_stage hp _).bind fun _ => .pure _

omit budget in
theorem balanced_inlineStages (s : Stages) : Balanced (inlineStages o primary s) := by
  refine .rounds (fun s => ?_) s
  refine (balanced_acceptPunctuation rfl).bind fun b => .ite (fun _ => ?_) fun _ => .pure _
  exact (balanced_pushStage hp s).bind fun _ => .pure _

omit budget in
theorem balanced_stageLine (s : Stages) : Balanced (stageLine o primary s) := by
  refine (balanced_pushStage hp s).bind fun s => (balanced_inlineStages hp s).bind fun s => ?_
  refine balanced_acceptNewline.bind fun b => .ite (fun _ => ?_) fun _ => ?_
  · refine balanced_acceptDedent.bind fun b => .ite (fun _ => .pure _) fun _ => ?_
    exact .bind .test fun b => .ite (fun _ => .fail) fun _ => .pure _
  · exact balanced_acceptDedent.bind fun b => .ite (fun _ => .pure _) fun _ => .unexpected

theorem balanced_allStages : Balanced (allStages o primary budget) := by
  refine (balanced_inlineStages hp _).bind fun s => (balanced_openBlock _).bind fun b => ?_
  refine .ite (fun _ => ?_) fun _ => .pure _
  exact .bind (.rounds (balanced_stageLine hp) s) fun _ => .pure _

theorem balanced_expression : Balanced (expression o primary budget) := by
  refine (balanced_application hp budget).bind fun first => ?_
  refine (balanced_chain hp budget _ _).bind fun seed => ?_
  refine (balanced_allStages hp budget).bind fun s => ?_
  cases s.getLast? <;> exact .pure _

/-! ## Bracketed forms -/

theorem balanced_recordField (opened : Span) : Balanced (recordField o primary budget opened) := by
  refine (balanced_stillOpen _ _ _).bind fun _ => (balanced_noComma _ _ _).bind fun _ => ?_
  refine .bind .test fun b => .ite (fun _ => ?_) fun _ => .unexpected
  refine (balanced_identifier _).bind fun key => ?_
  refine (balanced_expectPunctuation rfl _).bind fun _ => ?_
  exact (balanced_expression hp budget).bind fun _ => .pure _

theorem balanced_record (hm : ∀ budget, Moves (fun _ => 1) (primary budget)) {c : Cursor}
    (hk : c.kind = .punctuation .lbrace) : BalancedFrom c (record o primary budget) := by
  refine .enclosed hk rfl fun opened c bs ts hc a c' he => ?_
  obtain ⟨fields, c1, hfields, he⟩ := bind_eq_ok.mp he
  have hc1 := Balanced.many (fun c _ => balanced_recordField hp budget opened c) c _ ts hc fields c1 hfields
  -- the fields end at the closing brace and nowhere else
  have hrbrace : c1.atPunctuation .rbrace = true := by
    simpa using many_done (moves_recordField hm budget opened) hc.ended hfields
  have hclosed := (Closes.skipFrom bs (b := .lbrace) rfl
    (TokenKind.isPunctuation_iff.mp hrbrace)).bind (f := fun closed =>
      (pure (Expr.record (opened.merge closed) fields) : Parse Expr)) fun _ c' _ => Balanced.pure _ c' bs
  exact hclosed ts hc1 a c' he

theorem balanced_function {c : Cursor} (hk : c.kind = .punctuation .lbracket) :
    BalancedFrom c (function o primary budget) := by
  refine .enclosed hk rfl fun opened => ?_
  refine .after (.many fun c _ => balanced_identifier _ c) fun params => ?_
  refine .after (balanced_expectPunctuation rfl _) fun _ => ?_
  refine .after (balanced_expression hp budget) fun value => ?_
  refine .after (balanced_stillOpen _ _ _) fun _ => ?_
  exact .first (.expectPunctuation rfl _) fun _ => .pure _

theorem balanced_list {c : Cursor} (hk : c.kind = .punctuation .lbracket) :
    BalancedFrom c (list o primary budget) := by
  refine .enclosed hk rfl fun opened => .after .test fun b => .ite .fail ?_
  refine .after (balanced_stageArguments hp budget) fun items => .skipIf rfl (fun _ => .pure _) ?_
  exact .after (balanced_stillOpen _ _ _) fun _ => .after (balanced_noComma _ _ _) fun _ => .fail

theorem balanced_parenthesized {c : Cursor} (hk : c.kind = .punctuation .lparen) :
    BalancedFrom c (parenthesized o primary budget) := by
  refine .enclosed hk rfl fun opened => .after (balanced_expression hp budget) fun e => ?_
  refine .after (balanced_stillOpen _ _ _) fun _ => ?_
  exact .first (.expectPunctuation rfl _) fun _ => .pure _

omit hp in
theorem balanced_wildcard {c : Cursor} (hk : c.kind = .punctuation .underscore) :
    BalancedFrom c wildcard := by
  refine .skip_bind (by rw [hk]; rfl) fun first => .bind (.many fun c hc => ?_) fun _ => .pure _
  exact .skip_bind (not_bracket_of_access hc) fun _ => balanced_identifier _

/-! ## Constructs -/

theorem balanced_result : Balanced (result o primary budget) :=
  balanced_body (balanced_expression hp budget)

theorem balanced_definition : Balanced (definition o primary budget) := by
  refine (balanced_identifier _).bind fun name => ?_
  refine .bind (.many fun c _ => balanced_identifier _ c) fun params => ?_
  refine (balanced_expectOperator _ _).bind fun _ => ?_
  exact (balanced_result hp budget).bind fun _ => .pure _

theorem balanced_binding : Balanced (binding o primary budget) :=
  .bind .test fun _ => .ite (fun _ => balanced_definition hp budget) fun _ => .unexpected

theorem balanced_blockBinding (s : List Binding × Bool) :
    Balanced (blockBinding o primary budget s) := by
  refine (balanced_binding hp budget).bind fun b => (balanced_acceptPunctuation rfl).bind fun _ => ?_
  refine .ite (fun _ => .pure _) fun _ => balanced_acceptNewline.bind fun _ => ?_
  refine balanced_acceptDedent.bind fun _ => .ite (fun _ => .pure _) fun _ => ?_
  refine .bind .test fun _ => .ite (fun _ => .pure _) fun _ => ?_
  exact .bind .test fun _ => .ite (fun _ => .pure _) fun _ => .unexpected

theorem balanced_bindings : Balanced (bindings o primary budget) := by
  refine (balanced_openBlock _).bind fun _ => .ite (fun _ => ?_) fun _ => ?_
  · exact .bind (.rounds (balanced_blockBinding hp budget) _) fun _ => .pure _
  · refine (balanced_binding hp budget).bind fun first => .bind (.many fun c hc => ?_) fun _ => .pure _
    exact .skip_bind (not_bracket_of_punctuation rfl hc) fun _ => balanced_binding hp budget

theorem balanced_letIn {c : Cursor} (hk : c.kind = .keyword .let_) :
    BalancedFrom c (letIn o primary budget) := by
  refine .skip_bind (by rw [hk]; rfl) fun start => (balanced_bindings hp budget).bind fun found => ?_
  refine balanced_clauseAhead_bind (fun block c hp' => ?_) .fail
  refine .skip_bind (not_bracket_of_keyword hp') fun _ => (balanced_result hp budget).bind fun _ => ?_
  exact (balanced_closeBlockIf _ _).bind fun _ => .pure _

theorem balanced_branch (inBlock : Bool) {c : Cursor} (hk : c.kind.isBracket = false) :
    BalancedFrom c (branch o primary budget inBlock) := by
  refine .skip_bind hk fun _ => (balanced_expression hp budget).bind fun condition => ?_
  refine balanced_clauseAhead_bind (fun block c hp' => ?_) .unexpected
  refine .skip_bind (not_bracket_of_keyword hp') fun _ => ?_
  exact (balanced_result hp budget).bind fun _ => .pure _

theorem balanced_ifElse {c : Cursor} (hk : c.kind = .keyword .if_) :
    BalancedFrom c (ifElse o primary budget) := by
  have hfirst : BalancedFrom c (branch o primary budget false) :=
    balanced_branch hp budget false (by rw [hk]; rfl)
  refine .test_bind (hfirst.bind fun found => ?_)
  refine (balanced_clauses (fun block c hp' => ?_) found.2).bind fun others => ?_
  · exact balanced_branch hp budget block (not_bracket_of_keyword hp')
  refine balanced_clauseAhead_bind (fun block c hp' => ?_) .fail
  refine .skip_bind (not_bracket_of_keyword hp') fun _ => (balanced_result hp budget).bind fun _ => ?_
  exact (balanced_closeBlockIf _ _).bind fun _ => .pure _

theorem balanced_guard : Balanced (guard? o primary budget) := by
  refine .bind (.accept fun _ => not_bracket_of_keyword) fun b => .ite (fun _ => ?_) fun _ => .pure _
  exact (balanced_expression hp budget).bind fun _ => .pure _

omit hp in
theorem balanced_arrow (place : Place) (others : List Expected) : Balanced (arrow place others) :=
  (balanced_acceptPunctuation rfl).bind fun _ => .ite (fun _ => .pure _) fun _ => .unexpected

theorem balanced_matchClause {c : Cursor} (hk : c.kind.isBracket = false) :
    BalancedFrom c (matchClause o primary budget) := by
  refine .skip_bind hk fun bar => (balanced_pattern o budget).bind fun p => ?_
  refine (balanced_guard hp budget).bind fun guard => (balanced_arrow _ _).bind fun _ => ?_
  exact (balanced_result hp budget).bind fun _ => .pure _

omit hp in
theorem BalancedFrom.map_pair {c : Cursor} {x : Parse α} (h : BalancedFrom c x) (inBlock : Bool) :
    BalancedFrom c ((·, inBlock) <$> x) := by
  rw [map_eq_pure_bind]
  exact h.bind fun _ => .pure _

theorem balanced_matchOn {c : Cursor} (hk : c.kind = .keyword .match_) :
    BalancedFrom c (matchOn o primary budget) := by
  refine .skip_bind (by rw [hk]; rfl) fun start => (balanced_expression hp budget).bind fun _ => ?_
  refine (balanced_clauses (fun block c hp' => ?_) false).bind fun found => ?_
  · exact (balanced_matchClause hp budget (not_bracket_of_punctuation rfl hp')).map_pair block
  dsimp only
  cases found.1.getLast? with
  | some last => exact (balanced_closeBlockIf _ _).bind fun _ => .pure _
  | none => exact .fail

omit hp in
theorem balanced_nameIf (p : Cursor → Bool) : Balanced (nameIf p) :=
  .bind .test fun _ => .ite (fun _ => (balanced_identifier _).bind fun _ => .pure _) fun _ => .pure _

theorem balanced_catchClause {c : Cursor} (hk : c.kind.isBracket = false) :
    BalancedFrom c (catchClause o primary budget) := by
  refine .skip_bind hk fun keyword => (balanced_nameIf _).bind fun tag => ?_
  refine (balanced_nameIf _).bind fun bound => .ite (fun _ => .fail) fun _ => ?_
  refine (balanced_arrow _ _).bind fun _ => (balanced_result hp budget).bind fun _ => .pure _

theorem balanced_tryCatch {c : Cursor} (hk : c.kind = .keyword .try_) :
    BalancedFrom c (tryCatch o primary budget) := by
  refine .skip_bind (by rw [hk]; rfl) fun start => (balanced_result hp budget).bind fun _ => ?_
  refine (balanced_clauses (fun block c hp' => ?_) false).bind fun found => ?_
  · exact (balanced_catchClause hp budget (not_bracket_of_keyword hp')).map_pair block
  dsimp only
  cases found.1.getLast? with
  | some last => exact (balanced_closeBlockIf _ _).bind fun _ => .pure _
  | none => exact .fail

/-! ## Primary expressions -/

omit hp in
theorem balanced_hole (tokens : List Token) (span : Span) :
    Balanced (hole o primary budget tokens span) := by
  intro c bs ts hc a c' he
  unfold hole at he
  split at he
  · cases he
    exact hc
  · cases he
    exact ⟨hc.tokens, hc.ended, hc.brackets⟩
  · cases he

omit hp in
theorem balanced_segments (parts : List StringPart) :
    Balanced (segments o primary budget parts) := by
  induction parts with
  | nil => exact .pure _
  | cons part parts ih =>
    cases part with
    | literal text => exact ih.bind fun _ => .pure _
    | hole tokens span => exact (balanced_hole budget tokens span).bind fun _ => ih.bind fun _ => .pure _

theorem balanced_primaryInside (hm : ∀ budget, Moves (fun _ => 1) (primary budget)) :
    Balanced (primaryInside o primary budget) := by
  refine .test_bind fun c => ?_
  have hskip : ∀ {f : Span → Parse Expr}, c.peek.kind.isBracket = false → (∀ s, Balanced (f s)) →
      BalancedFrom c (skip >>= f) :=
    fun hk hf => .skip_bind hk hf
  cases hk : c.peek.kind with
  | ident _ | number _ => exact hskip (by rw [hk]; rfl) fun _ => .pure _
  | text parts =>
    exact hskip (by rw [hk]; rfl) fun _ => (balanced_segments budget parts).bind fun _ => .pure _
  | operator op =>
    cases op with
    | minus =>
      refine fun bs ts hc a c' he => ?_
      dsimp only at he
      rw [test_bind] at he
      cases hn : c.atNegative with
      | true =>
        rw [hn] at he
        exact ((balanced_negativeNumber hn).bind fun _ => .pure _) bs ts hc a c' he
      | false =>
        rw [hn] at he
        cases he
    | _ => exact .fail
  | keyword k =>
    cases k with
    | true_ | false_ | nil_ => exact hskip (by rw [hk]; rfl) fun _ => .pure _
    | let_ => exact balanced_letIn hp budget hk
    | if_ => exact balanced_ifElse hp budget hk
    | match_ => exact balanced_matchOn hp budget hk
    | try_ => exact balanced_tryCatch hp budget hk
    | _ => exact .fail
  | punctuation p =>
    cases p with
    | lbrace => exact balanced_record hp budget hm hk
    | lbracket =>
      refine fun bs ts hc a c' he => ?_
      dsimp only at he
      rw [test_bind] at he
      cases hf : c.atFunction with
      | true =>
        rw [hf] at he
        exact balanced_function hp budget hk bs ts hc a c' he
      | false =>
        rw [hf] at he
        exact balanced_list hp budget hk bs ts hc a c' he
    | lparen => exact balanced_parenthesized hp budget hk
    | underscore => exact balanced_wildcard hk
    | _ => exact .fail
  | _ => exact .fail

end

end

theorem balanced_primary (o : ParseOptions) (levels : Nat) :
    ∀ budget, Balanced (primary o levels budget) := by
  induction levels with
  | zero => exact fun budget => Balanced.tooDeep
  | succ levels ih =>
    intro budget
    cases budget with
    | zero => exact Balanced.tooDeep
    | succ budget => exact balanced_primaryInside ih budget (moves_primary o levels)

end PipeLang.Parse
