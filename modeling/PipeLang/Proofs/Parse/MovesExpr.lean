import PipeLang.Parse.Program
import PipeLang.Proofs.Parse.Moves

/-! What each rule of the grammar takes. Given that a primary expression takes a token, so does every
rule that reads one; the recursion of the grammar then closes by induction on its levels. -/

namespace PipeLang.Parse

theorem Moves.tooDeep {o : ParseOptions} {m : α → Nat} : Moves m (tooDeep o : Parse α) := .fail

theorem moves_negativeNumber_from {c : Cursor} (hc : c.Ended) (hk : c.kind ≠ .eof) :
    MovesFrom c (fun _ => 1) negativeNumber := by
  refine .skip_bind hc hk fun minus => .after .test fun t => .after .skip fun span => ?_
  cases t.kind <;> exact .pure rfl

/-- A literal is one token or two; what is no literal stays. -/
theorem moves_literal : Moves (fun found => if found.isSome then 1 else 0) literal? := by
  refine .test_bind fun c hc => ?_
  have constant : ∀ value, c.peek.kind ≠ .eof →
      MovesFrom c (fun found => if found.isSome then 1 else 0) (literal?.constant value) :=
    fun value hk => (MovesFrom.skip hc hk).bind (k := fun _ => 0) (fun _ => .pure rfl)
      fun _ b => by split <;> omega
  cases hk : c.peek.kind with
  | number value => exact constant _ (by rw [hk]; simp)
  | text parts =>
    dsimp only
    cases plainText parts with
    | ok text => exact constant _ (by rw [hk]; simp)
    | error span => exact Moves.fail c hc
  | keyword k => cases k <;> first | exact constant _ (by rw [hk]; simp) | exact .pure hc rfl
  | operator op =>
    cases op with
    | minus =>
      dsimp only
      intro a c' he
      rw [test_bind] at he
      by_cases hn : c.atNegative = true
      · rw [if_pos hn] at he
        obtain ⟨v, c1, hv, he⟩ := bind_eq_ok.mp he
        cases he
        exact moves_negativeNumber_from hc (by rw [Cursor.kind, hk]; simp) v _ hv
      · rw [if_neg hn] at he
        cases he
        exact ⟨hc, Nat.le_refl _⟩
    | _ => exact .pure hc rfl
  | _ => exact .pure hc rfl

theorem moves_fieldUse : Moves (fun _ => 0) fieldUse := by
  refine .after .accept fun b => .ite (fun _ => .pure rfl) fun _ => .after .test fun t => ?_
  cases t.kind with
  | ident name => exact .after .skip fun _ => .pure rfl
  | _ =>
    refine moves_literal.first (fun found => ?_) fun _ _ => Nat.zero_le _
    cases found with
    | some v => exact .pure rfl
    | none => exact .unexpected

theorem moves_patternField (opened : Span) (fields : List PatternField) :
    Moves (fun _ => 1) (patternField opened fields) := by
  refine .after (moves_stillOpen _ _ _) fun _ => .after (moves_noComma _ _ _) fun _ => ?_
  refine .after .test fun b => .ite (fun _ => ?_) fun _ => .unexpected
  refine (moves_identifier _).first (fun key => ?_) fun _ _ => Nat.le_refl _
  cases fields.find? fun f => f.key.text == key.text with
  | some first => exact .fail
  | none =>
    refine .after .accept fun b => .ite (fun _ => ?_) fun _ => .pure rfl
    exact .after moves_fieldUse fun _ => .pure rfl

theorem moves_patternRound (opened : Span) (fields : List PatternField) :
    Moves Round.cost (do
      if ← test (·.atPunctuation .rbrace) then pure (.done fields)
      else
        let field ← patternField opened fields
        pure (.again (field :: fields))) := by
  refine .after .test fun b => .ite (fun _ => .pure rfl) fun _ => ?_
  exact (moves_patternField opened fields).first (fun _ => .pure rfl) fun _ b => b.cost_le

theorem moves_patternInside : Moves (fun _ => 1) patternInside := by
  refine .test_bind fun c hc => ?_
  have hliteral : MovesFrom c (fun _ => 1) literalPattern := by
    intro a c' he
    obtain ⟨found, c1, hf, he⟩ := bind_eq_ok.mp he
    have hm := moves_literal c hc found c1 hf
    cases found with
    | some v => cases he; exact hm
    | none => cases he
  have hskip : ∀ {f : Span → Pattern}, c.kind ≠ .eof →
      MovesFrom c (fun _ => 1) (do let span ← skip; pure (f span)) :=
    fun hk => .skip_bind hc hk fun _ => .pure rfl
  cases hk : c.peek.kind with
  | ident _ => exact hskip (by rw [Cursor.kind, hk]; simp)
  | keyword k =>
    cases k with
    | otherwise_ => exact hskip (by rw [Cursor.kind, hk]; simp)
    | _ => exact hliteral
  | punctuation p =>
    cases p with
    | underscore => exact hskip (by rw [Cursor.kind, hk]; simp)
    | lbrace =>
      refine .skip_bind hc (by rw [Cursor.kind, hk]; simp) fun opened => ?_
      exact .after (.rounds (moves_patternRound opened) _) fun _ => .after .skip fun _ => .pure rfl
    | _ => exact hliteral
  | _ => exact hliteral

theorem moves_pattern (o : ParseOptions) (budget : Nat) :
    Moves (fun _ => 1) (pattern o budget) := by
  unfold pattern
  exact .ite (fun _ => .tooDeep) fun _ => moves_patternInside

theorem moves_accesses (o : ParseOptions) (budget : Nat) :
    ∀ e, Moves (fun _ => 0) (accesses o budget e) := by
  induction budget with
  | zero =>
    intro e
    exact .after .test fun _ => .ite (fun _ => .tooDeep) fun _ => .pure rfl
  | succ budget ih =>
    intro e
    refine .after .test fun _ => .ite (fun _ => ?_) fun _ => .pure rfl
    exact .after .skip fun _ => (moves_identifier _).first (fun _ => ih _) fun _ _ => Nat.zero_le _

section

variable {o : ParseOptions} {primary : Primary}

section

variable (hp : ∀ budget, Moves (fun _ => 1) (primary budget)) (budget : Nat)

include hp

theorem moves_operand : Moves (fun _ => 1) (operand o primary budget) :=
  (hp budget).first (fun _ => moves_accesses o budget _) fun _ _ => Nat.le_refl _

theorem moves_application : Moves (fun _ => 1) (application o primary budget) := by
  refine .after .test fun construct => (moves_operand hp budget).first (fun head => ?_)
    fun _ _ => Nat.le_refl _
  refine .ite (fun _ => .pure rfl) fun _ => .after (.many (moves_operand hp budget)) fun args => ?_
  cases args.getLast? <;> exact .pure rfl

theorem moves_chain : ∀ left least, Moves (fun _ => 0) (chain o primary budget left least) := by
  induction budget with
  | zero =>
    intro left least
    refine .after .test fun op => ?_
    cases op with
    | some op => exact .tooDeep
    | none => exact .pure rfl
  | succ budget ih =>
    intro left least
    refine .after .test fun op => ?_
    cases op with
    | none => exact .pure rfl
    | some op =>
      refine .after .skip fun span => (moves_application hp budget).first (fun first => ?_)
        fun _ _ => Nat.zero_le _
      exact .after (ih _ _) fun right => ih _ _

/-- An operator ahead is taken with its right operand. -/
theorem moves_chain_from {c : Cursor} (hc : c.Ended) {left : Expr} {least : Nat} {op : Operator}
    (hop : c.operator? least = some op) :
    MovesFrom c (fun _ => 1) (chain o primary budget left least) := by
  cases budget with
  | zero =>
    intro a c' he
    unfold chain at he
    rw [test_bind, hop] at he
    cases he
  | succ budget =>
    have hmore : Moves (fun _ => 1) (do
        let span ← skip
        let first ← application o primary budget
        let right ← chain o primary budget first (op.precedence + 1)
        chain o primary budget (binary op span left right) least) := by
      refine .after .skip fun span => (moves_application hp budget).first (fun first => ?_)
        fun _ _ => Nat.le_refl _
      exact .after (moves_chain hp budget _ _) fun right => moves_chain hp budget _ _
    intro a c' he
    unfold chain at he
    rw [test_bind, hop] at he
    exact hmore c hc a c' he

theorem moves_argumentRound (args : List Expr) :
    Moves Round.cost (do
      if ← test Cursor.atArgument then
        let e ← operand o primary budget
        pure (.again (e :: args))
      else
        match ← test (Cursor.operator? 0), args with
        | some _, last :: others =>
          let e ← chain o primary budget last 0
          pure (.again (e :: others))
        | _, _ => pure (.done args)) := by
  refine .after .test fun b => .ite (fun _ => ?_) fun _ => ?_
  · exact (moves_operand hp budget).first (fun _ => .pure rfl) fun _ b => b.cost_le
  · refine .test_bind fun c hc => ?_
    cases hop : c.operator? 0 with
    | none => exact .pure hc rfl
    | some op =>
      cases args with
      | nil => exact .pure hc rfl
      | cons last others =>
        exact (moves_chain_from hp budget hc hop).bind (k := fun _ => 0) (fun _ => .pure rfl)
          fun _ b => b.cost_le

theorem moves_stageArguments : Moves (fun _ => 0) (stageArguments o primary budget) :=
  .after (.rounds (moves_argumentRound hp budget) _) fun _ => .pure rfl

theorem moves_stage : Moves (fun _ => 1) (stage o primary budget) := by
  refine .after .test fun b => .ite (fun _ => ?_) fun _ => .fail
  refine (moves_operand hp budget).first (fun head => ?_) fun _ _ => Nat.le_refl _
  refine .after (moves_stageArguments hp budget) fun args => ?_
  split
  · exact .fail
  · exact .pure rfl

theorem moves_pushStage (s : Stages) : Moves (fun _ => 1) (pushStage o primary s) := by
  unfold pushStage
  refine .ite (fun _ => ?_) fun _ => ?_
  · split
    · exact .tooDeep
    · exact (moves_stage hp _).first (fun _ => .pure rfl) fun _ _ => Nat.le_refl _
  · exact (moves_stage hp _).first (fun _ => .pure rfl) fun _ _ => Nat.le_refl _

theorem moves_pipeRound (s : Stages) :
    Moves Round.cost (do
      if ← accept (·.atPunctuation .pipe) then
        let s ← pushStage o primary s
        pure (.again s)
      else pure (.done s)) := by
  refine .after .accept fun b => .ite (fun _ => ?_) fun _ => .pure rfl
  exact (moves_pushStage hp s).first (fun _ => .pure rfl) fun _ b => b.cost_le

theorem moves_inlineStages (s : Stages) : Moves (fun _ => 0) (inlineStages o primary s) :=
  .rounds (moves_pipeRound hp) s

theorem moves_stageLine (s : Stages) : Moves Round.cost (stageLine o primary s) := by
  refine (moves_pushStage hp s).first (fun s => ?_) fun _ b => b.cost_le
  refine .after (moves_inlineStages hp s) fun s => ?_
  refine .after .accept fun b => .ite (fun _ => ?_) fun _ => ?_
  · refine .after .accept fun b => .ite (fun _ => .pure rfl) fun _ => ?_
    exact .after .test fun b => .ite (fun _ => .fail) fun _ => .pure rfl
  · exact .after .accept fun b => .ite (fun _ => .pure rfl) fun _ => .unexpected

theorem moves_allStages : Moves (fun _ => 0) (allStages o primary budget) := by
  refine .after (moves_inlineStages hp _) fun s => .after (moves_openBlock _) fun b => ?_
  refine .ite (fun _ => ?_) fun _ => .pure rfl
  exact .after (.rounds (moves_stageLine hp) s) fun _ => .pure rfl

theorem moves_expression : Moves (fun _ => 1) (expression o primary budget) := by
  refine (moves_application hp budget).first (fun first => ?_) fun _ _ => Nat.le_refl _
  refine .after (moves_chain hp budget _ _) fun seed => .after (moves_allStages hp budget) fun s => ?_
  cases s.getLast? <;> exact .pure rfl

theorem moves_recordField (opened : Span) :
    Moves (fun _ => 1) (recordField o primary budget opened) := by
  refine .after (moves_stillOpen _ _ _) fun _ => .after (moves_noComma _ _ _) fun _ => ?_
  refine .after .test fun b => .ite (fun _ => ?_) fun _ => .unexpected
  refine .after ((moves_identifier _).mono fun _ => Nat.zero_le _) fun key => ?_
  refine (moves_expectPunctuation _ _).first (fun _ => ?_) fun _ _ => Nat.le_refl _
  exact (moves_expression hp budget).first (fun _ => .pure rfl) fun _ _ => Nat.zero_le _

theorem moves_function : Moves (fun _ => 1) (function o primary budget) := by
  refine .after .skip fun opened => .after (.many (moves_identifier _)) fun params => ?_
  refine (moves_expectPunctuation _ _).first (fun _ => ?_) fun _ _ => Nat.le_refl _
  refine (moves_expression hp budget).first (fun value => ?_) fun _ _ => Nat.zero_le _
  refine .after (moves_stillOpen _ _ _) fun _ => ?_
  exact (moves_expectPunctuation _ _).first (fun _ => .pure rfl) fun _ _ => Nat.zero_le _

theorem moves_parenthesized : Moves (fun _ => 1) (parenthesized o primary budget) := by
  refine .after .skip fun opened => (moves_expression hp budget).first (fun e => ?_)
    fun _ _ => Nat.le_refl _
  refine .after (moves_stillOpen _ _ _) fun _ => ?_
  exact (moves_expectPunctuation _ _).first (fun _ => .pure rfl) fun _ _ => Nat.zero_le _

theorem moves_result : Moves (fun _ => 1) (result o primary budget) :=
  moves_body (moves_expression hp budget)

theorem moves_definition : Moves (fun _ => 1) (definition o primary budget) := by
  refine (moves_identifier _).first (fun name => ?_) fun _ _ => Nat.le_refl _
  refine .after (.many (moves_identifier _)) fun params => ?_
  refine (moves_expectOperator _ _).first (fun _ => ?_) fun _ _ => Nat.zero_le _
  exact (moves_result hp budget).first (fun _ => .pure rfl) fun _ _ => Nat.zero_le _

theorem moves_binding : Moves (fun _ => 1) (binding o primary budget) :=
  .after .test fun _ => .ite (fun _ => moves_definition hp budget) fun _ => .unexpected

theorem moves_blockBinding (s : List Binding × Bool) :
    Moves Round.cost (blockBinding o primary budget s) := by
  refine (moves_binding hp budget).first (fun b => ?_) fun _ b => b.cost_le
  refine .after .accept fun _ => .ite (fun _ => .pure rfl) fun _ => .after .accept fun _ => ?_
  refine .after .accept fun _ => .ite (fun _ => .pure rfl) fun _ => ?_
  refine .after .test fun _ => .ite (fun _ => .pure rfl) fun _ => ?_
  exact .after .test fun _ => .ite (fun _ => .pure rfl) fun _ => .unexpected

theorem moves_bindings : Moves (fun _ => 0) (bindings o primary budget) := by
  refine .after (moves_openBlock _) fun _ => .ite (fun _ => ?_) fun _ => ?_
  · exact .after (.rounds (moves_blockBinding hp budget) _) fun _ => .pure rfl
  · refine (moves_binding hp budget).first (fun first => ?_) fun _ _ => Nat.zero_le _
    refine .after (.many (.after .skip fun _ => moves_binding hp budget)) fun _ => .pure rfl

theorem moves_letIn : Moves (fun _ => 1) (letIn o primary budget) := by
  refine .after .skip fun start => .after (moves_bindings hp budget) fun found => ?_
  refine .after (moves_clauseAhead _ _) fun ahead => ?_
  cases ahead with
  | none => exact .fail
  | some inBlock =>
    refine .after .skip fun _ => (moves_result hp budget).first (fun value => ?_)
      fun _ _ => Nat.le_refl _
    exact .after (moves_closeBlockIf _ _) fun _ => .pure rfl

theorem moves_branch (inBlock : Bool) : Moves (fun _ => 1) (branch o primary budget inBlock) := by
  refine .after .skip fun _ => (moves_expression hp budget).first (fun condition => ?_)
    fun _ _ => Nat.le_refl _
  refine .after (moves_clauseAhead _ _) fun ahead => ?_
  cases ahead with
  | none => exact .unexpected
  | some inBlock =>
    refine .after .skip fun _ => ?_
    exact (moves_result hp budget).first (fun _ => .pure rfl) fun _ _ => Nat.zero_le _

theorem moves_ifElse : Moves (fun _ => 1) (ifElse o primary budget) := by
  refine .after .test fun start => (moves_branch hp budget false).first (fun first => ?_)
    fun _ _ => Nat.le_refl _
  refine .after (moves_clauses _ (moves_branch hp budget) _) fun others => ?_
  refine .after (moves_clauseAhead _ _) fun ahead => ?_
  cases ahead with
  | none => exact .fail
  | some inBlock =>
    refine .after .skip fun _ => (moves_result hp budget).first (fun fallback => ?_)
      fun _ _ => Nat.zero_le _
    exact .after (moves_closeBlockIf _ _) fun _ => .pure rfl

theorem moves_guard : Moves (fun _ => 0) (guard? o primary budget) := by
  refine .after .accept fun _ => .ite (fun _ => ?_) fun _ => .pure rfl
  exact (moves_expression hp budget).first (fun _ => .pure rfl) fun _ _ => Nat.zero_le _

omit hp in
theorem moves_arrow (place : Place) (others : List Expected) :
    Moves (fun _ => 0) (arrow place others) :=
  .after .accept fun _ => .ite (fun _ => .pure rfl) fun _ => .unexpected

theorem moves_matchClause : Moves (fun _ => 1) (matchClause o primary budget) := by
  refine .after .skip fun bar => (moves_pattern o budget).first (fun p => ?_)
    fun _ _ => Nat.le_refl _
  refine .after (moves_guard hp budget) fun guard => .after (moves_arrow _ _) fun _ => ?_
  exact (moves_result hp budget).first (fun _ => .pure rfl) fun _ _ => Nat.zero_le _

omit hp in
/-- A clause that hands on whether the construct has a block. -/
theorem Moves.map_pair {clause : Parse α} (h : Moves (fun _ => 1) clause) (inBlock : Bool) :
    Moves (fun _ => 1) ((·, inBlock) <$> clause) := by
  rw [map_eq_pure_bind]
  exact h.first (fun _ => .pure rfl) fun _ _ => Nat.le_refl _

theorem moves_matchOn : Moves (fun _ => 1) (matchOn o primary budget) := by
  refine .after .skip fun start => (moves_expression hp budget).first (fun subject => ?_)
    fun _ _ => Nat.le_refl _
  refine .after (moves_clauses _ (Moves.map_pair (moves_matchClause hp budget)) _) fun found => ?_
  dsimp only
  cases found.1.getLast? with
  | some last => exact .after (moves_closeBlockIf _ _) fun _ => .pure rfl
  | none => exact .fail

omit hp in
theorem moves_nameIf (p : Cursor → Bool) : Moves (fun _ => 0) (nameIf p) := by
  refine .after .test fun _ => .ite (fun _ => ?_) fun _ => .pure rfl
  exact (moves_identifier _).first (fun _ => .pure rfl) fun _ _ => Nat.zero_le _

theorem moves_catchClause : Moves (fun _ => 1) (catchClause o primary budget) := by
  refine .after .skip fun keyword => .after (moves_nameIf _) fun tag => ?_
  refine .after (moves_nameIf _) fun bound => .ite (fun _ => .fail) fun _ => ?_
  refine .after (moves_arrow _ _) fun _ => ?_
  exact (moves_result hp budget).first (fun _ => .pure rfl) fun _ _ => Nat.le_refl _

theorem moves_tryCatch : Moves (fun _ => 1) (tryCatch o primary budget) := by
  refine .after .skip fun start => (moves_result hp budget).first (fun value => ?_)
    fun _ _ => Nat.le_refl _
  refine .after (moves_clauses _ (Moves.map_pair (moves_catchClause hp budget)) _) fun found => ?_
  dsimp only
  cases found.1.getLast? with
  | some last => exact .after (moves_closeBlockIf _ _) fun _ => .pure rfl
  | none => exact .fail

omit hp in
theorem moves_hole (tokens : List Token) (span : Span) :
    Moves (fun _ => 0) (hole o primary budget tokens span) := by
  intro c hc a c' he
  unfold hole at he
  split at he
  · cases he; exact ⟨hc, Nat.le_refl _⟩
  · cases he; exact ⟨hc, Nat.le_refl _⟩
  · cases he

omit hp in
theorem moves_segments (parts : List StringPart) :
    Moves (fun _ => 0) (segments o primary budget parts) := by
  induction parts with
  | nil => exact .pure rfl
  | cons part parts ih =>
    cases part with
    | literal text => exact .after ih fun _ => .pure rfl
    | hole tokens span =>
      exact .after (moves_hole budget tokens span) fun _ => .after ih fun _ => .pure rfl

theorem moves_list_from {c : Cursor} (hc : c.Ended) (hk : c.kind ≠ .eof) :
    MovesFrom c (fun _ => 1) (list o primary budget) := by
  refine .skip_bind hc hk fun opened => .after .test fun _ => .ite (fun _ => .fail) fun _ => ?_
  refine .after (moves_stageArguments hp budget) fun items => .after .test fun _ => ?_
  refine .ite (fun _ => .after .skip fun _ => .pure rfl) fun _ => ?_
  exact .after (moves_stillOpen _ _ _) fun _ => .after (moves_noComma _ _ _) fun _ => .unexpected

theorem moves_primaryInside : Moves (fun _ => 1) (primaryInside o primary budget) := by
  refine .test_bind fun c hc => ?_
  have hskip : ∀ {f : Span → Parse Expr}, c.peek.kind ≠ .eof →
      (∀ s, Moves (fun _ => 0) (f s)) → MovesFrom c (fun _ => 1) (skip >>= f) :=
    fun hk hf => .skip_bind hc hk hf
  cases hk : c.peek.kind with
  | ident _ => exact hskip (by rw [hk]; simp) fun _ => .pure rfl
  | number _ => exact hskip (by rw [hk]; simp) fun _ => .pure rfl
  | text parts =>
    exact hskip (by rw [hk]; simp) fun _ => .after (moves_segments budget parts) fun _ => .pure rfl
  | operator op =>
    cases op with
    | minus =>
      dsimp only
      intro a c' he
      rw [test_bind] at he
      by_cases hn : c.atNegative = true
      · rw [if_pos hn] at he
        obtain ⟨v, c1, hv, he⟩ := bind_eq_ok.mp he
        cases he
        exact moves_negativeNumber_from hc (by rw [Cursor.kind, hk]; simp) v _ hv
      · rw [if_neg hn] at he
        cases he
    | _ => exact Moves.unexpected c hc
  | keyword k =>
    cases k with
    | true_ | false_ | nil_ => exact hskip (by rw [hk]; simp) fun _ => .pure rfl
    | let_ => exact moves_letIn hp budget c hc
    | if_ => exact moves_ifElse hp budget c hc
    | match_ => exact moves_matchOn hp budget c hc
    | try_ => exact moves_tryCatch hp budget c hc
    | _ => exact Moves.unexpected c hc
  | punctuation p =>
    cases p with
    | lbrace =>
      refine hskip (by rw [hk]; simp) fun opened => ?_
      exact .after (.many (moves_recordField hp budget opened)) fun _ => .after .skip fun _ => .pure rfl
    | lbracket =>
      dsimp only
      intro a c' he
      rw [test_bind] at he
      by_cases hf : c.atFunction = true
      · rw [if_pos hf] at he
        exact moves_function hp budget c hc a c' he
      · rw [if_neg hf] at he
        exact moves_list_from hp budget hc (by rw [Cursor.kind, hk]; simp) a c' he
    | lparen => exact moves_parenthesized hp budget c hc
    | underscore =>
      refine hskip (by rw [hk]; simp) fun first => ?_
      exact .after (.many (.after .skip fun _ => moves_identifier _)) fun _ => .pure rfl
    | _ => exact Moves.unexpected c hc
  | _ => exact Moves.unexpected c hc

end

end

theorem moves_primary (o : ParseOptions) (levels : Nat) :
    ∀ budget, Moves (fun _ => 1) (primary o levels budget) := by
  induction levels with
  | zero => exact fun budget => Moves.tooDeep
  | succ levels ih =>
    intro budget
    cases budget with
    | zero => exact Moves.tooDeep
    | succ budget => exact moves_primaryInside ih budget

end PipeLang.Parse
