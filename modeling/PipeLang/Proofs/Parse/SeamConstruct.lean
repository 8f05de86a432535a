import PipeLang.Proofs.Parse.SeamStage

/-! Definitions, constructs and whole statements on either side of a seam. -/

namespace PipeLang.Seam

open Parse

variable {S : Seam}

section

variable {c d : Cursor} {n : Nat}

/-- What comes past the common lines starts no definition in the first run. -/
theorem Past.not_definition (h : S.Past n c d) : c.atDefinition = false := by
  obtain ⟨t, ts, ht, hk⟩ := S.tail_head n
  unfold Cursor.atDefinition Cursor.namesThen
  rw [h.rest, ht]
  rcases hk with hk | hk <;> simp [hk, TokenKind.isIdent]

theorem Lined.atKeyword (h : S.Lined c d) {k : Keyword} (hk : Mark (TokenKind.isKeyword k)) :
    c.atKeyword k = d.atKeyword k ∧ (c.atKeyword k = true → S.Moved c d) := by
  have hpast : ∀ {n}, S.Past n c d → c.atKeyword k = d.atKeyword k ∧ (c.atKeyword k = true → S.Moved c d) :=
    fun h => by
      obtain ⟨hc, hd⟩ := h.not_at (p := TokenKind.isKeyword k) hk.dedent hk.begins
      unfold Cursor.atKeyword
      rw [hc, hd]
      exact ⟨rfl, fun hno => by cases hno⟩
  rcases h with h | h | h
  · exact Joined.mark h.joined hk
  · exact hpast h.1
  · obtain ⟨n, -, h⟩ := h.past
    exact hpast h

theorem Lined.afterLine (h : S.Lined c d) : afterLine c = afterLine d := by
  rcases h with h | h | h
  · exact h.afterLine
  · rw [h.afterLine.1, h.afterLine.2]
  · have hline : ∀ {c : Cursor}, c.afterDedent = true → Parse.afterLine c = true := fun {c} h => by
      unfold Cursor.afterDedent at h
      unfold Parse.afterLine
      cases hp : c.previous? with
      | none => rw [hp] at h; cases h
      | some t =>
        rw [hp] at h
        exact (congrArg (t.kind.isNewline || ·) h).trans (Bool.or_true _)
    rw [hline h.2.1, hline h.2.2]

end

section

variable (o : ParseOptions) {p : Primary} (hm : ∀ b, Moves (fun _ => 1) (p b))
  (hp : ∀ S : Seam, S.MeetsPrimary p) (b : Nat)

include hm hp

/-! ## Definitions -/

theorem meets_result : S.Meets S.Moved (fun _ => S.Joined) (result o p b) :=
  meets_body ((meets_expression o hm hp b).mono (fun _ _ h => h.inside) fun _ _ _ h => h)

theorem meets_definition : S.Meets S.Anywhere (fun _ => S.Joined) (definition o p b) := by
  refine (meets_identifier _).bind fun name => (meets_names _).bind fun params => ?_
  refine ((meets_expectOperator _ _).mono (fun _ _ h => h.anywhere) fun _ _ _ h => h).bind fun _ => ?_
  exact (meets_result o hm hp b).bind fun _ => .pure fun _ _ h => h

theorem meets_binding : S.Meets S.Anywhere (fun _ => S.Joined) (binding o p b) := by
  rintro c d (h | ⟨n, h⟩)
  · unfold binding
    rw [test_bind, test_bind, ← h.atDefinition]
    split
    · exact meets_definition o hm hp b c d (.inl h)
    · exact meets_unexpected _ _ c d (.inl h)
  · unfold binding
    rw [test_bind, h.not_definition]
    exact .late h.late

theorem meets_blockBinding (s : List Binding × Bool) :
    S.Meets S.Anywhere (AfterRound (fun _ => S.Anywhere) fun _ => S.Joined) (blockBinding o p b s) := by
  refine (meets_binding o hm hp b).bind fun new => ?_
  refine (meets_accept (.punctuation (by decide))).bind fun again => ?_
  cases again with
  | true => exact .pure fun _ _ h => (h.1 rfl).anywhere
  | false =>
    refine (meets_line.mono (fun _ _ h => h.2) fun _ _ _ h => h).bind fun _ => ?_
    refine (meets_blockEnd fun _ _ h => h).bind fun closed => ?_
    cases closed with
    | true => exact .pure fun _ _ h => h
    | false =>
      have hin : Mark (TokenKind.isKeyword .in_) := .keyword (by decide)
      refine .choose (fun _ _ h => (Lined.atKeyword h hin).1)
        (.pure fun _ _ h => ((Lined.atKeyword h.1 hin).2 h.2).joined) ?_
      refine .choose (fun _ _ h => h.1.afterLine) (.pure fun _ _ h => h.1.1.anywhere) ?_
      exact (meets_unexpected _ _).mono (fun _ _ h => h.1.1.anywhere) fun _ _ _ h => h

theorem meets_bindings : S.Meets S.Moved (fun _ => S.Joined) (bindings o p b) := by
  refine (meets_openBlock_moved _).bind fun block => ?_
  cases block with
  | true =>
    refine Meets.bind (Q := fun _ => S.Joined) ?_ fun _ => .pure fun _ _ h => h
    exact (meets_rounds (R := fun _ => S.Anywhere) (fun _ _ _ h => h) (moves_blockBinding hm b)
      (meets_blockBinding o hm hp b) _).mono (fun _ _ h => h.anywhere) fun _ _ _ h => h
  | false =>
    have hsemicolon : Mark (TokenKind.isPunctuation .semicolon) := .punctuation (by decide)
    refine ((meets_binding o hm hp b).mono (fun _ _ h => h.anywhere) fun _ _ _ h => h).bind fun first => ?_
    refine Meets.bind (Q := fun _ c d => S.Joined c d ∧ c.atPunctuation .semicolon = false) ?_
      fun _ => .pure fun _ _ h => h.1
    refine meets_many (fun _ _ h => h.anywhere) (.after .skip fun _ => moves_binding hm b)
      (fun _ _ h => (h.mark hsemicolon).1) ?_
    refine (Meets.skip fun _ => ?_).mono
      (fun c d h => ⟨((h.1.mark hsemicolon).2 h.2).inside, hsemicolon.kind_ne h.2⟩) fun _ _ _ h => h
    exact (meets_binding o hm hp b).mono (fun _ _ h => h.anywhere) fun _ _ _ h => h

/-! ## Constructs -/

omit hm hp in
/-- The clause that a construct has to go on with, and the rest of the construct. -/
theorem meets_clause {α : Type} {q : TokenKind → Bool} (hq : ClauseMark q) {found : Option Bool}
    {next : Bool → Parse α} {e : Cursor → Diagnostic} {Q : α → Cursor → Cursor → Prop}
    (hnext : ∀ inBlock, S.Meets S.Moved Q (next inBlock)) (he : AboutNext e) :
    S.Meets (S.AtClause q found) Q (match found with
      | some inBlock => do
        let _ ← skip
        next inBlock
      | none => fail e) := by
  cases found with
  | none => exact (meets_fail he).mono (fun _ _ h => h.2.anywhere) fun _ _ _ h => h
  | some inBlock =>
    refine (Meets.skip fun _ => hnext inBlock).mono (fun c d h => ?_) fun _ _ _ h => h
    exact ⟨(h.1 rfl).1.inside, (Mark.clause hq).kind_ne (h.1 rfl).2⟩

theorem meets_letIn :
    S.Meets (fun c d => S.Inside c d ∧ c.kind ≠ .newline) (fun _ => S.Joined) (letIn o p b) := by
  refine .skip fun start => (meets_bindings o hm hp b).bind fun found => ?_
  refine (meets_clauseAhead _ (.keyword (by decide))).bind fun ahead => ?_
  refine meets_clause (.keyword (by decide)) (fun inBlock => ?_) ((AboutNext.unexpected _ _).withExample _)
  refine (meets_result o hm hp b).bind fun value => (meets_closeBlockIf _ _).bind fun _ => ?_
  exact .pure fun _ _ h => h

theorem meets_branch (inBlock : Bool) :
    S.Meets (fun c d => S.Inside c d ∧ c.kind ≠ .newline) (fun _ => S.Joined) (branch o p b inBlock) := by
  refine .skip fun _ => ?_
  refine ((meets_expression o hm hp b).mono (fun _ _ h => h.inside) fun _ _ _ h => h).bind fun cond => ?_
  refine (meets_clauseAhead _ (.keyword (by decide))).bind fun ahead => ?_
  refine meets_clause (.keyword (by decide)) (fun inBlock => ?_) (.unexpected _ _)
  exact (meets_result o hm hp b).bind fun _ => .pure fun _ _ h => h

theorem meets_ifElse :
    S.Meets (fun c d => S.Inside c d ∧ c.kind ≠ .newline) (fun _ => S.Joined) (ifElse o p b) := by
  have hmark : ClauseMark (TokenKind.isKeyword .elif_) := .keyword (by decide)
  refine .look (fun _ _ h => congrArg Token.span h.1.peek) fun start => ?_
  refine ((meets_branch o hm hp b false).mono (fun _ _ h => h.1) fun _ _ _ h => h).bind fun first => ?_
  refine (meets_clauses hmark (moves_branch hm b) (fun inBlock => ?_) _).bind fun others => ?_
  · exact (meets_branch o hm hp b inBlock).mono
      (fun _ _ h => ⟨h.1.inside, (Mark.clause hmark).kind_ne h.2⟩) fun _ _ _ h => h
  refine (meets_clauseAhead _ (.keyword (by decide))).bind fun ahead => ?_
  refine meets_clause (.keyword (by decide)) (fun inBlock => ?_)
    (((AboutNext.unexpected _ _).map (f := fun e => e.withNote _) fun _ => rfl).withExample _)
  refine (meets_result o hm hp b).bind fun fallback => (meets_closeBlockIf _ _).bind fun _ => ?_
  exact .pure fun _ _ h => h

theorem meets_guard : S.Meets S.Moved (fun _ => S.Joined) (guard? o p b) := by
  refine (meets_accept_moved rfl).bind fun found => ?_
  cases found with
  | false => exact .pure fun _ _ h => h.joined
  | true =>
    refine Meets.bind ?_ fun _ => .pure fun _ _ h => h
    exact (meets_expression o hm hp b).mono (fun _ _ h => h.inside) fun _ _ _ h => h

omit hm hp in
theorem meets_arrow (place : Place) (others : List Expected) :
    S.Meets S.Joined (fun _ => S.Moved) (arrow place others) := by
  refine (meets_accept (.punctuation (by decide))).bind fun found => ?_
  cases found with
  | true => exact .pure fun _ _ h => h.1 rfl
  | false => exact (meets_unexpected _ _).mono (fun _ _ h => h.2.anywhere) fun _ _ _ h => h

theorem meets_matchClause :
    S.Meets (fun c d => S.Inside c d ∧ c.kind ≠ .newline) (fun _ => S.Joined) (matchClause o p b) := by
  refine .skip fun bar => (meets_pattern o b).bind fun pat => (meets_guard o hm hp b).bind fun guard => ?_
  refine (meets_arrow _ _).bind fun _ => (meets_result o hm hp b).bind fun _ => ?_
  exact .pure fun _ _ h => h

omit hm hp in
/-- Clauses of one kind, each of which stands in the block of the construct if the last one does. -/
theorem meets_pairedClauses {α : Type} {q : TokenKind → Bool} (hq : ClauseMark q) {clause : Parse α}
    (hc : Moves (fun _ => 1) clause)
    (h : S.Meets (fun c d => S.Inside c d ∧ c.kind ≠ .newline) (fun _ => S.Joined) clause) :
    S.Meets S.Joined (fun _ => S.Joined) (clauses q (fun inBlock => (·, inBlock) <$> clause) false) := by
  refine meets_clauses hq (Moves.map_pair hc) (fun inBlock => ?_) false
  rw [map_eq_pure_bind]
  refine Meets.bind ?_ fun _ => .pure fun _ _ h => h
  exact h.mono (fun _ _ h => ⟨h.1.inside, (Mark.clause hq).kind_ne h.2⟩) fun _ _ _ h => h

theorem meets_matchOn :
    S.Meets (fun c d => S.Inside c d ∧ c.kind ≠ .newline) (fun _ => S.Joined) (matchOn o p b) := by
  refine .skip fun start => ?_
  refine ((meets_expression o hm hp b).mono (fun _ _ h => h.inside) fun _ _ _ h => h).bind fun subject => ?_
  refine (meets_pairedClauses .bar (moves_matchClause hm b) (meets_matchClause o hm hp b)).bind
    fun found => ?_
  dsimp only
  cases found.1.getLast? with
  | some last => exact (meets_closeBlockIf _ _).bind fun _ => .pure fun _ _ h => h
  | none =>
    refine (meets_fail ((AboutNext.unexpected _ _).withExample _)).mono (fun _ _ h => h.anywhere)
      fun _ _ _ h => h

omit hm hp in
theorem meets_nameIf {q : Cursor → Bool} (hq : ∀ c d, c.kind = d.kind → q c = q d) :
    S.Meets S.Moved (fun _ => S.Moved) (nameIf q) := by
  refine .choose (fun c d h => hq c d h.kind) ?_ (.pure fun _ _ h => h.1)
  refine Meets.bind ?_ fun _ => .pure fun _ _ h => h
  exact (meets_identifier _).mono (fun _ _ h => h.1.anywhere) fun _ _ _ h => h

theorem meets_catchClause :
    S.Meets (fun c d => S.Inside c d ∧ c.kind ≠ .newline) (fun _ => S.Joined) (catchClause o p b) := by
  have hcapital : ∀ c d : Cursor, c.kind = d.kind → c.atCapitalized = d.atCapitalized := fun c d h => by
    rw [Cursor.atCapitalized, Cursor.atCapitalized, h]
  refine .skip fun keyword => (meets_nameIf hcapital).bind fun tag => ?_
  refine (meets_nameIf fun c d h => ?_).bind fun bound => ?_
  · rw [Cursor.atIdent, Cursor.atIdent, h, hcapital c d h]
  split
  · refine (meets_fail ?_).mono (fun _ _ h => h.anywhere) fun _ _ _ h => h
    exact ((AboutNext.failure _).map (f := fun e => e.withExpected _) fun _ => rfl).map
      (f := fun e => e.withHint _) fun _ => rfl
  · refine ((meets_arrow _ _).mono (fun _ _ h => h.joined) fun _ _ _ h => h).bind fun _ => ?_
    exact (meets_result o hm hp b).bind fun _ => .pure fun _ _ h => h

theorem meets_tryCatch :
    S.Meets (fun c d => S.Inside c d ∧ c.kind ≠ .newline) (fun _ => S.Joined) (tryCatch o p b) := by
  refine .skip fun start => (meets_result o hm hp b).bind fun value => ?_
  refine (meets_pairedClauses (.keyword (by decide)) (moves_catchClause hm b)
    (meets_catchClause o hm hp b)).bind fun found => ?_
  dsimp only
  cases found.1.getLast? with
  | some last => exact (meets_closeBlockIf _ _).bind fun _ => .pure fun _ _ h => h
  | none =>
    refine (meets_fail ((AboutNext.unexpected _ _).withExample _)).mono (fun _ _ h => h.anywhere)
      fun _ _ _ h => h

/-! ## Primary expressions -/

omit hm hp

theorem At.record {m r : List Token} {c d : Cursor} (h : S.At m r c d) (e : Diagnostic) :
    S.At m r (c.record e) (d.record e) := by
  obtain ⟨new, hc, hd⟩ := h.errors
  exact ⟨h.line, h.more, h.before, h.before', h.rest, h.rest', e :: new, congrArg (e :: ·) hc,
    congrArg (e :: ·) hd⟩

theorem Moved.record {c d : Cursor} (h : S.Moved c d) (e : Diagnostic) :
    S.Moved (c.record e) (d.record e) := by
  obtain ⟨m, r, hm, h⟩ := h
  exact ⟨m, r, hm, h.record e⟩

theorem meets_hole (tokens : List Token) (span : Span) :
    S.Meets S.Moved (fun _ => S.Moved) (hole o p b tokens span) := by
  intro c d h
  unfold hole
  cases interpolation o p b tokens with
  | ok e => exact .ok h
  | error e =>
    cases o.mode with
    | strict => exact .error h.inside
    | bestEffort => exact .ok (h.record e)

theorem meets_segments (parts : List StringPart) :
    S.Meets S.Moved (fun _ => S.Moved) (segments o p b parts) := by
  induction parts with
  | nil => exact .pure fun _ _ h => h
  | cons part parts ih =>
    cases part with
    | literal text => exact ih.bind fun _ => .pure fun _ _ h => h
    | hole tokens span =>
      exact (meets_hole o b tokens span).bind fun _ => ih.bind fun _ => .pure fun _ _ h => h

include hm hp

/-- A primary expression that is no construct. -/
theorem meets_primaryInside_plain :
    S.Meets (fun c d => S.Inside c d ∧ c.atConstruct = false) (fun _ => S.Moved) (primaryInside o p b) := by
  rintro c d ⟨h, hplain⟩
  have nothing : S.Outcome (fun _ => S.Moved)
      ((Parse.unexpected .inExpression [.expression] : Parse Expr) c)
      ((Parse.unexpected .inExpression [.expression] : Parse Expr) d) := meets_unexpected _ _ c d (.inl h)
  unfold primaryInside
  rw [test_bind, test_bind, ← h.peek]
  have single : ∀ f : Span → Expr, c.kind ≠ .newline →
      S.Outcome (fun _ => S.Moved) ((do let span ← Parse.skip; pure (f span)) c)
        ((do let span ← Parse.skip; pure (f span)) d) :=
    fun f hk => meets_single f c d ⟨h, hk⟩
  unfold Cursor.atConstruct at hplain
  have hkind : c.peek.kind = c.kind := rfl
  cases hk : c.kind with
  | ident name => rw [hkind, hk]; exact single _ (by simp [hk])
  | number value => rw [hkind, hk]; exact single _ (by simp [hk])
  | text parts =>
    rw [hkind, hk]
    have whole : S.Meets (fun c d => S.Inside c d ∧ c.kind ≠ .newline) (fun _ => S.Moved) (do
        let span ← Parse.skip
        let found ← segments o p b parts
        pure (Expr.text span found)) :=
      .skip fun _ => (meets_segments o b parts).bind fun _ => .pure fun _ _ h => h
    exact whole c d ⟨h, by simp [hk]⟩
  | operator op =>
    rw [hkind, hk]
    cases op with
    | minus =>
      have signed : S.Meets S.Inside (fun _ => S.Moved) (do
          if ← test Cursor.atNegative then
            let read ← negativeNumber
            pure (Expr.number read.2 read.1)
          else Parse.unexpected .inExpression [.expression]) := by
        refine .choose (fun _ _ h => h.atNegative) ?_ ?_
        · exact meets_negativeNumber.bind fun _ => .pure fun _ _ h => h
        · exact (meets_unexpected _ _).mono (fun _ _ h => .inl h.1) fun _ _ _ h => h
      exact signed c d h
    | _ => exact nothing
  | keyword k =>
    rw [hk] at hplain
    rw [hkind, hk]
    cases k with
    | true_ | false_ | nil_ => exact single _ (by simp [hk])
    | let_ | if_ | match_ | try_ => cases hplain
    | _ => exact nothing
  | punctuation q =>
    have hline : c.kind ≠ .newline := by simp [hk]
    rw [hkind, hk]
    cases q with
    | lbrace => exact meets_record o hm hp b c d ⟨h, hline⟩
    | lbracket =>
      dsimp only
      rw [test_bind, test_bind, ← h.atFunction hline]
      cases c.atFunction with
      | true => exact meets_function o hm hp b c d ⟨h, hline⟩
      | false => exact meets_list o hm hp b c d ⟨h, hline⟩
    | lparen => exact meets_parenthesized o hm hp b c d ⟨h, hline⟩
    | underscore => exact meets_wildcard c d ⟨h, hline⟩
    | _ => exact nothing
  | _ => rw [hkind, hk]; exact nothing

theorem meets_primaryInside : S.Meets S.Inside (fun _ => S.Joined) (primaryInside o p b) := by
  intro c d h
  cases hconstruct : c.atConstruct with
  | false =>
    exact (meets_primaryInside_plain o hm hp b c d ⟨h, hconstruct⟩).mono fun _ _ _ h => h.joined
  | true =>
    unfold Cursor.atConstruct at hconstruct
    unfold primaryInside
    rw [test_bind, test_bind, ← h.peek, show c.peek.kind = c.kind from rfl]
    cases hk : c.kind with
    | keyword k =>
      have hline : c.kind ≠ .newline := by simp [hk]
      rw [hk] at hconstruct
      cases k with
      | let_ => exact meets_letIn o hm hp b c d ⟨h, hline⟩
      | if_ => exact meets_ifElse o hm hp b c d ⟨h, hline⟩
      | match_ => exact meets_matchOn o hm hp b c d ⟨h, hline⟩
      | try_ => exact meets_tryCatch o hm hp b c d ⟨h, hline⟩
      | _ => cases hconstruct
    | _ =>
      rw [hk] at hconstruct
      cases hconstruct

end

theorem meetsPrimary (o : ParseOptions) (levels : Nat) : ∀ S : Seam, S.MeetsPrimary (primary o levels) := by
  induction levels with
  | zero =>
    refine fun S => ⟨fun b => ?_, fun b => ?_⟩
    · exact (meets_tooDeep o).mono (fun _ _ h => .inl h.1) fun _ _ _ h => h
    · exact (meets_tooDeep o).mono (fun _ _ h => .inl h) fun _ _ _ h => h
  | succ levels ih =>
    refine fun S => ⟨fun b => ?_, fun b => ?_⟩
    · cases b with
      | zero => exact (meets_tooDeep o).mono (fun _ _ h => .inl h.1) fun _ _ _ h => h
      | succ b => exact meets_primaryInside_plain o (moves_primary o levels) ih b
    · cases b with
      | zero => exact (meets_tooDeep o).mono (fun _ _ h => .inl h) fun _ _ _ h => h
      | succ b => exact meets_primaryInside o (moves_primary o levels) ih b

/-! ## Statements -/

section

variable (o : ParseOptions)

theorem meets_statement : S.Meets S.Inside (fun _ => S.Joined) (statement o) := by
  have hm := moves_primary o o.maxDepth
  have hp := meetsPrimary o o.maxDepth
  refine .choose (fun _ _ h => h.atDefinition) ?_ ?_
  · refine Meets.bind ?_ fun _ => .pure fun _ _ h => h
    exact (meets_definition o hm hp o.maxDepth).mono (fun _ _ h => .inl h.1) fun _ _ _ h => h
  · refine Meets.bind ?_ fun _ => .pure fun _ _ h => h
    exact (meets_expression o hm hp o.maxDepth).mono (fun _ _ h => h.1) fun _ _ _ h => h

theorem meets_endOfStatement : S.Meets S.Joined (fun _ => S.Lined) endOfStatement := by
  intro c d h
  obtain ⟨hsame, hmoved⟩ := h.atNewline
  have hend : ∀ c d, S.Joined c d → (c.atEnd || c.afterDedent) = (d.atEnd || d.afterDedent) := fun c d h => by
    rcases h with h | ⟨-, hc, hd⟩
    · rw [Cursor.atEnd, Cursor.atEnd, h.kind, h.afterDedent]
    · rw [hc, hd, Bool.or_true, Bool.or_true]
  refine (outcome_accept (Q := fun b c d => if b then S.Lined c d else S.Joined c d) hsame
    (fun hk => (hmoved hk).inside.next_line.imp_right .inl) fun _ => h).bind fun line c d _ h => ?_
  cases line with
  | true => exact .ok h
  | false =>
    have hover : S.Meets S.Joined (fun _ => S.Lined) (do
        if ← test fun c => c.atEnd || c.afterDedent then pure ()
        else unexpected .afterStatement [.newline, .endOfInput]) := by
      refine .choose hend (.pure fun _ _ h => h.1.lined) ?_
      exact (meets_unexpected _ _).mono (fun _ _ h => h.1.anywhere) fun _ _ _ h => h
    exact hover c d h

/-- A statement that starts in the common lines ends there, or with them, or with a block. -/
theorem meets_statementLine : S.Meets S.Inside (fun _ => S.Lined) (statementLine o) :=
  (meets_statement o).bind fun _ => meets_endOfStatement.bind fun _ => .pure fun _ _ h => h

end

end PipeLang.Seam
