import PipeLang.Proofs.Parse.DerivedProgram
import PipeLang.Proofs.Parse.FormedProgram

/-! The blocks that a statement opens and closes. In the tokens of a text a statement that starts outside
all blocks closes the blocks that it opens and no others, so that wherever the next one is looked for no
block is open, and the end of one is not there to be skipped. -/

namespace PipeLang

/-- Tokens that close the blocks they open, each after it was opened. -/
structure LevelTokens (ts : List Token) : Prop where
  closed : ts.countP (·.kind.isIndent) = ts.countP (·.kind.isDedent)
  levels : ∀ us, us <+: ts → us.countP (·.kind.isDedent) ≤ us.countP (·.kind.isIndent)

namespace Parse

/-- The places where a run looks for the next statement. -/
inductive Reached (o : ParseOptions) (tokens : List Token) : Cursor → Prop
  | start : Reached o tokens (.ofTokens tokens)
  | statement {c c' : Cursor} {s : Statement} (place : Reached o tokens c)
    (more : (settled c).atEnd = false) (read : statementLine o (settled c) = .ok s c') :
    Reached o tokens c'
  | error {c c' : Cursor} {d : Diagnostic} (place : Reached o tokens c)
    (more : (settled c).atEnd = false) (mode : o.mode = .bestEffort)
    (read : statementLine o (settled c) = .error d c') : Reached o tokens (synchronize (c'.record d))

variable {o : ParseOptions} {tokens : List Token} {c : Cursor}

/-- Any place in the tokens of a text that is outside all blocks. -/
theorem outermost_of_level (hr : Regular tokens) (htokens : c.before.reverse ++ c.rest = tokens)
    (hne : c.rest ≠ []) (hlevel : c.level = 0) : Outermost tokens c := by
  have hstart := Outermost.start hr
  have hsuffix : c.rest <:+ tokens := ⟨_, htokens⟩
  exact ⟨htokens, c.level_eq ▸ hlevel, hstart.lexed.ended.of_suffix hsuffix hne,
    fun t ht => hstart.lexed.tokens t (hsuffix.mem ht)⟩

/-- Tokens from a place outside all blocks that close as many blocks as they open. -/
theorem levelTokens_of_outermost (hr : Regular tokens) (h : Outermost tokens c) {taken rest : List Token}
    (hrest : c.rest = taken ++ rest) (hlevel : levelsOf taken = 0) : LevelTokens taken := by
  refine ⟨?_, fun us hus => ?_⟩
  · rw [levelsOf_eq_count] at hlevel
    omega
  · obtain ⟨vs, hvs⟩ := hus
    -- no block was open before `us`, so those of `us` are all that may be closed in it
    have htokens : (c.before.reverse ++ us) ++ (vs ++ rest) = tokens := by
      rw [← h.tokens, hrest, ← hvs]
      simp
    have hnonneg := levelsOf_nonneg hr htokens
    rw [levelsOf_append, h.level, levelsOf_eq_count] at hnonneg
    omega

theorem levelTokens_of_statement (hr : Regular tokens) (h : Outermost tokens c) {s : Statement}
    {c' : Cursor} (hrun : statement o c = .ok s c') :
    ∃ taken, c.rest = taken ++ c'.rest ∧ c'.before = taken.reverse ++ c.before ∧ LevelTokens taken := by
  obtain ⟨-, htokens, hstated⟩ := parses_statement o c h.lexed s c' hrun
  obtain ⟨taken, hrest, hlevel⟩ := hstated.climbs
  exact ⟨taken, hrest, before_of_tokens hrest htokens, levelTokens_of_outermost hr h hrest hlevel⟩

theorem kind_of_not_atEnd (h : c.atEnd = false) : c.kind ≠ .eof := fun hk => by
  rw [Cursor.atEnd, hk] at h
  cases h

/-- Every statement is looked for outside all blocks. -/
theorem outermost_of_reached (hr : Regular tokens) (h : Reached o tokens c) : Outermost tokens c := by
  induction h with
  | start => exact .start hr
  | statement place more read ih => exact (outermost_of_statementLine (settled_spec ih hr).1 read).1
  | @error c c' d place more mode read ih =>
    obtain ⟨houter, hline, hdedent, -⟩ := settled_spec ih hr
    exact (outermost_of_synchronize hr houter ⟨hline, hdedent, kind_of_not_atEnd more⟩ mode read).1

/-- The run is at each of those places at some time, with the statements before it read. -/
theorem run_of_reached (hr : Regular tokens) (h : Reached o tokens c) :
    ∃ n found, c.rest.length < n ∧ statementsUpTo o (tokens.length + 1) (.ofTokens tokens) =
      (found ++ (statementsUpTo o n c).1, (statementsUpTo o n c).2) := by
  induction h with
  | start => exact ⟨_, [], Nat.lt_succ_self _, rfl⟩
  | @statement c c' s place more read ih =>
    obtain ⟨n, found, hn, hrun⟩ := ih
    obtain ⟨houter, -, -, lines, -, hrest⟩ := settled_spec (outermost_of_reached hr place) hr
    obtain ⟨-, hless, -⟩ := outermost_of_statementLine houter read
    rw [hrest, List.length_append] at hn
    obtain ⟨n, rfl⟩ : ∃ m, n = m + 1 := ⟨n - 1, by omega⟩
    refine ⟨n, found ++ [s], by omega, ?_⟩
    rw [hrun, statementsUpTo.eq_2]
    simp [more, read]
  | @error c c' d place more mode read ih =>
    obtain ⟨n, found, hn, hrun⟩ := ih
    obtain ⟨houter, hline, hdedent, lines, -, hrest⟩ := settled_spec (outermost_of_reached hr place) hr
    obtain ⟨-, hless, -⟩ :=
      outermost_of_synchronize hr houter ⟨hline, hdedent, kind_of_not_atEnd more⟩ mode read
    rw [hrest, List.length_append] at hn
    obtain ⟨n, rfl⟩ : ∃ m, n = m + 1 := ⟨n - 1, by omega⟩
    refine ⟨n, found ++ [.error ((settled c).spanSince (synchronize (c'.record d)))], by omega, ?_⟩
    rw [hrun, statementsUpTo.eq_2]
    simp [more, read, mode]

end Parse

/-- In the tokens of a text a statement that starts outside all blocks closes just the blocks that it
opens. So the next one starts outside all blocks too, and no end of a block is skipped between them, at
none of the places that the run comes to. -/
theorem statements_level {source : String} {tokens : List Token} (hlex : Scan.lex source = .ok tokens)
    (o : ParseOptions) :
    (∀ c : Cursor, c.before.reverse ++ c.rest = tokens → c.rest ≠ [] → c.level = 0 →
      (∀ s c', Parse.statement o c = .ok s c' → ∃ taken, c.rest = taken ++ c'.rest ∧
        c'.before = taken.reverse ++ c.before ∧ LevelTokens taken) ∧
      ∀ s c', Parse.statementLine o c = .ok s c' → c'.level = 0 ∧ c'.kind ≠ .dedent) ∧
    ∀ c, Parse.Reached o tokens c →
      c.level = 0 ∧ Parse.settled c = c.skipWhile TokenKind.isNewline ∧
      ∃ n found, c.rest.length < n ∧ Parse.run o tokens =
        (.ofStatements (found ++ (Parse.statementsUpTo o n c).1),
          (Parse.statementsUpTo o n c).2.errors.reverse) := by
  obtain ⟨hscan, rfl⟩ := Scan.lex_eq_ok.mp hlex
  have hr := Scan.regular_scan hscan
  refine ⟨fun c htokens hne hlevel => ?_, fun c hc => ?_⟩
  · have houter := Parse.outermost_of_level hr htokens hne hlevel
    refine ⟨fun s c' hrun => Parse.levelTokens_of_statement hr houter hrun, fun s c' hrun => ?_⟩
    obtain ⟨hafter, -, -⟩ := Parse.outermost_of_statementLine houter hrun
    exact ⟨c'.level_eq.trans hafter.level, hafter.not_dedent hr⟩
  · have houter := Parse.outermost_of_reached hr hc
    obtain ⟨n, found, hn, hrun⟩ := Parse.run_of_reached hr hc
    refine ⟨c.level_eq.trans houter.level, Parse.settled_of_outermost houter hr, n, found, hn, ?_⟩
    unfold Parse.run
    rw [hrun]

/-- Two blocks of one statement, and then another statement. -/
theorem statements_level_block :
    let source := "if a then\n  b\nelse\n  c\ny\n"
    ∃ tokens s taken c, Scan.lex source = .ok tokens ∧
      Parse.statement {} (.ofTokens tokens) = .ok s c ∧ tokens = taken ++ c.rest ∧
      taken.countP (·.kind.isIndent) = 2 ∧ LevelTokens taken := by
  intro source
  have hread : ((Scan.lex source).toOption.bind fun tokens =>
      match Parse.statement {} (.ofTokens tokens) with
      | .ok _ c => some (tokens.length, c.before.countP (·.kind.isIndent))
      | .error _ _ => none) = some (17, 2) := by decide +kernel
  obtain ⟨tokens, hlex, hread⟩ := Option.bind_eq_some_iff.mp hread
  have hlex : Scan.lex source = .ok tokens := eq_ok_of_toOption hlex
  cases hrun : Parse.statement {} (.ofTokens tokens) with
  | error d c => rw [hrun] at hread; cases hread
  | ok s c =>
    rw [hrun] at hread
    obtain ⟨hlength, hindents⟩ := Prod.mk.inj (Option.some.inj hread)
    have hne : tokens ≠ [] := by rintro rfl; cases hlength
    obtain ⟨hstatement, -⟩ := (statements_level hlex {}).1 (.ofTokens tokens) rfl hne rfl
    obtain ⟨taken, hrest, hbefore, hlevel⟩ := hstatement s c hrun
    rw [hbefore, show (Cursor.ofTokens tokens).before = [] from rfl, List.append_nil,
      List.countP_reverse] at hindents
    exact ⟨tokens, s, taken, c, hlex, hrun, hrest, hindents, hlevel⟩

end PipeLang
