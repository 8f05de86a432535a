import PipeLang.Proofs.Parse.Adjacency
import PipeLang.Proofs.Parse.Climbs
import PipeLang.Proofs.Parse.DerivedConstruct
import PipeLang.Proofs.Parse.Onward

/-! Programs. Every statement starts outside all blocks, and the tokens of a text are its statements with
the ends of lines between them. -/

namespace PipeLang

namespace Parse

open Grammar

section

variable (o : ParseOptions)

theorem parses_statement : Parses (fun ts s us => Stated o.mode ts s us) (statement o) := by
  have hp : PrimaryDerives o (rootPrimary o) := primaryDerives o _
  intro c hc
  refine .test_bind (.ite (fun _ => ?_) fun _ => ?_)
  · refine (parses_definition hp _ c hc).bind fun d c1 hc1 hd => .pure hc1 ?_
    obtain ⟨name, value⟩ := d
    exact .assign hd
  · exact (parses_expression hp _ c hc).bind fun e c1 hc1 he => .pure hc1 (.expr he)

/-- A statement, and the end of its line unless that has gone with a block or the text. -/
theorem parses_statementLine :
    Parses (fun ts s us => ∃ vs, Stated o.mode ts s vs ∧ (us = vs ∨ ∃ t, vs = ⟨.newline, t⟩ :: us))
      (statementLine o) := by
  intro c hc
  refine (parses_statement o c hc).bind fun s c1 hc1 hs => ?_
  refine .bind (P := fun _ us => us = c1.rest ∨ ∃ t, c1.rest = ⟨.newline, t⟩ :: us) ?_
    fun _ c2 hc2 hend => .pure hc2 ⟨_, hs, hend⟩
  refine .accept_bind hc1 kind_of_atNewline rfl (fun t c2 hc2 ht => .pure hc2 (.inr ⟨t, ht⟩)) ?_
  exact .test_bind (.ite (fun _ => .pure hc1 (.inl rfl)) fun _ => .fail)

end

/-- A place between statements. -/
structure Outermost (tokens : List Token) (c : Cursor) : Prop where
  tokens : c.before.reverse ++ c.rest = tokens
  level : levelsOf c.before.reverse = 0
  lexed : c.Lexed

section

variable {o : ParseOptions} {tokens : List Token} {c : Cursor}

/-- No prefix of the tokens of a text closes more blocks than it opens. -/
theorem levelsOf_nonneg (hr : Regular tokens) {ts us : List Token} (h : ts ++ us = tokens) :
    0 ≤ levelsOf ts := by
  have hcount := hr.levels ts ⟨us, h⟩
  rw [levelsOf_eq_count]
  omega

/-- Outside all blocks there is no block to close. -/
theorem Outermost.not_dedent (h : Outermost tokens c) (hr : Regular tokens) : c.kind ≠ .dedent := by
  intro hk
  obtain ⟨ts, hrest⟩ := h.lexed.exists_cons
  have htokens : (c.before.reverse ++ [c.peek]) ++ ts = tokens := by
    rw [← h.tokens, hrest, List.append_assoc]
    rfl
  have hnonneg := levelsOf_nonneg hr htokens
  rw [levelsOf_append, h.level, levelsOf_cons, show c.peek.kind = .dedent from hk] at hnonneg
  exact absurd hnonneg (by decide)

theorem Outermost.onward {d : Cursor} (h : Outermost tokens c) {taken : List Token}
    (hrest : c.rest = taken ++ d.rest) (hbefore : d.before = taken.reverse ++ c.before)
    (hended : d.Ended) (hlevel : levelsOf taken = 0) : Outermost tokens d := by
  refine ⟨?_, ?_, hended, fun t ht => h.lexed.tokens t ?_⟩
  · rw [hbefore, ← h.tokens, hrest]
    simp
  · rw [hbefore, List.reverse_append, levelsOf_append, h.level, List.reverse_reverse, hlevel]
    rfl
  · rw [hrest]
    exact List.mem_append_right taken ht

/-- A success has the same tokens, so what is before the cursor then is what it took. -/
theorem before_of_tokens {d : Cursor} {taken : List Token} (hrest : c.rest = taken ++ d.rest)
    (htokens : d.before.reverse ++ d.rest = c.before.reverse ++ c.rest) :
    d.before = taken.reverse ++ c.before := by
  rw [hrest, ← List.append_assoc] at htokens
  have hbefore := List.append_cancel_right htokens
  rw [← List.reverse_reverse d.before, hbefore]
  simp

theorem listed_of_lines {lines us vs : List Token} {found : List Statement}
    (hlines : ∀ t ∈ lines, t.kind = .newline) (h : Listed o.mode us found vs) :
    Listed o.mode (lines ++ us) found vs := by
  induction lines with
  | nil => exact h
  | cons t lines ih =>
    obtain ⟨kind, span⟩ := t
    obtain rfl : kind = .newline := hlines _ List.mem_cons_self
    exact .line rfl (ih fun u hu => hlines u (List.mem_cons_of_mem _ hu))

theorem isNewline_eq {k : TokenKind} (h : k.isNewline = true) : k = .newline := by
  cases k <;> first | rfl | cases h

theorem newlines_rest (c : Cursor) :
    ∃ lines, (∀ t ∈ lines, t.kind = .newline) ∧ c.rest = lines ++ (c.skipWhile TokenKind.isNewline).rest ∧
      (c.skipWhile TokenKind.isNewline).before = lines.reverse ++ c.before :=
  ⟨_, fun _ ht => isNewline_eq (List.mem_takeWhile_imp (p := fun t : Token => t.kind.isNewline) ht),
    List.takeWhile_append_dropWhile.symm, rfl⟩

theorem Outermost.newlines (h : Outermost tokens c) :
    Outermost tokens (c.skipWhile TokenKind.isNewline) := by
  obtain ⟨lines, hlines, hsplit, hbefore⟩ := newlines_rest c
  have hne : (c.skipWhile TokenKind.isNewline).rest ≠ [] := by
    intro hnil
    obtain ⟨last, hlast, heof⟩ := h.lexed.ended
    rw [hnil, List.append_nil] at hsplit
    rw [hlines last (hsplit ▸ List.mem_of_getLast? hlast)] at heof
    cases heof
  refine h.onward hsplit hbefore (h.lexed.ended.of_suffix ⟨_, hsplit.symm⟩ hne) ?_
  exact levelsOf_of_flat fun t ht => by rw [hlines t ht]; rfl

/-- Outside all blocks there is no end of a block to skip. -/
theorem settled_of_outermost (h : Outermost tokens c) (hr : Regular tokens) :
    settled c = c.skipWhile TokenKind.isNewline := by
  obtain ⟨ts, hrest⟩ := h.newlines.lexed.exists_cons
  refine Cursor.skipWhile_of_false hrest ?_
  have hdedent := h.newlines.not_dedent hr
  unfold Cursor.kind at hdedent
  cases hk : (c.skipWhile TokenKind.isNewline).peek.kind <;> first | rfl | exact absurd hk hdedent

/-- The ends of lines are all that is left out before the next statement. -/
theorem settled_spec (h : Outermost tokens c) (hr : Regular tokens) :
    Outermost tokens (settled c) ∧ (settled c).kind ≠ .newline ∧ (settled c).kind ≠ .dedent ∧
      ∃ lines, (∀ t ∈ lines, t.kind = .newline) ∧ c.rest = lines ++ (settled c).rest := by
  obtain ⟨lines, hlines, hsplit, -⟩ := newlines_rest c
  have hline : (c.skipWhile TokenKind.isNewline).kind ≠ .newline := by
    intro hk
    obtain ⟨ts, hrest⟩ := h.newlines.lexed.exists_cons
    have hhead := List.head?_dropWhile_not (fun t : Token => t.kind.isNewline) c.rest
    rw [show c.rest.dropWhile _ = _ from hrest] at hhead
    have hnot : (c.skipWhile TokenKind.isNewline).peek.kind.isNewline = false := by simpa using hhead
    rw [show (c.skipWhile TokenKind.isNewline).peek.kind = .newline from hk] at hnot
    cases hnot
  rw [settled_of_outermost h hr]
  exact ⟨h.newlines, hline, h.newlines.not_dedent hr, lines, hlines, hsplit⟩

/-- What is skipped after an error reaches to the end marker, or to where no block is open. -/
theorem seekLine_spec {rest : List Token} (hended : ∃ t, rest.getLast? = some t ∧ t.kind = .eof) :
    ∀ (level : Int) (before : List Token), level = levelsOf before.reverse →
    ∃ skipped, rest = skipped ++ (seekLine level before rest).2 ∧
      (seekLine level before rest).1 = skipped.reverse ++ before ∧
      (seekLine level before rest).2 ≠ [] ∧
      ((∃ t ∈ (seekLine level before rest).2.head?, t.kind = .eof) ∨
        levelsOf (before.reverse ++ skipped) ≤ 0) ∧
      ((∃ t ∈ rest.head?, t.kind = .eof) ∨ skipped ≠ []) := by
  induction rest with
  | nil =>
    obtain ⟨t, ht, -⟩ := hended
    cases ht
  | cons t rest ih =>
    intro level before hlevel
    have hnext : levelsOf (t :: before).reverse = level + t.kind.levelChange := by
      rw [List.reverse_cons, levelsOf_append, hlevel]
      simp
    unfold seekLine
    dsimp only
    split
    · next heof =>
      have heof : t.kind = .eof := TokenKind.isEof_iff.mp heof
      exact ⟨[], rfl, rfl, List.cons_ne_nil _ _, .inl ⟨t, rfl, heof⟩, .inl ⟨t, rfl, heof⟩⟩
    next heof =>
    have hrest : ∃ u, rest.getLast? = some u ∧ u.kind = .eof := by
      obtain ⟨u, hu, hk⟩ := hended
      cases rest with
      | nil =>
        cases hu
        exact absurd (TokenKind.isEof_iff.mpr hk) heof
      | cons v vs => exact ⟨u, by rwa [List.getLast?_cons_cons] at hu, hk⟩
    split
    · next hstop =>
      simp only [Bool.and_eq_true, decide_eq_true_eq] at hstop
      refine ⟨[t], rfl, rfl, ?_, .inr ?_, .inr (List.cons_ne_nil _ _)⟩
      · rintro rfl
        obtain ⟨u, hu, -⟩ := hrest
        cases hu
      · rw [← List.reverse_cons, hnext]
        exact hstop.1.1
    · obtain ⟨skipped, hsplit, hbefore, hne, hstop, -⟩ := ih hrest _ _ hnext.symm
      refine ⟨t :: skipped, congrArg (t :: ·) hsplit, ?_, hne, ?_, .inr (List.cons_ne_nil _ _)⟩
      · rw [hbefore]
        simp
      · rwa [List.reverse_cons, List.append_assoc] at hstop

theorem moves_statementLine (o : ParseOptions) : Moves (fun _ => 1) (statementLine o) := by
  have hp : ∀ budget, Moves (fun _ => 1) (rootPrimary o budget) := moves_primary o _
  refine Moves.first (m := fun _ => 1) ?_ (fun s => ?_) fun _ _ => Nat.le_refl _
  · refine .after .test fun _ => .ite (fun _ => ?_) fun _ => ?_
    · exact (moves_definition hp _).first (fun _ => .pure rfl) fun _ _ => Nat.le_refl _
    · exact (moves_expression hp _).first (fun _ => .pure rfl) fun _ _ => Nat.le_refl _
  · refine .after (.after .accept fun _ => .ite (fun _ => .pure rfl) fun _ => ?_) fun _ => .pure rfl
    exact .after .test fun _ => .ite (fun _ => .pure rfl) fun _ => .unexpected

/-- After a statement that could be read. -/
theorem outermost_of_statementLine {c' : Cursor} {s : Statement} (h : Outermost tokens c)
    (hrun : statementLine o c = .ok s c') :
    Outermost tokens c' ∧ c'.rest.length < c.rest.length ∧
      ∀ found us, Listed o.mode c'.rest found us → Listed o.mode c.rest (s :: found) us := by
  obtain ⟨hc', htokens, vs, hstated, hend⟩ := parses_statementLine o c h.lexed s c' hrun
  obtain ⟨-, hless⟩ := moves_statementLine o c h.lexed.ended s c' hrun
  obtain ⟨taken, hrest, hlevel⟩ := hstated.climbs
  have houter : ∀ more, c.rest = (taken ++ more) ++ c'.rest → levelsOf more = 0 → Outermost tokens c' := by
    intro more hmore hflat
    refine h.onward hmore (before_of_tokens hmore htokens) hc'.ended ?_
    rw [levelsOf_append, hlevel, hflat]
    rfl
  refine ⟨?_, hless, fun found us hfound => .statement hstated ?_⟩
  · obtain hsame | ⟨t, hline⟩ := hend
    · exact houter [] (by rw [hrest, hsame, List.append_nil]) rfl
    · exact houter [⟨.newline, t⟩] (by rw [hrest, hline, List.append_assoc]; rfl) rfl
  · obtain hsame | ⟨t, hline⟩ := hend
    · exact hsame ▸ hfound
    · exact .line hline hfound

/-- The span from one cursor to a later one is that of the tokens between them. -/
theorem spanSince_eq {e : Cursor} {skipped : List Token} {first last : Token}
    (hrest : c.rest = skipped ++ e.rest) (hbefore : e.before = skipped.reverse ++ c.before)
    (hfirst : skipped.head? = some first) (hlast : skipped.getLast? = some last) :
    c.spanSince e = first.span.merge last.span := by
  have hhead : c.rest.head? = some first := by rw [hrest, List.head?_append, hfirst]; rfl
  have hprevious : e.previous? = some last := by
    rw [Cursor.previous?, hbefore, List.head?_append, List.head?_reverse, hlast]
    rfl
  have hlength : c.before.length < e.before.length := by
    have hne : skipped ≠ [] := by rintro rfl; cases hfirst
    rw [hbefore, List.length_append, List.length_reverse]
    have := List.length_pos_iff.mpr hne
    omega
  unfold Cursor.spanSince
  rw [hprevious, hhead]
  exact if_pos hlength

/-- After an error that parsing went on after. -/
theorem outermost_of_synchronize {c' : Cursor} {d : Diagnostic} (hr : Regular tokens)
    (h : Outermost tokens c) (hkind : c.kind ≠ .newline ∧ c.kind ≠ .dedent ∧ c.kind ≠ .eof)
    (hmode : o.mode = .bestEffort) (hrun : statementLine o c = .error d c') :
    Outermost tokens (synchronize (c'.record d)) ∧
      (synchronize (c'.record d)).rest.length < c.rest.length ∧
      ∀ found us, Listed o.mode (synchronize (c'.record d)).rest found us →
        Listed o.mode c.rest (.error (c.spanSince (synchronize (c'.record d))) :: found) us := by
  obtain ⟨hc', taken, hrest, hbefore⟩ := onward_statementLine o h.lexed.ended hrun
  obtain ⟨skipped, hrest', hbefore', hne, hstop, hprogress⟩ :=
    seekLine_spec hc' c'.level c'.before c'.level_eq
  generalize hresumed : synchronize (c'.record d) = e
  have hsplit : c.rest = (taken ++ skipped) ++ e.rest := by
    rw [hrest, hrest', List.append_assoc, ← hresumed]
    rfl
  have hbehind : e.before = (taken ++ skipped).reverse ++ c.before := by
    rw [List.reverse_append, List.append_assoc, ← hbefore, ← hbefore', ← hresumed]
    rfl
  have hended : e.Ended := by
    refine h.lexed.ended.of_suffix ⟨_, hsplit.symm⟩ ?_
    rw [← hresumed]
    exact hne
  have hall : (c.before.reverse ++ (taken ++ skipped)) ++ e.rest = tokens := by
    rw [List.append_assoc, ← hsplit, h.tokens]
  have hlevel : levelsOf (taken ++ skipped) = 0 := by
    have hnonneg := levelsOf_nonneg hr hall
    rw [levelsOf_append, h.level, Int.zero_add] at hnonneg
    refine le_antisymm ?_ hnonneg
    rcases hstop with ⟨t, ht, heof⟩ | hstop
    · obtain ⟨us, hus⟩ := List.head?_eq_some_iff.mp ht
      have hlast : e.rest = t :: us := by rw [← hus, ← hresumed]; rfl
      have honce := hr.ended
      rw [← hall, hlast] at honce
      have hzero : levelsOf tokens = 0 := by
        rw [levelsOf_eq_count, hr.closed]
        exact Int.sub_self _
      rw [← hall, hlast, rest_of_endsOnce honce heof, levelsOf_append, levelsOf_append, h.level] at hzero
      simp only [levelsOf_cons, levelsOf_nil, heof, TokenKind.levelChange] at hzero
      omega
    · have htaken : c'.before.reverse = c.before.reverse ++ taken := by rw [hbefore]; simp
      rw [htaken, List.append_assoc, levelsOf_append, h.level] at hstop
      omega
  have hnonempty : taken ++ skipped ≠ [] := by
    intro hnil
    obtain ⟨rfl, hskipped⟩ := List.append_eq_nil_iff.mp hnil
    rcases hprogress with ⟨t, ht, heof⟩ | hskip
    · obtain ⟨ts, hts⟩ := h.lexed.exists_cons
      rw [← List.nil_append c'.rest, ← hrest, hts] at ht
      cases ht
      exact hkind.2.2 heof
    · exact hskip hskipped
  obtain ⟨first, more, hcons⟩ := List.exists_cons_of_ne_nil hnonempty
  have hlast := List.getLast?_eq_some_getLast hnonempty
  have hfirst : (taken ++ skipped).head? = some first := by rw [hcons]; rfl
  have hcontent : first.kind = c.kind := by
    rw [Cursor.kind, Cursor.peek, hsplit, hcons]
    rfl
  refine ⟨h.onward hsplit hbehind hended hlevel, ?_, fun found us hfound => ?_⟩
  · rw [hsplit, hcons]
    simp
  · rw [spanSince_eq hsplit hbehind hfirst hlast]
    exact .marker hmode hsplit hfirst (hcontent ▸ hkind) hlast hfound

/-- Up to the end marker the tokens are the statements that were read, unless an error ended the run. -/
theorem listed_statementsUpTo (hr : Regular tokens) (n : Nat) :
    ∀ c, Outermost tokens c → c.rest.length < n →
      (o.mode = .bestEffort ∨ (statementsUpTo o n c).2.errors = []) →
      ∃ last, last.kind = .eof ∧ Listed o.mode c.rest (statementsUpTo o n c).1 [last] := by
  induction n with
  | zero => exact fun c _ hn => absurd hn (Nat.not_lt_zero _)
  | succ n ih =>
    intro c hc hn
    obtain ⟨houter, hline, hdedent, lines, hlines, hrest⟩ := settled_spec hc hr
    have hlength : (settled c).rest.length ≤ c.rest.length := by
      rw [hrest, List.length_append]
      omega
    unfold statementsUpTo
    dsimp only
    rw [hrest]
    split
    · next hend =>
      intro _
      have heof : (settled c).kind = .eof := TokenKind.isEof_iff.mp hend
      obtain ⟨ts, hts⟩ := houter.lexed.exists_cons
      have honce : EndsOnce ((settled c).before.reverse ++ (settled c).peek :: ts) := by
        rw [← hts, houter.tokens]
        exact hr.ended
      rw [rest_of_endsOnce honce heof] at hts
      exact ⟨(settled c).peek, heof, listed_of_lines hlines (hts ▸ .nil)⟩
    next hend =>
    have heof : (settled c).kind ≠ .eof := fun hk => hend (TokenKind.isEof_iff.mpr hk)
    cases hrun : statementLine o (settled c) with
    | ok s after =>
      intro herrors
      obtain ⟨hafter, hless, hlisted⟩ := outermost_of_statementLine houter hrun
      obtain ⟨last, hlast, hfound⟩ := ih after hafter (by omega) herrors
      exact ⟨last, hlast, listed_of_lines hlines (hlisted _ _ hfound)⟩
    | error d after =>
      cases hmode : o.mode with
      | strict =>
        rintro (hother | hnone)
        · cases hother
        · exact absurd hnone (List.cons_ne_nil _ _)
      | bestEffort =>
        intro _
        obtain ⟨hafter, hless, hlisted⟩ :=
          outermost_of_synchronize hr houter ⟨hline, hdedent, heof⟩ hmode hrun
        obtain ⟨last, hlast, hfound⟩ := ih _ hafter (by omega) (.inl hmode)
        have hall := listed_of_lines hlines (hlisted _ _ hfound)
        rw [hmode] at hall
        exact ⟨last, hlast, hall⟩

theorem Outermost.start (hr : Regular tokens) : Outermost tokens (.ofTokens tokens) :=
  ⟨rfl, rfl, hr.ended.getLast?, fun t ht => ⟨hr.interpolations t ht, _, hr.strings t ht⟩⟩

theorem listed_of_run (hr : Regular tokens) (h : o.mode = .bestEffort ∨ (run o tokens).2 = []) :
    ∃ last, last.kind = .eof ∧ Listed o.mode tokens (run o tokens).1.statements [last] := by
  rw [run_statements]
  refine listed_statementsUpTo hr _ _ (.start hr) (Nat.lt_succ_self _) ?_
  exact h.imp_right List.reverse_eq_nil_iff.mp

end

end Parse

end PipeLang
