import PipeLang.Proofs.Parse.DerivedExpr

/-! Every rule that reads an expression reads what the grammar derives, and the recursion of the grammar
closes by induction on its levels. -/

namespace PipeLang.Parse

open Grammar

section

variable {o : ParseOptions} {primary : Primary} (h : PrimaryDerives o primary) (budget : Nat)

include h

/-! ## Bracketed forms -/

/-- A field adds itself to the fields before it. -/
theorem parses_recordField (opened : Span) :
    Parses (fun ts b us => ∀ start fields, Derives o.mode start (.fields fields) ts →
      Derives o.mode start (.fields (fields ++ [b])) us) (recordField o primary budget opened) := by
  intro c hc
  refine (parses_stillOpen _ _ _ c hc).bind fun _ c1 hc1 h1 => ?_
  refine (parses_noComma _ _ _ c1 hc1).bind fun _ c2 hc2 h2 => ?_
  refine .test_bind (.ite (fun _ => ?_) fun _ => .fail)
  refine (parses_identifier _ c2 hc2).bind fun key c3 hc3 hkey => ?_
  refine (parses_expectPunctuation _ _ c3 hc3).bind fun s c4 hc4 hcolon => ?_
  refine (parses_expression h budget c4 hc4).bind fun value c5 hc5 hvalue => .pure hc5 ?_
  exact fun start fields hfields => .fields hfields (h1.trans (h2.trans hkey)) hcolon hvalue

theorem parses_recordFields (opened : Span) :
    Parses (fun ts bs us => Derives o.mode ts (.fields bs) us)
      (many (fun c => !c.atPunctuation .rbrace) (recordField o primary budget opened)) := by
  intro c hc
  refine (Parses.many (R := fun ts b us => ∀ start fields, Derives o.mode start (.fields fields) ts →
    Derives o.mode start (.fields (fields ++ [b])) us)
    (fun c hc _ => parses_recordField h budget opened c hc) c hc).mono fun bs us hbs => ?_
  exact hbs.of_empty (S := fun bs us => Derives o.mode c.rest (.fields bs) us)
    (fun bs b ts us hbs hb => hb _ _ hbs) .noFields

theorem parses_record {c : Cursor} (hc : c.Lexed) (hk : c.kind = .punctuation .lbrace) :
    ParsesFrom c (fun e us => Derives o.mode c.rest (.expr e) us) (record o primary budget) := by
  refine (ParsesFrom.skip hc hk rfl).bind fun opened c1 hc1 hopened => ?_
  refine (parses_recordFields h budget opened c1 hc1).bind_run fun fields c2 hrun hc2 hinside => ?_
  -- the fields end at the closing brace and nowhere else
  have hrbrace : c2.atPunctuation .rbrace = true := by
    simpa using many_done (moves_recordField h.moves budget opened) hc1.ended hrun
  exact (ParsesFrom.skip hc2 (TokenKind.isPunctuation_iff.mp hrbrace) rfl).bind
    fun closed c3 hc3 hclosed => .pure hc3 (.record hopened hinside hclosed)

theorem parses_function {c : Cursor} (hc : c.Lexed) (hk : c.kind = .punctuation .lbracket) :
    ParsesFrom c (fun e us => Derives o.mode c.rest (.expr e) us) (function o primary budget) := by
  refine (ParsesFrom.skip hc hk rfl).bind fun opened c1 hc1 hopened => ?_
  refine (parses_names _ c1 hc1).bind fun params c2 hc2 hnames => ?_
  refine (parses_expectPunctuation _ _ c2 hc2).bind fun s c3 hc3 harrow => ?_
  refine (parses_expression h budget c3 hc3).bind fun value c4 hc4 hvalue => ?_
  refine (parses_stillOpen _ _ _ c4 hc4).bind fun _ c5 hc5 h5 => ?_
  refine (parses_expectPunctuation _ _ c5 hc5).bind fun closed c6 hc6 hclosed => .pure hc6 ?_
  exact .function hopened hnames harrow hvalue (h5.trans hclosed)

theorem parses_list {c : Cursor} (hc : c.Lexed) (hk : c.kind = .punctuation .lbracket) :
    ParsesFrom c (fun e us => Derives o.mode c.rest (.expr e) us) (list o primary budget) := by
  refine (ParsesFrom.skip hc hk rfl).bind fun opened c1 hc1 hopened => ?_
  refine .test_bind (.ite (fun _ => .fail) fun _ => ?_)
  refine (parses_stageArguments h budget c1 hc1).bind fun items c2 hc2 hitems => ?_
  refine .test_bind (.ite (fun hclosed => ?_) fun _ => ?_)
  · exact (ParsesFrom.skip hc2 (TokenKind.isPunctuation_iff.mp hclosed) rfl).bind
      fun closed c3 hc3 hclosed => .pure hc3 (.list hopened hitems hclosed)
  · exact (parses_stillOpen _ _ _ c2 hc2).bind fun _ c3 hc3 _ =>
      (parses_noComma _ _ _ c3 hc3).bind fun _ c4 hc4 _ => .fail

theorem parses_parenthesized {c : Cursor} (hc : c.Lexed) (hk : c.kind = .punctuation .lparen) :
    ParsesFrom c (fun e us => Derives o.mode c.rest (.expr e) us)
      (parenthesized o primary budget) := by
  refine (ParsesFrom.skip hc hk rfl).bind fun opened c1 hc1 hopened => ?_
  refine (parses_expression h budget c1 hc1).bind fun e c2 hc2 he => ?_
  refine (parses_stillOpen _ _ _ c2 hc2).bind fun _ c3 hc3 h3 => ?_
  refine (parses_expectPunctuation _ _ c3 hc3).bind fun closed c4 hc4 hclosed => .pure hc4 ?_
  exact .parentheses hopened he (h3.trans hclosed)

omit h in
theorem parses_wildcard {c : Cursor} (hc : c.Lexed) (hk : c.kind = .punctuation .underscore) :
    ParsesFrom c (fun e us => Derives o.mode c.rest (.expr e) us) wildcard := by
  refine (ParsesFrom.skip hc hk rfl).bind fun first c1 hc1 hfirst => ?_
  have hfield : ∀ c : Cursor, c.Lexed → c.atAccess = true →
      ParsesFrom c (fun n us => ∃ d, c.rest = ⟨.punctuation .dot, d⟩ :: n.token :: us)
        (do let _ ← skip; identifier .afterDot) := by
    intro c hc hready
    simp only [Cursor.atAccess, Bool.and_eq_true] at hready
    refine (ParsesFrom.skip hc (TokenKind.isPunctuation_iff.mp hready.1.1.1) rfl).bind
      fun d c1 hc1 hd => ?_
    exact (parses_identifier _ c1 hc1).mono fun n us hn => ⟨d, hn ▸ hd⟩
  refine (Parses.many (R := fun ts n us => ∃ d, ts = ⟨.punctuation .dot, d⟩ :: n.token :: us) hfield
    c1 hc1).bind fun path c2 hc2 hpath => .pure hc2 ?_
  exact .wildcard hfirst (path_of_many hpath)

/-! ## Constructs -/

theorem parses_result :
    Parses (fun ts e us => Derives o.mode ts (.body e) us) (result o primary budget) :=
  parses_body (parses_expression h budget)

theorem parses_definition :
    Parses (fun ts b us => Derives o.mode ts (.binding b) us) (definition o primary budget) := by
  intro c hc
  refine (parses_identifier _ c hc).bind fun name c1 hc1 hname => ?_
  refine (parses_names _ c1 hc1).bind fun params c2 hc2 hparams => ?_
  refine (parses_expectOperator _ _ c2 hc2).bind fun s c3 hc3 hequals => ?_
  refine (parses_result h budget c3 hc3).bind fun value c4 hc4 hvalue => .pure hc4 ?_
  exact .binding hname hparams hequals hvalue

theorem parses_binding :
    Parses (fun ts b us => Derives o.mode ts (.binding b) us) (binding o primary budget) :=
  fun c hc => .test_bind (.ite (fun _ => parses_definition h budget c hc) fun _ => .fail)

omit h budget in
/-- Bindings and one more, which may be the first. -/
theorem bindings_append {start mid us : List Token} {bs : List Binding} {b : Binding}
    (hbs : (bs = [] ∧ Opening true start mid) ∨
      ∃ ts, Derives o.mode start (.bindings true bs) ts ∧ Between true ts mid)
    (hb : Derives o.mode mid (.binding b) us) : Derives o.mode start (.bindings true (bs ++ [b])) us := by
  obtain ⟨rfl, hopening⟩ | ⟨ts, hbs, hbetween⟩ := hbs
  · exact .firstBinding hopening hb
  · exact .bindings hbs hbetween hb

/-- What the bindings of a block are while they are read, and once they are. -/
theorem parses_blockBinding {start : List Token} {c : Cursor} (hc : c.Lexed) (s : List Binding × Bool)
    (hs : (s.1.reverse = [] ∧ Opening true start c.rest) ∨
      ∃ ts, Derives o.mode start (.bindings true s.1.reverse) ts ∧ Between true ts c.rest) :
    ParsesFrom c (Round.Keeps
      (fun s us => (s.1.reverse = [] ∧ Opening true start us) ∨
        ∃ ts, Derives o.mode start (.bindings true s.1.reverse) ts ∧ Between true ts us)
      (fun s us => ∃ ts, Derives o.mode start (.bindings true s.1.reverse) ts ∧ Tail true ts s.2 us))
      (blockBinding o primary budget s) := by
  refine (parses_binding h budget c hc).bind fun b c1 hc1 hb => ?_
  have hfound : Derives o.mode start (.bindings true (b :: s.1).reverse) c1.rest := by
    rw [List.reverse_cons]
    exact bindings_append hs hb
  have hfinish : ∀ c2 : Cursor, c2.Lexed → (c2.rest = c1.rest ∨ ∃ t, c1.rest = ⟨.newline, t⟩ :: c2.rest) →
      ParsesFrom c2 (Round.Keeps
        (fun s us => (s.1.reverse = [] ∧ Opening true start us) ∨
          ∃ ts, Derives o.mode start (.bindings true s.1.reverse) ts ∧ Between true ts us)
        (fun s us => ∃ ts, Derives o.mode start (.bindings true s.1.reverse) ts ∧ Tail true ts s.2 us))
        (do
          if ← accept Cursor.atDedent then pure (.done (b :: s.1, false))
          else if ← test (·.atKeyword .in_) then pure (.done (b :: s.1, true))
          else if ← test afterLine then pure (.again (b :: s.1, true))
          else unexpected .letBindings [.newline, .punctuation .semicolon]) := by
    intro c2 hc2 hline
    refine .accept_bind hc2 kind_of_atDedent rfl (fun u c3 hc3 hdedent => .pure hc3 ?_) ?_
    · obtain hsame | ⟨t, hline⟩ := hline
      · exact ⟨_, hfound, .closed (.dedent (hsame ▸ hdedent))⟩
      · exact ⟨_, hfound, .closed (.line hline hdedent)⟩
    refine .test_bind (.ite (fun _ => .pure hc2 ?_) fun _ => ?_)
    · obtain hsame | ⟨t, hline⟩ := hline
      · exact ⟨_, hfound, .ahead (hsame ▸ .here)⟩
      · exact ⟨_, hfound, .ahead (.turn (.line hline))⟩
    refine .test_bind (.ite (fun _ => .pure hc2 (.inr ?_)) fun _ => .fail)
    obtain hsame | ⟨t, hline⟩ := hline
    · exact ⟨_, hfound, hsame ▸ .closed⟩
    · exact ⟨_, hfound, .line hline⟩
  refine .accept_bind hc1 TokenKind.isPunctuation_iff.mp rfl (fun t c2 hc2 hsemicolon => ?_) ?_
  · exact .pure hc2 (.inr ⟨_, hfound, .semicolon hsemicolon⟩)
  refine .accept_bind hc1 kind_of_atNewline rfl (fun t c2 hc2 hline => ?_) ?_
  · exact hfinish c2 hc2 (.inr ⟨t, hline⟩)
  · exact hfinish c1 hc1 (.inl rfl)

theorem parses_bindings :
    Parses (fun ts r us => ∃ inBlock mid, Derives o.mode ts (.bindings inBlock r.1) mid ∧
      Tail inBlock mid r.2 us) (bindings o primary budget) := by
  intro c hc
  refine .openBlock_bind hc (fun c1 hc1 hturn => ?_) ?_
  · refine .bind (.rounds
      (I := fun s us => (s.1.reverse = [] ∧ Opening true c.rest us) ∨
        ∃ ts, Derives o.mode c.rest (.bindings true s.1.reverse) ts ∧ Between true ts us)
      (Q := fun s us => ∃ ts, Derives o.mode c.rest (.bindings true s.1.reverse) ts ∧ Tail true ts s.2 us)
      (moves_blockBinding h.moves budget) (fun s c2 hc2 hs => parses_blockBinding h budget hc2 s hs) hc1
      (.inl ⟨rfl, .block hturn⟩)) fun s c2 hc2 hs => .pure hc2 ?_
    obtain ⟨mid, hbindings, htail⟩ := hs
    exact ⟨true, mid, hbindings, htail⟩
  · refine (parses_binding h budget c hc).bind fun first c1 hc1 hfirst => ?_
    have hnext : ∀ c : Cursor, c.Lexed → c.atPunctuation .semicolon = true →
        ParsesFrom c (fun b us => ∃ s vs, c.rest = ⟨.punctuation .semicolon, s⟩ :: vs ∧
          Derives o.mode vs (.binding b) us) (do let _ ← skip; binding o primary budget) := by
      intro c hc hready
      refine (ParsesFrom.skip hc (TokenKind.isPunctuation_iff.mp hready) rfl).bind
        fun s c1 hc1 hs => ?_
      exact (parses_binding h budget c1 hc1).mono fun b us hb => ⟨s, _, hs, hb⟩
    refine (Parses.many (R := fun ts b us => ∃ s vs, ts = ⟨.punctuation .semicolon, s⟩ :: vs ∧
      Derives o.mode vs (.binding b) us) hnext c1 hc1).bind fun rest c2 hc2 hrest => .pure hc2 ?_
    refine ⟨false, _, hrest.append (S := fun bs us => Derives o.mode c.rest (.bindings false bs) us)
      (fun bs b ts us hbs hb => ?_) [first] (.firstBinding .inline hfirst), .ahead .here⟩
    obtain ⟨s, vs, hs, hb⟩ := hb
    exact .bindings hbs (.semicolon hs) hb

theorem parses_letIn {c : Cursor} (hc : c.Lexed) (hk : c.kind = .keyword .let_) :
    ParsesFrom c (fun e us => Derives o.mode c.rest (.expr e) us) (letIn o primary budget) := by
  refine (ParsesFrom.skip hc hk rfl).bind fun start c1 hc1 hstart => ?_
  refine (parses_bindings h budget c1 hc1).bind fun found c2 hc2 hfound => ?_
  obtain ⟨inBlock, mid, hbindings, htail⟩ := hfound
  refine .clauseAhead_bind hc2 (fun block c3 hc3 hahead hin => ?_) .fail
  refine (ParsesFrom.skip hc3 (TokenKind.isKeyword_iff.mp hin) rfl).bind fun s c4 hc4 hs => ?_
  refine (parses_result h budget c4 hc4).bind fun value c5 hc5 hvalue => ?_
  refine (parses_closeBlockIf _ _ c5 hc5).bind fun _ c6 hc6 hclosing => .pure hc6 ?_
  exact .letIn hstart hbindings htail hahead hs hvalue hclosing

theorem parses_branch (inBlock : Bool) {c : Cursor} (hc : c.Lexed) {k : Keyword}
    (hk : c.kind = .keyword k) :
    ParsesFrom c (fun r us => ∃ s ts, c.rest = ⟨.keyword k, s⟩ :: ts ∧
      Derives o.mode ts (.arm inBlock r.2 r.1) us) (branch o primary budget inBlock) := by
  refine (ParsesFrom.skip hc hk rfl).bind fun s c1 hc1 hs => ?_
  refine (parses_expression h budget c1 hc1).bind fun condition c2 hc2 hcondition => ?_
  refine .clauseAhead_bind hc2 (fun block c3 hc3 hahead hthen => ?_) .fail
  refine (ParsesFrom.skip hc3 (TokenKind.isKeyword_iff.mp hthen) rfl).bind fun t c4 hc4 ht => ?_
  refine (parses_result h budget c4 hc4).bind fun value c5 hc5 hvalue => .pure hc5 ?_
  exact ⟨s, _, hs, .arm hcondition hahead ht hvalue⟩

theorem parses_ifElse {c : Cursor} (hc : c.Lexed) (hk : c.kind = .keyword .if_) :
    ParsesFrom c (fun e us => Derives o.mode c.rest (.expr e) us) (ifElse o primary budget) := by
  refine .test_bind ((parses_branch h budget false hc hk).bind fun found c1 hc1 hfirst => ?_)
  obtain ⟨s, ts, hs, hfirst⟩ := hfirst
  have hspan : c.peek.span = s := by rw [Cursor.peek, hs]
  refine (ParsesFrom.clauses (I := fun bs block us => Derives o.mode c1.rest (.arms found.2 block bs) us)
    (moves_branch h.moves budget) (fun bs b us block c2 hc2 hbs hahead helif => ?_) hc1 .noArms).bind
    fun others c2 hc2 hothers => ?_
  · refine (parses_branch h budget block hc2 (TokenKind.isKeyword_iff.mp helif)).mono fun r us hr => ?_
    obtain ⟨t, vs, ht, hr⟩ := hr
    exact .arms hbs hahead ht hr
  refine .clauseAhead_bind hc2 (fun block c3 hc3 hahead helse => ?_) .fail
  refine (ParsesFrom.skip hc3 (TokenKind.isKeyword_iff.mp helse) rfl).bind fun t c4 hc4 ht => ?_
  refine (parses_result h budget c4 hc4).bind fun value c5 hc5 hvalue => ?_
  refine (parses_closeBlockIf _ _ c5 hc5).bind fun _ c6 hc6 hclosing => .pure hc6 ?_
  rw [hspan]
  exact .ifElse hs hfirst hothers hahead ht hvalue hclosing

theorem parses_guard :
    Parses (fun ts g us => Derives o.mode ts (.guard g) us) (guard? o primary budget) := by
  intro c hc
  refine .accept_bind hc TokenKind.isKeyword_iff.mp rfl (fun s c1 hc1 hs => ?_) (.pure hc .noGuard)
  exact (parses_expression h budget c1 hc1).bind fun e c2 hc2 he => .pure hc2 (.guard hs he)

omit h budget in
theorem parses_arrow (place : Place) (others : List Expected) :
    Parses (fun ts _ us => ∃ s, ts = ⟨.punctuation .arrow, s⟩ :: us) (arrow place others) :=
  fun _ hc => .accept_bind hc TokenKind.isPunctuation_iff.mp rfl
    (fun s _ hc1 hs => .pure hc1 ⟨s, hs⟩) .fail

theorem parses_matchClause {start ts : List Token} {cs : List Clause} {before block : Bool}
    (hcs : Derives o.mode start (.clauses before cs) ts) {c : Cursor} (hc : c.Lexed)
    (hahead : Ahead before ts block c.rest) (hk : c.kind = .punctuation .bar) :
    ParsesFrom c (fun clause us => Derives o.mode start (.clauses block (cs ++ [clause])) us)
      (matchClause o primary budget) := by
  refine (ParsesFrom.skip hc hk rfl).bind fun bar c1 hc1 hbar => ?_
  refine (parses_pattern o budget c1 hc1).bind fun p c2 hc2 hp => ?_
  refine (parses_guard h budget c2 hc2).bind fun g c3 hc3 hg => ?_
  refine (parses_arrow _ _ c3 hc3).bind fun _ c4 hc4 harrow => ?_
  obtain ⟨s, harrow⟩ := harrow
  refine (parses_result h budget c4 hc4).bind fun value c5 hc5 hvalue => .pure hc5 ?_
  exact .clauses hcs hahead hbar hp hg harrow hvalue

omit h budget in
theorem ParsesFrom.map_pair {c : Cursor} {x : Parse α} {inBlock : Bool} {Q : α × Bool → List Token → Prop}
    (hx : ParsesFrom c (fun a us => Q (a, inBlock) us) x) : ParsesFrom c Q ((·, inBlock) <$> x) := by
  rw [map_eq_pure_bind]
  exact hx.bind fun a c' hc' ha => .pure hc' ha

theorem parses_matchOn {c : Cursor} (hc : c.Lexed) (hk : c.kind = .keyword .match_) :
    ParsesFrom c (fun e us => Derives o.mode c.rest (.expr e) us) (matchOn o primary budget) := by
  refine (ParsesFrom.skip hc hk rfl).bind fun start c1 hc1 hstart => ?_
  refine (parses_expression h budget c1 hc1).bind fun subject c2 hc2 hsubject => ?_
  refine (ParsesFrom.clauses (I := fun cs block us => Derives o.mode c2.rest (.clauses block cs) us)
    (fun block => .map_pair (moves_matchClause h.moves budget) block)
    (fun cs b us block c3 hc3 hcs hahead hbar => ?_) hc2 .noClauses).bind fun found c3 hc3 hfound => ?_
  · exact .map_pair (parses_matchClause h budget hcs hc3 hahead (TokenKind.isPunctuation_iff.mp hbar))
  dsimp only
  cases hlast : found.1.getLast? with
  | none => exact .fail
  | some last =>
    refine (parses_closeBlockIf _ _ c3 hc3).bind fun _ c4 hc4 hclosing => .pure hc4 ?_
    exact .matchOn hstart hsubject hfound hlast hclosing

omit h budget in
theorem parses_nameIf (p : Cursor → Bool) :
    Parses (fun ts found us =>
      match found with
      | some n => ts = n.token :: us
      | none => ts = us) (nameIf p) := by
  intro c hc
  refine .test_bind (.ite (fun _ => ?_) fun _ => .pure hc rfl)
  exact (parses_identifier _ c hc).bind fun n c1 hc1 hn => .pure hc1 hn

theorem parses_catchClause {start ts : List Token} {cs : List Catch} {before block : Bool}
    (hcs : Derives o.mode start (.catches before cs) ts) {c : Cursor} (hc : c.Lexed)
    (hahead : Ahead before ts block c.rest) (hk : c.kind = .keyword .catch_) :
    ParsesFrom c (fun clause us => Derives o.mode start (.catches block (cs ++ [clause])) us)
      (catchClause o primary budget) := by
  refine (ParsesFrom.skip hc hk rfl).bind fun keyword c1 hc1 hkeyword => ?_
  refine (parses_nameIf _ c1 hc1).bind fun tag c2 hc2 htag => ?_
  refine (parses_nameIf _ c2 hc2).bind fun bound c3 hc3 hbound => ?_
  refine .ite (fun _ => .fail) fun hnamed => ?_
  have hcaught : Caught c1.rest tag bound c3.rest := by
    cases tag with
    | none =>
      cases bound with
      | none => exact absurd rfl hnamed
      | some n => exact .binding (htag.trans hbound)
    | some m =>
      cases bound with
      | none => exact .tag (hbound ▸ htag)
      | some n => exact .both htag hbound
  refine (parses_arrow _ _ c3 hc3).bind fun _ c4 hc4 harrow => ?_
  obtain ⟨s, harrow⟩ := harrow
  refine (parses_result h budget c4 hc4).bind fun handler c5 hc5 hhandler => .pure hc5 ?_
  exact .catches hcs hahead hkeyword hcaught harrow hhandler

theorem parses_tryCatch {c : Cursor} (hc : c.Lexed) (hk : c.kind = .keyword .try_) :
    ParsesFrom c (fun e us => Derives o.mode c.rest (.expr e) us) (tryCatch o primary budget) := by
  refine (ParsesFrom.skip hc hk rfl).bind fun start c1 hc1 hstart => ?_
  refine (parses_result h budget c1 hc1).bind fun value c2 hc2 hvalue => ?_
  refine (ParsesFrom.clauses (I := fun cs block us => Derives o.mode c2.rest (.catches block cs) us)
    (fun block => .map_pair (moves_catchClause h.moves budget) block)
    (fun cs b us block c3 hc3 hcs hahead hcatch => ?_) hc2 .noCatches).bind fun found c3 hc3 hfound => ?_
  · exact .map_pair (parses_catchClause h budget hcs hc3 hahead (TokenKind.isKeyword_iff.mp hcatch))
  dsimp only
  cases hlast : found.1.getLast? with
  | none => exact .fail
  | some last =>
    refine (parses_closeBlockIf _ _ c3 hc3).bind fun _ c4 hc4 hclosing => .pure hc4 ?_
    exact .tryCatch hstart hvalue hfound hlast hclosing

/-! ## Primary expressions -/

omit h budget in
theorem rest_of_endsOnce {xs us : List Token} {t : Token} (h : EndsOnce (xs ++ t :: us))
    (ht : t.kind = .eof) : us = [] := by
  obtain ⟨body, last, hts, -, hbody⟩ := h
  rcases List.eq_nil_or_concat us with rfl | ⟨us', u, rfl⟩
  · rfl
  · rw [List.concat_eq_append, ← List.cons_append, ← List.append_assoc] at hts
    obtain ⟨hinit, -⟩ := List.append_inj' hts rfl
    exact absurd ht (hbody t (hinit ▸ List.mem_append_right xs List.mem_cons_self))

theorem interpolation_derives {tokens : List Token} (hline : OneLine tokens)
    (hlexed : ∀ t ∈ tokens, t.Lexed) {e : Expr} (he : interpolation o primary budget tokens = .ok e) :
    ∃ last, last.kind = .eof ∧ Derives o.mode tokens (.expr e) [last] := by
  have hc : (Cursor.ofTokens tokens).Lexed := ⟨hline.ended.getLast?, hlexed⟩
  unfold interpolation at he
  cases hrun : expression o primary budget (.ofTokens tokens) with
  | error d c => rw [hrun] at he; cases he
  | ok e' c =>
    rw [hrun] at he
    obtain ⟨hc', htokens, hderives⟩ := parses_expression h budget _ hc e' c hrun
    dsimp only at he
    split at he
    · next hend =>
      cases he
      obtain ⟨ts, hrest⟩ := hc'.exists_cons
      have hk : c.peek.kind = .eof := TokenKind.isEof_iff.mp hend
      have honce : EndsOnce (c.before.reverse ++ c.peek :: ts) := by
        rw [← hrest, htokens]
        exact hline.ended
      rw [rest_of_endsOnce honce hk] at hrest
      exact ⟨c.peek, hk, hrest ▸ hderives⟩
    · cases he

theorem parses_hole {tokens : List Token} (span : Span) (hline : OneLine tokens)
    (hlexed : ∀ t ∈ tokens, t.Lexed) :
    Parses (fun ts e us => us = ts ∧ ∀ parts found, Derives o.mode [] (.segments parts found) [] →
      Derives o.mode [] (.segments (.hole tokens span :: parts) (.hole e :: found)) [])
      (hole o primary budget tokens span) := by
  intro c hc e c' he
  unfold hole at he
  split at he
  · next hrun =>
    cases he
    obtain ⟨last, hlast, hderives⟩ := interpolation_derives h budget hline hlexed hrun
    exact ⟨hc, rfl, rfl, fun parts found hrest => .hole hderives hlast hrest⟩
  · next hmode =>
    cases he
    exact ⟨⟨hc.ended, hc.tokens⟩, rfl, rfl, fun parts found hrest => .marker hmode hrest⟩
  · cases he

theorem parses_segments (parts : List StringPart)
    (hparts : ∀ us s, .hole us s ∈ parts → OneLine us ∧ ∀ u ∈ us, u.Lexed) :
    Parses (fun ts found us => us = ts ∧ Derives o.mode [] (.segments parts found) [])
      (segments o primary budget parts) := by
  induction parts with
  | nil => exact fun c hc => .pure hc ⟨rfl, .noSegments⟩
  | cons part parts ih =>
    have ih := ih fun us s hmem => hparts us s (List.mem_cons_of_mem _ hmem)
    intro c hc
    cases part with
    | literal text =>
      exact (ih c hc).bind fun found c1 hc1 hfound => .pure hc1 ⟨hfound.1, .literal hfound.2⟩
    | hole tokens span =>
      obtain ⟨hline, hlexed⟩ := hparts tokens span List.mem_cons_self
      refine (parses_hole h budget span hline hlexed c hc).bind fun e c1 hc1 he => ?_
      refine (ih c1 hc1).bind fun found c2 hc2 hfound => .pure hc2 ?_
      exact ⟨hfound.1.trans he.1, he.2 parts found hfound.2⟩

theorem parses_primaryInside :
    Parses (fun ts e us => Derives o.mode ts (.expr e) us) (primaryInside o primary budget) := by
  intro c hc
  obtain ⟨ts, hrest⟩ := hc.exists_cons
  have hpeek : c.peek.Lexed := hc.tokens _ (by rw [hrest]; exact List.mem_cons_self)
  refine .test_bind ?_
  cases hk : c.peek.kind with
  | ident name =>
    have hword : isIdentifier name = true := by
      obtain ⟨-, n, hformed⟩ := hpeek
      cases hformed with
      | ident kind name => rw [hk] at kind; cases kind; exact name
      | text kind => rw [hk] at kind; cases kind
      | plain kind => rw [hk] at kind; cases kind
    exact (ParsesFrom.skip hc hk rfl).bind fun s c1 hc1 hs => .pure hc1 (.ident hs hword)
  | number v => exact (ParsesFrom.skip hc hk rfl).bind fun s c1 hc1 hs => .pure hc1 (.number hs)
  | text parts =>
    refine (ParsesFrom.skip hc hk rfl).bind fun s c1 hc1 hs => ?_
    refine (parses_segments h budget parts (fun us s hmem => hpeek.hole hk hmem) c1 hc1).bind
      fun found c2 hc2 hfound => .pure hc2 ?_
    exact .text (hfound.1 ▸ hs) hfound.2
  | operator op =>
    cases op with
    | minus =>
      refine .test_bind (.ite (fun hn => ?_) fun _ => .fail)
      refine (parses_negativeNumber hc hn).bind fun r c1 hc1 hr => .pure hc1 ?_
      obtain ⟨s, t, v, vs, hminus, hnumber, htouch, rfl⟩ := hr
      exact .negative hminus hnumber htouch
    | _ => exact .fail
  | keyword k =>
    cases k with
    | true_ => exact (ParsesFrom.skip hc hk rfl).bind fun s c1 hc1 hs => .pure hc1 (.yes hs)
    | false_ => exact (ParsesFrom.skip hc hk rfl).bind fun s c1 hc1 hs => .pure hc1 (.no hs)
    | nil_ => exact (ParsesFrom.skip hc hk rfl).bind fun s c1 hc1 hs => .pure hc1 (.nil hs)
    | let_ => exact parses_letIn h budget hc hk
    | if_ => exact parses_ifElse h budget hc hk
    | match_ => exact parses_matchOn h budget hc hk
    | try_ => exact parses_tryCatch h budget hc hk
    | _ => exact .fail
  | punctuation p =>
    cases p with
    | lbrace => exact parses_record h budget hc hk
    | lbracket =>
      exact .test_bind (.ite (fun _ => parses_function h budget hc hk) fun _ =>
        parses_list h budget hc hk)
    | lparen => exact parses_parenthesized h budget hc hk
    | underscore => exact parses_wildcard hc hk
    | _ => exact .fail
  | _ => exact .fail

end

theorem primaryDerives (o : ParseOptions) (levels : Nat) : PrimaryDerives o (primary o levels) := by
  induction levels with
  | zero => exact ⟨fun budget c hc => .fail, moves_primary o 0⟩
  | succ levels ih =>
    refine ⟨fun budget => ?_, moves_primary o (levels + 1)⟩
    cases budget with
    | zero => exact fun c hc => .fail
    | succ budget => exact parses_primaryInside ih budget

end PipeLang.Parse
