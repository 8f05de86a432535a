import PipeLang.Proofs.Parse.Derived

/-! Patterns, applications and pipelines read what the grammar derives, given that a primary expression
does. -/

namespace PipeLang.Parse

open Grammar

variable {α β : Type}

namespace Many

variable {R : List Token → α → List Token → Prop} {ts us : List Token} {as : List α}

/-- What each item adds to `S`, all of them add. -/
theorem append {S : List α → List Token → Prop} (h : Many R ts as us)
    (step : ∀ as a ts us, S as ts → R ts a us → S (as ++ [a]) us) :
    ∀ before, S before ts → S (before ++ as) us := by
  induction h with
  | nil => exact fun before hs => by simpa using hs
  | cons item _ ih =>
    intro before hs
    have hrest := ih _ (step _ _ _ _ hs item)
    rwa [List.append_assoc] at hrest

theorem of_empty {S : List α → List Token → Prop} (h : Many R ts as us)
    (step : ∀ as a ts us, S as ts → R ts a us → S (as ++ [a]) us) (hs : S [] ts) : S as us :=
  h.append step [] hs

end Many

theorem names_of_many {ts us : List Token} {names : List Name}
    (h : Many (fun ts n us => ts = n.token :: us) ts names us) : Names ts names us := by
  induction h with
  | nil => exact .nil
  | cons item _ ih => exact .cons item ih

theorem path_of_many {ts us : List Token} {path : List Name}
    (h : Many (fun ts n us => ∃ d, ts = ⟨.punctuation .dot, d⟩ :: n.token :: us) ts path us) :
    Path ts path us := by
  induction h with
  | nil => exact .nil
  | cons item _ ih =>
    obtain ⟨d, hts⟩ := item
    exact .cons hts rfl ih

theorem exprs_of_many {mode : ParseMode} {ts us : List Token} {es : List Expr}
    (h : Many (fun ts e us => Derives mode ts (.expr e) us) ts es us) : Derives mode ts (.exprs es) us :=
  h.of_empty (S := fun es us => Derives mode ts (.exprs es) us) (fun _ _ _ _ => .exprs) .noExprs

theorem parses_names (place : Place) :
    Parses (fun ts names us => Names ts names us) (many Cursor.atIdent (identifier place)) :=
  fun c hc => (Parses.many (fun c hc _ => parses_identifier place c hc) c hc).mono fun _ _ =>
    names_of_many

/-! ## Patterns -/

theorem parses_negativeNumber {c : Cursor} (hc : c.Lexed) (hn : c.atNegative = true) :
    ParsesFrom c (fun r us => ∃ s t v vs, c.rest = ⟨.operator .minus, s⟩ :: vs ∧
      vs = ⟨.number v, t⟩ :: us ∧ s.stop = t.start ∧ r = (v.neg, s.merge t)) negativeNumber := by
  simp only [Cursor.atNegative, Bool.and_eq_true, beq_iff_eq] at hn
  obtain ⟨⟨hminus, hnumber⟩, htouch⟩ := hn
  have hk : c.kind = .operator .minus := TokenKind.isOperator_iff.mp hminus
  refine (ParsesFrom.skip hc hk rfl).bind fun s c1 hc1 hs => .test_bind ?_
  obtain ⟨ts, hrest⟩ := hc1.exists_cons
  have hpeek : c.peek = ⟨.operator .minus, s⟩ := by rw [Cursor.peek, hs]
  have hone : c.peekAt 1 = c1.peek := by rw [Cursor.peekAt, hs, hrest]; rfl
  rw [Cursor.kindAt, hone] at hnumber
  rw [hone, hpeek] at htouch
  cases hk1 : c1.peek.kind with
  | number v =>
    refine (ParsesFrom.skip hc1 hk1 rfl).bind fun t c2 hc2 ht => .pure hc2 ?_
    refine ⟨s, t, v, c1.rest, hs, ht, ?_, rfl⟩
    rwa [Cursor.peek, ht] at htouch
  | _ => rw [hk1] at hnumber; cases hnumber

theorem constant_of_plainText {t : Token} (hl : t.Lexed) {parts : List StringPart}
    (hk : t.kind = .text parts) {text : String} (ht : plainText parts = .ok text) {ts us : List Token}
    {s : Span} (hts : ts = ⟨.text parts, s⟩ :: us) : Constant ts (.text text) s us := by
  obtain ⟨-, n, hformed⟩ := hl
  cases hformed with
  | ident kind => rw [hk] at kind; cases kind
  | plain kind => rw [hk] at kind; cases kind
  | text kind literals apart room holes =>
    rw [hk] at kind
    cases kind
    match parts with
    | [] =>
      cases ht
      exact .empty hts
    | [.literal text'] =>
      have htext : text = text' := by
        cases ht
        exact String.append_empty
      subst htext
      exact .text hts (literals text List.mem_cons_self)
    | .literal _ :: .literal _ :: _ => exact absurd (List.isChain_cons_cons.mp apart).1 nofun
    | .literal _ :: .hole _ _ :: _ => cases ht
    | .hole _ _ :: _ => cases ht

theorem parses_literal {c : Cursor} (hc : c.Lexed) :
    ParsesFrom c (fun found us => ∀ v s, found = some (v, s) → Constant c.rest v s us) literal? := by
  have constant : ∀ {k : TokenKind} {value : Literal}, c.kind = k → k.isEof = false →
      (∀ s us, c.rest = ⟨k, s⟩ :: us → Constant c.rest value s us) →
      ParsesFrom c (fun found us => ∀ v s, found = some (v, s) → Constant c.rest v s us)
        (literal?.constant value) := by
    intro k value hk he h
    refine (ParsesFrom.skip hc hk he).bind fun s c' hc' hs => .pure hc' ?_
    intro v s' hv
    cases hv
    exact h s _ hs
  have nothing : ParsesFrom c (fun found us => ∀ v s, found = some (v, s) → Constant c.rest v s us)
      (pure none : Parse (Option (Literal × Span))) :=
    .pure hc nofun
  refine .test_bind ?_
  cases hk : c.peek.kind with
  | number value => exact constant hk rfl fun _ _ => .number
  | text parts =>
    dsimp only
    cases ht : plainText parts with
    | ok text =>
      obtain ⟨ts, hrest⟩ := hc.exists_cons
      have hpeek : c.peek.Lexed := hc.tokens _ (by rw [hrest]; exact List.mem_cons_self)
      exact constant hk rfl fun _ _ => constant_of_plainText hpeek hk ht
    | error span => exact .fail
  | keyword k =>
    cases k with
    | true_ => exact constant hk rfl fun _ _ => .yes
    | false_ => exact constant hk rfl fun _ _ => .no
    | nil_ => exact constant hk rfl fun _ _ => .nil
    | _ => exact nothing
  | operator op =>
    cases op with
    | minus =>
      refine .test_bind (.ite (fun hn => ?_) fun _ => nothing)
      refine (parses_negativeNumber hc hn).bind fun r c' hc' hr => .pure hc' ?_
      obtain ⟨s, t, v, vs, hminus, hnumber, htouch, rfl⟩ := hr
      intro v' s' hv
      cases hv
      exact .negative hminus hnumber htouch
    | _ => exact nothing
  | _ => exact nothing

theorem parses_fieldUse : Parses Use fieldUse := by
  intro c hc
  refine .accept_bind hc TokenKind.isPunctuation_iff.mp rfl (fun s c1 hc1 hs => ?_) ?_
  · exact .pure hc1 (.ignore hs)
  refine .test_bind ?_
  cases hk : c.peek.kind with
  | ident name => exact (ParsesFrom.skip hc hk rfl).bind fun s c1 hc1 hs => .pure hc1 (.bind hs)
  | _ =>
    refine (parses_literal hc).bind fun found c1 hc1 hfound => ?_
    cases found with
    | some v => exact .pure hc1 (.compare (hfound _ _ rfl))
    | none => exact .fail

theorem parses_patternField {start : List Token} (opened : Span) (fields : List PatternField)
    {c : Cursor} (hc : c.Lexed) (h : PatternFields start fields.reverse c.rest) :
    ParsesFrom c (fun field us => PatternFields start (field :: fields).reverse us)
      (patternField opened fields) := by
  refine (parses_stillOpen _ _ _ c hc).bind fun _ c1 hc1 h1 => ?_
  refine (parses_noComma _ _ _ c1 hc1).bind fun _ c2 hc2 h2 => ?_
  refine .test_bind (.ite (fun _ => ?_) fun _ => .fail)
  refine (parses_identifier _ c2 hc2).bind fun key c3 hc3 hkey => ?_
  rw [h1, h2, hkey] at h
  cases fields.find? fun f => f.key.text == key.text with
  | some first => exact .fail
  | none =>
    refine .accept_bind hc3 TokenKind.isPunctuation_iff.mp rfl (fun s c4 hc4 hs => ?_) ?_
    · refine (parses_fieldUse c4 hc4).bind fun use c5 hc5 huse => .pure hc5 ?_
      rw [List.reverse_cons]
      exact .use h rfl hs huse
    · refine .pure hc3 ?_
      rw [List.reverse_cons]
      exact .key h rfl

theorem parses_recordPattern {c : Cursor} (hc : c.Lexed) (hk : c.kind = .punctuation .lbrace) :
    ParsesFrom c (Patterned c.rest) recordPattern := by
  refine (ParsesFrom.skip hc hk rfl).bind fun opened c1 hc1 hopened => ?_
  have hrounds := ParsesFrom.rounds (I := fun fields us => PatternFields c1.rest fields.reverse us)
    (Q := fun fields us => PatternFields c1.rest fields.reverse us ∧ ∃ t vs, us = ⟨.punctuation .rbrace, t⟩ :: vs)
    (moves_patternRound opened) (fun fields c hc hi => by
      refine .test_bind (.ite (fun hclosed => ?_) fun _ => ?_)
      · obtain ⟨-, -, hrest⟩ := ParsesFrom.skip hc (TokenKind.isPunctuation_iff.mp hclosed) rfl _ _ rfl
        exact .pure hc ⟨hi, _, _, hrest⟩
      · exact (parses_patternField opened fields hc hi).bind fun field c' hc' hfield => .pure hc' hfield)
    (s := []) hc1 .nil
  refine hrounds.bind fun fields c2 hc2 hfields => ?_
  obtain ⟨hinside, t, vs, hclosed⟩ := hfields
  have hk2 : c2.kind = .punctuation .rbrace := by rw [Cursor.kind, Cursor.peek, hclosed]
  exact (ParsesFrom.skip hc2 hk2 rfl).bind fun closed c3 hc3 hs =>
    .pure hc3 (.record hopened hinside hs)

theorem parses_literalPattern : Parses Patterned literalPattern := by
  intro c hc
  refine (parses_literal hc).bind fun found c1 hc1 hfound => ?_
  cases found with
  | some v => exact .pure hc1 (.literal (hfound _ _ rfl))
  | none => exact .fail

theorem parses_pattern (o : ParseOptions) (budget : Nat) : Parses Patterned (pattern o budget) := by
  intro c hc
  refine .ite (fun _ => .fail) fun _ => .test_bind ?_
  cases hk : c.peek.kind with
  | ident _ => exact (ParsesFrom.skip hc hk rfl).bind fun s c1 hc1 hs => .pure hc1 (.bind hs)
  | keyword k =>
    cases k with
    | otherwise_ =>
      exact (ParsesFrom.skip hc hk rfl).bind fun s c1 hc1 hs => .pure hc1 (.otherwise hs)
    | _ => exact parses_literalPattern c hc
  | punctuation p =>
    cases p with
    | underscore =>
      exact (ParsesFrom.skip hc hk rfl).bind fun s c1 hc1 hs => .pure hc1 (.wildcard hs)
    | lbrace => exact parses_recordPattern hc hk
    | _ => exact parses_literalPattern c hc
  | _ => exact parses_literalPattern c hc

/-! ## Applications and pipelines -/

theorem parses_accesses (o : ParseOptions) {start : List Token} (budget : Nat) :
    ∀ e c, c.Lexed → Derives o.mode start (.expr e) c.rest →
      ParsesFrom c (fun e us => Derives o.mode start (.expr e) us) (accesses o budget e) := by
  induction budget with
  | zero => exact fun e c hc he => .test_bind (.ite (fun _ => .fail) fun _ => .pure hc he)
  | succ budget ih =>
    intro e c hc he
    refine .test_bind (.ite (fun h => ?_) fun _ => .pure hc he)
    simp only [Cursor.atAccess, Bool.and_eq_true] at h
    refine (ParsesFrom.skip hc (TokenKind.isPunctuation_iff.mp h.1.1.1) rfl).bind fun d c1 hc1 hd => ?_
    refine (parses_identifier _ c1 hc1).bind fun field c2 hc2 hfield => ?_
    exact ih _ c2 hc2 (.access he hd hfield)

theorem exprs_append {mode : ParseMode} {ts us : List Token} {es : List Expr} {e : Expr}
    (h : Derives mode ts (.exprs (es ++ [e])) us) :
    ∃ vs, Derives mode ts (.exprs es) vs ∧ Derives mode vs (.expr e) us := by
  generalize hxs : es ++ [e] = xs at h
  cases h with
  | noExprs => exact absurd hxs (List.concat_ne_nil e es)
  | exprs before next =>
    obtain ⟨rfl, hlast⟩ := List.append_inj' hxs rfl
    cases hlast
    exact ⟨_, before, next⟩

theorem exprs_nil {mode : ParseMode} {ts us : List Token} (h : Derives mode ts (.exprs []) us) :
    us = ts := by
  generalize hxs : ([] : List Expr) = xs at h
  cases h with
  | noExprs => rfl
  | exprs => exact absurd hxs.symm (List.concat_ne_nil _ _)

theorem stages_nil {mode : ParseMode} {ts us : List Token} {inBlock : Bool}
    (h : Derives mode ts (.stages inBlock []) us) : inBlock = false ∧ us = ts := by
  generalize hgs : ([] : List Stage) = gs at h
  cases h with
  | noStages => exact ⟨rfl, rfl⟩
  | piped => exact absurd hgs.symm (List.concat_ne_nil _ _)
  | stageLine => exact absurd hgs.symm (List.concat_ne_nil _ _)

/-- Rules for primary expressions that read what the grammar derives. -/
structure PrimaryDerives (o : ParseOptions) (primary : Primary) : Prop where
  parses : ∀ budget, Parses (fun ts e us => Derives o.mode ts (.expr e) us) (primary budget)
  moves : ∀ budget, Moves (fun _ => 1) (primary budget)

section

variable {o : ParseOptions} {primary : Primary} (h : PrimaryDerives o primary) (budget : Nat)

include h

theorem parses_operand :
    Parses (fun ts e us => Derives o.mode ts (.expr e) us) (operand o primary budget) :=
  fun c hc => (h.parses budget c hc).bind fun e c1 hc1 he => parses_accesses o budget e c1 hc1 he

theorem parses_operands :
    Parses (fun ts es us => Derives o.mode ts (.exprs es) us)
      (many Cursor.atArgument (operand o primary budget)) :=
  fun c hc => (Parses.many (fun c hc _ => (parses_operand h budget c hc :)) c hc).mono fun _ _ =>
    exprs_of_many

theorem parses_application :
    Parses (fun ts e us => Derives o.mode ts (.expr e) us) (application o primary budget) := by
  intro c hc
  refine .test_bind ((parses_operand h budget c hc).bind fun head c1 hc1 hhead => ?_)
  refine .ite (fun _ => .pure hc1 hhead) fun _ => ?_
  refine (parses_operands h budget c1 hc1).bind fun args c2 hc2 hargs => ?_
  cases hlast : args.getLast? with
  | some last => exact .pure hc2 (.apply hhead hargs hlast)
  | none =>
    obtain rfl := List.getLast?_eq_none_iff.mp hlast
    exact .pure hc2 (exprs_nil hargs ▸ hhead)

theorem parses_chain {start : List Token} :
    ∀ left least c, c.Lexed → Derives o.mode start (.expr left) c.rest →
      ParsesFrom c (fun e us => Derives o.mode start (.expr e) us) (chain o primary budget left least) := by
  induction budget generalizing start with
  | zero =>
    intro left least c hc hleft
    refine .test_bind ?_
    cases c.operator? least with
    | some op => exact .fail
    | none => exact .pure hc hleft
  | succ budget ih =>
    intro left least c hc hleft
    refine .test_bind ?_
    cases hop : c.operator? least with
    | none => exact .pure hc hleft
    | some op =>
      have hbinary : c.kind.binary? = some op := (Option.filter_eq_some_iff.mp hop).1
      have hend : c.kind.isEof = false := by
        cases hk : c.kind <;> first | rfl | (rw [hk] at hbinary; cases hbinary)
      refine (ParsesFrom.skip hc rfl hend).bind fun s c1 hc1 hs => ?_
      refine (parses_application h budget c1 hc1).bind fun first c2 hc2 hfirst => ?_
      refine (ih first _ c2 hc2 hfirst).bind fun right c3 hc3 hright => ?_
      exact ih _ _ c3 hc3 (.binary hleft hs hbinary hright)

theorem parses_stageArguments :
    Parses (fun ts es us => Derives o.mode ts (.exprs es) us) (stageArguments o primary budget) := by
  intro c hc
  refine .bind (.rounds (I := fun args us => Derives o.mode c.rest (.exprs args.reverse) us)
    (moves_argumentRound h.moves budget) (fun args c1 hc1 hargs => ?_) hc .noExprs)
    fun args c1 hc1 hargs => .pure hc1 hargs
  refine .test_bind (.ite (fun _ => ?_) fun _ => .test_bind ?_)
  · refine (parses_operand h budget c1 hc1).bind fun e c2 hc2 he => .pure hc2 ?_
    show Derives o.mode c.rest (.exprs (e :: args).reverse) c2.rest
    rw [List.reverse_cons]
    exact .exprs hargs he
  · cases c1.operator? 0 with
    | none => exact .pure hc1 hargs
    | some op =>
      cases args with
      | nil => exact .pure hc1 hargs
      | cons last others =>
        rw [List.reverse_cons] at hargs
        obtain ⟨mid, hothers, hlast⟩ := exprs_append hargs
        refine (parses_chain h budget last 0 c1 hc1 hlast).bind fun e c2 hc2 he => .pure hc2 ?_
        show Derives o.mode c.rest (.exprs (e :: others).reverse) c2.rest
        rw [List.reverse_cons]
        exact .exprs hothers he

theorem parses_stage :
    Parses (fun ts g us => Derives o.mode ts (.stage g) us) (stage o primary budget) := by
  intro c hc
  refine .test_bind (.ite (fun _ => ?_) fun _ => .fail)
  refine (parses_operand h budget c hc).bind fun head c1 hc1 hhead => ?_
  refine (parses_stageArguments h budget c1 hc1).bind fun args c2 hc2 hargs => ?_
  split
  · exact .fail
  · exact .pure hc2 (.stage hhead hargs)

omit budget in
theorem parses_pushStage (s : Stages) :
    Parses (fun ts s' us => ∃ g, s'.stages = g :: s.stages ∧ Derives o.mode ts (.stage g) us)
      (pushStage o primary s) := by
  intro c hc
  refine .ite (fun _ => ?_) fun _ => ?_
  · cases s.budget with
    | zero => exact .fail
    | succ budget => exact (parses_stage h budget c hc).bind fun g c1 hc1 hg => .pure hc1 ⟨g, rfl, hg⟩
  · exact (parses_stage h _ c hc).bind fun g c1 hc1 hg => .pure hc1 ⟨g, rfl, hg⟩

omit budget in
theorem parses_inlineStages {start : List Token} {inBlock : Bool} {c : Cursor} (hc : c.Lexed)
    {s : Stages} (hs : Derives o.mode start (.stages inBlock s.stages.reverse) c.rest) :
    ParsesFrom c (fun s us => Derives o.mode start (.stages inBlock s.stages.reverse) us)
      (inlineStages o primary s) := by
  refine .rounds (I := fun s us => Derives o.mode start (.stages inBlock s.stages.reverse) us)
    (moves_pipeRound h.moves) (fun s c1 hc1 hs => ?_) hc hs
  refine .accept_bind hc1 TokenKind.isPunctuation_iff.mp rfl (fun t c2 hc2 ht => ?_) (.pure hc1 hs)
  refine (parses_pushStage h s c2 hc2).bind fun s' c3 hc3 hg => .pure hc3 ?_
  obtain ⟨g, hstages, hg⟩ := hg
  show Derives o.mode start (.stages inBlock s'.stages.reverse) c3.rest
  rw [hstages, List.reverse_cons]
  exact .piped hs ht hg

omit budget in
/-- The line starts after the stages before it, in the block of the pipeline or opening it. -/
theorem parses_stageLine {start : List Token} {c : Cursor} (hc : c.Lexed) {s : Stages}
    {inBlock : Bool} {mid : List Token}
    (hs : Derives o.mode start (.stages inBlock s.stages.reverse) mid) (hturn : Turn inBlock mid c.rest) :
    ParsesFrom c (Round.Keeps
      (fun s us => ∃ inBlock mid, Derives o.mode start (.stages inBlock s.stages.reverse) mid ∧
        Turn inBlock mid us)
      (fun s us => ∃ mid, Derives o.mode start (.stages true s.stages.reverse) mid ∧
        Closing true mid us))
      (stageLine o primary s) := by
  refine (parses_pushStage h s c hc).bind fun s1 c1 hc1 hg => ?_
  obtain ⟨g, hstages, hg⟩ := hg
  have hs1 : Derives o.mode start (.stages true s1.stages.reverse) c1.rest := by
    rw [hstages, List.reverse_cons]
    exact .stageLine hs hturn hg
  refine (parses_inlineStages h hc1 hs1).bind fun s2 c2 hc2 hs2 => ?_
  refine .accept_bind hc2 kind_of_atNewline rfl (fun t c3 hc3 hline => ?_) ?_
  · refine .accept_bind hc3 kind_of_atDedent rfl (fun u c4 hc4 hdedent => ?_) ?_
    · exact .pure hc4 ⟨_, hs2, .line hline hdedent⟩
    · refine .test_bind (.ite (fun _ => .fail) fun _ => ?_)
      exact .pure hc3 ⟨true, _, hs2, .line hline⟩
  · refine .accept_bind hc2 kind_of_atDedent rfl (fun u c3 hc3 hdedent => ?_) .fail
    exact .pure hc3 ⟨_, hs2, .dedent hdedent⟩

theorem parses_allStages :
    Parses (fun ts gs us => ∃ inBlock mid, Derives o.mode ts (.stages inBlock gs) mid ∧
      Closing inBlock mid us) (allStages o primary budget) := by
  intro c hc
  refine (parses_inlineStages h hc .noStages).bind fun s c1 hc1 hs => ?_
  refine .openBlock_bind hc1 (fun c2 hc2 hturn => ?_) (.pure hc1 ⟨_, _, hs, .none⟩)
  refine .bind (.rounds
    (I := fun s us => ∃ inBlock mid, Derives o.mode c.rest (.stages inBlock s.stages.reverse) mid ∧
      Turn inBlock mid us)
    (Q := fun s us => ∃ mid, Derives o.mode c.rest (.stages true s.stages.reverse) mid ∧
      Closing true mid us)
    (moves_stageLine h.moves) (fun s c3 hc3 hi => ?_) hc2 ⟨_, _, hs, hturn⟩)
    fun s c3 hc3 hs => .pure hc3 ?_
  · obtain ⟨inBlock, mid, hs, hturn⟩ := hi
    exact parses_stageLine h hc3 hs hturn
  · obtain ⟨mid, hs, hclosing⟩ := hs
    exact ⟨true, mid, hs, hclosing⟩

theorem parses_expression :
    Parses (fun ts e us => Derives o.mode ts (.expr e) us) (expression o primary budget) := by
  intro c hc
  refine (parses_application h budget c hc).bind fun first c1 hc1 hfirst => ?_
  refine (parses_chain h budget first 0 c1 hc1 hfirst).bind fun seed c2 hc2 hseed => ?_
  refine (parses_allStages h budget c2 hc2).bind fun gs c3 hc3 hgs => ?_
  obtain ⟨inBlock, mid, hstages, hclosing⟩ := hgs
  cases hlast : gs.getLast? with
  | some last => exact .pure hc3 (.pipeline hseed hstages hlast hclosing)
  | none =>
    obtain rfl := List.getLast?_eq_none_iff.mp hlast
    obtain ⟨rfl, hmid⟩ := stages_nil hstages
    refine .pure hc3 ?_
    generalize c3.rest = us at hclosing
    cases hclosing
    exact hmid ▸ hseed

end

end PipeLang.Parse
