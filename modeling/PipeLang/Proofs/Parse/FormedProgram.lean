import PipeLang.Proofs.Parse.Formed
import PipeLang.Scan.Lex

/-! The rest of the grammar reads well formed trees as well: forms between brackets, constructs, strings
with their interpolations, and whole programs. -/

namespace PipeLang

theorem Expr.Formed.withSpan {n : Nat} {e : Expr} (h : e.Formed n) (s : Span) :
    (e.withSpan s).Formed n := by
  cases h with
  | ident h1 => exact .ident h1
  | wildcard h1 => exact .wildcard h1
  | number => exact .number
  | text h1 h2 h3 h4 => exact .text h1 h2 h3 h4
  | bool => exact .bool
  | nil => exact .nil
  | record h1 h2 => exact .record h1 h2
  | list h1 => exact .list h1
  | function h1 h2 h3 => exact .function h1 h2 h3
  | binary op h1 h2 => exact .binary op h1 h2
  | apply h1 h2 h3 => exact .apply h1 h2 h3
  | access h1 h2 => exact .access h1 h2
  | pipeline h1 h2 h3 h4 h5 => exact .pipeline h1 h2 h3 h4 h5
  | letIn h1 h2 h3 h4 => exact .letIn h1 h2 h3 h4
  | ifElse h1 h2 h3 h4 => exact .ifElse h1 h2 h3 h4
  | matchOn h1 h2 h3 h4 h5 => exact .matchOn h1 h2 h3 h4 h5
  | tryCatch h1 h2 h3 h4 => exact .tryCatch h1 h2 h3 h4

/-- A name with a well formed value. -/
def Binding.Formed (n : Nat) (b : Binding) : Prop :=
  isIdentifier b.name.text = true ∧ b.value.Formed n

theorem getLast?_ne_none {xs : List α} {x : α} (h : xs.getLast? = some x) : xs ≠ [] := by
  intro he
  rw [he] at h
  cases h

namespace Parse

section

variable {n : Nat} {o : ParseOptions} {primary : Primary} (h : PrimaryFormed n primary)

include h

theorem yields_recordField (budget : Nat) (opened : Span) :
    Yields (Cursor.Formed n) (Binding.Formed n) (recordField o primary budget opened) :=
  .bind (yields_stillOpen _ _ _) fun _ _ => .bind (yields_noComma _ _ _) fun _ _ =>
    .bind (yields_test _) fun _ _ => .ite
      (fun _ => .bind (yields_identifier _) fun _ hkey =>
        .bind (yields_expectPunctuation _ _) fun _ _ =>
        .bind (yields_expression h budget) fun _ hvalue => .pure ⟨hkey, hvalue⟩)
      fun _ => yields_unexpected _ _

theorem yields_record (budget : Nat) :
    Yields (Cursor.Formed n) (Expr.Formed n) (record o primary budget) :=
  .bind yields_skip fun opened _ => .bind (.many (yields_recordField h budget opened))
    fun _ hfields => .bind yields_skip fun _ _ =>
    .pure (.record (fun b hb => (hfields b hb).1) fun b hb => (hfields b hb).2)

omit h in
/-- A repetition that is ready at its start succeeds with at least one item. -/
theorem many_ne_nil {ready : Cursor → Bool} {item : Parse α} {c c' : Cursor} {as : List α}
    (hr : ready c = true) (he : many ready item c = .ok as c') : as ≠ [] := by
  unfold many manyUpTo at he
  rw [test_bind, if_pos hr] at he
  obtain ⟨a, c1, _, he⟩ := bind_eq_ok.mp he
  obtain ⟨rest, c2, _, he⟩ := bind_eq_ok.mp he
  cases he
  exact List.cons_ne_nil _ _

omit h in
theorem atIdent_of_atFunction {c : Cursor} (hb : c.kind = .punctuation .lbracket)
    (hf : c.atFunction = true) : c.next.atIdent = true := by
  obtain ⟨before, rest, errors⟩ := c
  have hnext : (⟨before, rest, errors⟩ : Cursor).next =
      (⟨before, rest, errors⟩ : Cursor).forward := by
    unfold Cursor.next Cursor.atEnd
    rw [hb]
    rfl
  rw [hnext]
  rcases rest with _ | ⟨t, _ | ⟨u, rest⟩⟩
  · simp [Cursor.atFunction, Cursor.namesThen] at hf
  · simp [Cursor.atFunction, Cursor.namesThen] at hf
  · cases hu : u.kind.isIdent with
    | true => exact hu
    | false => simp [Cursor.atFunction, Cursor.namesThen, hu] at hf

theorem formed_of_function (budget : Nat) {c c' : Cursor} {e : Expr} (hc : c.Formed n)
    (hb : c.kind = .punctuation .lbracket) (hf : c.atFunction = true)
    (he : function o primary budget c = .ok e c') : e.Formed n ∧ c'.Formed n := by
  unfold function at he
  rw [skip_bind] at he
  obtain ⟨params, c1, hparams, he⟩ := bind_eq_ok.mp he
  have hsome := many_ne_nil (atIdent_of_atFunction hb hf) hparams
  obtain ⟨hnames, hc1⟩ :=
    Yields.many (yields_identifier _) c.next (Cursor.formed_next hc) params c1 hparams
  have hrest : Yields (Cursor.Formed n) (Expr.Formed n) (do
      let _ ← expectPunctuation .arrow .afterParameters
      let value ← expression o primary budget
      stillOpen .anonymousFunction c.peek.span [.punctuation .rbracket]
      let closed ← expectPunctuation .rbracket .afterFunctionBody
      pure (.function (c.peek.span.merge closed) params value)) :=
    .bind (yields_expectPunctuation _ _) fun _ _ => .bind (yields_expression h budget)
      fun _ hvalue => .bind (yields_stillOpen _ _ _) fun _ _ =>
      .bind (yields_expectPunctuation _ _) fun _ _ => .pure (.function hsome hnames hvalue)
  exact hrest c1 hc1 e c' he

theorem yields_list (budget : Nat) :
    Yields (Cursor.Formed n) (Expr.Formed n) (list o primary budget) := by
  refine .bind yields_skip fun _ _ => .bind (yields_test _) fun _ _ => .ite (fun _ => .fail)
    fun _ => .bind (yields_stageArguments h budget) fun items hitems =>
    .bind (yields_test _) fun _ _ => .ite
      (fun _ => .bind yields_skip fun _ _ => .pure (.list hitems)) fun _ => ?_
  exact .bind (yields_stillOpen _ _ _) fun _ _ => .bind (yields_noComma _ _ _) fun _ _ =>
    yields_unexpected _ _

theorem yields_parenthesized (budget : Nat) :
    Yields (Cursor.Formed n) (Expr.Formed n) (parenthesized o primary budget) :=
  .bind yields_skip fun _ _ => .bind (yields_expression h budget) fun _ he =>
    .bind (yields_stillOpen _ _ _) fun _ _ => .bind (yields_expectPunctuation _ _) fun _ _ =>
    .pure (he.withSpan _)

omit h in
theorem yields_wildcard : Yields (Cursor.Formed n) (Expr.Formed n) wildcard := by
  refine .bind yields_skip fun _ _ => .bind (.many (Q := fun x : Name =>
    isIdentifier x.text = true) (.bind yields_skip fun _ _ => yields_identifier _)) fun path hpath =>
    .pure (.wildcard ?_)
  intro f hf
  obtain ⟨x, hx, rfl⟩ := List.mem_map.mp hf
  exact hpath x hx

/-! Constructs. -/

theorem yields_result (budget : Nat) :
    Yields (Cursor.Formed n) (Expr.Formed n) (result o primary budget) :=
  yields_body (yields_expression h budget)

theorem yields_definition (budget : Nat) :
    Yields (Cursor.Formed n) (Binding.Formed n) (definition o primary budget) := by
  refine .bind (yields_identifier _) fun name hname => .bind (.many (yields_identifier _))
    fun params hparams => .bind (yields_expectOperator _ _) fun _ _ =>
    .bind (yields_result h budget) fun value hvalue => .pure ⟨hname, ?_⟩
  cases params with
  | nil => exact hvalue
  | cons first rest => exact .function (List.cons_ne_nil _ _) hparams hvalue

theorem yields_binding (budget : Nat) :
    Yields (Cursor.Formed n) (Binding.Formed n) (binding o primary budget) :=
  .bind (yields_test _) fun _ _ => .ite (fun _ => yields_definition h budget)
    fun _ => yields_unexpected _ _

/-- Local definitions read so far, at least one. -/
def BindingsFormed (n : Nat) (bs : List Binding) : Prop := bs ≠ [] ∧ ∀ b ∈ bs, b.Formed n

omit h in
theorem bindingsFormed_cons {b : Binding} {bs : List Binding} (hb : b.Formed n)
    (hbs : ∀ b ∈ bs, b.Formed n) : BindingsFormed n (b :: bs) := by
  refine ⟨List.cons_ne_nil _ _, ?_⟩
  intro d hd
  rcases List.mem_cons.mp hd with rfl | hd
  · exact hb
  · exact hbs d hd

theorem yields_blockBinding (budget : Nat) (s : List Binding × Bool)
    (hs : ∀ b ∈ s.1, b.Formed n) :
    Yields (Cursor.Formed n)
      (Yields.Rounds (fun t => BindingsFormed n t.1) fun t => BindingsFormed n t.1)
      (blockBinding o primary budget s) := by
  refine .bind (yields_binding h budget) fun b hb => .bind (yields_accept _) fun _ _ =>
    .ite (fun _ => .pure (bindingsFormed_cons hb hs)) fun _ => .bind (yields_accept _) fun _ _ =>
    .bind (yields_accept _) fun _ _ => .ite (fun _ => .pure (bindingsFormed_cons hb hs)) fun _ =>
    .bind (yields_test _) fun _ _ => .ite (fun _ => .pure (bindingsFormed_cons hb hs)) fun _ => ?_
  exact .bind (yields_test _) fun _ _ => .ite (fun _ => .pure (bindingsFormed_cons hb hs))
    fun _ => yields_unexpected _ _

theorem yields_bindings (budget : Nat) :
    Yields (Cursor.Formed n) (fun x => BindingsFormed n x.1) (bindings o primary budget) := by
  refine .bind (yields_openBlock _) fun _ _ => .ite (fun _ => ?_) fun _ => ?_
  · refine .bind (.rounds_first (fun s hs => yields_blockBinding h budget s hs.2) (fun _ hs => hs)
      (yields_blockBinding h budget _ fun b hb => absurd hb List.not_mem_nil)) fun s hs => .pure ?_
    refine ⟨?_, fun b hb => hs.2 b (List.mem_reverse.mp hb)⟩
    intro he
    exact hs.1 (List.reverse_eq_nil_iff.mp he)
  · exact .bind (yields_binding h budget) fun first hfirst =>
      .bind (.many (.bind yields_skip fun _ _ => yields_binding h budget)) fun rest hrest =>
      .pure (bindingsFormed_cons hfirst hrest)

theorem yields_letIn (budget : Nat) :
    Yields (Cursor.Formed n) (Expr.Formed n) (letIn o primary budget) := by
  refine .bind yields_skip fun _ _ => .bind (yields_bindings h budget) fun x hx =>
    .bind (yields_clauseAhead _ _) fun found _ => ?_
  cases found with
  | none => exact .fail
  | some inBlock =>
    exact .bind yields_skip fun _ _ => .bind (yields_result h budget) fun value hvalue =>
      .bind (yields_closeBlockIf _ _) fun _ _ =>
      .pure (.letIn hx.1 (fun b hb => (hx.2 b hb).1) (fun b hb => (hx.2 b hb).2) hvalue)

theorem yields_branch (budget : Nat) (inBlock : Bool) :
    Yields (Cursor.Formed n) (fun x => x.1.condition.Formed n ∧ x.1.result.Formed n)
      (branch o primary budget inBlock) := by
  refine .bind yields_skip fun _ _ => .bind (yields_expression h budget) fun condition hc =>
    .bind (yields_clauseAhead _ _) fun found _ => ?_
  cases found with
  | none => exact yields_unexpected _ _
  | some inBlock =>
    exact .bind yields_skip fun _ _ => .bind (yields_result h budget) fun value hv =>
      .pure ⟨hc, hv⟩

theorem yields_ifElse (budget : Nat) :
    Yields (Cursor.Formed n) (Expr.Formed n) (ifElse o primary budget) := by
  refine .bind (.test (Q := fun _ => True) fun _ _ => trivial) fun start _ =>
    .bind (yields_branch h budget false) fun first hfirst =>
    .bind (yields_clauses (Q := fun b : Branch => b.condition.Formed n ∧ b.result.Formed n)
      (yields_branch h budget) _) fun others hothers =>
    .bind (yields_clauseAhead _ _) fun found _ => ?_
  have hall : ∀ b ∈ first.1 :: others.1, b.condition.Formed n ∧ b.result.Formed n := by
    intro b hb
    rcases List.mem_cons.mp hb with rfl | hb
    · exact hfirst
    · exact hothers b hb
  cases found with
  | none => exact .fail
  | some inBlock =>
    exact .bind yields_skip fun _ _ => .bind (yields_result h budget) fun fallback hfallback =>
      .bind (yields_closeBlockIf _ _) fun _ _ =>
      .pure (.ifElse (List.cons_ne_nil _ _) (fun b hb => (hall b hb).1)
        (fun b hb => (hall b hb).2) hfallback)

theorem yields_guard (budget : Nat) :
    Yields (Cursor.Formed n) (fun g => ∀ e, g = some e → e.Formed n)
      (guard? o primary budget) := by
  refine .bind (yields_accept _) fun _ _ => .ite (fun _ => ?_) fun _ => ?_
  · refine .bind (yields_expression h budget) fun e he => .pure ?_
    intro e' heq
    obtain rfl := Option.some.inj heq
    exact he
  · refine .pure ?_
    intro e' heq
    cases heq

omit h in
theorem yields_arrow (place : Place) (others : List Expected) :
    Yields (Cursor.Formed n) (fun _ => True) (arrow place others) :=
  .bind (yields_accept _) fun _ _ => .ite (fun _ => .pure trivial) fun _ => yields_unexpected _ _

/-- A clause of a match with all its parts. -/
structure ClauseFormed (n : Nat) (c : Clause) : Prop where
  pattern : c.pattern.Formed
  guard : ∀ g, c.guard = some g → g.Formed n
  result : c.result.Formed n

theorem yields_matchClause (budget : Nat) :
    Yields (Cursor.Formed n) (ClauseFormed n) (matchClause o primary budget) :=
  .bind yields_skip fun _ _ => .bind (yields_pattern o budget) fun _ hp =>
    .bind (yields_guard h budget) fun _ hg => .bind (yields_arrow _ _) fun _ _ =>
    .bind (yields_result h budget) fun _ hv => .pure ⟨hp, hg, hv⟩

omit h in
theorem yields_map {Q : α → Prop} {R : β → Prop} {f : α → β} {rule : Parse α}
    (hr : Yields (Cursor.Formed n) Q rule) (hf : ∀ a, Q a → R (f a)) :
    Yields (Cursor.Formed n) R (f <$> rule) :=
  .bind hr fun a ha => .pure (hf a ha)

theorem yields_matchOn (budget : Nat) :
    Yields (Cursor.Formed n) (Expr.Formed n) (matchOn o primary budget) := by
  refine .bind yields_skip fun _ _ => .bind (yields_expression h budget) fun subject hsubject =>
    .bind (yields_clauses (Q := ClauseFormed n)
      (fun _ => yields_map (yields_matchClause h budget) fun _ ha => ha) _) fun x hx => ?_
  obtain ⟨found, inBlock⟩ := x
  dsimp only
  cases hlast : found.getLast? with
  | some last =>
    exact .bind (yields_closeBlockIf _ _) fun _ _ =>
      .pure (.matchOn hsubject (getLast?_ne_none hlast) (fun c hc => (hx c hc).pattern)
        (fun c hc => (hx c hc).guard) fun c hc => (hx c hc).result)
  | none => exact .fail

omit h in
/-- A name that is read has passed the test it was read under. -/
theorem nameIf_eq_ok {p : Cursor → Bool} {c c' : Cursor} {name : Option Name}
    (he : nameIf p c = .ok name c') :
    (name = none ∧ c' = c) ∨
      ∃ x, name = some x ∧ p c = true ∧ c.kind = .ident x.text ∧ c' = c.next := by
  unfold nameIf at he
  rw [test_bind] at he
  split at he
  · next hp =>
    obtain ⟨x, c1, hx, he⟩ := bind_eq_ok.mp he
    obtain ⟨hk, _, rfl⟩ := identifier_eq_ok hx
    cases he
    exact .inr ⟨x, rfl, hp, hk, rfl⟩
  · cases he
    exact .inl ⟨rfl, rfl⟩

omit h in
theorem isCapitalized_of_kind {c : Cursor} {x : Name} (hk : c.kind = .ident x.text) :
    c.atCapitalized = x.isCapitalized := by
  unfold Cursor.atCapitalized Name.isCapitalized
  rw [hk]

omit h in
theorem name_ok_of_kind {c : Cursor} (hc : c.Formed n) {name : String} (hk : c.kind = .ident name) :
    isIdentifier name = true :=
  (Cursor.formed_peek hc).name_ok hk

theorem yields_catchClause (budget : Nat) :
    Yields (Cursor.Formed n) (fun c => c.Named ∧ c.handler.Formed n)
      (catchClause o primary budget) := by
  intro c hc a c' he
  unfold catchClause at he
  rw [skip_bind] at he
  have hc1 := Cursor.formed_next hc
  obtain ⟨tag, c2, htag, he⟩ := bind_eq_ok.mp he
  obtain ⟨bound, c3, hbound, he⟩ := bind_eq_ok.mp he
  have htag_ok : (∀ x, tag = some x → isIdentifier x.text = true ∧ x.isCapitalized = true) ∧
      c2.Formed n := by
    rcases nameIf_eq_ok htag with ⟨rfl, rfl⟩ | ⟨x, rfl, hp, hk, rfl⟩
    · exact ⟨fun x hx => (nomatch hx), hc1⟩
    · refine ⟨fun y hy => ?_, Cursor.formed_next hc1⟩
      obtain rfl := Option.some.inj hy
      exact ⟨name_ok_of_kind hc1 hk, by rw [← isCapitalized_of_kind hk]; exact hp⟩
  have hbound_ok : (∀ x, bound = some x → isIdentifier x.text = true ∧ x.isCapitalized = false) ∧
      c3.Formed n := by
    rcases nameIf_eq_ok hbound with ⟨rfl, rfl⟩ | ⟨x, rfl, hp, hk, rfl⟩
    · exact ⟨fun x hx => (nomatch hx), htag_ok.2⟩
    · refine ⟨fun y hy => ?_, Cursor.formed_next htag_ok.2⟩
      obtain rfl := Option.some.inj hy
      have hlow : c2.atCapitalized = false := by simpa using (Bool.and_eq_true_iff.mp hp).2
      exact ⟨name_ok_of_kind htag_ok.2 hk, by rw [← isCapitalized_of_kind hk]; exact hlow⟩
  split at he
  · cases he
  · next hsome =>
    have hrest : Yields (Cursor.Formed n) (fun c => c.Named ∧ c.handler.Formed n) (do
        arrow .catchClause (if bound.isSome then [] else [.identifier])
        let handler ← result o primary budget
        pure (⟨c.peek.span.merge handler.span, tag, bound, handler⟩ : Catch)) := by
      refine .bind (yields_arrow _ _) fun _ _ => .bind (yields_result h budget) fun handler hh =>
        .pure ⟨⟨?_, htag_ok.1, hbound_ok.1⟩, hh⟩
      cases tag <;> cases bound <;> simp at hsome ⊢
    exact hrest c3 hbound_ok.2 a c' he

theorem yields_tryCatch (budget : Nat) :
    Yields (Cursor.Formed n) (Expr.Formed n) (tryCatch o primary budget) := by
  refine .bind yields_skip fun _ _ => .bind (yields_result h budget) fun value hvalue =>
    .bind (yields_clauses (Q := fun c : Catch => c.Named ∧ c.handler.Formed n)
      (fun _ => yields_map (yields_catchClause h budget) fun _ ha => ha) _) fun x hx => ?_
  obtain ⟨found, inBlock⟩ := x
  dsimp only
  cases hlast : found.getLast? with
  | some last =>
    exact .bind (yields_closeBlockIf _ _) fun _ _ =>
      .pure (.tryCatch hvalue (getLast?_ne_none hlast) (fun c hc => (hx c hc).1)
        fun c hc => (hx c hc).2)
  | none => exact .fail

end

/-! Strings, all primary expressions, and programs. -/

section

variable {o : ParseOptions} {primary : Primary} (h : ∀ n, PrimaryFormed n primary)

theorem yields_segments {n : Nat} (hmode : o.mode = .strict)
    (h : PrimaryFormed (n - 1) primary) (budget : Nat) (parts : List StringPart)
    (holes : ∀ tokens span, .hole tokens span ∈ parts → ∀ u ∈ tokens, Token.Formed (n - 1) u) :
    Yields (Cursor.Formed n)
      (fun found => found.map Segment.isLiteral = parts.map StringPart.isLiteral ∧
        (∀ text, .literal text ∈ found → .literal text ∈ parts) ∧
        (∀ e, .hole e ∈ found → e.Formed (n - 1) ∧ ∃ tokens span, .hole tokens span ∈ parts))
      (segments o primary budget parts) := by
  induction parts with
  | nil =>
    exact .pure ⟨rfl, fun _ ht => absurd ht List.not_mem_nil, fun _ he => absurd he List.not_mem_nil⟩
  | cons part rest ih =>
    have ih := ih fun tokens span hm => holes tokens span (List.mem_cons_of_mem _ hm)
    cases part with
    | literal text =>
      refine .bind ih fun more hmore => .pure ⟨?_, ?_, ?_⟩
      · simp [Segment.isLiteral, StringPart.isLiteral, hmore.1]
      · intro t ht
        rcases List.mem_cons.mp ht with ht | ht
        · rw [Segment.literal.inj ht]
          exact List.mem_cons_self
        · exact List.mem_cons_of_mem _ (hmore.2.1 t ht)
      · intro e he
        rcases List.mem_cons.mp he with he | he
        · cases he
        · obtain ⟨hf, tokens, span, hm⟩ := hmore.2.2 e he
          exact ⟨hf, tokens, span, List.mem_cons_of_mem _ hm⟩
    | hole tokens span =>
      have hhole : Yields (Cursor.Formed n) (Expr.Formed (n - 1))
          (hole o primary budget tokens span) := by
        intro c hc e c' he
        unfold hole interpolation at he
        rw [hmode] at he
        cases hr : expression o primary budget (.ofTokens tokens) with
        | error d c1 => rw [hr] at he; cases he
        | ok e1 c1 =>
          rw [hr] at he
          dsimp only at he
          have hstart : (Cursor.ofTokens tokens).Formed (n - 1) :=
            ⟨fun t ht => absurd ht List.not_mem_nil, holes tokens span List.mem_cons_self⟩
          have hformed := (yields_expression h budget _ hstart e1 c1 hr).1
          by_cases hend : c1.atEnd = true
          · rw [if_pos hend] at he
            cases he
            exact ⟨hformed, hc⟩
          · rw [if_neg hend] at he
            cases he
      refine .bind hhole fun e he => .bind ih fun more hmore => .pure ⟨?_, ?_, ?_⟩
      · simp [Segment.isLiteral, StringPart.isLiteral, hmore.1]
      · intro t ht
        rcases List.mem_cons.mp ht with ht | ht
        · cases ht
        · exact List.mem_cons_of_mem _ (hmore.2.1 t ht)
      · intro e' he'
        rcases List.mem_cons.mp he' with he' | he'
        · rw [Segment.hole.inj he']
          exact ⟨he, tokens, span, List.mem_cons_self⟩
        · obtain ⟨hf, tokens', span', hm⟩ := hmore.2.2 e' he'
          exact ⟨hf, tokens', span', List.mem_cons_of_mem _ hm⟩

theorem apart_of_map_eq {f : α → Bool} {g : β → Bool} {xs : List α} {ys : List β}
    (h : xs.map f = ys.map g) (hy : Apart g ys) : Apart f xs := by
  have hflags : (ys.map g).IsChain fun a b => (a && b) = false := (List.isChain_map g).mpr hy
  rw [← h] at hflags
  exact (List.isChain_map f).mp hflags

include h

theorem yields_text {n : Nat} (hmode : o.mode = .strict) (budget : Nat) (span : Span)
    {parts : List StringPart} {t : Token} (ht : t.Formed n) (hk : t.kind = .text parts) :
    Yields (Cursor.Formed n) (Expr.Formed n) (do
      let found ← segments o primary budget parts
      pure (.text span found)) := by
  cases ht with
  | ident hk' => rw [hk'] at hk; cases hk
  | plain hk' => rw [hk] at hk'; cases hk'
  | text hk' literals apart room holes =>
    rw [hk'] at hk
    obtain rfl := TokenKind.text.inj hk
    refine .bind (yields_segments hmode (h (n - 1)) budget _ holes) fun found hfound => .pure ?_
    refine .text ?_ (apart_of_map_eq hfound.1 apart) ?_ fun e he => (hfound.2.2 e he).1
    · intro text ht
      exact literals text (hfound.2.1 text ht)
    · intro e he
      obtain ⟨_, tokens, span, hm⟩ := hfound.2.2 e he
      exact room tokens span hm

theorem yields_primaryInside {n : Nat} (hmode : o.mode = .strict) (budget : Nat) :
    Yields (Cursor.Formed n) (Expr.Formed n) (primaryInside o primary budget) := by
  intro c hc e c' he
  have ht := Cursor.formed_peek hc
  unfold primaryInside at he
  rw [test_bind] at he
  cases hk : c.peek.kind with
  | ident name =>
    rw [hk] at he
    exact (Yields.bind yields_skip fun _ _ => .pure (.ident (ht.name_ok hk))) c hc e c' he
  | number value =>
    rw [hk] at he
    exact (Yields.bind yields_skip fun _ _ => .pure .number) c hc e c' he
  | text parts =>
    rw [hk] at he
    exact (Yields.bind yields_skip fun _ _ => yields_text h hmode budget _ ht hk) c hc e c' he
  | operator op =>
    rw [hk] at he
    cases op with
    | minus =>
      refine (Yields.bind (yields_test _) fun _ _ => .ite (fun _ => ?_) fun _ =>
        yields_unexpected _ _) c hc e c' he
      exact .bind yields_negativeNumber fun _ _ => .pure .number
    | _ => cases he
  | keyword k =>
    rw [hk] at he
    cases k with
    | true_ => exact (Yields.bind yields_skip fun _ _ => .pure .bool) c hc e c' he
    | false_ => exact (Yields.bind yields_skip fun _ _ => .pure .bool) c hc e c' he
    | nil_ => exact (Yields.bind yields_skip fun _ _ => .pure .nil) c hc e c' he
    | let_ => exact yields_letIn (h n) budget c hc e c' he
    | if_ => exact yields_ifElse (h n) budget c hc e c' he
    | match_ => exact yields_matchOn (h n) budget c hc e c' he
    | try_ => exact yields_tryCatch (h n) budget c hc e c' he
    | _ => cases he
  | punctuation p =>
    rw [hk] at he
    cases p with
    | lbrace => exact yields_record (h n) budget c hc e c' he
    | lbracket =>
      by_cases hf : c.atFunction = true
      · have hrun : function o primary budget c = .ok e c' := by
          rw [← he]
          dsimp only
          rw [test_bind, if_pos hf]
        exact formed_of_function (h n) budget hc hk hf hrun
      · have hrun : list o primary budget c = .ok e c' := by
          rw [← he]
          dsimp only
          rw [test_bind, if_neg hf]
        exact yields_list (h n) budget c hc e c' hrun
    | lparen => exact yields_parenthesized (h n) budget c hc e c' he
    | underscore => exact yields_wildcard c hc e c' he
    | _ => cases he
  | _ => rw [hk] at he; cases he

omit h in
/-- At a name only that name is read. -/
theorem isPath_of_primaryInside {budget : Nat} {c c' : Cursor} {e : Expr} (hi : c.atIdent = true)
    (he : primaryInside o primary budget c = .ok e c') : e.isPath = true := by
  unfold primaryInside at he
  rw [test_bind] at he
  have hk : c.peek.kind.isIdent = true := hi
  cases hkind : c.peek.kind with
  | ident name =>
    rw [hkind] at he
    cases he
    rfl
  | _ => rw [hkind] at hk; cases hk

end

theorem primaryFormed_primary {o : ParseOptions} (hmode : o.mode = .strict) (levels : Nat) :
    ∀ n, PrimaryFormed n (primary o levels) := by
  induction levels with
  | zero => exact fun n => ⟨fun _ _ _ _ _ he => (nomatch he), fun _ _ _ _ _ he => (nomatch he)⟩
  | succ levels ih =>
    intro n
    refine ⟨fun budget => ?_, fun budget c e c' hi he => ?_⟩
    · cases budget with
      | zero => exact fun _ _ _ _ he => (nomatch he)
      | succ budget => exact fun c hc e c' he => yields_primaryInside ih hmode budget c hc e c' he
    · cases budget with
      | zero => cases he
      | succ budget => exact isPath_of_primaryInside hi he

section

variable {o : ParseOptions} {n : Nat} (hmode : o.mode = .strict)

include hmode

theorem yields_statementLine : Yields (Cursor.Formed n) (Statement.Formed n) (statementLine o) := by
  have h := primaryFormed_primary hmode o.maxDepth n
  have hend : Yields (Cursor.Formed n) (fun _ => True) endOfStatement :=
    .bind (yields_accept _) fun _ _ => .ite (fun _ => .pure trivial) fun _ =>
      .bind (yields_test _) fun _ _ => .ite (fun _ => .pure trivial) fun _ => yields_unexpected _ _
  have hstatement : Yields (Cursor.Formed n) (Statement.Formed n) (statement o) :=
    .bind (yields_test _) fun _ _ => .ite
      (fun _ => .bind (yields_definition h o.maxDepth) fun d hd => .pure hd)
      fun _ => .bind (yields_expression h o.maxDepth) fun e he => .pure he
  exact .bind hstatement fun s hs => .bind hend fun _ _ => .pure hs

omit hmode in
theorem formed_settled {c : Cursor} (hc : c.Formed n) : (settled c).Formed n := by
  have skip : ∀ (p : TokenKind → Bool) (c : Cursor), c.Formed n → (c.skipWhile p).Formed n := by
    intro p c hc
    refine ⟨?_, fun t ht => hc.2 t ((List.dropWhile_sublist _).mem ht)⟩
    intro t ht
    rcases List.mem_append.mp ht with ht | ht
    · exact hc.2 t ((List.takeWhile_sublist _).mem (List.mem_reverse.mp ht))
    · exact hc.1 t ht
  exact skip _ _ (skip _ _ hc)

/-- The statements of a strict run up to its first error. -/
theorem formed_statementsUpTo (fuel : Nat) (c : Cursor) (hc : c.Formed n) :
    ∀ s ∈ (statementsUpTo o fuel c).1, s.Formed n := by
  induction fuel generalizing c with
  | zero => exact fun s hs => absurd hs List.not_mem_nil
  | succ fuel ih =>
    intro s hs
    unfold statementsUpTo at hs
    dsimp only at hs
    split at hs
    · exact absurd hs List.not_mem_nil
    rw [hmode] at hs
    cases hline : statementLine o (settled c) with
    | ok first after =>
      rw [hline] at hs
      obtain ⟨hfirst, hafter⟩ := yields_statementLine hmode _ (formed_settled hc) first after hline
      rcases List.mem_cons.mp hs with rfl | hs
      · exact hfirst
      · exact ih after hafter s hs
    | error d after =>
      rw [hline] at hs
      exact absurd hs List.not_mem_nil

end

end Parse

theorem eq_ok_of_toOption {ε α : Type} {x : Except ε α} {a : α} (h : x.toOption = some a) :
    x = .ok a := by
  cases x with
  | ok b => exact congrArg Except.ok (Option.some.inj h)
  | error e => cases h

/-- What is computed from a text by way of its program belongs to a program. -/
theorem exists_of_read {α : Type} {source : String} {o : ParseOptions} {f : Program → α} {a : α}
    (h : (Scan.lex source).toOption.bind (fun tokens => (parse o tokens).toOption.map f) = some a) :
    ∃ tokens p, Scan.lex source = .ok tokens ∧ parse o tokens = .ok p ∧ f p = a := by
  obtain ⟨tokens, hlex, hmap⟩ := Option.bind_eq_some_iff.mp h
  obtain ⟨p, hparse, hp⟩ := Option.map_eq_some_iff.mp hmap
  exact ⟨tokens, p, eq_ok_of_toOption hlex, eq_ok_of_toOption hparse, hp⟩

/-- A program that parsing has given has every key once. -/
theorem keyErrors_of_parse {o : ParseOptions} (hplain : o.resolvePipelines = false)
    {tokens : List Token} {p : Program} (h : parse o tokens = .ok p) : p.keyErrors = [] := by
  obtain ⟨-, hkeys, rfl⟩ := parse_eq_ok.mp h
  simpa [Program.desugar, hplain] using hkeys

theorem formed_run {o : ParseOptions} (hmode : o.mode = .strict) {n : Nat} {tokens : List Token}
    (ht : ∀ t ∈ tokens, t.Formed n) : (Parse.run o tokens).1.Formed n := by
  have hstart : (Cursor.ofTokens tokens).Formed n :=
    ⟨fun t ht => absurd ht List.not_mem_nil, ht⟩
  intro s hs
  exact Parse.formed_statementsUpTo hmode (tokens.length + 1) _ hstart s
    (Parse.run_statements o tokens ▸ hs)

/-- A program that is read from well formed tokens is well formed. -/
theorem formed_of_parse {o : ParseOptions} (hmode : o.mode = .strict)
    (hplain : o.resolvePipelines = false) {n : Nat} {tokens : List Token} {p : Program}
    (ht : ∀ t ∈ tokens, t.Formed n) (h : parse o tokens = .ok p) : p.Formed n := by
  obtain ⟨-, -, rfl⟩ := parse_eq_ok.mp h
  simp only [Program.desugar, hplain, Bool.false_eq_true, if_false]
  exact formed_run hmode ht

end PipeLang
