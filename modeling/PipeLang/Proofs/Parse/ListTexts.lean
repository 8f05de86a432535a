import PipeLang.Proofs.Format.WrittenToken
import PipeLang.Proofs.Parse.BalancedExpr
import PipeLang.Proofs.Parse.BlockClauses
import PipeLang.Proofs.Parse.Formed
import PipeLang.Proofs.Parse.ListItems

/-! A list written around the texts of its elements. -/

namespace PipeLang

namespace Parse

variable {o : ParseOptions} {levels b : Nat} {a : Expr} {ts us : List Token}

/-! ## Operands as fragments -/

/-- An operand that ends with its line is a whole expression. -/
theorem expression_of_operand {c d : Cursor} {lines : List Span} {last : Span}
    (hrun : operand o (primary o levels) b c = .ok a d) (hd : d.Stands (lineEnds lines last)) :
    expression o (primary o levels) b c = .ok a d := by
  have happly : application o (primary o levels) b c = .ok a d := by
    have hargs : many Cursor.atArgument (operand o (primary o levels) b) d = .ok [] d := by
      unfold many manyUpTo
      rw [test_bind, (endsOperand_lineEnds lines last).argument d hd.rest]
      rfl
    unfold application
    rw [test_bind, bind_of_ok hrun]
    cases c.atConstruct with
    | true => rfl
    | false =>
      simp only [Bool.false_eq_true, if_false]
      rw [bind_of_ok hargs]
      rfl
  have hop : d.operator? 0 = none := by
    unfold Cursor.operator?
    rcases kind_of_lineEnds hd.rest with h | h <;> rw [h] <;> rfl
  have hstages : stagesFrom o (primary o levels) ⟨b, []⟩ d = .ok [] d := allStages_of_lineEnds hd
  rw [expression_parts, bind_of_ok happly, bind_of_ok (chain_of_stop hop b a)]
  exact bind_of_ok hstages

theorem resolve_of_limit (o : ParseOptions) (limit : Nat) :
    { o with maxDepth := limit }.resolvePipelines = true → o.resolvePipelines = true := id

/-- The limit itself is of no account where the levels are given. -/
theorem operand_within (levels b : Nat) (hmode : o.mode = .strict) (limit : Nat) :
    Limited ((limited (resolve_of_limit o limit)).same Expr.relocate)
      (operand o (primary o levels) b)
      (operand { o with maxDepth := limit } (primary { o with maxDepth := limit } levels) b) :=
  Coupling.operand (C := limited (resolve_of_limit o limit))
    (fun h => limited_primary (resolve_of_limit o limit) hmode hmode levels (Nat.le_refl levels) h)
    (Nat.le_refl b)

/-- Nothing but the operand of a line is read from it. -/
theorem parseFragment_of_operand {o : ParseOptions} (hmode : o.mode = .strict) {lines : List Span}
    {last : Span} {t : Token} (hline : t.kind.isNewline = false) {d : Cursor}
    (hrun : operand o (rootPrimary o) o.maxDepth (.ofTokens (t :: ts)) = .ok a d)
    (hd : d.rest = lineEnds lines last) {tree : Expr} :
    parseFragment o .expression (t :: ts) = .ok (.expression tree) ↔ a.finish o = .ok tree := by
  have hstands : d.Stands (lineEnds lines last) := ⟨hd, (operand_within _ _ hmode o.maxDepth).errors_eq hrun⟩
  rw [parseFragment_of_expression hline (expression_of_operand hrun hstands) hstands]
  constructor
  · intro h
    cases hok : a.finish o with
    | error e =>
      rw [hok] at h
      cases h
    | ok x =>
      rw [hok] at h
      cases h
      rfl
  · intro hok
    rw [hok]
    rfl

/-- An error in what the expression starts with is the only one. -/
theorem parseFragment_of_error {o : ParseOptions} {t : Token} (hline : t.kind.isNewline = false)
    {e : Diagnostic} {d : Cursor} (hrun : rootPrimary o o.maxDepth (.ofTokens (t :: ts)) = .error e d) :
    parseFragment o .expression (t :: ts) = .error [e] := by
  have happly : application o (rootPrimary o) o.maxDepth (.ofTokens (t :: ts)) = .error e d := by
    unfold application operand
    rw [test_bind]
    exact bind_of_error (bind_of_error hrun)
  exact parseFragment_of_failure hline (show rootExpression o _ = _ from bind_of_error happly)

/-! ## Operands further on in a line -/

section

variable {f g : Span → Span} {holes : List Token → List Token → Prop}
  (h : List.Forall₂ (Token.Alike f g holes) ts us)

include h

theorem openBrackets_of_alike (bs : List Punctuation) : openBrackets bs ts = openBrackets bs us := by
  induction h generalizing bs with
  | nil => rfl
  | cons htu _ ih =>
    rw [openBrackets, openBrackets, htu.kind.blind (p := bracketsAfter bs) fun _ _ => rfl]
    exact congrArg _ (funext fun bs => ih bs)

theorem constructsEnclosed_of_alike (hts : ConstructsEnclosed ts) : ConstructsEnclosed us := by
  rw [constructsEnclosed_iff] at hts ⊢
  intro i hi hopen
  have hlength := h.length_eq
  have hi' : i < ts.length := hlength ▸ hi
  have hkind : ts[i].kind.isConstruct = us[i].kind.isConstruct :=
    (h.get hi' hi).kind.blind (p := TokenKind.isConstruct) fun _ _ => rfl
  rw [← hkind]
  exact hts i hi' ((openBrackets_of_alike (List.forall₂_take i h) []).trans hopen)

end

theorem readsOperandAlone_of_transposed (h : ReadsAlone (operand o (primary o levels) b) ts a)
    (hconstructs : ConstructsEnclosed ts) (hus : Scan.Transposed ts us) :
    ∃ a', ReadsOperandAlone o levels b us a' ∧ a.erase = a'.erase := by
  obtain ⟨⟨k, s⟩, he, hread⟩ := h
  obtain rfl : k = .eof := he
  obtain ⟨d, hsame⟩ := hus.same
  have hend : s.further d = (s.further d).further 0 := rfl
  have halike := tokensAlike_of_further hend hsame
  obtain ⟨a', hread', herase⟩ := hread.of_alike
    (Coupling.operand (C := sideBySide o mergeable_origin)
      (fun {b _} h => by cases h; exact sideBySide_primary o mergeable_origin levels b) rfl) halike
  exact ⟨a', ⟨⟨hus.flat, constructsEnclosed_of_alike hsame hconstructs⟩, _, rfl, hread'⟩, herase⟩

/-- Under a larger limit as many levels are enough. -/
theorem ReadsOperandAlone.of_limit (hmode : o.mode = .strict) (h : ReadsOperandAlone o levels b ts a)
    (limit : Nat) : ReadsOperandAlone { o with maxDepth := limit } levels b ts a := by
  obtain ⟨hplain, e, he, c, hrun, hend⟩ := h
  have hout := operand_within levels b hmode limit (.ofTokens (ts ++ [e]))
  rw [hrun] at hout
  generalize hy : operand { o with maxDepth := limit } (primary { o with maxDepth := limit } levels) b
    (.ofTokens (ts ++ [e])) = r at hout
  cases hout with
  | @ok _ a' _ value quiet =>
    have hsame : a = a' := by
      rw [← a.relocate_id, ← a'.relocate_id]
      exact value
    exact ⟨hplain, e, he, c, hsame ▸ hy, hend⟩

theorem openBrackets_of_alone (h : ReadsAlone (operand o (primary o levels) b) ts a) :
    openBrackets [] ts = some [] := by
  obtain ⟨e, he, c, hrun, hlength, -⟩ := h
  have hopens : (Cursor.ofTokens (ts ++ [e])).Opens (ts ++ [e]) [] := ⟨rfl, ⟨e, List.getLast?_concat, he⟩, rfl⟩
  have hend := balanced_operand (balanced_primary o levels) _ _ _ _ hopens a c hrun
  obtain ⟨t, ht⟩ := List.length_eq_one_iff.mp hlength
  have htokens := hend.tokens
  rw [ht] at htokens
  obtain ⟨rfl, -⟩ := List.append_inj' htokens rfl
  exact hend.brackets

/-! ## Lines -/

theorem stageFollow_line (line last : Span) : StageFollow (lineEnds [line] last) :=
  ⟨⟨_, _, rfl, rfl⟩, ⟨_, rfl, rfl⟩⟩

/-- An operand that has its line to itself. -/
theorem parseFragment_of_alone (hmode : o.mode = .strict)
    (h : ReadsOperandAlone o o.maxDepth o.maxDepth ts a) (line last : Span) {tree : Expr} :
    parseFragment o .expression (ts ++ lineEnds [line] last) = .ok (.expression tree) ↔
      a.finish o = .ok tree := by
  have hline := stageFollow_line line last
  obtain ⟨t, more, rfl, ht⟩ := (startsOperand_of_alone h).head
  obtain ⟨d, hrun, hd, -⟩ := operand_of_alone h hline.follow (fun t _ => hline.apart t)
    (d := .ofTokens (t :: more ++ lineEnds [line] last)) rfl
  refine parseFragment_of_operand hmode ?_ hrun hd
  cases hk : t.kind <;> first | rfl | (rw [hk] at ht; cases ht)

/-- Operands with gaps between them are read as a list, one level further in. -/
theorem parseFragment_of_items (hmode : o.mode = .strict) {items : List (List Token)} {trees : List Expr}
    (h : List.Forall₂ (ReadsOperandAlone o o.maxDepth o.maxDepth) items trees) (hspaced : Scan.Spaced items)
    (hfirst : ∀ ts ∈ items.head?, ∀ t ∈ ts.head?, t.kind.isOperator .minus = false)
    (opened closed line last : Span) {tree : Expr} :
    parseFragment { o with maxDepth := o.maxDepth + 1 } .expression (⟨.punctuation .lbracket, opened⟩ ::
        (items.flatten ++ ⟨.punctuation .rbracket, closed⟩ :: lineEnds [line] last)) =
      .ok (.expression tree) ↔
    (Expr.list (opened.merge closed) trees).finish { o with maxDepth := o.maxDepth + 1 } = .ok tree := by
  have hdeeper := h.imp fun _ _ h => h.of_limit hmode (o.maxDepth + 1)
  have hopening : (Token.mk (.punctuation .lbracket) opened).kind = .punctuation .lbracket := rfl
  have hclosing : (Token.mk (.punctuation .rbracket) closed).kind = .punctuation .rbracket := rfl
  obtain ⟨d, hrun, hd⟩ := primary_of_items (d := .ofTokens (_ :: (items.flatten ++ _))) hclosing
    (stageFollow_line line last).last hopening hdeeper hspaced hfirst rfl
  have haccess := (endsOperand_lineEnds [line] last).access d hd
  exact parseFragment_of_operand (o := { o with maxDepth := o.maxDepth + 1 }) hmode rfl
    ((bind_of_ok hrun).trans (accesses_of_atAccess haccess _ _)) hd

end Parse

open Parse

/-- A sign that the first element starts with. -/
theorem parseFragment_of_minus {o : ParseOptions} (hpos : 0 < o.maxDepth) {opening t : Token}
    {rest : List Token} (hopening : opening.kind = .punctuation .lbracket)
    (hminus : t.kind.isOperator .minus = true) (htouch : t.span.start = opening.span.stop) :
    ∃ e, e.cause = .unexpected (.operator .minus) (.within .listLiteral) ∧
      parseFragment o .expression (opening :: t :: rest) = .error [e] := by
  obtain ⟨n, hn⟩ : ∃ n, o.maxDepth = n + 1 := ⟨o.maxDepth - 1, by omega⟩
  obtain ⟨e, hrun, hcause⟩ : ∃ e, rootPrimary o o.maxDepth (.ofTokens (opening :: t :: rest)) = .error e _ ∧
      e.cause = .unexpected (.operator .minus) (.within .listLiteral) := by
    rw [rootPrimary, hn]
    exact primary_of_minus hopening (TokenKind.isOperator_iff.mp hminus) htouch rfl
  exact ⟨e, hcause, parseFragment_of_error (by rw [hopening]; rfl) hrun⟩

/-! ## Texts -/

/-- Nothing that an operand starts with is written with a minus sign in front but the sign itself. -/
theorem head_ne_minus_of_spells {before x : List Char} {k : TokenKind} (h : Spells before x k)
    (hk : k.startsOperand = true) (hname : ∀ name, k = .ident name → isIdentifier name = true)
    (hminus : k.isOperator .minus = false) : ∃ c cs, x = c :: cs ∧ c ≠ '-' := by
  have hdigit : ∀ {d : Char}, d.isDigit = true → d ≠ '-' := by
    rintro _ hd rfl
    exact absurd hd (by decide)
  cases h with
  | ident name =>
    obtain ⟨c, cs, hc, halpha⟩ := exists_isAlpha_of_isWord (Bool.and_eq_true_iff.mp (hname name rfl)).1
    refine ⟨c, cs, hc, ?_⟩
    rintro rfl
    exact absurd halpha (by decide)
  | operator op => cases op <;> first | exact absurd hminus (by decide) | cases hk
  | keyword k => cases k <;> exact ⟨_, _, rfl, by decide⟩
  | punctuation p => cases p <;> first | exact ⟨_, _, rfl, by decide⟩ | cases hk
  | whole nonempty digits =>
    obtain ⟨d, ds, rfl⟩ := List.exists_cons_of_ne_nil nonempty
    exact ⟨d, ds, rfl, hdigit (digits d List.mem_cons_self)⟩
  | places nonempty digits =>
    obtain ⟨d, ds, rfl⟩ := List.exists_cons_of_ne_nil nonempty.1
    exact ⟨d, _, rfl, hdigit (digits d List.mem_cons_self)⟩
  | text _ => exact ⟨_, _, rfl, by decide⟩
  | _ => cases hk

namespace Scan.Item

variable {text : String} {ts : List Token} (h : Item text ts)

include h

theorem flat : ∀ t ∈ ts, t.kind.isLayout = false := by
  intro t ht
  obtain ⟨i, hi, rfl⟩ := List.mem_iff_getElem.mp ht
  have hinside := h.inside .origin
  have hi' := hinside.same.length_eq ▸ hi
  have hkind := (hinside.same.get hi hi').kind.blind (p := TokenKind.isLayout) fun _ _ => rfl
  exact hkind.trans (hinside.flat _ (List.mem_reverse.mp (List.getElem_mem hi')))

/-- An operand starts with a minus sign if its text does. -/
theorem minus_iff {t : Token} (ht : t ∈ ts.head?) (hk : t.kind.startsOperand = true) :
    t.kind.isOperator .minus = true ↔ text.toList.head? = some '-' := by
  obtain ⟨x, cs, htext, -, hspells⟩ := h.spells_head ht
  obtain ⟨newline, eof, hread, -⟩ := h.read
  have hformed := formed_of_lex hread t (List.mem_append_left _ (List.mem_of_mem_head? ht))
  rw [htext]
  cases hminus : t.kind.isOperator .minus with
  | true =>
    rw [TokenKind.isOperator_iff.mp hminus] at hspells
    cases hspells
    exact ⟨fun _ => rfl, fun _ => rfl⟩
  | false =>
    obtain ⟨c, rest, rfl, hc⟩ := head_ne_minus_of_spells hspells hk (fun _ => hformed.name_ok) hminus
    exact ⟨nofun, fun h => absurd (Option.some.inj h) hc⟩

end Scan.Item

/-- A text of one line without comments that is read alone, as an operand and nothing more: an atom or a
bracketed form, with the fields after it. -/
structure IsElement (limit : Nat) (text : String) (tree : Expr) : Prop extends Scan.Uncommented text where
  reads : ∃ ts line last, Scan.lex text = .ok (ts ++ lineEnds [line] last) ∧ ConstructsEnclosed ts ∧
    (∃ a, ReadsAlone (operand ⟨.strict, limit, false⟩ (rootPrimary ⟨.strict, limit, false⟩) limit) ts a) ∧
      parseFragment ⟨.strict, limit, false⟩ .expression (ts ++ lineEnds [line] last) =
        .ok (.expression tree)

theorem Expr.finish_eq_ok {limit : Nat} {a tree : Expr} :
    a.finish ⟨.strict, limit, false⟩ = .ok tree ↔ a.keyErrors = [] ∧ a = tree := by
  unfold finish
  cases hkeys : a.keyErrors <;> simp

theorem IsElement.read {limit : Nat} {text : String} {tree : Expr} (h : IsElement limit text tree) :
    ∃ ts, Scan.Item text ts ∧ ReadsOperandAlone ⟨.strict, limit, false⟩ limit limit ts tree ∧
      tree.keyErrors = [] := by
  obtain ⟨ts, line, last, hlex, hconstructs, ⟨a, ha⟩, hparse⟩ := h.reads
  have hitem : Scan.Item text ts := ⟨h.toUncommented, ⟨_, _, hlex, rfl⟩, openBrackets_of_alone ha⟩
  have halone : ReadsOperandAlone ⟨.strict, limit, false⟩ limit limit ts a :=
    ⟨⟨hitem.flat, hconstructs⟩, ha⟩
  obtain ⟨hkeys, rfl⟩ := Expr.finish_eq_ok.mp ((parseFragment_of_alone rfl halone line last).mp hparse)
  exact ⟨ts, hitem, halone, hkeys⟩

/-- Two lists that are related by way of a third. -/
theorem forall₂_comp_iff {α β γ : Type} {R : α → β → Prop} {S : β → γ → Prop} {as : List α} {cs : List γ} :
    List.Forall₂ (fun a c => ∃ b, R a b ∧ S b c) as cs ↔
      ∃ bs, List.Forall₂ R as bs ∧ List.Forall₂ S bs cs := by
  constructor
  · intro h
    induction h with
    | nil => exact ⟨[], .nil, .nil⟩
    | cons h _ ih =>
      obtain ⟨b, hr, hs⟩ := h
      obtain ⟨bs, hrs, hss⟩ := ih
      exact ⟨b :: bs, .cons hr hrs, .cons hs hss⟩
  · rintro ⟨bs, hr, hs⟩
    induction hr generalizing cs with
    | nil =>
      cases hs
      exact .nil
    | cons hab _ ih =>
      cases hs with
      | cons hbc hs => exact .cons ⟨_, hab, hbc⟩ (ih hs)

theorem keyErrors_of_erase {a a' : Expr} (h : a.erase = a'.erase) (ha : a.keyErrors = []) :
    a'.keyErrors = [] := by
  have hsame : a.erase.keyErrors = a'.erase.keyErrors := congrArg _ h
  rw [Expr.erase, Expr.erase, Expr.keyErrors_relocate, Expr.keyErrors_relocate, ha] at hsame
  exact List.map_eq_nil_iff.mp hsame.symm

/-- Further on in a line an operand starts with a minus sign too if its text does. -/
theorem minus_iff_of_transposed {text : String} {ts us : List Token} (h : Scan.Item text ts)
    (hus : Scan.Transposed ts us) {u : Token} (hu : u ∈ us.head?) (hk : u.kind.startsOperand = true) :
    u.kind.isOperator .minus = true ↔ text.toList.head? = some '-' := by
  obtain ⟨d, hsame⟩ := hus.same
  obtain ⟨t, ht, halike⟩ := Scan.head_of_sameTokens hsame hu
  have hstarts : t.kind.startsOperand = u.kind.startsOperand := halike.kind.blind fun _ _ => rfl
  have hminus : t.kind.isOperator .minus = u.kind.isOperator .minus := halike.kind.blind fun _ _ => rfl
  rw [← hminus]
  exact h.minus_iff ht (hstarts.trans hk)

/-- The tokens of the items of a list, with what the parser makes of them. The first of them starts at
`start`, with a minus sign if `text` does. -/
structure ReadsItems (limit : Nat) (text : String) (start : Nat) (items : List (List Token))
    (raws trees : List Expr) : Prop where
  spaced : Scan.Spaced items
  reads : List.Forall₂ (ReadsOperandAlone ⟨.strict, limit, false⟩ limit limit) items raws
  same : List.Forall₂ (fun raw tree => raw.erase = tree.erase ∧ raw.keyErrors = []) raws trees
  first : ∃ u more, items.head? = some (u :: more) ∧ u.span.start = start ∧
    (u.kind.isOperator .minus = true ↔ text.toList.head? = some '-')

theorem readsItems_of_elements {limit : Nat} {text : String} {texts : List String} {trees : List Expr}
    (h : List.Forall₂ (IsElement limit) (text :: texts) trees) :
    ∃ opened items closed line last raws, ReadsItems limit text opened.stop items raws trees ∧
      Scan.lex ("[" ++ " ".intercalate (text :: texts) ++ "]") = .ok (⟨.punctuation .lbracket, opened⟩ ::
        (items.flatten ++ ⟨.punctuation .rbracket, closed⟩ :: lineEnds [line] last)) := by
  obtain ⟨tss, hitems, hreads⟩ := forall₂_comp_iff.mp (h.imp fun _ _ h => h.read)
  obtain ⟨items, opened, closed, line, last, hmoved, hspaced, hfirst, hlex⟩ :=
    Scan.lex_spaced hitems (List.cons_ne_nil _ _)
  have htrees : List.Forall₂ (fun us tree => ∃ raw,
      ReadsOperandAlone ⟨.strict, limit, false⟩ limit limit us raw ∧ raw.erase = tree.erase ∧
        raw.keyErrors = []) items trees := by
    refine (forall₂_comp_iff.mpr ⟨tss, hmoved.flip, hreads⟩).imp fun us tree h => ?_
    obtain ⟨ts, hus, ⟨hplain, halone⟩, hkeys⟩ := h
    obtain ⟨raw, hraw, herase⟩ := readsOperandAlone_of_transposed halone hplain.constructs hus
    exact ⟨raw, hraw, herase.symm, keyErrors_of_erase herase hkeys⟩
  obtain ⟨raws, hraws, hsame⟩ := forall₂_comp_iff.mp htrees
  refine ⟨opened, items, closed, line, last, raws, ⟨hspaced, hraws, hsame, ?_⟩, hlex⟩
  cases hitems with
  | cons hitem _ =>
    cases hmoved with
    | cons hus _ =>
      cases hraws with
      | cons hraw _ =>
        obtain ⟨u, more, rfl, hk⟩ := (startsOperand_of_alone hraw).head
        exact ⟨u, more, rfl, hfirst _ rfl u rfl, minus_iff_of_transposed hitem hus rfl hk⟩

/-- Texts with a blank between them make a list, one level deeper than they are. But a minus sign that the
first of them starts with is an error, for it follows the bracket and not a blank. -/
theorem list_of_elements {limit : Nat} {text : String} {texts : List String} {trees : List Expr}
    (h : List.Forall₂ (IsElement limit) (text :: texts) trees) :
    ∃ tokens, Scan.lex ("[" ++ " ".intercalate (text :: texts) ++ "]") = .ok tokens ∧
      (text.toList.head? = some '-' → ∃ e, e.cause = .unexpected (.operator .minus) (.within .listLiteral) ∧
        parseFragment ⟨.strict, limit, false⟩ .expression tokens = .error [e]) ∧
      (text.toList.head? ≠ some '-' →
        (∃ e, e.failure = .limit ∧
          parseFragment ⟨.strict, limit, false⟩ .expression tokens = .error [e]) ∨
        ∃ s items, parseFragment ⟨.strict, limit, false⟩ .expression tokens =
            .ok (.expression (.list s items)) ∧ items.map Expr.erase = trees.map Expr.erase) := by
  obtain ⟨opened, items, closed, line, last, raws, ⟨hspaced, hraws, hsame, u, more, hhead, hstart, hminus⟩,
    hlex⟩ := readsItems_of_elements h
  obtain ⟨items, rfl⟩ := List.head?_eq_some_iff.mp hhead
  refine ⟨_, hlex, fun hsign => ?_, fun hplain => ?_⟩
  · have hpos : 0 < limit := by
      cases hraws with
      | cons hraw _ => exact hraw.pos
    exact parseFragment_of_minus hpos rfl (hminus.mpr hsign) hstart
  · have hfirst : ∀ us ∈ ((u :: more) :: items).head?, ∀ t ∈ us.head?, t.kind.isOperator .minus = false := by
      rintro _ ⟨⟩ _ ⟨⟩
      exact Bool.eq_false_iff.mpr fun h => hplain (hminus.mp h)
    have hkeys : (Expr.list (opened.merge closed) raws).keyErrors = [] := by
      refine (Expr.keyErrors_parts _).trans (List.flatMap_eq_nil_iff.mpr fun raw hraw => ?_)
      obtain ⟨i, hi, rfl⟩ := List.mem_iff_getElem.mp hraw
      exact (hsame.get hi (hsame.length_eq ▸ hi)).2
    have herase : raws.map Expr.erase = trees.map Expr.erase :=
      List.forall₂_eq_eq_eq ▸ List.forall₂_map_left_iff.mpr
        (List.forall₂_map_right_iff.mpr (hsame.imp fun _ _ h => h.1))
    have hparse := (parseFragment_of_items (o := ⟨.strict, limit, false⟩) rfl hraws hspaced hfirst opened closed
      line last).mpr (Expr.finish_eq_ok.mpr ⟨hkeys, rfl⟩)
    refine (parseFragment_of_le (o := ⟨.strict, limit, false⟩) rfl (Nat.le_succ limit) _).imp_right
      fun hlarger => ?_
    exact ⟨_, raws, hlarger.symm.trans hparse, herase⟩

theorem isElement_of_ok {limit : Nat} {text : String} {c : Char} {cs : List Char}
    (htext : text.toList = c :: cs) (hc : Scan.State.Visible c) (hline : '\n' ∉ text.toList)
    (hplain : ∀ cs ∈ text.toList.inits, (Scan.scan cs).mode.isComment = false) (ts : List Token)
    (line last : Span) (hlex : Scan.lex text = .ok (ts ++ lineEnds [line] last))
    (hconstructs : ConstructsEnclosed ts)
    (hreads : ∃ a, ReadsAll (operand ⟨.strict, limit, false⟩ (rootPrimary ⟨.strict, limit, false⟩) limit)
      (ts ++ [.last]) a)
    (hparse : (match parseFragment ⟨.strict, limit, false⟩ .expression (ts ++ lineEnds [line] last) with
      | .ok (.expression _) => true
      | _ => false) = true) : ∃ tree, IsElement limit text tree := by
  obtain ⟨a, ha⟩ := hreads
  have hplain' : ∀ cs, cs <+: text.toList → (Scan.scan cs).mode.isComment = false := fun cs h =>
    hplain cs ((List.mem_inits cs _).mpr h)
  split at hparse
  next tree htree => exact ⟨tree, ⟨⟨c, cs, htext, hc⟩, hline, hplain'⟩, ts, line, last, hlex, hconstructs,
    ⟨a, .last, rfl, ha⟩, htree⟩
  next => cases hparse

/-- A negative number is an element, but not in the first place. -/
theorem list_of_elements_negative :
    ∃ negative field, List.Forall₂ (IsElement 2) ["-5", "x.y"] [negative, field] ∧
      (∃ tokens, Scan.lex "[-5 x.y]" = .ok tokens ∧
        ∃ e, parseFragment ⟨.strict, 2, false⟩ .expression tokens = .error [e]) ∧
      ∃ tokens s items, Scan.lex "[x.y -5]" = .ok tokens ∧
        parseFragment ⟨.strict, 2, false⟩ .expression tokens = .ok (.expression (.list s items)) ∧
          items.map Expr.erase = [field.erase, negative.erase] := by
  obtain ⟨negative, hnegative⟩ : ∃ tree, IsElement 2 "-5" tree :=
    isElement_of_ok rfl (by decide) (by decide) (by decide +kernel)
      [⟨.operator .minus, ⟨0, 1, 1, 1⟩⟩, ⟨.number (.ofLiteral ['5'] []), ⟨1, 2, 1, 2⟩⟩]
      ⟨2, 2, 1, 3⟩ ⟨2, 2, 1, 3⟩ rfl (by decide) (by decide +kernel) (by decide +kernel)
  obtain ⟨field, hfield⟩ : ∃ tree, IsElement 2 "x.y" tree :=
    isElement_of_ok rfl (by decide) (by decide) (by decide +kernel)
      [⟨.ident "x", ⟨0, 1, 1, 1⟩⟩, ⟨.punctuation .dot, ⟨1, 2, 1, 2⟩⟩, ⟨.ident "y", ⟨2, 3, 1, 3⟩⟩]
      ⟨3, 3, 1, 4⟩ ⟨3, 3, 1, 4⟩ rfl (by decide) (by decide +kernel) (by decide +kernel)
  have hboth : List.Forall₂ (IsElement 2) ["-5", "x.y"] [negative, field] :=
    .cons hnegative (.cons hfield .nil)
  have hswapped : List.Forall₂ (IsElement 2) ["x.y", "-5"] [field, negative] :=
    .cons hfield (.cons hnegative .nil)
  obtain ⟨tokens, hlex, hsign, -⟩ := list_of_elements hboth
  obtain ⟨e, -, herror⟩ := hsign rfl
  obtain ⟨tokens', hlex', -, hplain⟩ := list_of_elements hswapped
  have hok : (match Scan.lex "[x.y -5]" with
      | .ok ts => (parseFragment ⟨.strict, 2, false⟩ .expression ts).isOk
      | .error _ => false) = true := by decide +kernel
  have hlex' : Scan.lex "[x.y -5]" = .ok tokens' := hlex'
  rw [hlex'] at hok
  change (parseFragment ⟨.strict, 2, false⟩ .expression tokens').isOk = true at hok
  rcases hplain (by decide) with ⟨e, -, hlimit⟩ | ⟨s, items, hparse, hitems⟩
  · rw [hlimit] at hok
    cases hok
  · exact ⟨negative, field, hboth, ⟨tokens, hlex, e, herror⟩, tokens', s, items, hlex', hparse, hitems⟩

end PipeLang
