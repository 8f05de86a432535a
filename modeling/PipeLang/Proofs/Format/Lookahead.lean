import PipeLang.Proofs.Format.Opens

/-! A run of names and the mark after it. An equals sign makes a definition of the names before it, an
arrow makes parameters of them. Nothing else that is written begins with names and such a mark; the
printer puts an expression that would between parentheses. -/

namespace PipeLang

namespace Cursor

/-- After the names ahead, if there are any, a token that satisfies `p` follows. -/
def LeadsTo (p : TokenKind → Bool) (c : Cursor) : Prop :=
  ((c.rest.dropWhile fun t => t.kind.isIdent).head?.map fun t => p t.kind) = some true

theorem leadsTo_of_ident {p : TokenKind → Bool} {c : Cursor} {t : Token} {rest : List Token}
    (hr : c.rest = t :: rest) (ht : t.kind.isIdent = true) : c.LeadsTo p ↔ c.forward.LeadsTo p := by
  have hf : c.forward.rest = rest := by
    unfold forward
    rw [hr]
  unfold LeadsTo
  rw [hf, hr]
  simp [ht]

theorem leadsTo_of_not_ident {p : TokenKind → Bool} {c : Cursor} {t : Token} {rest : List Token}
    (hr : c.rest = t :: rest) (ht : t.kind.isIdent = false) : c.LeadsTo p ↔ p t.kind = true := by
  unfold LeadsTo
  rw [hr]
  simp [ht]

theorem namesThen_zero {p : TokenKind → Bool} {c : Cursor} {t : Token} {rest : List Token}
    (hr : c.rest = t :: rest) :
    c.namesThen p 0 = true ↔ t.kind.isIdent = true ∧ c.LeadsTo p := by
  unfold namesThen LeadsTo
  rw [hr]
  cases ht : t.kind.isIdent with
  | true => simp [ht]
  | false => simp [ht]

theorem namesThen_succ {p : TokenKind → Bool} {c : Cursor} {t : Token} {rest : List Token}
    (hr : c.rest = t :: rest) (n : Nat) : c.namesThen p (n + 1) = c.forward.namesThen p n := by
  unfold namesThen forward
  rw [hr]
  rfl

theorem namesThen_eq_false {p : TokenKind → Bool} {c : Cursor} (h : ¬c.LeadsTo p) :
    c.namesThen p 0 = false := by
  cases hr : c.rest with
  | nil => simp [namesThen, hr]
  | cons t rest =>
    rw [← Bool.not_eq_true, namesThen_zero hr]
    exact fun hn => h hn.2

end Cursor

namespace Parse

open Format

variable {p : TokenKind → Bool} {K : Cursor → Prop} {c : Cursor} {ps : List Piece}

theorem At.leadsTo_name {s : String} (h : At (.name s :: ps) K c) :
    c.LeadsTo p ↔ c.forward.LeadsTo p := by
  obtain ⟨⟨t, rest, hr, hk⟩, _⟩ := h
  exact Cursor.leadsTo_of_ident hr (by rw [hk]; rfl)

theorem At.leadsTo_plain {k : TokenKind} (h : At (.plain k :: ps) K c) (hi : k.isIdent = false) :
    c.LeadsTo p ↔ p k = true := by
  obtain ⟨⟨t, rest, hr, hk⟩, _⟩ := h
  rw [Cursor.leadsTo_of_not_ident hr (by rw [hk]; exact hi), hk]

/-- The marks that give the names before them a meaning of their own. -/
def MarksNames (p : TokenKind → Bool) : Prop :=
  ∀ k, p k = true → k = .operator .eq ∨ k = .punctuation .arrow

theorem marksNames_eq : MarksNames (TokenKind.isOperator .eq) :=
  fun _ h => .inl (TokenKind.isOperator_iff.mp h)

theorem marksNames_arrow : MarksNames (TokenKind.isPunctuation .arrow) :=
  fun _ h => .inr (TokenKind.isPunctuation_iff.mp h)

/-- Arguments lead to no mark by themselves: only a name that stands alone lets one follow. -/
theorem not_leadsTo_of_argument (hp : MarksNames p) (hb : BeginsArgument ps) (h : At ps K c)
    (hk : (∃ s, ps = [.name s]) → ∀ c, K c → ¬c.LeadsTo p) : ¬c.LeadsTo p := by
  obtain ⟨q, rest, rfl, hq, ha⟩ := hb
  cases q with
  | gap => cases hq
  | glue => cases hq
  | text parts =>
    obtain ⟨⟨t, more, found, hr, hkind, _⟩, _⟩ := h
    rw [Cursor.leadsTo_of_not_ident hr (by rw [hkind]; rfl), hkind]
    intro he
    rcases hp _ he with h | h <;> cases h
  | plain k =>
    cases hi : k.isIdent with
    | false =>
      rw [h.leadsTo_plain hi]
      intro he
      rcases hp _ he with rfl | rfl <;> cases hq
    | true =>
      cases k with
      | ident s =>
        rw [h.leadsTo_name]
        rcases ha with rfl | ⟨more, rfl⟩
        · exact hk ⟨s, rfl⟩ _ h.2
        · have hdot : At (.mark .dot :: more) K c.forward := h.2.2
          rw [hdot.leadsTo_plain rfl]
          intro he
          rcases hp _ he with h | h <;> cases h
      | _ => cases hi

/-- What is written as a lone name is a name. -/
theorem isIdent_of_pieces {n : Nat} {e : Expr} (h : e.Formed n) {s : String}
    (hs : placePieces .argument e (pieces e) = [.name s]) : e.isIdent = true := by
  cases hn : needsParens .argument e with
  | true => rw [placePieces_of_true hn] at hs; cases hs
  | false =>
    rw [placePieces_of_false hn] at hs
    cases h with
    | ident => rfl
    | number =>
      rw [pieces, numberPieces] at hs
      split at hs <;> cases hs
    | access =>
      rw [pieces] at hs
      have := congrArg List.length hs
      simp [fieldPieces] at this
    | binary => cases hn
    | apply => cases hn
    | pipeline => cases hn
    | letIn => cases hn
    | ifElse => cases hn
    | matchOn => cases hn
    | tryCatch => cases hn
    | _ => rw [pieces] at hs; cases hs

section

variable {n : Nat} {args : List Expr} (hargs : ∀ a ∈ args, a.Formed n)

include hargs

theorem not_leadsTo_of_arguments (hp : MarksNames p)
    (h : At (spacedPieces (args.map fun a => placePieces .argument a (pieces a))) K c)
    (hk : args.all Expr.isIdent = true → ∀ c, K c → ¬c.LeadsTo p) : ¬c.LeadsTo p := by
  induction args generalizing c with
  | nil => exact hk rfl c h
  | cons a rest ih =>
    rw [List.map_cons, spacedPieces, List.flatMap_cons, List.cons_append] at h
    have h := (at_append _ _).mp h.2
    have ha := hargs a List.mem_cons_self
    have hrest := fun b hb => hargs b (List.mem_cons_of_mem a hb)
    refine not_leadsTo_of_argument hp (begins ha).1 h ?_
    rintro ⟨s, hs⟩ c' hc'
    refine ih hrest hc' ?_
    intro hall
    exact hk (by rw [List.all_cons, isIdent_of_pieces ha hs, hall]; rfl)

end

theorem not_leadsTo_of_parens (hp : MarksNames p) (h : At (parensPieces ps) K c) :
    ¬c.LeadsTo p := by
  refine not_leadsTo_of_argument hp (beginsArgument_parens ps) h ?_
  rintro ⟨s, hs⟩
  cases hs

theorem not_leadsTo_of_operator {op : Operator} (hop : op ≠ .eq)
    (h : At (.gap :: .plain (operatorKind op) :: .gap :: ps) K c) :
    ¬c.LeadsTo (TokenKind.isOperator .eq) := by
  have h : At (.plain (operatorKind op) :: .gap :: ps) K c := h.2
  rw [h.leadsTo_plain (by cases op <;> rfl), TokenKind.isOperator_iff]
  cases op <;> first | exact absurd rfl hop | nofun

theorem not_leadsTo_of_operator_arrow {op : Operator}
    (h : At (.gap :: .plain (operatorKind op) :: .gap :: ps) K c) :
    ¬c.LeadsTo (TokenKind.isPunctuation .arrow) := by
  have h : At (.plain (operatorKind op) :: .gap :: ps) K c := h.2
  rw [h.leadsTo_plain (by cases op <;> rfl), TokenKind.isPunctuation_iff]
  cases op <;> nofun

theorem startsLikeDefinition_binary (s t : Span) (op : Operator) (left right : Expr) :
    startsLikeDefinition (.apply s (.ident t op.spelling) [left, right]) =
      ((op == .eq && isNameRun left) ||
        ((left.operator?.any fun inner => op.precedence ≤ inner.precedence) &&
          startsLikeDefinition left)) := by
  rw [startsLikeDefinition, Operator.ofSpelling?_spelling]

/-- A left operand that is written bare begins as its binary expression does. -/
theorem startsLikeDefinition_left {n : Nat} {s t : Span} {op : Operator} {left right : Expr}
    (hl : left.Formed n)
    (h : startsLikeDefinition (.apply s (.ident t op.spelling) [left, right]) = false)
    (hbare : operandPieces op.precedence false left (pieces left) ≠ parensPieces (pieces left)) :
    startsLikeDefinition left = false ∧ (op = .eq → isNameRun left = false) := by
  rw [startsLikeDefinition_binary, Bool.or_eq_false_iff] at h
  refine ⟨?_, ?_⟩
  · cases hop : left.operator? with
    | some inner =>
      have hle : op.precedence ≤ inner.precedence := by
        rcases Nat.lt_or_ge inner.precedence op.precedence with hlt | hge
        · exact absurd (by simp [operandPieces, hop, hlt]) hbare
        · exact hge
      simpa [hop, hle] using h.2
    | none =>
      cases hl with
      | pipeline => exact absurd (by simp [operandPieces, hop, placePieces, needsParens,
          Expr.isConstruct]) hbare
      | binary => rw [Expr.operator?_binary] at hop; cases hop
      | apply hne hc ha =>
        unfold startsLikeDefinition
        split
        · next name _ _ he =>
          cases he
        · next name l r he =>
          injection he with _ hc' _
          subst hc'
          cases hc with
          | ident hn => rw [ofSpelling?_of_isIdentifier hn]
        · rfl
      | _ => rfl
  · rintro rfl
    simpa using h.1

theorem not_leadsTo_of_operand {n : Nat} {e : Expr} (he : e.Formed n)
    (hn : needsParens .argument e = false) (hi : e.isIdent = false) (h : At (pieces e) K c) :
    ¬c.LeadsTo (TokenKind.isOperator .eq) := by
  rw [← placePieces_of_false hn (pieces e)] at h
  refine not_leadsTo_of_argument marksNames_eq (begins he).1 h ?_
  rintro ⟨s, hs⟩
  rw [isIdent_of_pieces he hs] at hi
  cases hi

theorem not_leadsTo_of_keyword {k : Keyword} (h : At (.word k :: ps) K c) :
    ¬c.LeadsTo (TokenKind.isOperator .eq) := by
  rw [h.leadsTo_plain rfl]
  exact Bool.false_ne_true

/-- An expression that does not look like a definition is not read as one: where its first names end,
no equals sign follows. A mere run of names leaves that to what comes after it. -/
theorem not_leadsTo_of_not_startsLikeDefinition {n : Nat} {e : Expr} (h : e.Formed n)
    (hs : startsLikeDefinition e = false) (hat : At (pieces e) K c)
    (hk : isNameRun e = true → ∀ c, K c → ¬c.LeadsTo (TokenKind.isOperator .eq)) :
    ¬c.LeadsTo (TokenKind.isOperator .eq) := by
  induction h generalizing K c with
  | ident =>
    rw [pieces] at hat
    rw [hat.leadsTo_name]
    exact hk rfl _ hat.2
  | @wildcard n _ _ hp => exact not_leadsTo_of_operand (n := n) (.wildcard hp) rfl rfl hat
  | @number n s value =>
    cases hneg : value.negative with
    | false =>
      exact not_leadsTo_of_operand (.number (n := n)) (by simp [needsParens, Expr.isConstruct, hneg]) rfl hat
    | true =>
      rw [pieces, numberPieces, if_pos hneg] at hat
      rw [hat.leadsTo_plain rfl]
      exact Bool.false_ne_true
  | @text n _ _ h1 h2 h3 h4 => exact not_leadsTo_of_operand (n := n) (.text h1 h2 h3 h4) rfl rfl hat
  | @bool n => exact not_leadsTo_of_operand (n := n) .bool rfl rfl hat
  | @nil n => exact not_leadsTo_of_operand (n := n) .nil rfl rfl hat
  | record h1 h2 => exact not_leadsTo_of_operand (.record h1 h2) rfl rfl hat
  | list h1 => exact not_leadsTo_of_operand (.list h1) rfl rfl hat
  | function h1 h2 h3 => exact not_leadsTo_of_operand (.function h1 h2 h3) rfl rfl hat
  | access h1 h2 => exact not_leadsTo_of_operand (.access h1 h2) rfl rfl hat
  | @binary n s t left right op hl hr ihl ihr =>
    rw [pieces_binary, at_append] at hat
    by_cases hparens :
        operandPieces op.precedence false left (pieces left) = parensPieces (pieces left)
    · rw [hparens] at hat
      exact not_leadsTo_of_parens marksNames_eq hat
    · obtain ⟨hleft, hrun⟩ := startsLikeDefinition_left hl hs hparens
      have hbare : operandPieces op.precedence false left (pieces left) = pieces left :=
        ((operandPieces_cases _ _ _ _).resolve_left hparens).1
      rw [hbare] at hat
      refine ihl hleft hat ?_
      intro hname c' hc'
      refine not_leadsTo_of_operator ?_ hc'
      rintro rfl
      rw [hrun rfl] at hname
      cases hname
  | @apply n s callee args hne hc ha ihc iha =>
    rw [pieces_apply hc, at_append] at hat
    refine not_leadsTo_of_argument marksNames_eq (begins hc).1 hat ?_
    rintro ⟨name, hname⟩ c' hc'
    refine not_leadsTo_of_arguments ha marksNames_eq hc' ?_
    intro hall
    refine hk ?_
    have hident := isIdent_of_pieces hc hname
    have hop := Expr.operator?_apply hc s args
    cases callee with
    | ident => simp [isNameRun, hop, hall]
    | _ => cases hident
  | @pipeline n s seed stages hseed hne hst hcs has ihs ihc iha =>
    have hseed_like : startsLikeDefinition seed = false := hs
    rw [pieces, at_append] at hat
    cases hn : needsParens .seed seed with
    | true =>
      rw [placePieces_of_true hn] at hat
      exact not_leadsTo_of_parens marksNames_eq hat
    | false =>
      rw [placePieces_of_false hn] at hat
      refine ihs hseed_like hat (fun _ c' hc' => ?_)
      cases stages with
      | nil => exact absurd rfl hne
      | cons g rest =>
        obtain ⟨_, callee, args⟩ := g
        rw [pipePieces] at hc'
        have hpipe := hc'.2
        rw [At.leadsTo_plain hpipe rfl]
        exact Bool.false_ne_true
  | letIn => rw [pieces] at hat; exact not_leadsTo_of_keyword hat
  | matchOn => rw [pieces] at hat; exact not_leadsTo_of_keyword hat
  | tryCatch => rw [pieces] at hat; exact not_leadsTo_of_keyword hat
  | @ifElse n s branches fallback hne =>
    cases branches with
    | nil => exact absurd rfl hne
    | cons b rest =>
      obtain ⟨more, hmore⟩ := branchPieces_cons .if_ b rest
      rw [pieces, hmore] at hat
      exact not_leadsTo_of_keyword hat

end Parse

end PipeLang
