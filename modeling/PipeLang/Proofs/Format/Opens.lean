import PipeLang.Proofs.Parse.Stops
import PipeLang.Proofs.Tree.Formed

/-! How what is written begins. From the first token a rule tells an argument from an operator and a
construct from an operand; from the first names and what follows them it tells a definition from an
expression and a function from a list. -/

namespace PipeLang

theorem isIdentifier_spelling (op : Operator) : isIdentifier op.spelling = false := by
  cases op <;> decide

theorem ofSpelling?_of_isIdentifier {name : String} (h : isIdentifier name = true) :
    Operator.ofSpelling? name = none := by
  cases hop : Operator.ofSpelling? name with
  | none => rfl
  | some op =>
    rw [← Operator.spelling_of_ofSpelling? hop, isIdentifier_spelling] at h
    cases h

namespace Expr

theorem operator?_binary (s t : Span) (op : Operator) (left right : Expr) :
    (Expr.apply s (.ident t op.spelling) [left, right]).operator? = some op := by
  simp [operator?, binary?, Operator.ofSpelling?_spelling]

theorem operator?_apply {n : Nat} {callee : Expr} (h : callee.Formed n) (s : Span)
    (args : List Expr) : (Expr.apply s callee args).operator? = none := by
  unfold operator? binary?
  split
  · next name left right he =>
    injection he with _ hc _
    subst hc
    cases h with
    | ident hn => rw [ofSpelling?_of_isIdentifier hn]; rfl
  · rfl

end Expr

namespace Format

namespace Piece

/-- The first token of an operand that may follow others by juxtaposition. -/
def opensArgument : Piece → Bool
  | plain (.ident _) | plain (.number _) | text _ => true
  | plain (.keyword k) => k = .true_ || k = .false_ || k = .nil_
  | plain (.punctuation p) => p = .lparen || p = .lbracket || p = .lbrace || p = .underscore
  | _ => false

def opensOperand : Piece → Bool
  | plain (.operator op) => op = .minus
  | p => p.opensArgument

/-- A name stands alone or has a field access after it. -/
def Alone : Piece → List Piece → Prop
  | plain (.ident _), rest => rest = [] ∨ ∃ more, rest = .glue :: .mark .dot :: more
  | _, _ => True

end Piece

theorem opensOperand_of_opensArgument {p : Piece} (h : p.opensArgument = true) :
    p.opensOperand = true := by
  cases p with
  | plain k => cases k <;> first | exact h | cases h
  | _ => exact h

/-- How the pieces of an argument begin. -/
def BeginsArgument (ps : List Piece) : Prop :=
  ∃ p rest, ps = p :: rest ∧ p.opensArgument = true ∧ p.Alone rest

def BeginsOperand (ps : List Piece) : Prop := ∃ p rest, ps = p :: rest ∧ p.opensOperand = true

theorem BeginsArgument.beginsOperand {ps : List Piece} (h : BeginsArgument ps) :
    BeginsOperand ps := by
  obtain ⟨p, rest, rfl, hp, _⟩ := h
  exact ⟨p, rest, rfl, opensOperand_of_opensArgument hp⟩

theorem BeginsOperand.append {ps : List Piece} (h : BeginsOperand ps) (qs : List Piece) :
    BeginsOperand (ps ++ qs) := by
  obtain ⟨p, rest, rfl, hp⟩ := h
  exact ⟨p, rest ++ qs, rfl, hp⟩

theorem beginsArgument_parens (ps : List Piece) : BeginsArgument (parensPieces ps) :=
  ⟨_, _, rfl, rfl, trivial⟩

theorem BeginsArgument.append_field {ps : List Piece} (h : BeginsArgument ps) (field : String) :
    BeginsArgument (ps ++ fieldPieces field) := by
  obtain ⟨p, rest, rfl, hp, hrest⟩ := h
  refine ⟨p, rest ++ fieldPieces field, rfl, hp, ?_⟩
  cases p with
  | plain k =>
    cases k with
    | ident name =>
      rcases hrest with rfl | ⟨more, rfl⟩
      · exact .inr ⟨_, rfl⟩
      · exact .inr ⟨_, rfl⟩
    | _ => trivial
  | _ => trivial

theorem joinedPieces_cons (ps : List Piece) (runs : List (List Piece)) :
    joinedPieces (ps :: runs) = ps ++ spacedPieces runs := rfl

theorem pieces_binary (s t : Span) (op : Operator) (left right : Expr) :
    pieces (.apply s (.ident t op.spelling) [left, right]) =
      operandPieces op.precedence false left (pieces left) ++
        .gap :: .plain (operatorKind op) :: .gap ::
          operandPieces op.precedence true right (pieces right) := by
  rw [pieces, Expr.operator?_binary]
  simp [withPieces, applicationPieces]

theorem pieces_apply {n : Nat} {callee : Expr} (h : callee.Formed n) (s : Span)
    (args : List Expr) :
    pieces (.apply s callee args) = placePieces .argument callee (pieces callee) ++
      spacedPieces (args.map fun a => placePieces .argument a (pieces a)) := by
  rw [pieces, Expr.operator?_apply h]
  simp only [withPieces_eq_map, applicationPieces, joinedPieces, List.map_cons, List.map_map]
  rfl

theorem placePieces_of_true {slot : Slot} {e : Expr} (h : needsParens slot e = true)
    (ps : List Piece) : placePieces slot e ps = parensPieces ps := by
  rw [placePieces, if_pos h]

theorem placePieces_of_false {slot : Slot} {e : Expr} (h : needsParens slot e = false)
    (ps : List Piece) : placePieces slot e ps = ps := by
  rw [placePieces, if_neg (by simp [h])]

theorem isConstruct_of_needsParens {slot : Slot} {e : Expr} (h : needsParens slot e = false) :
    e.isConstruct = false := by
  cases hc : e.isConstruct with
  | false => rfl
  | true => rw [needsParens_of_isConstruct slot hc] at h; cases h

theorem isConstruct_of_operator? {e : Expr} {op : Operator} (h : e.operator? = some op) :
    e.isConstruct = false := by
  cases e <;> first | rfl | cases h

/-- An operand is written bare or between parentheses; a construct never bare. -/
theorem operandPieces_cases (precedence : Nat) (onRight : Bool) (e : Expr) (ps : List Piece) :
    operandPieces precedence onRight e ps = parensPieces ps ∨
      (operandPieces precedence onRight e ps = ps ∧ e.isConstruct = false) := by
  unfold operandPieces
  cases hop : e.operator? with
  | some op =>
    by_cases hp : (op.precedence < precedence || (onRight && op.precedence == precedence)) = true
    · exact .inl (if_pos hp)
    · exact .inr ⟨if_neg hp, isConstruct_of_operator? hop⟩
  | none =>
    cases hn : needsParens .operand e with
    | true => exact .inl (placePieces_of_true hn ps)
    | false => exact .inr ⟨placePieces_of_false hn ps, isConstruct_of_needsParens hn⟩

/-- An argument begins with a token that no other role has, and so does an expression that is no
construct, but for the sign of a number. -/
theorem begins {n : Nat} {e : Expr} (h : e.Formed n) :
    BeginsArgument (placePieces .argument e (pieces e)) ∧
      (e.isConstruct = false → BeginsOperand (pieces e)) := by
  have parens : ∀ {e : Expr}, needsParens .argument e = true →
      BeginsArgument (placePieces .argument e (pieces e)) := by
    intro e he
    rw [placePieces_of_true he]
    exact beginsArgument_parens _
  have bare : ∀ {e : Expr}, needsParens .argument e = false → BeginsArgument (pieces e) →
      BeginsArgument (placePieces .argument e (pieces e)) ∧
        (e.isConstruct = false → BeginsOperand (pieces e)) := by
    intro e he hp
    rw [placePieces_of_false he]
    exact ⟨hp, fun _ => hp.beginsOperand⟩
  induction h with
  | ident => exact bare rfl (by rw [pieces]; exact ⟨_, _, rfl, rfl, .inl rfl⟩)
  | wildcard => exact bare rfl (by rw [pieces]; exact ⟨_, _, rfl, rfl, trivial⟩)
  | @number n s value =>
    cases hneg : value.negative with
    | false =>
      refine bare (e := .number s value) (by simp [needsParens, Expr.isConstruct, hneg]) ?_
      rw [pieces, numberPieces, if_neg (by simp [hneg])]
      exact ⟨_, _, rfl, rfl, trivial⟩
    | true =>
      refine ⟨parens (e := .number s value) (by simp [needsParens, Expr.isConstruct, hneg]), ?_⟩
      intro _
      rw [pieces, numberPieces, if_pos hneg]
      exact ⟨_, _, rfl, rfl⟩
  | text => exact bare rfl (by rw [pieces]; exact ⟨_, _, rfl, rfl, trivial⟩)
  | @bool n s value =>
    refine bare rfl ?_
    rw [pieces]
    exact ⟨_, _, rfl, by cases value <;> rfl, trivial⟩
  | nil => exact bare rfl (by rw [pieces]; exact ⟨_, _, rfl, rfl, trivial⟩)
  | record => exact bare rfl (by rw [pieces]; exact ⟨_, _, rfl, rfl, trivial⟩)
  | list => exact bare rfl (by rw [pieces]; exact ⟨_, _, rfl, rfl, trivial⟩)
  | function => exact bare rfl (by rw [pieces]; exact ⟨_, _, rfl, rfl, trivial⟩)
  | @binary n s t left right op hl hr ihl ihr =>
    refine ⟨parens rfl, fun _ => ?_⟩
    rw [pieces_binary]
    rcases operandPieces_cases op.precedence false left (pieces left) with he | ⟨he, hc⟩
    · rw [he]; exact (beginsArgument_parens _).beginsOperand.append _
    · rw [he]; exact (ihl.2 hc).append _
  | @apply n s callee args hsome hc ha ihc iha =>
    refine ⟨parens rfl, fun _ => ?_⟩
    rw [pieces_apply hc]
    exact ihc.1.beginsOperand.append _
  | @access n s target field ht hf iht =>
    refine bare rfl ?_
    rw [pieces]
    refine BeginsArgument.append_field ?_ _
    unfold targetPieces
    split
    · exact beginsArgument_parens _
    · exact iht.1
  | @pipeline n s seed stages hs hne hst hcs has ihs ihc iha =>
    refine ⟨parens rfl, fun _ => ?_⟩
    rw [pieces]
    refine BeginsOperand.append ?_ _
    cases hn : needsParens .seed seed with
    | true => rw [placePieces_of_true hn]; exact (beginsArgument_parens _).beginsOperand
    | false => rw [placePieces_of_false hn]; exact ihs.2 (isConstruct_of_needsParens hn)
  | letIn => exact ⟨parens rfl, fun hc => by cases hc⟩
  | ifElse => exact ⟨parens rfl, fun hc => by cases hc⟩
  | matchOn => exact ⟨parens rfl, fun hc => by cases hc⟩
  | tryCatch => exact ⟨parens rfl, fun hc => by cases hc⟩

/-- The first token of an expression. -/
def BeginsExpression (ps : List Piece) : Prop :=
  BeginsOperand ps ∨
    ∃ k rest, ps = .word k :: rest ∧ (k = .let_ ∨ k = .if_ ∨ k = .match_ ∨ k = .try_)

theorem branchPieces_cons (opener : Keyword) (b : Branch) (rest : List Branch) :
    ∃ more, branchPieces opener (b :: rest) = .word opener :: more := by
  obtain ⟨condition, result⟩ := b
  exact ⟨_, by rw [branchPieces]⟩

theorem beginsExpression {n : Nat} {e : Expr} (h : e.Formed n) : BeginsExpression (pieces e) := by
  cases hc : e.isConstruct with
  | false => exact .inl ((begins h).2 hc)
  | true =>
    cases h with
    | letIn => exact .inr ⟨_, _, by rw [pieces], .inl rfl⟩
    | matchOn => exact .inr ⟨_, _, by rw [pieces], .inr (.inr (.inl rfl))⟩
    | tryCatch => exact .inr ⟨_, _, by rw [pieces], .inr (.inr (.inr rfl))⟩
    | @ifElse n s branches fallback hne =>
      cases branches with
      | nil => exact absurd rfl hne
      | cons b rest =>
        obtain ⟨more, hmore⟩ := branchPieces_cons .if_ b rest
        exact .inr ⟨_, _, by rw [pieces, hmore]; rfl, .inr (.inl rfl)⟩
    | _ => cases hc

theorem BeginsExpression.append {ps : List Piece} (h : BeginsExpression ps) (qs : List Piece) :
    BeginsExpression (ps ++ qs) := by
  rcases h with h | ⟨k, rest, rfl, hk⟩
  · exact .inl (h.append qs)
  · exact .inr ⟨k, rest ++ qs, rfl, hk⟩

/-- However an expression is placed in another form, it begins as an expression. -/
theorem beginsExpression_place {n : Nat} {e : Expr} (h : e.Formed n) (slot : Slot) :
    BeginsExpression (placePieces slot e (pieces e)) := by
  cases hn : needsParens slot e with
  | true => rw [placePieces_of_true hn]; exact .inl (beginsArgument_parens _).beginsOperand
  | false => rw [placePieces_of_false hn]; exact beginsExpression h

end Format

namespace Parse

open Format

variable {K : Cursor → Prop} {c : Cursor} {ps : List Piece}

theorem At.text_kind {parts : List PiecePart} (h : At (.text parts :: ps) K c) :
    ∃ found, c.kind = .text found := by
  obtain ⟨⟨t, rest, found, hr, hk, _⟩, _⟩ := h
  exact ⟨found, by rw [kind_of_rest hr, hk]⟩

/-- The first token is neither layout nor a mark that goes on with what stands before it. -/
theorem kind_of_beginsExpression (hb : BeginsExpression ps) (h : At ps K c) :
    c.kind.isLayout = false ∧ c.kind ≠ .eof ∧ c.kind ≠ .punctuation .dot ∧
      c.kind ≠ .punctuation .colon ∧ c.kind ≠ .punctuation .arrow := by
  rcases hb with ⟨p, rest, rfl, hp⟩ | ⟨k, rest, rfl, hk⟩
  · cases p with
    | gap => cases hp
    | glue => cases hp
    | text parts =>
      obtain ⟨found, hk⟩ := h.text_kind
      rw [hk]
      exact ⟨rfl, nofun, nofun, nofun, nofun⟩
    | plain k =>
      rw [h.kind]
      cases k with
      | punctuation p =>
        cases p <;> first | (cases hp; done) | exact ⟨rfl, nofun, nofun, nofun, nofun⟩
      | newline => cases hp
      | indent => cases hp
      | dedent => cases hp
      | eof => cases hp
      | _ => exact ⟨rfl, nofun, nofun, nofun, nofun⟩
  · rw [h.kind]
    exact ⟨rfl, nofun, nofun, nofun, nofun⟩

theorem stopsAccess_of_beginsExpression (hb : BeginsExpression ps) (h : At ps K c) :
    c.StopsAccess := by
  obtain ⟨_, _, hdot, hcolon, _⟩ := kind_of_beginsExpression hb h
  exact ⟨Cursor.atAccess_of_kind_ne hdot, hcolon⟩

theorem atBlock_of_beginsExpression (hb : BeginsExpression ps) (h : At ps K c)
    (p : TokenKind → Bool) : c.atBlock p = false := by
  refine Cursor.atBlock_of_kind_ne p ?_
  intro hk
  have := (kind_of_beginsExpression hb h).1
  rw [hk] at this
  cases this

theorem atConstruct_of_beginsOperand (hb : BeginsOperand ps) (h : At ps K c) :
    c.atConstruct = false := by
  obtain ⟨p, rest, rfl, hp⟩ := hb
  unfold Cursor.atConstruct
  cases p with
  | gap => cases hp
  | glue => cases hp
  | text parts =>
    obtain ⟨found, hk⟩ := h.text_kind
    rw [hk]
  | plain k =>
    rw [h.kind]
    cases k with
    | keyword k => cases k <;> first | rfl | cases hp
    | _ => rfl

theorem atArgument_of_beginsArgument (hb : BeginsArgument ps) (h : At ps Cursor.StopsAccess c) :
    c.atArgument = true := by
  obtain ⟨p, rest, rfl, hp, ha⟩ := hb
  unfold Cursor.atArgument
  cases p with
  | gap => cases hp
  | glue => cases hp
  | text parts =>
    obtain ⟨found, hk⟩ := h.text_kind
    rw [hk]
  | plain k =>
    rw [h.kind]
    cases k with
    | ident name =>
      have hnext : c.kindAt 1 ≠ .punctuation .colon := by
        obtain ⟨⟨t, more, hr, _⟩, h⟩ := h
        rw [Cursor.kindAt_one hr]
        rcases ha with rfl | ⟨more, rfl⟩
        · exact h.2
        · rw [At.kind h.2]
          nofun
      have hcolon : (c.kindAt 1).isPunctuation .colon = false := by
        rw [← Bool.not_eq_true, TokenKind.isPunctuation_iff]
        exact hnext
      simp [hcolon]
    | keyword k => cases k <;> first | rfl | cases hp
    | punctuation p => cases p <;> first | rfl | cases hp
    | operator op => cases hp
    | number value => rfl
    | text parts => cases hp
    | _ => cases hp

theorem count_pos_of_beginsArgument (hb : BeginsArgument ps) : 0 < (ps.map Piece.count).sum := by
  obtain ⟨p, rest, rfl, hp, _⟩ := hb
  cases p with
  | gap => cases hp
  | glue => cases hp
  | _ => simp only [List.map_cons, List.sum_cons, Piece.count]; omega

end Parse

end PipeLang
