import PipeLang.Proofs.Parse.Reads

/-! Where the rules for expressions stop. Each rule goes on for as long as the next tokens let it, so what
is written after an expression must not be taken for more of it. -/

namespace PipeLang

namespace TokenKind

/-- What may stand after an expression inside another form. -/
def isCloser : TokenKind → Bool
  | punctuation p =>
    p = .rparen || p = .rbracket || p = .rbrace || p = .bar || p = .semicolon || p = .arrow
  | keyword k =>
    k = .then_ || k = .elif_ || k = .else_ || k = .in_ || k = .when_ || k = .catch_
  | eof => true
  | _ => false

/-- What may stand after an expression that ends another form. -/
def isEnd : TokenKind → Bool
  | punctuation p => p = .rparen || p = .rbracket
  | eof => true
  | _ => false

end TokenKind

namespace Cursor

/-- A field access does not go on here. A colon is left out as well: it makes a key of a name. -/
def StopsAccess (c : Cursor) : Prop := c.atAccess = false ∧ c.kind ≠ .punctuation .colon

def StopsArguments (c : Cursor) : Prop := c.StopsAccess ∧ c.atArgument = false

def StopsChain (least : Nat) (c : Cursor) : Prop :=
  c.StopsArguments ∧ c.operator? least = none

structure StopsStages (c : Cursor) : Prop where
  chain : c.StopsChain 0
  inline : c.atPunctuation .pipe = false
  block : c.atBlock TokenKind.isIdent = false

/-- Nothing goes on here, a construct neither. -/
structure Ends (c : Cursor) : Prop where
  stages : c.StopsStages
  bar : c.atPunctuation .bar = false
  bars : c.atBlock (TokenKind.isPunctuation .bar) = false
  catching : c.atKeyword .catch_ = false
  catches : c.atBlock (TokenKind.isKeyword .catch_) = false

theorem StopsStages.access {c : Cursor} (h : c.StopsStages) : c.StopsAccess := h.chain.1.1

theorem operator?_eq_none_of_le {c : Cursor} {m n : Nat} (h : c.operator? m = none) (hmn : m ≤ n) :
    c.operator? n = none := by
  unfold operator? at h ⊢
  rw [Option.filter_eq_none_iff] at h ⊢
  intro op hop
  have := h op hop
  simp only [decide_eq_true_eq] at this ⊢
  omega

theorem StopsChain.mono {c : Cursor} {m n : Nat} (h : c.StopsChain m) (hmn : m ≤ n) :
    c.StopsChain n :=
  ⟨h.1, operator?_eq_none_of_le h.2 hmn⟩

theorem atAccess_of_kind_ne {c : Cursor} (h : c.kind ≠ .punctuation .dot) : c.atAccess = false := by
  cases hp : c.atPunctuation .dot with
  | false => simp [atAccess, hp]
  | true => exact absurd (TokenKind.isPunctuation_iff.mp hp) h

theorem atBlock_of_kind_ne {c : Cursor} (p : TokenKind → Bool) (h : c.kind ≠ .newline) :
    c.atBlock p = false := by
  cases hn : c.atNewline with
  | false => simp [atBlock, hn]
  | true =>
    unfold atNewline at hn
    cases hk : c.kind with
    | newline => exact absurd hk h
    | _ => rw [hk] at hn; cases hn

theorem atArgument_of_isCloser {c : Cursor} (h : c.kind.isCloser = true) : c.atArgument = false := by
  unfold atArgument
  cases hk : c.kind with
  | punctuation p => rw [hk] at h; cases p <;> first | rfl | cases h
  | keyword k => rw [hk] at h; cases k <;> first | rfl | cases h
  | eof => rfl
  | ident name => rw [hk] at h; cases h
  | number value => rw [hk] at h; cases h
  | text parts => rw [hk] at h; cases h
  | operator op => rw [hk] at h; cases h
  | _ => rfl

theorem operator?_of_isCloser {c : Cursor} (h : c.kind.isCloser = true) (least : Nat) :
    c.operator? least = none := by
  unfold operator?
  cases hk : c.kind with
  | punctuation p => rfl
  | keyword k => rw [hk] at h; cases k <;> first | rfl | cases h
  | eof => rfl
  | _ => rw [hk] at h; cases h

theorem stopsStages_of_isCloser {c : Cursor} (h : c.kind.isCloser = true) : c.StopsStages := by
  refine ⟨⟨⟨⟨atAccess_of_kind_ne ?_, ?_⟩, atArgument_of_isCloser h⟩, operator?_of_isCloser h 0⟩,
    ?_, atBlock_of_kind_ne _ ?_⟩
  · intro hk; rw [hk] at h; cases h
  · intro hk; rw [hk] at h; cases h
  · cases hp : c.atPunctuation .pipe with
    | false => rfl
    | true => rw [TokenKind.isPunctuation_iff.mp hp] at h; cases h
  · intro hk; rw [hk] at h; cases h

theorem ends_of_isEnd {c : Cursor} (h : c.kind.isEnd = true) : c.Ends := by
  have hclose : c.kind.isCloser = true := by
    cases hk : c.kind with
    | punctuation p => rw [hk] at h; cases p <;> first | rfl | cases h
    | eof => rfl
    | _ => rw [hk] at h; cases h
  have hline : c.kind ≠ .newline := by
    intro hk; rw [hk] at h; cases h
  refine ⟨stopsStages_of_isCloser hclose, ?_, atBlock_of_kind_ne _ hline, ?_,
    atBlock_of_kind_ne _ hline⟩
  · cases hp : c.atPunctuation .bar with
    | false => rfl
    | true => rw [TokenKind.isPunctuation_iff.mp hp] at h; cases h
  · cases hp : c.atKeyword .catch_ with
    | false => rfl
    | true => rw [TokenKind.isKeyword_iff.mp hp] at h; cases h

theorem stopsChain_of_newline {c : Cursor} (h : c.kind = .newline) (least : Nat) :
    c.StopsChain least := by
  refine ⟨⟨⟨atAccess_of_kind_ne ?_, ?_⟩, ?_⟩, ?_⟩
  · rw [h]; exact TokenKind.noConfusion
  · rw [h]; exact TokenKind.noConfusion
  · unfold atArgument; rw [h]
  · unfold operator?; rw [h]; rfl

/-- The end of a line that no indented line follows. -/
theorem ends_of_newline {c : Cursor} (h : c.kind = .newline) (hi : (c.kindAt 1).isIndent = false) :
    c.Ends := by
  have block : ∀ p, c.atBlock p = false := by
    intro p
    simp [atBlock, hi]
  refine ⟨⟨stopsChain_of_newline h 0, ?_, block _⟩, ?_, block _, ?_, block _⟩
  · unfold atPunctuation; rw [h]; rfl
  · unfold atPunctuation; rw [h]; rfl
  · unfold atKeyword; rw [h]; rfl

theorem stopsChain_of_pipe {c : Cursor} (h : c.kind = .punctuation .pipe) (least : Nat) :
    c.StopsChain least := by
  refine ⟨⟨⟨atAccess_of_kind_ne ?_, ?_⟩, ?_⟩, ?_⟩
  · rw [h]; intro he; cases he
  · rw [h]; intro he; cases he
  · unfold atArgument; rw [h]; rfl
  · unfold operator?; rw [h]; rfl

end Cursor

namespace Parse

open Format

variable {K : Cursor → Prop} {c : Cursor} {ps : List Piece}

theorem binary?_operatorKind (op : Operator) : (operatorKind op).binary? = some op := by
  cases op <;> rfl

theorem operator?_of_at {op : Operator} (h : At (.plain (operatorKind op) :: ps) K c)
    {least : Nat} : c.operator? least = if least ≤ op.precedence then some op else none := by
  unfold Cursor.operator?
  rw [h.kind, binary?_operatorKind, Option.filter_some]
  simp only [decide_eq_true_eq]

/-- An operator between blanks stops the arguments before it: a minus is no sign there. -/
theorem stopsArguments_of_operator {op : Operator}
    (h : At (.gap :: .plain (operatorKind op) :: .gap :: ps) K c) : c.StopsArguments := by
  have hat : At (.plain (operatorKind op) :: .gap :: ps) K c := h.2
  have hk := hat.kind
  obtain ⟨⟨t, rest, hr, _⟩, hgap, _⟩ := hat
  refine ⟨⟨Cursor.atAccess_of_kind_ne ?_, ?_⟩, ?_⟩
  · rw [hk]; cases op <;> exact TokenKind.noConfusion
  · rw [hk]; cases op <;> exact TokenKind.noConfusion
  · have hnegative : c.atNegative = false := by
      obtain ⟨u, hu, hlt⟩ := hgap
      rw [Cursor.previous?_forward hr] at hu
      obtain rfl := Option.some.inj hu
      have hne : (c.peek.span.stop == (c.peekAt 1).span.start) = false := by
        rw [Cursor.peekAt_one hr]
        simp only [beq_eq_false_iff_ne]
        omega
      simp [Cursor.atNegative, hne]
    unfold Cursor.atArgument
    rw [hk]
    cases op <;> simp [operatorKind, hnegative]

theorem stopsChain_of_operator {op : Operator} {least : Nat}
    (h : At (.gap :: .plain (operatorKind op) :: .gap :: ps) K c) (hlt : op.precedence < least) :
    c.StopsChain least := by
  refine ⟨stopsArguments_of_operator h, ?_⟩
  have hat : At (.plain (operatorKind op) :: .gap :: ps) K c := h.2
  rw [operator?_of_at hat, if_neg (by omega)]

theorem stopsChain_of_pipeMark {least : Nat} (h : At (.mark .pipe :: ps) K c) :
    c.StopsChain least :=
  Cursor.stopsChain_of_pipe h.kind least

theorem stopsStages_of_closer {k : TokenKind} (h : At (.plain k :: ps) K c)
    (hk : k.isCloser = true) : c.StopsStages :=
  Cursor.stopsStages_of_isCloser (by rw [h.kind]; exact hk)

theorem ends_of_end {k : TokenKind} (h : At (.plain k :: ps) K c) (hk : k.isEnd = true) : c.Ends :=
  Cursor.ends_of_isEnd (by rw [h.kind]; exact hk)

/-- The key of the next field of a record. -/
theorem stopsStages_of_key {key : String} (h : At (.name key :: .mark .colon :: ps) K c) :
    c.StopsStages := by
  have hk := h.kind
  obtain ⟨⟨t, rest, hr, _⟩, hcolon⟩ := h
  have hnext : c.kindAt 1 = .punctuation .colon := by
    have hcolon : At (.mark .colon :: ps) K c.forward := hcolon
    rw [Cursor.kindAt_one hr, hcolon.kind]
  refine ⟨⟨⟨⟨Cursor.atAccess_of_kind_ne ?_, ?_⟩, ?_⟩, ?_⟩, ?_, Cursor.atBlock_of_kind_ne _ ?_⟩
  · rw [hk]; exact TokenKind.noConfusion
  · rw [hk]; exact TokenKind.noConfusion
  · simp [Cursor.atArgument, hk, hnext, TokenKind.isPunctuation]
  · unfold Cursor.operator?; rw [hk]; rfl
  · unfold Cursor.atPunctuation; rw [hk]; rfl
  · rw [hk]; exact TokenKind.noConfusion

end Parse

end PipeLang
