import PipeLang.Proofs.Parse.Carried
import PipeLang.Proofs.Parse.ListItems

/-! Two texts with the same lines up to a line end. The blocks that are open there close in both, and then
the first text ends and the second one goes on with what a statement may begin with. A rule that starts in
the common lines does the same in both runs, unless it needs more tokens than the first text has. -/

namespace PipeLang

namespace TokenKind

/-- What the first token after a statement may be, if that is not on the same line. -/
def begins (k : TokenKind) : Bool := k.startsOperand || k.isConstruct || k.isEof

/-- What a stage stands behind: a pipe, or the line end before its line. -/
def leadsStage (k : TokenKind) : Bool := k.isPunctuation .pipe || k.isNewline || k.isIndent

section

variable {k : TokenKind} (h : k.begins = true)

include h

theorem not_layout_of_begins : k.isLayout = false := by
  cases k <;> first | rfl | cases h

theorem not_punctuation_of_begins {p : Punctuation}
    (hp : p ∉ [Punctuation.lparen, .lbracket, .lbrace, .underscore]) : k.isPunctuation p = false := by
  cases k with
  | punctuation q =>
    refine decide_eq_false fun hq => hp ?_
    subst hq
    simpa [begins, startsOperand, opensOperand, isConstruct, isEof, isIdent, isOperator, or_assoc] using h
  | _ => rfl

theorem not_keyword_of_begins {j : Keyword}
    (hj : j ∉ [Keyword.true_, .false_, .nil_, .let_, .if_, .match_, .try_]) :
    k.isKeyword j = false := by
  cases k with
  | keyword i =>
    refine decide_eq_false fun hi => hj ?_
    subst hi
    simpa [begins, startsOperand, opensOperand, isConstruct, isEof, isIdent, isOperator, or_assoc] using h
  | _ => rfl

theorem not_binary_of_begins (hminus : k ≠ .operator .minus) : k.binary? = none := by
  cases k with
  | operator op => cases op <;> first | exact absurd rfl hminus | cases h
  | keyword j => cases j <;> first | rfl | cases h
  | _ => rfl

theorem not_clause_of_begins {p : TokenKind → Bool} (hp : Parse.ClauseMark p) : p k = false := by
  cases hp with
  | keyword clause =>
    refine not_keyword_of_begins h fun hno => ?_
    simp only [List.mem_cons, List.not_mem_nil, or_false] at clause hno
    rcases clause with rfl | rfl | rfl | rfl | rfl <;> simp at hno
  | bar => exact not_punctuation_of_begins h (by decide)

end

end TokenKind

/-- An operator and then a construct as its right operand. -/
def OpensAfterOperator (ts : List Token) : Prop :=
  ∃ l t u r, ts = l ++ t :: u :: r ∧ t.kind.binary?.isSome = true ∧ u.kind.isConstruct = true

/-- A name where that of a stage may be: behind a pipe, a line end or the start of a block. And further on an
operator with a construct as its right operand. -/
def OpensInStage (ts : List Token) : Prop :=
  ∃ l t r, ts = l ++ t :: r ∧ t.kind.leadsStage = true ∧ (∃ u ∈ r.head?, u.kind.isIdent = true) ∧
    OpensAfterOperator r

theorem OpensInStage.append {ts : List Token} (h : OpensInStage ts) (us : List Token) :
    OpensInStage (us ++ ts) := by
  obtain ⟨l, t, r, rfl, ht, hr, hopens⟩ := h
  exact ⟨us ++ l, t, r, by simp, ht, hr, hopens⟩

/-- The common lines, from where the two runs are compared; and what comes before and after them in either
text. An error from `bound` on is one that the first run finds past those lines. -/
structure Seam where
  line : List Token
  blocks : Nat
  closed : Span
  closed' : Span
  last : Token
  following : List Token
  before : List Token
  before' : List Token
  errors : List Diagnostic
  errors' : List Diagnostic
  bound : Nat
  ends : ∀ t ∈ line.getLast?, t.kind = .newline
  within : ∀ t ∈ line, t.kind ≠ .eof
  last_eof : last.kind = .eof
  begins : ∃ u us, following = u :: us ∧ u.kind.begins = true
  unsigned : 0 < blocks → ∀ u ∈ following.head?, u.kind ≠ .operator .minus
  ended : ∃ t, following.getLast? = some t ∧ t.kind = .eof
  bound_le : bound ≤ closed.start ∧ bound ≤ last.span.start

namespace Seam

variable (S : Seam)

/-- The ends of so many blocks, and of the first text. -/
def tail (n : Nat) : List Token := List.replicate n ⟨.dedent, S.closed⟩ ++ [S.last]

def tail' (n : Nat) : List Token := List.replicate n ⟨.dedent, S.closed'⟩ ++ S.following

/-- The second run may go on where the first one is over: an operation among the arguments of a stage has
closed the last block, and the second text goes on with something that an argument may begin with. -/
def Spills : Prop :=
  0 < S.blocks ∧ (0 < S.bound ∨ (Cursor.ofTokens S.following).atArgument = true) ∧ OpensInStage S.line

/-- The same errors since the start. -/
def Errors (c d : Cursor) : Prop := ∃ new, c.errors = new ++ S.errors ∧ d.errors = new ++ S.errors'

/-- Both runs are in the common lines, past `m` and before `r`. -/
structure At (m r : List Token) (c d : Cursor) : Prop where
  line : m.reverse ++ r = S.line
  more : r ≠ []
  before : c.before = m ++ S.before
  before' : d.before = m ++ S.before'
  rest : c.rest = r ++ S.tail S.blocks
  rest' : d.rest = r ++ S.tail' S.blocks
  errors : S.Errors c d

/-- Both runs are past the common lines, before the ends of `n` more blocks. -/
structure Past (n : Nat) (c d : Cursor) : Prop where
  rest : c.rest = S.tail n
  rest' : d.rest = S.tail' n
  errors : S.Errors c d

def Inside (c d : Cursor) : Prop := ∃ m r, S.At m r c d

/-- In the common lines, and not at the start of them. -/
def Moved (c d : Cursor) : Prop := ∃ m r, m ≠ [] ∧ S.At m r c d

/-- Right after the last one of the common lines. -/
def Edge (c d : Cursor) : Prop :=
  S.Past S.blocks c d ∧ (∃ t, c.previous? = some t ∧ t.kind = .newline) ∧
    ∃ t, d.previous? = some t ∧ t.kind = .newline

/-- Right after the end of a block that was open after the common lines. -/
def Closed (c d : Cursor) : Prop :=
  (∃ n < S.blocks, S.Past n c d) ∧ c.afterDedent = true ∧ d.afterDedent = true

/-- Where both runs may be after a form that can end with a block. -/
def Joined (c d : Cursor) : Prop := S.Moved c d ∨ S.Closed c d

variable {S}

theorem Moved.inside {c d : Cursor} (h : S.Moved c d) : S.Inside c d := by
  obtain ⟨m, r, -, h⟩ := h
  exact ⟨m, r, h⟩

theorem Moved.joined {c d : Cursor} (h : S.Moved c d) : S.Joined c d := .inl h

/-! ## In the common lines -/

theorem tail_head (n : Nat) : ∃ t ts, S.tail n = t :: ts ∧ (t.kind = .dedent ∨ t.kind = .eof) := by
  cases n with
  | zero => exact ⟨_, _, rfl, .inr S.last_eof⟩
  | succ n => exact ⟨_, _, rfl, .inl rfl⟩

theorem tail'_head (n : Nat) :
    ∃ t ts, S.tail' n = t :: ts ∧ (t.kind = .dedent ∨ t.kind.begins = true) := by
  cases n with
  | zero =>
    obtain ⟨u, us, hu, hk⟩ := S.begins
    exact ⟨u, us, hu, .inr hk⟩
  | succ n => exact ⟨_, _, rfl, .inl rfl⟩

namespace At

variable {m r : List Token} {t : Token} {c d : Cursor}

theorem inside (h : S.At m r c d) : S.Inside c d := ⟨m, r, h⟩

theorem mem (h : S.At m r c d) {t : Token} (ht : t ∈ r) : t ∈ S.line :=
  h.line ▸ List.mem_append_right _ ht

theorem last (h : S.At m r c d) : ∃ t, r.getLast? = some t ∧ t.kind = .newline := by
  have hlast := List.getLast?_eq_some_getLast h.more
  refine ⟨_, hlast, S.ends _ ?_⟩
  rw [← h.line, List.getLast?_append_of_ne_nil _ h.more, hlast]
  rfl

theorem peek (h : S.At m (t :: r) c d) : c.peek = t ∧ d.peek = t := by
  unfold Cursor.peek
  rw [h.rest, h.rest']
  exact ⟨rfl, rfl⟩

theorem kind (h : S.At m (t :: r) c d) : c.kind = t.kind ∧ d.kind = t.kind := by
  unfold Cursor.kind
  rw [h.peek.1, h.peek.2]
  exact ⟨rfl, rfl⟩

theorem running (h : S.At m (t :: r) c d) : t.kind ≠ .eof := S.within t (h.mem List.mem_cons_self)

/-- The last token of the common lines is a line end. -/
theorem more_of_kind (h : S.At m (t :: r) c d) (ht : t.kind ≠ .newline) : r ≠ [] := by
  rintro rfl
  obtain ⟨u, hu, hk⟩ := h.last
  cases hu
  exact ht hk

theorem next_eq (h : S.At m (t :: r) c d) : c.next = c.forward ∧ d.next = d.forward :=
  ⟨Parse.next_eq_forward (by rw [h.kind.1]; exact h.running),
    Parse.next_eq_forward (by rw [h.kind.2]; exact h.running)⟩

theorem forward (h : S.At m (t :: r) c d) (hr : r ≠ []) : S.At (t :: m) r c.forward d.forward := by
  obtain ⟨hline, -, hbefore, hbefore', hrest, hrest', herrors⟩ := h
  refine ⟨by simpa using hline, hr, ?_, ?_, ?_, ?_, ?_⟩
  · rw [Cursor.forward, hrest, List.cons_append, hbefore]; rfl
  · rw [Cursor.forward, hrest', List.cons_append, hbefore']; rfl
  · rw [Cursor.forward, hrest]; rfl
  · rw [Cursor.forward, hrest']; rfl
  · unfold Errors
    rwa [Cursor.forward_errors, Cursor.forward_errors]

theorem next (h : S.At m (t :: r) c d) (hr : r ≠ []) : S.At (t :: m) r c.next d.next := by
  rw [h.next_eq.1, h.next_eq.2]
  exact h.forward hr

/-- Past the last token of the common lines. -/
theorem next_edge (h : S.At m [t] c d) : S.Edge c.next d.next := by
  obtain ⟨u, hu, hk⟩ := h.last
  obtain rfl : t = u := Option.some.inj hu
  rw [h.next_eq.1, h.next_eq.2]
  obtain ⟨-, -, -, -, hrest, hrest', herrors⟩ := h
  refine ⟨⟨?_, ?_, ?_⟩, ⟨t, ?_, hk⟩, t, ?_, hk⟩
  · rw [Cursor.forward, hrest]; rfl
  · rw [Cursor.forward, hrest']; rfl
  · unfold Errors
    rwa [Cursor.forward_errors, Cursor.forward_errors]
  · rw [Cursor.forward, hrest]; rfl
  · rw [Cursor.forward, hrest']; rfl

/-- The second token ahead. -/
theorem peekAt_one {u : Token} (h : S.At m (t :: u :: r) c d) : c.peekAt 1 = u ∧ d.peekAt 1 = u := by
  rw [Cursor.peekAt_one h.rest, Cursor.peekAt_one h.rest']
  exact (h.forward (List.cons_ne_nil u r)).peek

/-- Behind the last token of the common lines comes the end of a block or of the text. -/
theorem kindAt_one (h : S.At m [t] c d) :
    (c.kindAt 1 = .dedent ∨ c.kindAt 1 = .eof) ∧ (d.kindAt 1 = .dedent ∨ (d.kindAt 1).begins = true) := by
  obtain ⟨u, us, hu, hk⟩ := S.tail_head S.blocks
  obtain ⟨v, vs, hv, hk'⟩ := S.tail'_head S.blocks
  have hc : c.peekAt 1 = u := by
    rw [Cursor.peekAt_one h.rest, Cursor.forward, h.rest]
    show Cursor.peek ⟨_, S.tail S.blocks, _⟩ = u
    rw [hu]
    rfl
  have hd : d.peekAt 1 = v := by
    rw [Cursor.peekAt_one h.rest', Cursor.forward, h.rest']
    show Cursor.peek ⟨_, S.tail' S.blocks, _⟩ = v
    rw [hv]
    rfl
  unfold Cursor.kindAt
  rw [hc, hd]
  exact ⟨hk, hk'⟩

end At

/-! ## Questions about the tokens ahead -/

/-- Names up to the first other token are settled before that token. -/
theorem names_append_of_mem {s w : List Token} (hs : ∃ t ∈ s, t.kind.isIdent = false) :
    (s ++ w).takeWhile (fun t => t.kind.isIdent) = s.takeWhile (fun t => t.kind.isIdent) ∧
      ((s ++ w).dropWhile fun t => t.kind.isIdent).head? = (s.dropWhile fun t => t.kind.isIdent).head? := by
  induction s with
  | nil =>
    obtain ⟨t, ht, -⟩ := hs
    exact absurd ht List.not_mem_nil
  | cons u s ih =>
    rw [List.cons_append, List.takeWhile_cons, List.takeWhile_cons, List.dropWhile_cons, List.dropWhile_cons]
    cases hu : u.kind.isIdent with
    | false => exact ⟨rfl, rfl⟩
    | true =>
      obtain ⟨t, ht, hk⟩ := hs
      have hmore : ∃ t ∈ s, t.kind.isIdent = false := by
        refine ⟨t, (List.mem_cons.mp ht).resolve_left ?_, hk⟩
        rintro rfl
        rw [hu] at hk
        cases hk
      exact ⟨congrArg (u :: ·) (ih hmore).1, (ih hmore).2⟩

namespace Inside

variable {c d : Cursor}

theorem cases (h : S.Inside c d) : ∃ m t r, S.At m (t :: r) c d := by
  obtain ⟨m, r, h⟩ := h
  obtain ⟨t, r, rfl⟩ := List.exists_cons_of_ne_nil h.more
  exact ⟨m, t, r, h⟩

theorem peek (h : S.Inside c d) : c.peek = d.peek := by
  obtain ⟨m, t, r, h⟩ := h.cases
  rw [h.peek.1, h.peek.2]

theorem kind (h : S.Inside c d) : c.kind = d.kind := congrArg Token.kind h.peek

theorem running (h : S.Inside c d) : c.kind ≠ .eof := by
  obtain ⟨m, t, r, h⟩ := h.cases
  rw [h.kind.1]
  exact h.running

theorem previous_next (h : S.Inside c d) : c.next.previous? = some c.peek := by
  obtain ⟨m, t, r, h⟩ := h.cases
  rw [h.next_eq.1]
  exact Cursor.previous?_forward h.rest

theorem next (h : S.Inside c d) (hk : c.kind ≠ .newline) : S.Moved c.next d.next := by
  obtain ⟨m, t, r, h⟩ := h.cases
  rw [h.kind.1] at hk
  exact ⟨t :: m, r, List.cons_ne_nil t m, h.next (h.more_of_kind hk)⟩

theorem next_line (h : S.Inside c d) : S.Moved c.next d.next ∨ S.Edge c.next d.next := by
  obtain ⟨m, t, r, h⟩ := h.cases
  cases r with
  | nil => exact .inr h.next_edge
  | cons u r => exact .inl ⟨t :: m, u :: r, List.cons_ne_nil t m, h.next (List.cons_ne_nil u r)⟩

/-- The second token is the same, unless the first one ends the line. -/
theorem peekAt_one (h : S.Inside c d) (hk : c.kind ≠ .newline) : c.peekAt 1 = d.peekAt 1 := by
  obtain ⟨m, t, r, h⟩ := h.cases
  rw [h.kind.1] at hk
  obtain ⟨u, r, rfl⟩ := List.exists_cons_of_ne_nil (h.more_of_kind hk)
  rw [h.peekAt_one.1, h.peekAt_one.2]

/-- A question that no line end answers with yes, about the next two tokens. -/
theorem second (h : S.Inside c d) {p : TokenKind → Bool} (hp : p .newline = false)
    (g : Token → Token → Bool) :
    (p c.kind && g c.peek (c.peekAt 1)) = (p d.kind && g d.peek (d.peekAt 1)) := by
  rw [← h.kind, ← h.peek]
  by_cases hk : c.kind = .newline
  · rw [hk, hp, Bool.false_and, Bool.false_and]
  · rw [h.peekAt_one hk]

theorem atNegative (h : S.Inside c d) : c.atNegative = d.atNegative := by
  have hsame := h.second (p := TokenKind.isOperator .minus) rfl
    fun t u => u.kind.isNumber && t.span.stop == u.span.start
  unfold Cursor.atNegative Cursor.atOperator Cursor.kindAt
  rw [Bool.and_assoc, Bool.and_assoc]
  exact hsame

theorem namesThen (h : S.Inside c d) {p : TokenKind → Bool} {n : Nat}
    (hn : n = 0 ∨ n = 1 ∧ c.kind ≠ .newline) : c.namesThen p n = d.namesThen p n := by
  obtain ⟨m, t, r, h⟩ := h.cases
  have hdrop : ∀ w : List Token, (t :: r ++ w).drop n = (t :: r).drop n ++ w := fun w =>
    List.drop_append_of_le_length (by rw [List.length_cons]; omega)
  have hlast : ∃ u ∈ (t :: r).drop n, u.kind.isIdent = false := by
    obtain ⟨u, hu, hk⟩ := h.last
    have hend : (t :: r).drop n ≠ [] := by
      rcases hn with rfl | ⟨rfl, hk'⟩
      · exact List.cons_ne_nil t r
      · rw [h.kind.1] at hk'
        exact h.more_of_kind hk'
    refine ⟨u, ?_, by rw [hk]; rfl⟩
    rw [← List.take_append_drop n (t :: r), List.getLast?_append_of_ne_nil _ hend] at hu
    exact List.mem_of_getLast? hu
  unfold Cursor.namesThen
  rw [h.rest, h.rest', hdrop, hdrop]
  dsimp only
  rw [(names_append_of_mem hlast).1, (names_append_of_mem hlast).2, (names_append_of_mem hlast).1,
    (names_append_of_mem hlast).2]

theorem atDefinition (h : S.Inside c d) : c.atDefinition = d.atDefinition := h.namesThen (.inl rfl)

theorem atFunction (h : S.Inside c d) (hk : c.kind ≠ .newline) : c.atFunction = d.atFunction :=
  h.namesThen (.inr ⟨rfl, hk⟩)

/-- A block that comes next is entered within the common lines. -/
theorem atBlock (h : S.Inside c d) (p : TokenKind → Bool) :
    c.atBlock p = d.atBlock p ∧ (c.atBlock p = true →
      S.Moved c.forward.forward d.forward.forward ∧ p c.forward.forward.kind = true ∧
        ∃ t, c.forward.forward.previous? = some t ∧ t.kind.isIndent = true) := by
  obtain ⟨m, t, r, h⟩ := h.cases
  unfold Cursor.atBlock Cursor.atNewline
  rw [h.kind.1, h.kind.2]
  cases r with
  | nil =>
    obtain ⟨hc, hd⟩ := h.kindAt_one
    have hci : (c.kindAt 1).isIndent = false := by rcases hc with hc | hc <;> rw [hc] <;> rfl
    have hdi : (d.kindAt 1).isIndent = false := by
      rcases hd with hd | hd
      · rw [hd]; rfl
      · have hlayout := TokenKind.not_layout_of_begins hd
        cases hk : d.kindAt 1 <;> rw [hk] at hlayout <;> first | rfl | cases hlayout
    rw [hci, hdi, Bool.and_false, Bool.false_and]
    exact ⟨rfl, fun hno => by cases hno⟩
  | cons u r =>
    have hsecond := h.peekAt_one
    have hnext := h.forward (List.cons_ne_nil u r)
    unfold Cursor.kindAt
    rw [hsecond.1, hsecond.2, Cursor.peekAt_succ h.rest, Cursor.peekAt_succ h.rest']
    by_cases hu : u.kind = .newline
    · rw [hu]
      simp [TokenKind.isIndent]
    · have hmore := hnext.more_of_kind hu
      obtain ⟨v, r, rfl⟩ := List.exists_cons_of_ne_nil hmore
      have hinner := hnext.forward hmore
      rw [hnext.peekAt_one.1, hnext.peekAt_one.2, hinner.kind.1]
      refine ⟨rfl, fun hb => ?_⟩
      simp only [Bool.and_eq_true] at hb
      exact ⟨⟨_, _, List.cons_ne_nil _ _, hinner⟩, hb.2, u, by rw [Cursor.previous?, hinner.before]; rfl, hb.1.2⟩

end Inside

namespace Moved

variable {c d : Cursor}

theorem kind (h : S.Moved c d) : c.kind = d.kind := h.inside.kind

theorem previous (h : S.Moved c d) : c.previous? = d.previous? := by
  obtain ⟨m, r, hm, h⟩ := h
  obtain ⟨t, m, rfl⟩ := List.exists_cons_of_ne_nil hm
  unfold Cursor.previous?
  rw [h.before, h.before']
  rfl

theorem atAccess (h : S.Moved c d) : c.atAccess = d.atAccess := by
  have hsame := h.inside.second (p := TokenKind.isPunctuation .dot) rfl
    fun t u => u.kind.isIdent && t.span.stop == u.span.start
  unfold Cursor.atAccess Cursor.atPunctuation Cursor.kindAt
  rw [h.previous, ← h.inside.peek, Bool.and_assoc (c.kind.isPunctuation .dot),
    Bool.and_assoc (d.kind.isPunctuation .dot), hsame]
  rw [← h.inside.peek]

theorem atArgument (h : S.Moved c d) : c.atArgument = d.atArgument := by
  have hgap : c.afterGap = d.afterGap := by
    unfold Cursor.afterGap
    rw [h.previous, h.inside.peek]
  unfold Cursor.atArgument
  rw [← h.kind, ← h.inside.atNegative, ← hgap]
  cases hk : c.kind with
  | ident name =>
    dsimp only
    rw [Cursor.kindAt, Cursor.kindAt, h.inside.peekAt_one (by simp [hk])]
  | operator op => cases op <;> rfl
  | _ => rfl

theorem afterLine (h : S.Moved c d) : Parse.afterLine c = Parse.afterLine d := by
  unfold Parse.afterLine
  rw [h.previous]

theorem afterDedent (h : S.Moved c d) : c.afterDedent = d.afterDedent := by
  unfold Cursor.afterDedent
  rw [h.previous]

/-- Before a line end the next token is a clause at both places or at neither. -/
theorem atClause (h : S.Moved c d) {p : TokenKind → Bool} (hp : Parse.ClauseMark p) :
    (c.atNewline && p (c.kindAt 1)) = (d.atNewline && p (d.kindAt 1)) ∧
      ((c.atNewline && p (c.kindAt 1)) = true → S.Moved c.next d.next ∧ p c.next.kind = true) := by
  obtain ⟨m, t, r, h⟩ := h.inside.cases
  unfold Cursor.atNewline
  rw [h.kind.1, h.kind.2]
  cases r with
  | nil =>
    obtain ⟨hc, hd⟩ := h.kindAt_one
    have hcp : p (c.kindAt 1) = false := by
      rcases hc with hc | hc <;> rw [hc] <;> cases hp <;> rfl
    have hdp : p (d.kindAt 1) = false := by
      rcases hd with hd | hd
      · rw [hd]
        cases hp <;> rfl
      · exact TokenKind.not_clause_of_begins hd hp
    rw [hcp, hdp, Bool.and_false]
    exact ⟨rfl, fun hno => by cases hno⟩
  | cons u r =>
    have hnext := h.next (List.cons_ne_nil u r)
    rw [Cursor.kindAt, Cursor.kindAt, h.peekAt_one.1, h.peekAt_one.2, hnext.kind.1]
    refine ⟨rfl, fun hc => ⟨⟨_, _, List.cons_ne_nil _ _, hnext⟩, ?_⟩⟩
    exact ((Bool.and_eq_true _ _).mp hc).2

end Moved

/-! ## Past the common lines -/

namespace Past

variable {n : Nat} {c d : Cursor}

theorem kind (h : S.Past n c d) :
    (c.kind = .dedent ∨ c.kind = .eof) ∧ (d.kind = .dedent ∨ d.kind.begins = true) := by
  obtain ⟨t, ts, ht, hk⟩ := S.tail_head n
  obtain ⟨u, us, hu, hk'⟩ := S.tail'_head n
  rw [Parse.kind_of_rest (h.rest.trans ht), Parse.kind_of_rest (h.rest'.trans hu)]
  exact ⟨hk, hk'⟩

/-- A kind that neither the end of a block nor what follows can have. -/
theorem not_at (h : S.Past n c d) {p : TokenKind → Bool} (hdedent : p .dedent = false)
    (hbegins : ∀ k, k.begins = true → p k = false) : p c.kind = false ∧ p d.kind = false := by
  obtain ⟨hc, hd⟩ := h.kind
  constructor
  · rcases hc with hc | hc <;> rw [hc]
    · exact hdedent
    · exact hbegins _ rfl
  · rcases hd with hd | hd
    · rw [hd, hdedent]
    · exact hbegins _ hd

theorem not_line (h : S.Past n c d) : c.atNewline = false ∧ d.atNewline = false :=
  h.not_at (p := TokenKind.isNewline) rfl fun k hk => by
    have hlayout := TokenKind.not_layout_of_begins hk
    cases k <;> first | rfl | cases hlayout

theorem not_block (h : S.Past n c d) (p : TokenKind → Bool) : c.atBlock p = false ∧ d.atBlock p = false := by
  unfold Cursor.atBlock
  rw [h.not_line.1, h.not_line.2]
  exact ⟨rfl, rfl⟩

theorem not_punctuation (h : S.Past n c d) {p : Punctuation}
    (hp : p ∉ [Punctuation.lparen, .lbracket, .lbrace, .underscore]) :
    c.atPunctuation p = false ∧ d.atPunctuation p = false :=
  h.not_at rfl fun _ hk => TokenKind.not_punctuation_of_begins hk hp

theorem not_access (h : S.Past n c d) : c.atAccess = false ∧ d.atAccess = false := by
  obtain ⟨hc, hd⟩ := h.not_punctuation (p := .dot) (by decide)
  unfold Cursor.atAccess
  rw [hc, hd]
  exact ⟨rfl, rfl⟩

/-- No operator comes next in the first run. -/
theorem no_operator (h : S.Past n c d) (least : Nat) : c.operator? least = none := by
  unfold Cursor.operator?
  rcases h.kind.1 with hc | hc <;> rw [hc] <;> rfl

/-- The end of a block comes next at both places or at neither. -/
theorem atDedent (h : S.Past n c d) : c.atDedent = d.atDedent ∧ (c.atDedent = true → ∃ k, n = k + 1) := by
  cases n with
  | zero =>
    obtain ⟨u, us, hu, hk⟩ := S.begins
    have hc : c.kind = .eof := (Parse.kind_of_rest h.rest).trans S.last_eof
    have hd : d.kind = u.kind := Parse.kind_of_rest (h.rest'.trans hu)
    have hlayout := TokenKind.not_layout_of_begins hk
    have hno : d.atDedent = false := by
      unfold Cursor.atDedent
      rw [hd]
      cases hu : u.kind <;> rw [hu] at hlayout <;> first | rfl | cases hlayout
    have hno' : c.atDedent = false := by
      unfold Cursor.atDedent
      rw [hc]
      rfl
    rw [hno, hno']
    exact ⟨rfl, fun h => by cases h⟩
  | succ n =>
    have hc : c.kind = .dedent := Parse.kind_of_rest h.rest
    have hd : d.kind = .dedent := Parse.kind_of_rest h.rest'
    unfold Cursor.atDedent
    rw [hc, hd]
    exact ⟨rfl, fun _ => ⟨n, rfl⟩⟩

theorem next (h : S.Past (n + 1) c d) (hn : n < S.blocks) : S.Closed c.next d.next := by
  have hc : c.kind = .dedent := Parse.kind_of_rest h.rest
  have hd : d.kind = .dedent := Parse.kind_of_rest h.rest'
  rw [Parse.next_eq_forward (by simp [hc]), Parse.next_eq_forward (by simp [hd])]
  have hrest : c.rest = ⟨.dedent, S.closed⟩ :: S.tail n := h.rest
  have hrest' : d.rest = ⟨.dedent, S.closed'⟩ :: S.tail' n := h.rest'
  refine ⟨⟨n, hn, ?_, ?_, ?_⟩, ?_, ?_⟩
  · rw [Cursor.forward, hrest]
  · rw [Cursor.forward, hrest']
  · unfold Errors
    rw [Cursor.forward_errors, Cursor.forward_errors]
    exact h.errors
  · unfold Cursor.afterDedent
    rw [Cursor.previous?_forward hrest]
    exact congrArg TokenKind.isDedent hc
  · unfold Cursor.afterDedent
    rw [Cursor.previous?_forward hrest']
    exact congrArg TokenKind.isDedent hd

/-- An error at the next token is one past the common lines. -/
theorem late (h : S.Past n c d) : S.bound ≤ c.peek.span.start := by
  have hpeek : c.peek = (S.tail n).head?.getD c.peek := by
    unfold Cursor.peek
    rw [h.rest]
    obtain ⟨t, ts, ht, -⟩ := S.tail_head n
    rw [ht]
    rfl
  rw [hpeek]
  cases n with
  | zero => exact S.bound_le.2
  | succ n => exact S.bound_le.1

end Past

namespace Edge

variable {c d : Cursor}

theorem next (h : S.Edge c d) (hd : c.atDedent = true) : S.Closed c.next d.next := by
  obtain ⟨hpast, -, -⟩ := h
  obtain ⟨k, hk⟩ := hpast.atDedent.2 hd
  rw [hk] at hpast
  exact hpast.next (by omega)

theorem afterLine (h : S.Edge c d) : Parse.afterLine c = true ∧ Parse.afterLine d = true := by
  obtain ⟨-, ⟨t, ht, hk⟩, u, hu, hk'⟩ := h
  unfold Parse.afterLine
  rw [ht, hu]
  dsimp only
  rw [hk, hk']
  exact ⟨rfl, rfl⟩

end Edge

namespace Closed

variable {c d : Cursor}

theorem past (h : S.Closed c d) : ∃ n < S.blocks, S.Past n c d := h.1

theorem next (h : S.Closed c d) (hd : c.atDedent = true) : S.Closed c.next d.next := by
  obtain ⟨n, hn, hpast⟩ := h.past
  obtain ⟨k, rfl⟩ := hpast.atDedent.2 hd
  exact hpast.next (by omega)

/-- What follows a block on the next line continues no operation. -/
theorem operator? (h : S.Closed c d) (least : Nat) :
    c.operator? least = none ∧ d.operator? least = none := by
  obtain ⟨n, hn, hpast⟩ := h.past
  refine ⟨hpast.no_operator least, ?_⟩
  have hnone : d.kind.binary? = none := by
    cases n with
    | zero =>
      obtain ⟨u, us, hu, hk⟩ := S.begins
      have hd : d.kind = u.kind := Parse.kind_of_rest (hpast.rest'.trans hu)
      rw [hd]
      exact TokenKind.not_binary_of_begins hk (S.unsigned (Nat.zero_lt_of_lt hn) u (by rw [hu]; rfl))
    | succ n =>
      have hd : d.kind = .dedent := Parse.kind_of_rest hpast.rest'
      rw [hd]
      rfl
  unfold Cursor.operator?
  rw [hnone]
  rfl

/-- What follows a block on the next line may be an argument in the second run. -/
theorem atArgument (h : S.Closed c d) : c.atArgument = false ∧
    (d.atArgument = true → (Cursor.ofTokens S.following).atArgument = true) := by
  obtain ⟨n, hn, hpast⟩ := h.past
  constructor
  · unfold Cursor.atArgument
    rcases hpast.kind.1 with hc | hc <;> rw [hc]
  cases n with
  | succ n =>
    have hd : d.kind = .dedent := Parse.kind_of_rest hpast.rest'
    intro harg
    unfold Cursor.atArgument at harg
    rw [hd] at harg
    cases harg
  | zero =>
    obtain ⟨u, us, hu, hk⟩ := S.begins
    have hrest : d.rest = u :: us := hpast.rest'.trans hu
    have hd : d.kind = u.kind := Parse.kind_of_rest hrest
    have hf : (Cursor.ofTokens S.following).kind = u.kind := Parse.kind_of_rest hu
    have hone : d.kindAt 1 = (Cursor.ofTokens S.following).kindAt 1 := by
      unfold Cursor.kindAt Cursor.peekAt Cursor.final
      rw [hrest, show (Cursor.ofTokens S.following).rest = u :: us from hu]
      simp [List.getLast?_cons]
    have hminus := S.unsigned (Nat.zero_lt_of_lt hn) u (by rw [hu]; rfl)
    unfold Cursor.atArgument
    rw [hd, hf, hone]
    cases hkind : u.kind with
    | operator op =>
      cases op with
      | minus => exact absurd hkind hminus
      | _ => exact id
    | _ => exact id

end Closed

/-- Some place that both runs get to. -/
def Anywhere (S : Seam) (c d : Cursor) : Prop := S.Inside c d ∨ ∃ n, S.Past n c d

section

variable {c d : Cursor}

theorem Moved.anywhere (h : S.Moved c d) : S.Anywhere c d := .inl h.inside

theorem Closed.anywhere (h : S.Closed c d) : S.Anywhere c d := by
  obtain ⟨n, -, hpast⟩ := h.past
  exact .inr ⟨n, hpast⟩

theorem Edge.anywhere (h : S.Edge c d) : S.Anywhere c d := .inr ⟨_, h.1⟩

theorem Joined.anywhere (h : S.Joined c d) : S.Anywhere c d := h.elim Moved.anywhere Closed.anywhere

theorem Anywhere.ended (h : S.Anywhere c d) : c.Ended ∧ d.Ended := by
  have hleft : ∀ n, ∃ t, (S.tail n).getLast? = some t ∧ t.kind = .eof := fun n =>
    ⟨S.last, List.getLast?_concat, S.last_eof⟩
  have hright : ∀ n, ∃ t, (S.tail' n).getLast? = some t ∧ t.kind = .eof := fun n => by
    obtain ⟨t, ht, hk⟩ := S.ended
    obtain ⟨u, us, hu, -⟩ := S.begins
    refine ⟨t, ?_, hk⟩
    rw [tail', List.getLast?_append_of_ne_nil _ (by rw [hu]; exact List.cons_ne_nil u us), ht]
  have hne : ∀ n, S.tail n ≠ [] ∧ S.tail' n ≠ [] := fun n => by
    obtain ⟨t, ts, ht, -⟩ := S.tail_head n
    obtain ⟨u, us, hu, -⟩ := S.tail'_head n
    rw [ht, hu]
    exact ⟨List.cons_ne_nil t ts, List.cons_ne_nil u us⟩
  unfold Cursor.Ended
  rcases h with ⟨m, r, h⟩ | ⟨n, h⟩
  · rw [h.rest, h.rest', List.getLast?_append_of_ne_nil _ (hne _).1,
      List.getLast?_append_of_ne_nil _ (hne _).2]
    exact ⟨hleft _, hright _⟩
  · rw [h.rest, h.rest']
    exact ⟨hleft _, hright _⟩

end

end Seam

end PipeLang
