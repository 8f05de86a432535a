import PipeLang.Proofs.Parse.Seam

/-! What the two runs of a rule come to on either side of a seam, for the rules that tokens are taken by,
loops, line ends and blocks. -/

namespace PipeLang.Seam

open Parse

variable {S : Seam}

/-- What both runs of a rule come to. They do the same, unless the first one finds an error past the common
lines, or the second one may go on there. -/
inductive Outcome (S : Seam) (Q : α → Cursor → Cursor → Prop) :
    EStateM.Result Diagnostic Cursor α → EStateM.Result Diagnostic Cursor α → Prop
  | ok {a : α} {c d : Cursor} (after : Q a c d) : Outcome S Q (.ok a c) (.ok a d)
  | error {e : Diagnostic} {c d : Cursor} (place : S.Inside c d) : Outcome S Q (.error e c) (.error e d)
  | late {e : Diagnostic} {c : Cursor} {r : EStateM.Result Diagnostic Cursor α}
    (past : S.bound ≤ e.span.start) : Outcome S Q (.error e c) r
  | spills {r r' : EStateM.Result Diagnostic Cursor α} (spills : S.Spills) : Outcome S Q r r'

/-- From any two places that are related by `P` both runs get to ones that are related by `Q`. -/
def Meets (S : Seam) (P : Cursor → Cursor → Prop) (Q : α → Cursor → Cursor → Prop) (x : Parse α) : Prop :=
  ∀ c d, P c d → S.Outcome Q (x c) (x d)

section

variable {α β : Type} {P P' : Cursor → Cursor → Prop} {Q Q' : α → Cursor → Cursor → Prop}
  {R : β → Cursor → Cursor → Prop} {x y : Parse α} {f : α → Parse β} {c d : Cursor}

theorem Outcome.bind (h : S.Outcome Q (x c) (x d))
    (hf : ∀ a c' d', x c = .ok a c' → Q a c' d' → S.Outcome R (f a c') (f a d')) :
    S.Outcome R ((x >>= f) c) ((x >>= f) d) := by
  generalize hc : x c = r at h
  generalize hd : x d = r' at h
  cases h with
  | ok after =>
    rw [Parse.bind_of_ok hc, Parse.bind_of_ok hd]
    exact hf _ _ _ hc after
  | error place =>
    rw [Parse.bind_of_error hc, Parse.bind_of_error hd]
    exact .error place
  | late past =>
    rw [Parse.bind_of_error hc]
    exact .late past
  | spills spills => exact .spills spills

theorem Outcome.mono {r r' : EStateM.Result Diagnostic Cursor α} (h : S.Outcome Q r r')
    (hq : ∀ a c d, Q a c d → Q' a c d) : S.Outcome Q' r r' := by
  cases h with
  | ok after => exact .ok (hq _ _ _ after)
  | error place => exact .error place
  | late past => exact .late past
  | spills spills => exact .spills spills

namespace Meets

theorem bind (hx : S.Meets P Q x) (hf : ∀ a, S.Meets (Q a) R (f a)) : S.Meets P R (x >>= f) :=
  fun c d h => (hx c d h).bind fun a c' d' _ h' => hf a c' d' h'

theorem mono (h : S.Meets P Q x) (hp : ∀ c d, P' c d → P c d) (hq : ∀ a c d, Q a c d → Q' a c d) :
    S.Meets P' Q' x :=
  fun c d h' => (h c d (hp c d h')).mono hq

theorem pure {a : α} (h : ∀ c d, P c d → Q a c d) : S.Meets P Q (pure a) := fun c d hp => .ok (h c d hp)

/-- A question with the same answer at both places. -/
theorem choose {p : Cursor → Bool} (hp : ∀ c d, P c d → p c = p d)
    (hx : S.Meets (fun c d => P c d ∧ p c = true) Q x)
    (hy : S.Meets (fun c d => P c d ∧ p c = false) Q y) :
    S.Meets P Q (do if ← test p then x else y) := by
  intro c d h
  rw [test_bind, test_bind, ← hp c d h]
  cases hc : p c with
  | true => exact hx c d ⟨h, hc⟩
  | false => exact hy c d ⟨h, hc⟩

theorem look {p : Cursor → α} {f : α → Parse β} (hp : ∀ c d, P c d → p c = p d)
    (hf : ∀ a, S.Meets (fun c d => P c d ∧ p c = a) R (f a)) : S.Meets P R (test p >>= f) := by
  intro c d h
  rw [test_bind, test_bind, ← hp c d h]
  exact hf _ c d ⟨h, rfl⟩

/-- A rule that starts by skipping a token that is not a line end. -/
theorem skip {f : Span → Parse β} (hf : ∀ s, S.Meets S.Moved R (f s)) :
    S.Meets (fun c d => S.Inside c d ∧ c.kind ≠ .newline) R (Parse.skip >>= f) := by
  rintro c d ⟨h, hk⟩
  rw [skip_bind, skip_bind, ← h.peek]
  exact hf _ _ _ (h.next hk)

end Meets

end

/-! ## Errors -/

/-- An error about the next token, and nothing else. -/
structure AboutNext (e : Cursor → Diagnostic) : Prop where
  same : ∀ c d : Cursor, c.peek = d.peek → e c = e d
  span : ∀ c, (e c).span = c.peek.span

namespace AboutNext

variable {e : Cursor → Diagnostic}

theorem unexpected (place : Place) (expected : List Expected) :
    AboutNext fun c => c.unexpected place expected :=
  ⟨fun c d h => by rw [Cursor.unexpected, Cursor.unexpected, Cursor.kind, Cursor.kind, h], fun _ => rfl⟩

theorem failure (cause : Cause) : AboutNext fun c => c.failure cause :=
  ⟨fun c d h => by rw [Cursor.failure, Cursor.failure, h], fun _ => rfl⟩

theorem map (h : AboutNext e) {f : Diagnostic → Diagnostic} (hf : ∀ d, (f d).span = d.span) :
    AboutNext fun c => f (e c) :=
  ⟨fun c d hp => congrArg f (h.same c d hp), fun c => (hf _).trans (h.span c)⟩

theorem withExample (h : AboutNext e) (examples : List Example) :
    AboutNext fun c => (e c).withExample examples := by
  refine h.map (f := fun d => d.withExample examples) fun d => ?_
  cases examples with
  | nil => rfl
  | cons x xs =>
    simp only [Diagnostic.withExample]
    cases x.note <;> rfl

end AboutNext

section

variable {α : Type} {Q : α → Cursor → Cursor → Prop}

theorem meets_fail {e : Cursor → Diagnostic} (he : AboutNext e) :
    S.Meets S.Anywhere Q (Parse.fail e : Parse α) := by
  rintro c d (h | ⟨n, h⟩)
  · rw [Parse.fail_run, Parse.fail_run, he.same c d h.peek]
    exact .error h
  · refine .late ?_
    rw [he.span]
    exact h.late

theorem meets_unexpected (place : Place) (expected : List Expected) :
    S.Meets S.Anywhere Q (Parse.unexpected place expected : Parse α) :=
  meets_fail (.unexpected place expected)

theorem meets_tooDeep (o : ParseOptions) : S.Meets S.Anywhere Q (Parse.tooDeep o : Parse α) :=
  meets_fail ((AboutNext.failure _).map (f := fun e => e.withHint _) fun _ => rfl)

end

/-! ## Loops -/

section

variable {α σ : Type} {P : Cursor → Cursor → Prop} {Q : α → Cursor → Cursor → Prop}
  (hany : ∀ c d, P c d → S.Anywhere c d)

include hany

/-- A loop whose bound is the number of tokens ahead, which only has to be large enough. -/
theorem meets_bounded {x : Nat → Parse α}
    (hx : ∀ n m c, Cursor.Ended c → c.rest.length < n → n ≤ m → x n c = x m c)
    (h : ∀ n c d, P c d → c.rest.length < n → S.Outcome Q (x n c) (x n d)) :
    S.Meets P Q fun c => x (c.rest.length + 1) c := by
  intro c d hcd
  obtain ⟨hc, hd⟩ := (hany c d hcd).ended
  show S.Outcome Q (x (c.rest.length + 1) c) (x (d.rest.length + 1) d)
  rw [hx _ _ c hc (Nat.lt_succ_self _) (le_max_left _ (d.rest.length + 1)),
    hx _ _ d hd (Nat.lt_succ_self _) (le_max_right (c.rest.length + 1) _)]
  exact h _ c d hcd (lt_max_of_lt_left (Nat.lt_succ_self _))

theorem meets_many {ready : Cursor → Bool} {item : Parse α} (hm : Moves (fun _ => 1) item)
    (hready : ∀ c d, P c d → ready c = ready d)
    (hitem : S.Meets (fun c d => P c d ∧ ready c = true) (fun _ => P) item) :
    S.Meets P (fun _ c d => P c d ∧ ready c = false) (many ready item) := by
  refine meets_bounded hany (manyUpTo_eq hm) fun n => ?_
  induction n with
  | zero => exact fun c d _ hn => absurd hn (Nat.not_lt_zero _)
  | succ n ih =>
    intro c d hcd hn
    unfold manyUpTo
    rw [test_bind, test_bind, ← hready c d hcd]
    cases hr : ready c with
    | false => exact .ok ⟨hcd, hr⟩
    | true =>
      refine (hitem c d ⟨hcd, hr⟩).bind fun a c' d' hrun hcd' => ?_
      obtain ⟨-, hless⟩ := hm c (hany c d hcd).ended.1 a c' hrun
      have hless : c'.rest.length + 1 ≤ c.rest.length := hless
      exact (ih c' d' hcd' (by omega)).bind fun as c'' d'' _ h => .ok h

end

/-- The place after a round that goes on, or after the last one. -/
def AfterRound {σ : Type} (R Q : σ → Cursor → Cursor → Prop) : Round σ → Cursor → Cursor → Prop
  | .again s => R s
  | .done s => Q s

theorem meets_rounds {σ : Type} {R Q : σ → Cursor → Cursor → Prop} {round : σ → Parse (Round σ)}
    (hany : ∀ s c d, R s c d → S.Anywhere c d) (hm : ∀ s, Moves Round.cost (round s))
    (h : ∀ s, S.Meets (R s) (AfterRound R Q) (round s)) (s : σ) : S.Meets (R s) Q (rounds round s) := by
  refine meets_bounded (x := fun n => roundsUpTo round n s) (hany s)
    (fun n m c hc hn hm' => roundsUpTo_eq hm n m s c hc hn hm') fun n => ?_
  induction n generalizing s with
  | zero => exact fun c d _ hn => absurd hn (Nat.not_lt_zero _)
  | succ n ih =>
    intro c d hcd hn
    refine (h s c d hcd).bind fun r c' d' hrun hafter => ?_
    obtain ⟨-, hless⟩ := hm s c (hany s c d hcd).ended.1 r c' hrun
    cases r with
    | done s => exact .ok hafter
    | again s =>
      have hless : c'.rest.length + 1 ≤ c.rest.length := hless
      exact ih s c' d' hafter (by omega)

/-! ## Single tokens -/

/-- A kind of token that neither a line end, nor the end of a block, nor what follows the common lines can
be of. -/
structure Mark (p : TokenKind → Bool) : Prop where
  line : p .newline = false
  dedent : p .dedent = false
  begins : ∀ k, TokenKind.begins k = true → p k = false

theorem Mark.punctuation {p : Punctuation}
    (hp : p ∉ [Punctuation.lparen, .lbracket, .lbrace, .underscore]) : Mark (TokenKind.isPunctuation p) :=
  ⟨rfl, rfl, fun _ hk => TokenKind.not_punctuation_of_begins hk hp⟩

theorem Mark.keyword {j : Keyword}
    (hj : j ∉ [Keyword.true_, .false_, .nil_, .let_, .if_, .match_, .try_]) : Mark (TokenKind.isKeyword j) :=
  ⟨rfl, rfl, fun _ hk => TokenKind.not_keyword_of_begins hk hj⟩

theorem Mark.clause {p : TokenKind → Bool} (hp : ClauseMark p) : Mark p :=
  ⟨by cases hp <;> rfl, by cases hp <;> rfl, fun _ hk => TokenKind.not_clause_of_begins hk hp⟩

section

variable {p : TokenKind → Bool} {c d : Cursor}

theorem Joined.mark (h : S.Joined c d) (hp : Mark p) :
    p c.kind = p d.kind ∧ (p c.kind = true → S.Moved c d) := by
  rcases h with h | h
  · exact ⟨by rw [h.kind], fun _ => h⟩
  · obtain ⟨n, -, hpast⟩ := h.past
    obtain ⟨hc, hd⟩ := hpast.not_at hp.dedent hp.begins
    rw [hc, hd]
    exact ⟨rfl, fun hno => by cases hno⟩

theorem Mark.kind_ne (hp : Mark p) (h : p c.kind = true) : c.kind ≠ .newline := fun hk => by
  rw [hk, hp.line] at h
  cases h

theorem outcome_accept {q : Cursor → Bool} {Q : Bool → Cursor → Cursor → Prop} (hq : q c = q d)
    (hyes : q c = true → Q true c.next d.next) (hno : q c = false → Q false c d) :
    S.Outcome Q (accept q c) (accept q d) := by
  unfold accept
  rw [← hq]
  cases hk : q c with
  | false => exact .ok (hno hk)
  | true => exact .ok (hyes hk)

/-- A token that may be there. -/
theorem meets_accept (hp : Mark p) :
    S.Meets S.Joined (fun b c d => (b = true → S.Moved c d) ∧ S.Joined c d) (accept fun c => p c.kind) := by
  intro c d h
  obtain ⟨hsame, hmoved⟩ := h.mark hp
  refine outcome_accept hsame (fun hk => ?_) fun _ => ⟨fun hno => (by cases hno), h⟩
  have hnext := (hmoved hk).inside.next (hp.kind_ne hk)
  exact ⟨fun _ => hnext, hnext.joined⟩

theorem meets_accept_moved (hp : p .newline = false) :
    S.Meets S.Moved (fun _ => S.Moved) (accept fun c => p c.kind) := by
  intro c d h
  refine outcome_accept (congrArg p h.kind) (fun hk => h.inside.next fun hline => ?_) fun _ => h
  rw [hline, hp] at hk
  cases hk

end

/-- A form of one token. -/
theorem meets_single {α : Type} (f : Span → α) :
    S.Meets (fun c d => S.Inside c d ∧ c.kind ≠ .newline) (fun _ => S.Moved)
      (do let span ← Parse.skip; pure (f span)) :=
  Meets.skip (R := fun _ => S.Moved) fun _ => .pure fun _ _ h => h

section

variable {α β : Type} {Q : β → Cursor → Cursor → Prop}

/-- A token that has to be there. -/
theorem meets_expect {p : TokenKind → Bool} (hline : p .newline = false) (hdedent : p .dedent = false)
    (heof : p .eof = false) (place : Place) (expected : List Expected) :
    S.Meets S.Anywhere (fun _ => S.Moved)
      (do if ← test fun c => p c.kind then Parse.skip else Parse.unexpected place expected) := by
  rintro c d (h | ⟨n, h⟩)
  · rw [test_bind, test_bind, ← h.kind]
    cases hk : p c.kind with
    | false => exact meets_unexpected place expected c d (.inl h)
    | true =>
      rw [if_pos rfl, skip_run, skip_run, h.peek]
      exact .ok (h.next fun hno => by rw [hno, hline] at hk; cases hk)
  · have hc : p c.kind = false := by
      rcases h.kind.1 with hc | hc <;> rw [hc]
      · exact hdedent
      · exact heof
    rw [test_bind, hc]
    refine .late ?_
    exact h.late

theorem meets_expectPunctuation (p : Punctuation) (place : Place) :
    S.Meets S.Anywhere (fun _ => S.Moved) (expectPunctuation p place) :=
  meets_expect (p := TokenKind.isPunctuation p) rfl rfl rfl place _

theorem meets_expectOperator (op : Operator) (place : Place) :
    S.Meets S.Anywhere (fun _ => S.Moved) (expectOperator op place) :=
  meets_expect (p := TokenKind.isOperator op) rfl rfl rfl place _

theorem meets_identifier (place : Place) : S.Meets S.Anywhere (fun _ => S.Moved) (identifier place) := by
  rintro c d (h | ⟨n, h⟩)
  · unfold identifier
    rw [test_bind, test_bind, ← h.peek]
    cases hk : c.peek.kind with
    | ident name =>
      dsimp only
      rw [skip_bind, skip_bind, h.peek]
      exact .ok (h.next fun hline => by rw [show c.peek.kind = .newline from hline] at hk; cases hk)
    | _ => exact meets_unexpected place _ c d (.inl h)
  · unfold identifier
    rw [test_bind]
    rcases h.kind.1 with hk | hk <;> rw [show c.peek.kind = _ from hk] <;> exact .late h.late

/-- One of a row of names. -/
theorem meets_names (place : Place) :
    S.Meets S.Moved (fun _ => S.Moved) (many Cursor.atIdent (identifier place)) := by
  refine (meets_many (fun _ _ h => h.anywhere) (moves_identifier place) (fun c d h => ?_) ?_).mono
    (fun _ _ h => h) fun _ _ _ h => h.1
  · unfold Cursor.atIdent
    rw [h.kind]
  · exact (meets_identifier place).mono (fun _ _ h => h.1.anywhere) fun _ _ _ h => h

end

/-! ## Ends of lines and of blocks -/

/-- Where both runs may be after a line end that may be missing. -/
def Lined (S : Seam) (c d : Cursor) : Prop := S.Moved c d ∨ S.Edge c d ∨ S.Closed c d

section

variable {c d : Cursor}

theorem Lined.anywhere (h : S.Lined c d) : S.Anywhere c d :=
  h.elim Moved.anywhere fun h => h.elim Edge.anywhere Closed.anywhere

theorem Joined.lined (h : S.Joined c d) : S.Lined c d := h.imp_right .inr

theorem Lined.atDedent (h : S.Lined c d) : c.atDedent = d.atDedent := by
  rcases h with h | h | h
  · unfold Cursor.atDedent
    rw [h.kind]
  · exact h.1.atDedent.1
  · obtain ⟨n, -, hpast⟩ := h.past
    exact hpast.atDedent.1

theorem Lined.next (h : S.Lined c d) (hd : c.atDedent = true) : S.Joined c.next d.next := by
  rcases h with h | h | h
  · exact .inl (h.inside.next fun hk => by rw [Cursor.atDedent, hk] at hd; cases hd)
  · exact .inr (h.next hd)
  · exact .inr (h.next hd)

theorem Joined.atNewline (h : S.Joined c d) : c.atNewline = d.atNewline ∧
    (c.atNewline = true → S.Moved c d) := by
  rcases h with h | h
  · refine ⟨?_, fun _ => h⟩
    unfold Cursor.atNewline
    rw [h.kind]
  · obtain ⟨n, -, hpast⟩ := h.past
    rw [hpast.not_line.1, hpast.not_line.2]
    exact ⟨rfl, fun hno => by cases hno⟩

end

theorem meets_line : S.Meets S.Joined (fun _ => S.Lined) (accept Cursor.atNewline) := by
  intro c d h
  obtain ⟨hsame, hmoved⟩ := h.atNewline
  refine outcome_accept hsame (fun hk => ?_) fun _ => h.lined
  exact (hmoved hk).inside.next_line.imp_right .inl

/-- The end of a block, if it comes next. -/
theorem meets_blockEnd {P : Cursor → Cursor → Prop} (hlined : ∀ c d, P c d → S.Lined c d) :
    S.Meets P (fun b c d => if b then S.Joined c d else P c d) (accept Cursor.atDedent) :=
  fun c d h => outcome_accept (hlined c d h).atDedent (fun hd => (hlined c d h).next hd) fun _ => h

section

variable {P : Cursor → Cursor → Prop} (hany : ∀ c d, P c d → S.Anywhere c d)

include hany

theorem meets_stillOpen (form : Form) (opened : Span) (expected : List Expected) :
    S.Meets P (fun _ => P) (stillOpen form opened expected) := by
  have habout : AboutNext fun c =>
      ((c.failure (.unterminated form)).withExpected expected).withLabel opened "opened here" :=
    ((AboutNext.failure _).map (f := fun e => e.withExpected expected) fun _ => rfl).map
      (f := fun e => e.withLabel opened _) fun _ => rfl
  intro c d h
  unfold stillOpen
  rcases hany c d h with hin | ⟨n, hpast⟩
  · rw [← hin.kind, habout.same c d hin.peek]
    split
    · exact .error hin
    · exact .ok h
  · cases n with
    | zero =>
      rw [show c.kind = .eof from (kind_of_rest hpast.rest).trans S.last_eof]
      exact .late hpast.late
    | succ n =>
      rw [show c.kind = .dedent from kind_of_rest hpast.rest,
        show d.kind = .dedent from kind_of_rest hpast.rest']
      exact .ok h

theorem meets_noComma (form : Form) (sample : String) (expected : List Expected) :
    S.Meets P (fun _ => P) (noComma form sample expected) := by
  have habout : AboutNext fun c =>
      ((c.failure (.comma form)).withExpected expected).withHint
        ("separate elements with whitespace: `" ++ sample ++ "`") :=
    ((AboutNext.failure _).map (f := fun e => e.withExpected expected) fun _ => rfl).map
      (f := fun e => e.withHint _) fun _ => rfl
  intro c d h
  unfold noComma
  rcases hany c d h with hin | ⟨n, hpast⟩
  · rw [show d.atPunctuation .comma = c.atPunctuation .comma by
      rw [Cursor.atPunctuation, Cursor.atPunctuation, hin.kind], habout.same c d hin.peek]
    split
    · exact .error hin
    · exact .ok h
  · obtain ⟨hc, hd⟩ := hpast.not_punctuation (p := .comma) (by decide)
    rw [hc, hd]
    exact .ok h

end

theorem meets_openBlock (p : TokenKind → Bool) :
    S.Meets S.Joined (fun b c d => (b = true → S.Moved c d ∧ p c.kind = true ∧
        ∃ t, c.previous? = some t ∧ t.kind.isIndent = true) ∧ S.Joined c d) (openBlock p) := by
  rintro c d (h | h)
  · obtain ⟨hsame, hopen⟩ := h.inside.atBlock p
    unfold openBlock
    rw [← hsame]
    cases hb : c.atBlock p with
    | false => exact .ok ⟨fun hno => (by cases hno), h.joined⟩
    | true => exact .ok ⟨fun _ => hopen hb, (hopen hb).1.joined⟩
  · obtain ⟨n, -, hpast⟩ := h.past
    unfold openBlock
    rw [(hpast.not_block p).1, (hpast.not_block p).2]
    exact .ok ⟨fun hno => (by cases hno), .inr h⟩

theorem meets_openBlock_moved (p : TokenKind → Bool) :
    S.Meets S.Moved (fun _ => S.Moved) (openBlock p) := by
  intro c d h
  obtain ⟨hsame, hopen⟩ := h.inside.atBlock p
  unfold openBlock
  rw [← hsame]
  cases hb : c.atBlock p with
  | false => exact .ok h
  | true => exact .ok (hopen hb).1

theorem meets_closeBlock (place : Place) : S.Meets S.Joined (fun _ => S.Joined) (closeBlock place) := by
  refine meets_line.bind fun _ => .choose (fun _ _ h => h.atDedent) ?_ ?_
  · rintro c d ⟨h, hd⟩
    rw [skip_bind, skip_bind]
    exact .ok (h.next hd)
  · exact (meets_unexpected place _).mono (fun _ _ h => h.1.anywhere) fun _ _ _ h => h

theorem meets_closeBlockIf (inBlock : Bool) (place : Place) :
    S.Meets S.Joined (fun _ => S.Joined) (closeBlockIf inBlock place) := by
  cases inBlock with
  | true => exact meets_closeBlock place
  | false => exact .pure fun _ _ h => h

/-! ## Clauses and bodies -/

/-- After a look for the next clause: at the clause, if there is one. -/
def AtClause (S : Seam) (p : TokenKind → Bool) (found : Option Bool) (c d : Cursor) : Prop :=
  (found.isSome = true → S.Moved c d ∧ p c.kind = true) ∧ S.Joined c d

theorem meets_clauseAhead (inBlock : Bool) {p : TokenKind → Bool} (hp : ClauseMark p) :
    S.Meets S.Joined (S.AtClause p) (clauseAhead inBlock p) := by
  intro c d h
  obtain ⟨hsame, hmoved⟩ := h.mark (.clause hp)
  have hnone : S.AtClause p none c d := ⟨fun hno => (by cases hno), h⟩
  unfold clauseAhead
  rw [← hsame]
  cases hk : p c.kind with
  | true => exact .ok ⟨fun _ => ⟨hmoved hk, hk⟩, h⟩
  | false =>
    have hsome : ∀ {c' d'}, S.Moved c' d' ∧ p c'.kind = true → S.AtClause p (some true) c' d' :=
      fun h => ⟨fun _ => h, h.1.joined⟩
    cases inBlock with
    | true =>
      have hline : (c.atNewline && p (c.kindAt 1)) = (d.atNewline && p (d.kindAt 1)) ∧
          ((c.atNewline && p (c.kindAt 1)) = true → S.Moved c.next d.next ∧ p c.next.kind = true) := by
        rcases h with h | h
        · exact h.atClause hp
        · obtain ⟨n, -, hpast⟩ := h.past
          rw [hpast.not_line.1, hpast.not_line.2]
          exact ⟨rfl, fun hno => by cases hno⟩
      simp only [Bool.false_eq_true, if_false, if_true]
      rw [← hline.1]
      cases hc : c.atNewline && p (c.kindAt 1) with
      | true => exact .ok (hsome (hline.2 hc))
      | false => exact .ok hnone
    | false =>
      have hblock : c.atBlock p = d.atBlock p ∧ (c.atBlock p = true →
          S.Moved c.forward.forward d.forward.forward ∧ p c.forward.forward.kind = true) := by
        rcases h with h | h
        · exact (h.inside.atBlock p).imp_right fun hopen hb => ⟨(hopen hb).1, (hopen hb).2.1⟩
        · obtain ⟨n, -, hpast⟩ := h.past
          rw [(hpast.not_block p).1, (hpast.not_block p).2]
          exact ⟨rfl, fun hno => by cases hno⟩
      simp only [Bool.false_eq_true, if_false]
      rw [← hblock.1]
      cases hc : c.atBlock p with
      | true => exact .ok (hsome (hblock.2 hc))
      | false => exact .ok hnone

theorem meets_clauses {α : Type} {p : TokenKind → Bool} (hp : ClauseMark p)
    {clause : Bool → Parse (α × Bool)} (hm : ∀ inBlock, Moves (fun _ => 1) (clause inBlock))
    (h : ∀ inBlock, S.Meets (fun c d => S.Moved c d ∧ p c.kind = true) (fun _ => S.Joined) (clause inBlock))
    (inBlock : Bool) : S.Meets S.Joined (fun _ => S.Joined) (clauses p clause inBlock) := by
  refine Meets.bind (Q := fun _ => S.Joined) ?_ fun _ => .pure fun _ _ h => h
  refine meets_rounds (R := fun _ => S.Joined) (fun _ _ _ h => h.anywhere) (moves_clauseRound p hm)
    (fun s => ?_) _
  refine (meets_clauseAhead s.2 hp).bind fun found => ?_
  cases found with
  | none => exact .pure fun _ _ h => h.2
  | some inBlock =>
    refine Meets.bind ((h inBlock).mono (fun _ _ h => h.1 rfl) fun _ _ _ h => h) fun _ => ?_
    exact .pure fun _ _ h => h

theorem meets_body {expression : Parse Expr} (h : S.Meets S.Moved (fun _ => S.Joined) expression) :
    S.Meets S.Moved (fun _ => S.Joined) (body expression) := by
  refine (meets_openBlock_moved _).bind fun inBlock => ?_
  cases inBlock with
  | false => exact h
  | true => exact h.bind fun _ => (meets_closeBlock _).bind fun _ => .pure fun _ _ h => h

end PipeLang.Seam
