import PipeLang.Proofs.Parse.BalancedExpr
import PipeLang.Proofs.Parse.Grammar

/-! What a rule of the parser takes when it succeeds, and what it makes of that. A fact about the tokens
from the start of a rule, its result, and the tokens after it is put together rule by rule. -/

namespace PipeLang

/-- Tokens hold tokens, so that this is no computation. -/
theorem Token.eq_mk (t : Token) : t = ⟨t.kind, t.span⟩ := by
  cases t
  rfl

/-- A token that the scanner makes: its interpolations are lines of their own, and all that it is made of
is well formed. -/
def Token.Lexed (t : Token) : Prop := t.Enclosed ∧ ∃ n, t.Formed n

theorem Token.Lexed.hole {t : Token} (h : t.Lexed) {parts : List StringPart} (ht : t.kind = .text parts)
    {us : List Token} {s : Span} (hmem : .hole us s ∈ parts) :
    OneLine us ∧ ∀ u ∈ us, u.Lexed := by
  obtain ⟨henclosed, n, hformed⟩ := h
  obtain ⟨hline, hus⟩ := henclosed.hole ht hmem
  exact ⟨hline, fun u hu => ⟨hus u hu, n - 1, hformed.hole ht hmem u hu⟩⟩

/-- A place in tokens that the scanner made, before their end. -/
structure Cursor.Lexed (c : Cursor) : Prop where
  ended : c.Ended
  tokens : ∀ t ∈ c.rest, t.Lexed

namespace Cursor.Lexed

variable {c : Cursor}

theorem exists_cons (h : c.Lexed) : ∃ us, c.rest = c.peek :: us := by
  obtain ⟨t, ts, hr⟩ := h.ended.exists_cons
  refine ⟨ts, ?_⟩
  rw [hr, peek, hr]

theorem forward (h : c.Lexed) (hk : c.kind.isEof = false) :
    c.forward.Lexed ∧ c.rest = ⟨c.kind, c.peek.span⟩ :: c.forward.rest := by
  obtain ⟨us, hr⟩ := h.exists_cons
  have hrest : c.forward.rest = us := by rw [Cursor.forward, hr]
  have hpeek : c.peek = ⟨c.kind, c.peek.span⟩ := c.peek.eq_mk
  have he : c.kind ≠ .eof := fun he => by rw [he] at hk; cases hk
  refine ⟨⟨(h.ended.forward he).1, fun t ht => h.tokens t ?_⟩, by rw [hrest, ← hpeek, hr]⟩
  rw [hr]
  exact List.mem_cons_of_mem _ (hrest ▸ ht)

end Cursor.Lexed

namespace Parse

open Grammar

/-- From `c` a success of `rule` leaves a cursor in the same tokens, and `Q` holds of the result and of the
tokens after it. -/
def ParsesFrom (c : Cursor) (Q : α → List Token → Prop) (rule : Parse α) : Prop :=
  ∀ a c', rule c = .ok a c' →
    c'.Lexed ∧ c'.before.reverse ++ c'.rest = c.before.reverse ++ c.rest ∧ Q a c'.rest

def Parses (Q : List Token → α → List Token → Prop) (rule : Parse α) : Prop :=
  ∀ c, c.Lexed → ParsesFrom c (Q c.rest) rule

/-- A round keeps `I`, and the last one makes `Q` of it. -/
def Round.Keeps {σ : Type} (I Q : σ → List Token → Prop) : Round σ → List Token → Prop
  | .again s => I s
  | .done s => Q s

/-- What `R` says of each item in turn. -/
inductive Many (R : List Token → α → List Token → Prop) : List Token → List α → List Token → Prop
  | nil {ts : List Token} : Many R ts [] ts
  | cons {ts us vs : List Token} {a : α} {as : List α} (item : R ts a us) (rest : Many R us as vs) :
    Many R ts (a :: as) vs

variable {α β σ : Type} {c : Cursor} {x : Parse α} {f : α → Parse β}

namespace ParsesFrom

variable {P : α → List Token → Prop} {Q : β → List Token → Prop}

theorem bind_run (hx : ParsesFrom c P x)
    (hf : ∀ a c', x c = .ok a c' → c'.Lexed → P a c'.rest → ParsesFrom c' Q (f a)) :
    ParsesFrom c Q (x >>= f) := by
  intro b c'' he
  obtain ⟨a, c', ha, hb⟩ := bind_eq_ok.mp he
  obtain ⟨hc', htokens, hp⟩ := hx a c' ha
  obtain ⟨hc'', htokens', hq⟩ := hf a c' ha hc' hp b c'' hb
  exact ⟨hc'', htokens'.trans htokens, hq⟩

theorem bind (hx : ParsesFrom c P x)
    (hf : ∀ a c', c'.Lexed → P a c'.rest → ParsesFrom c' Q (f a)) : ParsesFrom c Q (x >>= f) :=
  hx.bind_run fun a c' _ => hf a c'

theorem mono {P' : α → List Token → Prop} (hx : ParsesFrom c P x) (h : ∀ a us, P a us → P' a us) :
    ParsesFrom c P' x := by
  intro a c' he
  obtain ⟨hc', htokens, hp⟩ := hx a c' he
  exact ⟨hc', htokens, h a _ hp⟩

theorem pure {a : α} (hc : c.Lexed) (h : P a c.rest) : ParsesFrom c P (pure a : Parse α) := by
  intro a' c' he
  cases he
  exact ⟨hc, rfl, h⟩

theorem fail {d : Cursor → Diagnostic} : ParsesFrom c P (Parse.fail d) := by
  intro a c' he
  cases he

theorem test_bind {p : Cursor → α} (h : ParsesFrom c Q (f (p c))) :
    ParsesFrom c Q (Parse.test p >>= f) :=
  h

theorem ite {p : Prop} [Decidable p] {x y : Parse α} (hx : p → ParsesFrom c P x)
    (hy : ¬p → ParsesFrom c P y) : ParsesFrom c P (if p then x else y) := by
  by_cases h : p
  · rw [if_pos h]
    exact hx h
  · rw [if_neg h]
    exact hy h

/-- The token at the cursor is taken. -/
theorem skip (hc : c.Lexed) {k : TokenKind} (hk : c.kind = k) (he : k.isEof = false) :
    ParsesFrom c (fun s us => c.rest = ⟨k, s⟩ :: us) Parse.skip := by
  subst hk
  intro a c' heq
  cases heq
  rw [show c.next = c.forward by rw [Cursor.next, Cursor.atEnd, he]; rfl]
  obtain ⟨hforward, hrest⟩ := hc.forward he
  exact ⟨hforward, c.forward_tokens, hrest⟩

theorem accept_bind {p : Cursor → Bool} {f : Bool → Parse β} {k : TokenKind} (hc : c.Lexed)
    (hp : p c = true → c.kind = k) (he : k.isEof = false)
    (htrue : ∀ s c', c'.Lexed → c.rest = ⟨k, s⟩ :: c'.rest → ParsesFrom c' Q (f true))
    (hfalse : ParsesFrom c Q (f false)) : ParsesFrom c Q (accept p >>= f) := by
  cases hpc : p c with
  | false =>
    intro b c' heq
    rw [accept_bind_of_false hpc] at heq
    exact hfalse b c' heq
  | true =>
    intro b c' heq
    rw [accept_bind_of_true hpc] at heq
    obtain ⟨hc', htokens, hrest⟩ := skip hc (hp hpc) he _ _ rfl
    obtain ⟨hc'', htokens', hq⟩ := htrue _ _ hc' hrest b c' heq
    exact ⟨hc'', htokens'.trans htokens, hq⟩

theorem rounds {I Q : σ → List Token → Prop} {round : σ → Parse (Round σ)}
    (hm : ∀ s, Moves Round.cost (round s))
    (h : ∀ s c, c.Lexed → I s c.rest → ParsesFrom c (Round.Keeps I Q) (round s))
    {s : σ} (hc : c.Lexed) (hs : I s c.rest) : ParsesFrom c Q (Parse.rounds round s) := by
  suffices hrounds : ∀ n s c, c.Lexed → c.rest.length < n → I s c.rest →
      ParsesFrom c Q (roundsUpTo round n s) from hrounds _ s c hc (Nat.lt_succ_self _) hs
  intro n
  induction n with
  | zero => exact fun _ _ _ hn => absurd hn (Nat.not_lt_zero _)
  | succ n ih =>
    intro s c hc hn hs
    refine (h s c hc hs).bind_run fun r c' hr hc' hi => ?_
    cases r with
    | done s' => exact pure hc' hi
    | again s' =>
      have hl : c'.rest.length + 1 ≤ c.rest.length := (hm s c hc.ended _ c' hr).2
      exact ih s' c' hc' (by omega) hi

end ParsesFrom

theorem Parses.many {R : List Token → α → List Token → Prop} {ready : Cursor → Bool} {item : Parse α}
    (h : ∀ c, c.Lexed → ready c = true → ParsesFrom c (R c.rest) item) :
    Parses (Many R) (many ready item) := by
  suffices hmany : ∀ n, Parses (Many R) (manyUpTo ready item n) from fun c hc => hmany _ c hc
  intro n
  induction n with
  | zero => exact fun c hc => .pure hc .nil
  | succ n ih =>
    intro c hc
    refine .test_bind (.ite (fun hr => ?_) fun _ => .pure hc .nil)
    refine (h c hc hr).bind fun a c1 hc1 ha => (ih c1 hc1).bind fun as c2 hc2 has => ?_
    exact .pure hc2 (.cons ha has)

/-! ## Single tokens -/

theorem parses_expectPunctuation (p : Punctuation) (place : Place) :
    Parses (fun ts s us => ts = ⟨.punctuation p, s⟩ :: us) (expectPunctuation p place) :=
  fun _ hc => .test_bind (.ite (fun h => .skip hc (TokenKind.isPunctuation_iff.mp h) rfl) fun _ => .fail)

theorem parses_expectOperator (op : Operator) (place : Place) :
    Parses (fun ts s us => ts = ⟨.operator op, s⟩ :: us) (expectOperator op place) :=
  fun _ hc => .test_bind (.ite (fun h => .skip hc (TokenKind.isOperator_iff.mp h) rfl) fun _ => .fail)

theorem parses_identifier (place : Place) :
    Parses (fun ts n us => ts = n.token :: us) (identifier place) := by
  intro c hc n c' he
  obtain ⟨hk, hspan, rfl⟩ := identifier_eq_ok he
  obtain ⟨hc', htokens, hrest⟩ := ParsesFrom.skip hc hk rfl _ _ rfl
  refine ⟨hc', htokens, hrest.trans ?_⟩
  rw [← hspan]
  rfl

theorem parses_stillOpen (form : Form) (opened : Span) (expected : List Expected) :
    Parses (fun ts _ us => ts = us) (stillOpen form opened expected) := by
  intro c hc a c' he
  unfold stillOpen at he
  split at he
  · cases he
  · cases he
    exact ⟨hc, rfl, rfl⟩

theorem parses_noComma (form : Form) (sample : String) (expected : List Expected) :
    Parses (fun ts _ us => ts = us) (noComma form sample expected) := by
  intro c hc a c' he
  unfold noComma at he
  split at he
  · cases he
  · cases he
    exact ⟨hc, rfl, rfl⟩

/-! ## Blocks -/

theorem kind_of_atNewline (h : c.atNewline = true) : c.kind = .newline := by
  unfold Cursor.atNewline at h
  cases hk : c.kind <;> rw [hk] at h <;> first | rfl | cases h

theorem kind_of_atDedent (h : c.atDedent = true) : c.kind = .dedent := by
  unfold Cursor.atDedent at h
  cases hk : c.kind <;> rw [hk] at h <;> first | rfl | cases h

/-- A block begins at the cursor. -/
theorem turn_of_atBlock (hc : c.Lexed) {p : TokenKind → Bool} (h : c.atBlock p = true) :
    c.forward.forward.Lexed ∧ Turn false c.rest c.forward.forward.rest ∧
      p c.forward.forward.kind = true := by
  simp only [Cursor.atBlock, Bool.and_eq_true] at h
  obtain ⟨⟨hline, hindent⟩, hp⟩ := h
  have hk := kind_of_atNewline hline
  obtain ⟨hc1, hrest⟩ := hc.forward (by rw [hk]; rfl)
  have hk1 : c.forward.kind = .indent := by
    rw [Cursor.kindAt_one hrest] at hindent
    cases hk1 : c.forward.kind <;> rw [hk1] at hindent <;> first | rfl | cases hindent
  obtain ⟨hc2, hrest1⟩ := hc1.forward (by rw [hk1]; rfl)
  have htwo : c.kindAt 2 = c.forward.forward.kind := by
    unfold Cursor.kindAt
    rw [Cursor.peekAt_succ hrest, Cursor.peekAt_one hrest1]
    rfl
  exact ⟨hc2, .block (hk ▸ hrest) (hk1 ▸ hrest1), htwo ▸ hp⟩

theorem ParsesFrom.openBlock_bind {Q : β → List Token → Prop} {p : TokenKind → Bool}
    {f : Bool → Parse β} (hc : c.Lexed)
    (htrue : ∀ c', c'.Lexed → Turn false c.rest c'.rest → ParsesFrom c' Q (f true))
    (hfalse : ParsesFrom c Q (f false)) : ParsesFrom c Q (openBlock p >>= f) := by
  intro b c'' he
  obtain ⟨found, c', hfound, he⟩ := bind_eq_ok.mp he
  unfold openBlock at hfound
  split at hfound
  · next h =>
    cases hfound
    obtain ⟨hc', hturn, -⟩ := turn_of_atBlock hc h
    obtain ⟨hc'', htokens, hq⟩ := htrue _ hc' hturn b c'' he
    exact ⟨hc'', htokens.trans (c.forward.forward_tokens.trans c.forward_tokens), hq⟩
  · cases hfound
    exact hfalse b c'' he

/-- Either a clause follows, and starts at the cursor, or nothing is taken. -/
theorem ParsesFrom.clauseAhead_bind {Q : β → List Token → Prop} {inBlock : Bool}
    {p : TokenKind → Bool} {f : Option Bool → Parse β} (hc : c.Lexed)
    (hsome : ∀ block c', c'.Lexed → Ahead inBlock c.rest block c'.rest → p c'.kind = true →
      ParsesFrom c' Q (f (some block)))
    (hnone : ParsesFrom c Q (f none)) : ParsesFrom c Q (clauseAhead inBlock p >>= f) := by
  intro b c'' he
  obtain ⟨found, c', hfound, he⟩ := bind_eq_ok.mp he
  have hkind : ∀ block, found = some block → p c'.kind = true := fun block hblock =>
    clauseAhead_kind hc.ended (hblock ▸ hfound)
  unfold clauseAhead at hfound
  split at hfound
  · cases hfound
    exact hsome _ _ hc .here (hkind _ rfl) b c'' he
  split at hfound
  · next hblock =>
    split at hfound
    · next h =>
      cases hfound
      simp only [Bool.and_eq_true] at h
      obtain ⟨hc', htokens, hrest⟩ := ParsesFrom.skip hc (kind_of_atNewline h.1) rfl _ _ rfl
      obtain ⟨hc'', htokens', hq⟩ :=
        hsome _ _ hc' (hblock ▸ .turn (.line hrest)) (hkind _ rfl) b c'' he
      exact ⟨hc'', htokens'.trans htokens, hq⟩
    · cases hfound
      exact hnone b c'' he
  next hblock =>
  have hblock : inBlock = false := by simpa using hblock
  subst hblock
  split at hfound
  · next h =>
    cases hfound
    obtain ⟨hc', hturn, -⟩ := turn_of_atBlock hc h
    obtain ⟨hc'', htokens, hq⟩ := hsome _ _ hc' (.turn hturn) (hkind _ rfl) b c'' he
    exact ⟨hc'', htokens.trans (c.forward.forward_tokens.trans c.forward_tokens), hq⟩
  · cases hfound
    exact hnone b c'' he

theorem parses_closeBlock (place : Place) :
    Parses (fun ts _ us => Closing true ts us) (closeBlock place) := by
  have hdedent : ∀ {d : Cursor} {Q : Unit → List Token → Prop}, d.Lexed →
      (∀ s us, d.rest = ⟨.dedent, s⟩ :: us → Q () us) → ParsesFrom d Q (do
        if ← test Cursor.atDedent then
          let _ ← skip
          pure ()
        else unexpected place [.newline, .dedent]) := by
    intro d Q hd hQ
    refine .test_bind (.ite (fun h => ?_) fun _ => .fail)
    exact (ParsesFrom.skip hd (kind_of_atDedent h) rfl).bind fun s c' hc' hs =>
      .pure hc' (hQ s _ hs)
  intro c hc
  refine .accept_bind hc kind_of_atNewline rfl (fun s c' hc' hline => ?_) ?_
  · exact hdedent hc' fun t us ht => .line hline ht
  · exact hdedent hc fun t us ht => .dedent ht

theorem parses_closeBlockIf (inBlock : Bool) (place : Place) :
    Parses (fun ts _ us => Closing inBlock ts us) (closeBlockIf inBlock place) := by
  cases inBlock with
  | true => exact parses_closeBlock place
  | false => exact fun c hc => .pure hc .none

/-- Clauses one after the other, each found and then read. -/
theorem ParsesFrom.clauses {I : List α → Bool → List Token → Prop} {p : TokenKind → Bool}
    {clause : Bool → Parse (α × Bool)} (hm : ∀ inBlock, Moves (fun _ => 1) (clause inBlock))
    (h : ∀ as b ts block c, c.Lexed → I as b ts → Ahead b ts block c.rest → p c.kind = true →
      ParsesFrom c (fun r us => I (as ++ [r.1]) r.2 us) (clause block))
    {inBlock : Bool} (hc : c.Lexed) (hs : I [] inBlock c.rest) :
    ParsesFrom c (fun r us => I r.1 r.2 us) (clauses p clause inBlock) := by
  refine .bind (.rounds (I := fun s us => I s.1.reverse s.2 us) (moves_clauseRound p hm)
    (fun s c hc hi => ?_) hc hs) fun s c' hc' hi => .pure hc' hi
  refine .clauseAhead_bind hc (fun block c' hc' hahead hp => ?_) (.pure hc hi)
  refine (h _ _ _ block c' hc' hi hahead hp).bind fun r c'' hc'' hr => .pure hc'' ?_
  simpa [Round.Keeps] using hr

theorem parses_body {mode : ParseMode} {expression : Parse Expr}
    (h : Parses (fun ts e us => Derives mode ts (.expr e) us) expression) :
    Parses (fun ts e us => Derives mode ts (.body e) us) (body expression) := by
  intro c hc
  refine .openBlock_bind hc (fun c1 hc1 hturn => ?_) ?_
  · refine (h c1 hc1).bind fun e c2 hc2 he => (parses_closeBlock _ c2 hc2).bind fun _ c3 hc3 hclose => ?_
    exact .pure hc3 (.indented hturn he hclose)
  · exact (h c hc).mono fun e us he => .inline he

end Parse

end PipeLang
