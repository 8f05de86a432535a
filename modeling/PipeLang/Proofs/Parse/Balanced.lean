import PipeLang.Proofs.Parse.MovesExpr
import PipeLang.Proofs.Scan.Regular

/-! Brackets and rules. What a rule takes when it succeeds closes every bracket that it opens, and no
other, so the brackets that are open after it are those that were open before. -/

namespace PipeLang

def TokenKind.isBracket : TokenKind → Bool
  | punctuation p => p.isOpening || p.isClosing
  | _ => false

theorem bracketsAfter_of_not_bracket {k : TokenKind} (h : k.isBracket = false)
    (bs : List Punctuation) : bracketsAfter bs k = some bs := by
  cases k with
  | punctuation p =>
    obtain ⟨hopening, hclosing⟩ := Bool.or_eq_false_iff.mp h
    simp [bracketsAfter, hopening, hclosing]
  | _ => rfl

/-- A place in the tokens `ts` at which `bs` are open. -/
structure Cursor.Opens (ts : List Token) (bs : List Punctuation) (c : Cursor) : Prop where
  tokens : c.before.reverse ++ c.rest = ts
  ended : c.Ended
  brackets : openBrackets [] c.before.reverse = some bs

section

variable {ts : List Token} {bs bs' : List Punctuation} {c : Cursor}

theorem Cursor.Opens.forward (h : c.Opens ts bs) (he : c.kind ≠ .eof)
    (hk : bracketsAfter bs c.kind = some bs') : c.forward.Opens ts bs' := by
  refine ⟨c.forward_tokens.trans h.tokens, (h.ended.forward he).1, ?_⟩
  obtain ⟨t, ts, hr⟩ := h.ended.exists_cons
  have hkind : c.kind = t.kind := Parse.kind_of_rest hr
  have hbefore : c.forward.before = t :: c.before := by rw [Cursor.forward, hr]
  rw [hbefore, List.reverse_cons, openBrackets_append, h.brackets]
  rw [hkind] at hk
  simp [openBrackets, hk]

theorem Cursor.Opens.next (h : c.Opens ts bs) (hk : bracketsAfter bs c.kind = some bs') :
    c.next.Opens ts bs' := by
  unfold Cursor.next
  split
  · next he =>
    rw [atEnd, TokenKind.isEof_iff] at he
    rw [he] at hk
    cases hk
    exact h
  · next he => exact h.forward (fun hk => he (by rw [atEnd, hk]; rfl)) hk

end

namespace Parse

variable {α β σ : Type} {c c' : Cursor} {bs : List Punctuation} {x : Parse α} {f : α → Parse β}

/-- From a cursor at which `bs` are open a success of `rule` leaves one at which `bs'` are. -/
def TurnsFrom (c : Cursor) (bs bs' : List Punctuation) (rule : Parse α) : Prop :=
  ∀ ts, c.Opens ts bs → ∀ a c', rule c = .ok a c' → c'.Opens ts bs'

def BalancedFrom (c : Cursor) (rule : Parse α) : Prop := ∀ bs, TurnsFrom c bs bs rule

def Balanced (rule : Parse α) : Prop := ∀ c, BalancedFrom c rule

/-- The rule takes the bracket that closes `b`, the innermost open one. -/
def Closes (b : Punctuation) (rule : Parse α) : Prop := ∀ c bs, TurnsFrom c (b :: bs) bs rule

theorem TurnsFrom.bind {bs bs' bs'' : List Punctuation} (hx : TurnsFrom c bs bs' x)
    (hf : ∀ a c', x c = .ok a c' → TurnsFrom c' bs' bs'' (f a)) : TurnsFrom c bs bs'' (x >>= f) := by
  intro ts hc b c'' he
  obtain ⟨a, c', ha, hb⟩ := bind_eq_ok.mp he
  exact hf a c' ha ts (hx ts hc a c' ha) b c'' hb

theorem TurnsFrom.skip {bs bs' : List Punctuation} (hk : bracketsAfter bs c.kind = some bs') :
    TurnsFrom c bs bs' skip := by
  intro _ hc a c' he
  cases he
  exact hc.next hk

namespace BalancedFrom

theorem bind (hx : BalancedFrom c x) (hf : ∀ a, Balanced (f a)) : BalancedFrom c (x >>= f) :=
  fun bs => (hx bs).bind fun a c' _ => hf a c' bs

theorem pure (a : α) : BalancedFrom c (pure a : Parse α) := by
  intro bs _ hc a' c' he
  cases he
  exact hc

theorem fail {d : Cursor → Diagnostic} : BalancedFrom c (Parse.fail d : Parse α) := by
  intro bs _ _ a c' he
  cases he

theorem skip (hk : c.kind.isBracket = false) : BalancedFrom c Parse.skip :=
  fun bs => .skip (bracketsAfter_of_not_bracket hk bs)

theorem skip_bind {f : Span → Parse β} (hk : c.kind.isBracket = false) (hf : ∀ s, Balanced (f s)) :
    BalancedFrom c (Parse.skip >>= f) :=
  (skip hk).bind hf

/-- A test at the cursor that the rule starts from. -/
theorem test_bind {p : Cursor → α} {f : α → Parse β} (h : BalancedFrom c (f (p c))) :
    BalancedFrom c (Parse.test p >>= f) :=
  h

/-- A rule that starts with an opening bracket and goes on to the one that closes it. -/
theorem enclosed {f : Span → Parse β} {b : Punctuation} (hk : c.kind = .punctuation b)
    (hb : b.isOpening = true) (hf : ∀ s, Closes b (f s)) : BalancedFrom c (Parse.skip >>= f) :=
  fun bs => (TurnsFrom.skip (by rw [hk]; simp [bracketsAfter, hb])).bind fun s c' _ => hf s c' bs

theorem ite {p : Prop} [Decidable p] {x y : Parse α} (hx : p → BalancedFrom c x)
    (hy : ¬p → BalancedFrom c y) : BalancedFrom c (if p then x else y) := by
  by_cases h : p
  · rw [if_pos h]
    exact hx h
  · rw [if_neg h]
    exact hy h

end BalancedFrom

namespace Balanced

theorem bind (hx : Balanced x) (hf : ∀ a, Balanced (f a)) : Balanced (x >>= f) :=
  fun c => (hx c).bind hf

theorem pure (a : α) : Balanced (pure a : Parse α) := fun _ => .pure a

theorem fail {d : Cursor → Diagnostic} : Balanced (Parse.fail d : Parse α) := fun _ => .fail

theorem unexpected {place : Place} {expected : List Expected} :
    Balanced (Parse.unexpected place expected : Parse α) :=
  fail

theorem tooDeep {o : ParseOptions} : Balanced (tooDeep o : Parse α) := fail

theorem test {p : Cursor → α} : Balanced (Parse.test p) := by
  intro c bs _ hc a c' he
  cases he
  exact hc

/-- A test that the rest of the rule may rely on for the cursor it was made at. -/
theorem test_bind {p : Cursor → α} {f : α → Parse β} (h : ∀ c, BalancedFrom c (f (p c))) :
    Balanced (Parse.test p >>= f) :=
  h

theorem ite {p : Prop} [Decidable p] {x y : Parse α} (hx : p → Balanced x) (hy : ¬p → Balanced y) :
    Balanced (if p then x else y) :=
  fun c => .ite (fun h => hx h c) fun h => hy h c

/-- A token is skipped if it passes a test that no bracket passes. -/
theorem skipIf {p : Cursor → Bool} {f : Span → Parse β} {y : Parse β}
    (hp : ∀ c, p c = true → c.kind.isBracket = false) (hf : ∀ s, Balanced (f s))
    (hy : Balanced y) : Balanced (do if ← Parse.test p then Parse.skip >>= f else y) :=
  test_bind fun c => .ite (fun h => .skip_bind (hp c h) hf) fun _ => hy c

theorem accept {p : Cursor → Bool} (hp : ∀ c, p c = true → c.kind.isBracket = false) :
    Balanced (Parse.accept p) := by
  intro c bs _ hc a c' he
  unfold Parse.accept at he
  split at he
  · next h =>
    cases he
    exact hc.next (bracketsAfter_of_not_bracket (hp c h) bs)
  · cases he
    exact hc

theorem manyUpTo {ready : Cursor → Bool} {item : Parse α}
    (h : ∀ c, ready c = true → BalancedFrom c item) (n : Nat) :
    Balanced (Parse.manyUpTo ready item n) := by
  induction n with
  | zero => exact pure _
  | succ n ih =>
    refine test_bind fun c => .ite (fun hc => ?_) fun _ => .pure _
    exact (h c hc).bind fun _ => ih.bind fun _ => pure _

theorem many {ready : Cursor → Bool} {item : Parse α}
    (h : ∀ c, ready c = true → BalancedFrom c item) : Balanced (Parse.many ready item) :=
  fun c => manyUpTo h (c.rest.length + 1) c

theorem roundsUpTo {round : σ → Parse (Round σ)} (h : ∀ s, Balanced (round s)) (n : Nat) :
    ∀ s, Balanced (Parse.roundsUpTo round n s) := by
  induction n with
  | zero => exact fun s => pure s
  | succ n ih =>
    intro s
    refine (h s).bind fun r => ?_
    cases r with
    | again s => exact ih s
    | done s => exact pure s

theorem rounds {round : σ → Parse (Round σ)} (h : ∀ s, Balanced (round s)) (s : σ) :
    Balanced (Parse.rounds round s) :=
  fun c => roundsUpTo h (c.rest.length + 1) s c

end Balanced

namespace Closes

variable {b : Punctuation}

theorem after (hx : Balanced x) (hf : ∀ a, Closes b (f a)) : Closes b (x >>= f) :=
  fun c bs => (hx c (b :: bs)).bind fun a c' _ => hf a c' bs

theorem first (hx : Closes b x) (hf : ∀ a, Balanced (f a)) : Closes b (x >>= f) :=
  fun c bs => (hx c bs).bind fun a c' _ => hf a c' bs

theorem fail {d : Cursor → Diagnostic} : Closes b (Parse.fail d : Parse α) := by
  intro c bs _ _ a c' he
  cases he

theorem ite {p : Prop} [Decidable p] {x y : Parse α} (hx : Closes b x) (hy : Closes b y) :
    Closes b (if p then x else y) := by
  by_cases h : p
  · rw [if_pos h]
    exact hx
  · rw [if_neg h]
    exact hy

/-- A token that is known to be the closing bracket. -/
theorem skipFrom (bs : List Punctuation) {q : Punctuation} (hb : b.closing? = some q)
    (hk : c.kind = .punctuation q) : TurnsFrom c (b :: bs) bs skip := by
  obtain ⟨hclosing, hopening⟩ := Punctuation.isClosing_of_closing? hb
  refine .skip ?_
  rw [hk]
  simp [bracketsAfter, hopening, hclosing, hb]

/-- A token is skipped if it is the closing bracket. -/
theorem skipIf {q : Punctuation} (hb : b.closing? = some q) {f : Span → Parse β} {y : Parse β}
    (hf : ∀ s, Balanced (f s)) (hy : Closes b y) :
    Closes b (do if ← Parse.test (·.atPunctuation q) then Parse.skip >>= f else y) := by
  intro c bs ts hc a c' he
  rw [test_bind] at he
  cases hq : c.atPunctuation q with
  | true =>
    rw [hq] at he
    have hskip := skipFrom bs hb (TokenKind.isPunctuation_iff.mp hq)
    exact hskip.bind (fun s c1 _ => hf s c1 bs) ts hc a c' he
  | false =>
    rw [hq] at he
    exact hy c bs ts hc a c' he

theorem expectPunctuation {q : Punctuation} (hb : b.closing? = some q) (place : Place) :
    Closes b (expectPunctuation q place) := by
  have hskip := skipIf hb (f := pure) (y := unexpected place [.punctuation q]) .pure .fail
  rw [bind_pure] at hskip
  exact hskip

end Closes

/-! ## How loops end -/

/-- Items are read until the cursor is not ready for another one. -/
theorem manyUpTo_done {ready : Cursor → Bool} {item : Parse α} (h : Moves (fun _ => 1) item)
    {as : List α} : ∀ {n : Nat} {c : Cursor}, c.Ended → c.rest.length < n →
      manyUpTo ready item n c = .ok as c' → ready c' = false := by
  intro n
  induction n generalizing as with
  | zero => exact fun _ hn => absurd hn (Nat.not_lt_zero _)
  | succ n ih =>
    intro c hc hn he
    unfold manyUpTo at he
    rw [test_bind] at he
    cases hready : ready c with
    | false =>
      rw [hready] at he
      cases he
      exact hready
    | true =>
      rw [hready] at he
      obtain ⟨a, c1, ha, he⟩ := bind_eq_ok.mp he
      obtain ⟨as, c2, has, he⟩ := bind_eq_ok.mp he
      cases he
      obtain ⟨hc1, hl⟩ := h c hc a c1 ha
      have hl : c1.rest.length + 1 ≤ c.rest.length := hl
      exact ih hc1 (by omega) has

theorem many_done {ready : Cursor → Bool} {item : Parse α} (h : Moves (fun _ => 1) item)
    {as : List α} (hc : c.Ended) (he : many ready item c = .ok as c') : ready c' = false :=
  manyUpTo_done h hc (Nat.lt_succ_self _) he

/-- A loop is its first round, and then the loop again unless that was the last. -/
theorem rounds_eq {round : σ → Parse (Round σ)} (h : ∀ s, Moves Round.cost (round s)) (s : σ)
    {c : Cursor} (hc : c.Ended) :
    rounds round s c = (do
      match ← round s with
      | .again s => rounds round s
      | .done s => pure s : Parse σ) c := by
  unfold rounds roundsUpTo
  cases hr : round s c with
  | error d c1 => rw [bind_of_error hr, bind_of_error hr]
  | ok r c1 =>
    rw [bind_of_ok hr, bind_of_ok hr]
    obtain ⟨hc1, hl⟩ := h s c hc r c1 hr
    cases r with
    | done s' => rfl
    | again s' =>
      have hl : c1.rest.length + 1 ≤ c.rest.length := hl
      exact (roundsUpTo_eq h _ _ s' c1 hc1 (Nat.lt_succ_self _) hl).symm

/-- The last round says that it is the last. -/
theorem roundsUpTo_last {round : σ → Parse (Round σ)} (h : ∀ s, Moves Round.cost (round s))
    {t : σ} : ∀ {n : Nat} {s : σ} {c : Cursor}, c.Ended → c.rest.length < n →
      roundsUpTo round n s c = .ok t c' → ∃ s' d, round s' d = .ok (.done t) c' := by
  intro n
  induction n with
  | zero => exact fun _ hn => absurd hn (Nat.not_lt_zero _)
  | succ n ih =>
    intro s c hc hn he
    unfold roundsUpTo at he
    obtain ⟨r, c1, hr, he⟩ := bind_eq_ok.mp he
    cases r with
    | done s' =>
      cases he
      exact ⟨s, c, hr⟩
    | again s' =>
      obtain ⟨hc1, hl⟩ := h s c hc _ c1 hr
      have hl : c1.rest.length + 1 ≤ c.rest.length := hl
      exact ih hc1 (by omega) he

end Parse

end PipeLang
