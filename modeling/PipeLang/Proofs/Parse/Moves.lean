import PipeLang.Proofs.Parse.Run

/-! How far a rule moves. No rule gives a token back or passes the end marker, and one that reads an
expression, a binding or a clause takes at least one token. So a loop is over before its bound is. -/

namespace PipeLang

/-- The end marker is still ahead. -/
def Cursor.Ended (c : Cursor) : Prop := ∃ t, c.rest.getLast? = some t ∧ t.kind = .eof

namespace Cursor.Ended

variable {c : Cursor}

theorem rest_ne_nil (h : c.Ended) : c.rest ≠ [] := by
  obtain ⟨t, ht, _⟩ := h
  intro hn
  rw [hn] at ht
  cases ht

theorem exists_cons (h : c.Ended) : ∃ t ts, c.rest = t :: ts :=
  List.exists_cons_of_ne_nil h.rest_ne_nil

theorem of_suffix {d : Cursor} (h : c.Ended) (hd : d.rest <:+ c.rest) (hne : d.rest ≠ []) :
    d.Ended := by
  obtain ⟨t, ht, hk⟩ := h
  obtain ⟨ts, hts⟩ := hd
  refine ⟨t, ?_, hk⟩
  rw [← hts, List.getLast?_append_of_ne_nil _ hne] at ht
  exact ht

theorem forward (h : c.Ended) (hk : c.kind ≠ .eof) :
    c.forward.Ended ∧ c.forward.rest.length + 1 = c.rest.length := by
  obtain ⟨t, ts, hr⟩ := h.exists_cons
  have hpeek : c.kind = t.kind := Parse.kind_of_rest hr
  have hrest : c.forward.rest = ts := by unfold Cursor.forward; rw [hr]
  refine ⟨h.of_suffix ?_ ?_, by rw [hrest, hr, List.length_cons]⟩
  · rw [hrest, hr]
    exact List.suffix_cons t ts
  · rw [hrest]
    rintro rfl
    obtain ⟨u, hu, he⟩ := h
    rw [hr, List.getLast?_singleton] at hu
    cases hu
    exact hk (hpeek.trans he)

theorem next (h : c.Ended) : c.next.Ended ∧ c.next.rest.length ≤ c.rest.length := by
  unfold Cursor.next
  split
  · exact ⟨h, Nat.le_refl _⟩
  · next hk =>
    obtain ⟨hf, hl⟩ := h.forward fun he => hk (by rw [atEnd, he]; rfl)
    exact ⟨hf, by omega⟩

theorem next_of_kind (h : c.Ended) (hk : c.kind ≠ .eof) :
    c.next.Ended ∧ c.next.rest.length + 1 = c.rest.length := by
  rw [Parse.next_eq_forward hk]
  exact h.forward hk

theorem atBlock_of_forward (h : c.Ended) {p : TokenKind → Bool} (hb : c.atBlock p = true) :
    c.forward.forward.Ended ∧ c.forward.forward.rest.length + 2 ≤ c.rest.length := by
  simp only [atBlock, Bool.and_eq_true] at hb
  obtain ⟨⟨hline, hindent⟩, _⟩ := hb
  obtain ⟨hf, hl⟩ := h.forward fun he => by rw [atNewline, he] at hline; cases hline
  obtain ⟨t, ts, hr⟩ := h.exists_cons
  obtain ⟨hf', hl'⟩ := hf.forward fun he => by rw [kindAt_one hr, he] at hindent; cases hindent
  exact ⟨hf', by omega⟩

end Cursor.Ended

namespace Parse

/-- From `c`, a success of `rule` takes at least as many tokens as `cost` says of its result. -/
def MovesFrom (c : Cursor) (cost : α → Nat) (rule : Parse α) : Prop :=
  ∀ a c', rule c = .ok a c' → c'.Ended ∧ c'.rest.length + cost a ≤ c.rest.length

def Moves (cost : α → Nat) (rule : Parse α) : Prop := ∀ c, c.Ended → MovesFrom c cost rule

/-- What a round has to take: a token, unless it is the last round. -/
def Round.cost : Round σ → Nat
  | .again _ => 1
  | .done _ => 0

theorem Round.cost_le (r : Round σ) : r.cost ≤ 1 := by cases r <;> simp [Round.cost]

section

variable {c : Cursor} {x : Parse α} {f : α → Parse β}

theorem MovesFrom.bind {m : α → Nat} {k n : β → Nat} (hx : MovesFrom c m x)
    (hf : ∀ a, Moves k (f a)) (h : ∀ a b, n b ≤ m a + k b) : MovesFrom c n (x >>= f) := by
  intro b c'' he
  obtain ⟨a, c', ha, hb⟩ := bind_eq_ok.mp he
  obtain ⟨hc', hl⟩ := hx a c' ha
  obtain ⟨hc'', hl'⟩ := hf a c' hc' b c'' hb
  have := h a b
  exact ⟨hc'', by omega⟩

namespace Moves

theorem bind {m : α → Nat} {k n : β → Nat} (hx : Moves m x) (hf : ∀ a, Moves k (f a))
    (h : ∀ a b, n b ≤ m a + k b) : Moves n (x >>= f) :=
  fun c hc => (hx c hc).bind hf h

theorem mono {m n : α → Nat} (hx : Moves m x) (h : ∀ a, n a ≤ m a) : Moves n x := by
  intro c hc a c' he
  obtain ⟨hc', hl⟩ := hx c hc a c' he
  have := h a
  exact ⟨hc', by omega⟩

/-- What comes first takes tokens enough. -/
theorem first {m : α → Nat} {n : β → Nat} (hx : Moves m x) (hf : ∀ a, Moves (fun _ => 0) (f a))
    (h : ∀ a b, n b ≤ m a) : Moves n (x >>= f) :=
  hx.bind hf h

/-- What comes after takes tokens enough. -/
theorem after {n : β → Nat} (hx : Moves (fun _ => 0) x) (hf : ∀ a, Moves n (f a)) :
    Moves n (x >>= f) :=
  hx.bind hf fun _ _ => by simp

theorem pure {m : α → Nat} {a : α} (h : m a = 0) : Moves m (pure a : Parse α) := by
  intro c hc a' c' he
  cases he
  exact ⟨hc, by omega⟩

theorem fail {m : α → Nat} {d : Cursor → Diagnostic} : Moves m (Parse.fail d) := by
  intro c _ a c' he
  cases he

theorem unexpected {m : α → Nat} {place : Place} {expected : List Expected} :
    Moves m (Parse.unexpected place expected) :=
  fail

theorem test {p : Cursor → α} : Moves (fun _ => 0) (Parse.test p) := by
  intro c hc a c' he
  cases he
  exact ⟨hc, Nat.le_refl _⟩

/-- A test that the rest of the rule may rely on for the cursor it was made at. -/
theorem test_bind {p : Cursor → α} {f : α → Parse β} {m : β → Nat}
    (h : ∀ c, c.Ended → MovesFrom c m (f (p c))) : Moves m (Parse.test p >>= f) :=
  h

theorem ite {p : Prop} [Decidable p] {m : α → Nat} {x y : Parse α} (hx : p → Moves m x)
    (hy : ¬p → Moves m y) : Moves m (if p then x else y) := by
  by_cases h : p
  · rw [if_pos h]; exact hx h
  · rw [if_neg h]; exact hy h

theorem skip : Moves (fun _ => 0) Parse.skip := by
  intro c hc a c' he
  cases he
  exact hc.next

theorem accept {p : Cursor → Bool} : Moves (fun _ => 0) (Parse.accept p) := by
  intro c hc a c' he
  unfold Parse.accept at he
  split at he
  · cases he; exact hc.next
  · cases he; exact ⟨hc, Nat.le_refl _⟩

end Moves

theorem MovesFrom.skip (hc : c.Ended) (hk : c.kind ≠ .eof) :
    MovesFrom c (fun _ => 1) Parse.skip := by
  intro a c' he
  cases he
  exact (hc.next_of_kind hk).imp_right Nat.le_of_eq

theorem MovesFrom.pure {m : α → Nat} {a : α} (hc : c.Ended) (h : m a = 0) :
    MovesFrom c m (pure a : Parse α) := Moves.pure h c hc

/-- A rule that starts by skipping a known token. -/
theorem MovesFrom.skip_bind {f : Span → Parse β} (hc : c.Ended) (hk : c.kind ≠ .eof)
    (hf : ∀ s, Moves (fun _ => 0) (f s)) : MovesFrom c (fun _ => 1) (Parse.skip >>= f) :=
  (MovesFrom.skip hc hk).bind hf fun _ _ => Nat.le_refl _

end

section

variable {round : σ → Parse (Round σ)} {item : Parse α} {ready : Cursor → Bool}

theorem Moves.manyUpTo (h : Moves (fun _ => 1) item) (n : Nat) :
    Moves (fun _ => 0) (manyUpTo ready item n) := by
  induction n with
  | zero => exact .pure rfl
  | succ n ih =>
    refine .after .test fun b => .ite (fun _ => ?_) fun _ => .pure rfl
    exact h.first (fun a => ih.first (fun _ => .pure rfl) fun _ _ => Nat.le_refl _)
      fun _ _ => Nat.zero_le _

theorem Moves.many (h : Moves (fun _ => 1) item) : Moves (fun _ => 0) (many ready item) :=
  fun c hc => Moves.manyUpTo h (c.rest.length + 1) c hc

theorem Moves.roundsUpTo (h : ∀ s, Moves Round.cost (round s)) (n : Nat) :
    ∀ s, Moves (fun _ => 0) (roundsUpTo round n s) := by
  induction n with
  | zero => exact fun s => .pure rfl
  | succ n ih =>
    intro s
    refine (h s).first (fun r => ?_) fun _ _ => Nat.zero_le _
    cases r with
    | again s => exact ih s
    | done s => exact .pure rfl

theorem Moves.rounds (h : ∀ s, Moves Round.cost (round s)) (s : σ) :
    Moves (fun _ => 0) (rounds round s) :=
  fun c hc => Moves.roundsUpTo h (c.rest.length + 1) s c hc

/-- A bound that covers the tokens ahead is as good as any larger one. -/
theorem roundsUpTo_eq (h : ∀ s, Moves Round.cost (round s)) :
    ∀ (n m : Nat) (s : σ) (c : Cursor), c.Ended → c.rest.length < n → n ≤ m →
      roundsUpTo round n s c = roundsUpTo round m s c := by
  intro n
  induction n with
  | zero => intro m s c _ hn; exact absurd hn (Nat.not_lt_zero _)
  | succ n ih =>
    intro m s c hc hn hm
    obtain ⟨k, rfl⟩ : ∃ k, m = k + 1 := ⟨m - 1, by omega⟩
    unfold Parse.roundsUpTo
    cases hr : round s c with
    | error d c' => rw [bind_of_error hr, bind_of_error hr]
    | ok r c' =>
      rw [bind_of_ok hr, bind_of_ok hr]
      obtain ⟨hc', hl⟩ := h s c hc r c' hr
      cases r with
      | done s' => rfl
      | again s' =>
        have : c'.rest.length + 1 ≤ c.rest.length := hl
        exact ih k s' c' hc' (by omega) (by omega)

theorem manyUpTo_eq (h : Moves (fun _ => 1) item) :
    ∀ (n m : Nat) (c : Cursor), c.Ended → c.rest.length < n → n ≤ m →
      manyUpTo ready item n c = manyUpTo ready item m c := by
  intro n
  induction n with
  | zero => intro m c _ hn; exact absurd hn (Nat.not_lt_zero _)
  | succ n ih =>
    intro m c hc hn hm
    obtain ⟨k, rfl⟩ : ∃ k, m = k + 1 := ⟨m - 1, by omega⟩
    unfold Parse.manyUpTo
    rw [test_bind, test_bind]
    by_cases hp : ready c = true
    · rw [if_pos hp, if_pos hp]
      cases hr : item c with
      | error d c' => rw [bind_of_error hr, bind_of_error hr]
      | ok a c' =>
        rw [bind_of_ok hr, bind_of_ok hr]
        obtain ⟨hc', hl⟩ := h c hc a c' hr
        have hl : c'.rest.length + 1 ≤ c.rest.length := hl
        have hmore : manyUpTo ready item n c' = manyUpTo ready item k c' :=
          ih k c' hc' (by omega) (by omega)
        cases hk : manyUpTo ready item k c' with
        | error d c'' => rw [bind_of_error (hmore.trans hk), bind_of_error hk]
        | ok as c'' => rw [bind_of_ok (hmore.trans hk), bind_of_ok hk]
    · rw [if_neg hp, if_neg hp]

end

theorem moves_expectPunctuation (p : Punctuation) (place : Place) :
    Moves (fun _ => 1) (expectPunctuation p place) := by
  refine .test_bind fun c hc => ?_
  by_cases h : c.atPunctuation p = true
  · rw [if_pos h]
    exact .skip hc fun he => by rw [Cursor.atPunctuation, he] at h; cases h
  · rw [if_neg h]
    exact Moves.unexpected c hc

theorem moves_expectOperator (op : Operator) (place : Place) :
    Moves (fun _ => 1) (expectOperator op place) := by
  refine .test_bind fun c hc => ?_
  by_cases h : c.atOperator op = true
  · rw [if_pos h]
    exact .skip hc fun he => by rw [Cursor.atOperator, he] at h; cases h
  · rw [if_neg h]
    exact Moves.unexpected c hc

theorem moves_identifier (place : Place) : Moves (fun _ => 1) (identifier place) := by
  intro c hc a c' he
  obtain ⟨hk, _, rfl⟩ := identifier_eq_ok he
  exact (hc.next_of_kind (by rw [hk]; simp)).imp_right Nat.le_of_eq

theorem moves_stillOpen (form : Form) (opened : Span) (expected : List Expected) :
    Moves (fun _ => 0) (stillOpen form opened expected) := by
  intro c hc a c' he
  unfold stillOpen at he
  split at he
  · cases he
  · cases he; exact ⟨hc, Nat.le_refl _⟩

theorem moves_noComma (form : Form) (sample : String) (expected : List Expected) :
    Moves (fun _ => 0) (noComma form sample expected) := by
  intro c hc a c' he
  unfold noComma at he
  split at he
  · cases he
  · cases he; exact ⟨hc, Nat.le_refl _⟩

theorem moves_openBlock (p : TokenKind → Bool) : Moves (fun _ => 0) (openBlock p) := by
  intro c hc a c' he
  unfold openBlock at he
  split at he
  · next h =>
    cases he
    exact (hc.atBlock_of_forward h).imp_right Nat.le_of_add_right_le
  · cases he; exact ⟨hc, Nat.le_refl _⟩

theorem moves_closeBlock (place : Place) : Moves (fun _ => 0) (closeBlock place) := by
  refine .after .accept fun _ => .after .test fun b => .ite (fun _ => ?_) fun _ => .unexpected
  exact .after .skip fun _ => .pure rfl

theorem moves_closeBlockIf (inBlock : Bool) (place : Place) :
    Moves (fun _ => 0) (closeBlockIf inBlock place) := by
  unfold closeBlockIf
  exact .ite (fun _ => moves_closeBlock place) fun _ => .pure rfl

theorem moves_clauseAhead (inBlock : Bool) (p : TokenKind → Bool) :
    Moves (fun _ => 0) (clauseAhead inBlock p) := by
  intro c hc a c' he
  unfold clauseAhead at he
  split at he
  · cases he; exact ⟨hc, Nat.le_refl _⟩
  split at he
  · split at he
    · cases he; exact hc.next
    · cases he; exact ⟨hc, Nat.le_refl _⟩
  split at he
  · next h =>
    cases he
    exact (hc.atBlock_of_forward h).imp_right Nat.le_of_add_right_le
  · cases he; exact ⟨hc, Nat.le_refl _⟩

/-- One step of the loop over the clauses of a construct. -/
theorem moves_clauseRound {clause : Bool → Parse (α × Bool)} (p : TokenKind → Bool)
    (h : ∀ inBlock, Moves (fun _ => 1) (clause inBlock)) (s : List α × Bool) :
    Moves Round.cost (do
      match ← clauseAhead s.2 p with
      | some inBlock =>
        let (a, inBlock) ← clause inBlock
        pure (.again (a :: s.1, inBlock))
      | none => pure (.done (s.1, s.2))) := by
  refine .after (moves_clauseAhead s.2 p) fun found => ?_
  cases found with
  | some inBlock => exact (h inBlock).first (fun _ => .pure rfl) fun _ b => b.cost_le
  | none => exact .pure rfl

theorem moves_clauses {clause : Bool → Parse (α × Bool)} (p : TokenKind → Bool)
    (h : ∀ inBlock, Moves (fun _ => 1) (clause inBlock)) (inBlock : Bool) :
    Moves (fun _ => 0) (clauses p clause inBlock) :=
  .after (.rounds (moves_clauseRound p h) _) fun _ => .pure rfl

theorem moves_body {expression : Parse Expr} (h : Moves (fun _ => 1) expression) :
    Moves (fun _ => 1) (body expression) := by
  refine .after (moves_openBlock _) fun b => .ite (fun _ => ?_) fun _ => h
  exact h.first (fun _ => .after (moves_closeBlock _) fun _ => .pure rfl) fun _ _ => Nat.le_refl _

end Parse

end PipeLang
