import Mathlib
import PipeLang.Proofs.Format.Piece
import PipeLang.Proofs.Parse.Run

/-! Rules that read what was written. `At ps K` is where the tokens ahead are those of `ps` and `K` holds
after them; a rule reads `ps` if from every such place it succeeds and ends where `K` holds, for
whatever `K` leaves it no reason to go on. So rules that follow one another read what is written one
after the other. -/

namespace PipeLang

open Format

namespace Cursor

/-- The token before the cursor ends where the one after it starts. -/
def Touching (c : Cursor) : Prop := ∃ t, c.previous? = some t ∧ t.span.stop = c.peek.span.start

/-- Something stands between the token before the cursor and the one after it. -/
def Gapped (c : Cursor) : Prop := ∃ t, c.previous? = some t ∧ t.span.stop < c.peek.span.start

/-- The end marker of an interpolation is all that is left. -/
def Finished (c : Cursor) : Prop := ∃ t, c.rest = [t] ∧ t.kind = .eof

end Cursor

namespace Parse

mutual

/-- The tokens of one piece are ahead, and `K` holds after them. -/
def AtPiece : Piece → (Cursor → Prop) → Cursor → Prop
  | .gap, K, c => c.Gapped ∧ K c
  | .glue, K, c => c.Touching ∧ K c
  | .plain kind, K, c => (∃ t rest, c.rest = t :: rest ∧ t.kind = kind) ∧ K c.forward
  | .text parts, K, c =>
    (∃ t rest found, c.rest = t :: rest ∧ t.kind = .text found ∧ PartsAt parts found) ∧
      K c.forward

def At : List Piece → (Cursor → Prop) → Cursor → Prop
  | [], K, c => K c
  | p :: ps, K, c => AtPiece p (At ps K) c

/-- Each part of a string is where it was written, an interpolation as a text of its own. -/
def PartsAt : List PiecePart → List StringPart → Prop
  | [], [] => True
  | .literal s :: parts, .literal t :: found => s = t ∧ PartsAt parts found
  | .hole ps :: parts, .hole tokens _ :: found =>
    At ps Cursor.Finished (.ofTokens tokens) ∧ PartsAt parts found
  | _, _ => False

end

variable {K L S T : Cursor → Prop} {c : Cursor}

theorem at_append (as bs : List Piece) : At (as ++ bs) K c ↔ At as (At bs K) c := by
  induction as generalizing c with
  | nil => simp [At]
  | cons p as ih => cases p <;> simp [At, AtPiece, ih]

theorem At.mono {ps : List Piece} (h : At ps K c) (hkl : ∀ c, K c → L c) : At ps L c := by
  induction ps generalizing c with
  | nil => exact hkl c h
  | cons p ps ih =>
    cases p with
    | gap => exact ⟨h.1, ih h.2⟩
    | glue => exact ⟨h.1, ih h.2⟩
    | plain kind => exact ⟨h.1, ih h.2⟩
    | text parts => exact ⟨h.1, ih h.2⟩

/-- From where the tokens of `ps` are ahead, and `S` holds after them, `rule` succeeds with a result that
has `Q` and consumes just these tokens. -/
def Reads (rule : Parse α) (ps : List Piece) (S : Cursor → Prop) (Q : α → Prop) : Prop :=
  ∀ K : Cursor → Prop, (∀ c, K c → S c) → ∀ c, At ps K c → ∃ a c', rule c = .ok a c' ∧ Q a ∧ K c'

namespace Reads

variable {Q : α → Prop} {R : β → Prop} {ps qs : List Piece}

theorem pure {a : α} (h : Q a) : Reads (pure a : Parse α) [] S Q := by
  intro K _ c hc
  exact ⟨a, c, rfl, h, hc⟩

/-- One rule after another. What the second reads must stop the first. -/
theorem bind {x : Parse α} {f : α → Parse β} (hx : Reads x ps T Q)
    (hf : ∀ a, Q a → Reads (f a) qs S R) (hstop : ∀ c, At qs S c → T c) :
    Reads (x >>= f) (ps ++ qs) S R := by
  intro K hk c hc
  obtain ⟨a, c1, hrun, ha, hc1⟩ :=
    hx (At qs K) (fun c1 h1 => hstop c1 (h1.mono hk)) c ((at_append ps qs).mp hc)
  obtain ⟨b, c2, hrun2, hb, hc2⟩ := hf a ha K hk c1 hc1
  exact ⟨b, c2, by rw [bind_of_ok hrun, hrun2], hb, hc2⟩

theorem mono {rule : Parse α} {Q' : α → Prop} (h : Reads rule ps T Q) (hs : ∀ c, S c → T c)
    (hq : ∀ a, Q a → Q' a) : Reads rule ps S Q' := by
  intro K hk c hc
  obtain ⟨a, c', hrun, ha, hc'⟩ := h K (fun c hc => hs c (hk c hc)) c hc
  exact ⟨a, c', hrun, hq a ha, hc'⟩

/-- A test with the same answer wherever the tokens of `ps` are ahead. -/
theorem test_bind {p : Cursor → α} {f : α → Parse β} {a : α} (hp : ∀ c, At ps S c → p c = a)
    (hf : Reads (f a) ps S R) : Reads (test p >>= f) ps S R := by
  intro K hk c hc
  rw [Parse.test_bind, hp c (hc.mono hk)]
  exact hf K hk c hc

/-- A test whose answer does not matter. -/
theorem look_bind {p : Cursor → α} {f : α → Parse β} (hf : ∀ a, Reads (f a) ps S R) :
    Reads (test p >>= f) ps S R := by
  intro K hk c hc
  rw [Parse.test_bind]
  exact hf (p c) K hk c hc

theorem accept_bind_false {p : Cursor → Bool} {f : Bool → Parse β}
    (hp : ∀ c, At ps S c → p c = false) (hf : Reads (f false) ps S R) :
    Reads (accept p >>= f) ps S R := by
  intro K hk c hc
  rw [accept_bind_of_false (hp c (hc.mono hk))]
  exact hf K hk c hc

theorem congr {x y : Parse α} (h : ∀ c, At ps S c → x c = y c) (hy : Reads y ps S Q) :
    Reads x ps S Q := by
  intro K hk c hc
  rw [h c (hc.mono hk)]
  exact hy K hk c hc

theorem gap {rule : Parse α} (h : Reads rule ps S Q) : Reads rule (.gap :: ps) S Q :=
  fun K hk c hc => h K hk c hc.2

theorem glue {rule : Parse α} (h : Reads rule ps S Q) : Reads rule (.glue :: ps) S Q :=
  fun K hk c hc => h K hk c hc.2

end Reads

/-! One token at a time. -/

theorem At.kind {k : TokenKind} {ps : List Piece} (h : At (.plain k :: ps) K c) : c.kind = k := by
  obtain ⟨⟨t, rest, hr, hk⟩, _⟩ := h
  rw [kind_of_rest hr, hk]

theorem At.next {k : TokenKind} {ps : List Piece} (h : At (.plain k :: ps) K c) (hk : k ≠ .eof) :
    At ps K c.next := by
  rw [next_eq_forward (by rw [h.kind]; exact hk)]
  exact h.2

namespace Reads

variable {Q : α → Prop} {R : β → Prop} {ps : List Piece} {k : TokenKind}

theorem skip_bind {f : Span → Parse β} (hk : k ≠ .eof) (hf : ∀ s, Reads (f s) ps S R) :
    Reads (skip >>= f) (.plain k :: ps) S R := by
  intro K hs c hc
  rw [Parse.skip_bind]
  exact hf c.peek.span K hs c.next (hc.next hk)

theorem accept_bind {p : Cursor → Bool} {f : Bool → Parse β} (hk : k ≠ .eof)
    (hp : ∀ c : Cursor, c.kind = k → p c = true) (hf : Reads (f true) ps S R) :
    Reads (accept p >>= f) (.plain k :: ps) S R := by
  intro K hs c hc
  rw [accept_bind_of_true (hp c hc.kind)]
  exact hf K hs c.next (hc.next hk)

theorem expectPunctuation_bind {b : Punctuation} {place : Place} {f : Span → Parse β}
    (hf : ∀ s, Reads (f s) ps S R) :
    Reads (expectPunctuation b place >>= f) (.mark b :: ps) S R := by
  intro K hs c hc
  have hat : c.atPunctuation b = true := TokenKind.isPunctuation_iff.mpr hc.kind
  have hrun : expectPunctuation b place c = .ok c.peek.span c.next := by
    unfold expectPunctuation
    rw [Parse.test_bind, if_pos hat]
    rfl
  rw [bind_of_ok hrun]
  exact hf c.peek.span K hs c.next (hc.next TokenKind.noConfusion)

theorem expectOperator_bind {op : Operator} {place : Place} {f : Span → Parse β}
    (hf : ∀ s, Reads (f s) ps S R) :
    Reads (expectOperator op place >>= f) (.plain (.operator op) :: ps) S R := by
  intro K hs c hc
  have hat : c.atOperator op = true := TokenKind.isOperator_iff.mpr hc.kind
  have hrun : expectOperator op place c = .ok c.peek.span c.next := by
    unfold expectOperator
    rw [Parse.test_bind, if_pos hat]
    rfl
  rw [bind_of_ok hrun]
  exact hf c.peek.span K hs c.next (hc.next TokenKind.noConfusion)

theorem identifier_bind {name : String} {place : Place} {f : Name → Parse β}
    (hf : ∀ s, Reads (f ⟨name, s⟩) ps S R) :
    Reads (identifier place >>= f) (.name name :: ps) S R := by
  intro K hs c hc
  rw [bind_of_ok (identifier_of_ident hc.kind)]
  exact hf c.peek.span K hs c.next (hc.next TokenKind.noConfusion)

theorem peek_bind {f : Token → Parse β} (hf : ∀ t, t.kind = k → Reads (f t) (.plain k :: ps) S R) :
    Reads (test Cursor.peek >>= f) (.plain k :: ps) S R := by
  intro K hs c hc
  exact hf c.peek hc.kind K hs c hc

theorem identifier {name : String} {place : Place} :
    Reads (identifier place) [.name name] S (fun x => x.text = name) := by
  intro K _ c hc
  exact ⟨_, _, identifier_of_ident hc.kind, rfl, hc.next TokenKind.noConfusion⟩

end Reads

/-! Repetition. -/

theorem At.exists_rest {ps : List Piece} (h : At ps K c) :
    ∃ c', K c' ∧ c.rest.length = c'.rest.length + (ps.map Piece.count).sum := by
  induction ps generalizing c with
  | nil => exact ⟨c, h, rfl⟩
  | cons p ps ih =>
    have forward : ∀ t rest, c.rest = t :: rest → At ps K c.forward →
        ∃ c', K c' ∧ c.rest.length = c'.rest.length + (1 + (ps.map Piece.count).sum) := by
      intro t rest hr h
      obtain ⟨c', hc', hlen⟩ := ih h
      have hf : c.forward.rest = rest := by
        unfold Cursor.forward
        rw [hr]
      rw [hf] at hlen
      refine ⟨c', hc', ?_⟩
      rw [hr, List.length_cons]
      omega
    cases p with
    | gap =>
      obtain ⟨c', hc', hlen⟩ := ih h.2
      exact ⟨c', hc', by simpa [Piece.count] using hlen⟩
    | glue =>
      obtain ⟨c', hc', hlen⟩ := ih h.2
      exact ⟨c', hc', by simpa [Piece.count] using hlen⟩
    | plain kind =>
      obtain ⟨⟨t, rest, hr, _⟩, h⟩ := h
      exact forward t rest hr h
    | text parts =>
      obtain ⟨⟨t, rest, _, hr, _⟩, h⟩ := h
      exact forward t rest hr h

section

variable {β : Type} {run : β → List Piece} {xs : List β}

/-- Every item of what is written stands for a token at least. -/
theorem At.length_le_runs {runs : List β → List Piece} {part : β → List β → List Piece}
    (hcons : ∀ x todo, runs (x :: todo) = part x todo ++ runs todo)
    (hpart : ∀ x ∈ xs, ∀ todo, 0 < ((part x todo).map Piece.count).sum) (h : At (runs xs) K c) :
    xs.length ≤ c.rest.length := by
  obtain ⟨c', _, hlen⟩ := h.exists_rest
  have hsum : xs.length ≤ ((runs xs).map Piece.count).sum := by
    clear h hlen
    induction xs with
    | nil => exact Nat.zero_le _
    | cons x xs ih =>
      have hx := hpart x List.mem_cons_self xs
      have ih := ih fun y hy => hpart y (List.mem_cons_of_mem x hy)
      rw [hcons, List.map_append, List.sum_append, List.length_cons]
      omega
  omega

theorem At.length_le (h : At (xs.flatMap run) K c)
    (hrun : ∀ x ∈ xs, 0 < ((run x).map Piece.count).sum) : xs.length ≤ c.rest.length := by
  have hcons : ∀ x todo, (x :: todo).flatMap run = run x ++ todo.flatMap run :=
    fun _ _ => List.flatMap_cons
  have hpart : ∀ x ∈ xs, ∀ _ : List β, 0 < ((run x).map Piece.count).sum := fun x hx _ => hrun x hx
  exact At.length_le_runs hcons hpart h

/-- Each of several runs of pieces stops the rule that read the one before it. -/
theorem stop_flatMap (hnext : ∀ x ∈ xs, ∀ c, At (run x) T c → T c) (hstop : ∀ c, S c → T c) :
    ∀ c, At (xs.flatMap run) S c → T c := by
  induction xs with
  | nil => exact hstop
  | cons x xs ih =>
    intro c hc
    rw [List.flatMap_cons, at_append] at hc
    have ih := ih fun y hy => hnext y (List.mem_cons_of_mem x hy)
    exact hnext x List.mem_cons_self c (hc.mono ih)

theorem Reads.many {ready : Cursor → Bool} {item : Parse α} {Q : β → α → Prop}
    (hitem : ∀ x ∈ xs, Reads item (run x) T (Q x))
    (hready : ∀ x ∈ xs, ∀ c, At (run x) T c → ready c = true)
    (hnext : ∀ x ∈ xs, ∀ c, At (run x) T c → T c)
    (hstop : ∀ c, S c → T c ∧ ready c = false)
    (hrun : ∀ x ∈ xs, 0 < ((run x).map Piece.count).sum) :
    Reads (many ready item) (xs.flatMap run) S (List.Forall₂ Q xs) := by
  have upTo : ∀ n, xs.length < n →
      Reads (manyUpTo ready item n) (xs.flatMap run) S (List.Forall₂ Q xs) := by
    clear hrun
    induction xs with
    | nil =>
      intro n hn
      obtain ⟨m, rfl⟩ : ∃ m, n = m + 1 := ⟨n - 1, by simp at hn; omega⟩
      exact test_bind (a := false) (fun c hc => (hstop c hc).2) (pure .nil)
    | cons x xs ih =>
      intro n hn
      obtain ⟨m, rfl⟩ : ∃ m, n = m + 1 := ⟨n - 1, by simp at hn; omega⟩
      have hrest : ∀ c, At (xs.flatMap run) S c → T c :=
        stop_flatMap (fun y hy => hnext y (List.mem_cons_of_mem x hy)) fun c hc => (hstop c hc).1
      have ih := ih (fun y hy => hitem y (List.mem_cons_of_mem x hy))
        (fun y hy => hready y (List.mem_cons_of_mem x hy))
        (fun y hy => hnext y (List.mem_cons_of_mem x hy)) m (by simpa using hn)
      rw [List.flatMap_cons]
      refine test_bind (a := true) (fun c hc => ?_) ?_
      · rw [at_append] at hc
        exact hready x List.mem_cons_self c (hc.mono hrest)
      · refine bind (hitem x List.mem_cons_self) (fun a ha => ?_) hrest
        rw [← List.append_nil (xs.flatMap run)]
        exact bind ih (fun as has => pure (.cons ha has)) fun c hc => hc
  intro K hk c hc
  exact upTo (c.rest.length + 1) (Nat.lt_succ_of_le (hc.length_le hrun)) K hk c hc

/-- Rounds that each read one run and are not the last. What is written for an item may depend on the
items after it; `runs` writes them all. -/
theorem roundsUpTo_follow {round : σ → Parse (Round σ)} {P : List β → σ → Prop}
    {runs : List β → List Piece} {part : β → List β → List Piece} (hnil : runs [] = [])
    (hcons : ∀ x todo, runs (x :: todo) = part x todo ++ runs todo)
    (hround : ∀ past x todo, xs = past ++ x :: todo → ∀ s, P past s →
      Reads (round s) (part x todo) (At (runs todo) K) fun r =>
        ∃ s', r = .again s' ∧ P (past ++ [x]) s')
    {s : σ} (hs : P [] s) (hc : At (runs xs) K c) (n : Nat) :
    ∃ s' c', P xs s' ∧ K c' ∧
      roundsUpTo round (xs.length + n) s c = roundsUpTo round n s' c' := by
  have step : ∀ todo past, xs = past ++ todo → ∀ s c, P past s → At (runs todo) K c →
      ∃ s' c', P xs s' ∧ K c' ∧
        roundsUpTo round (todo.length + n) s c = roundsUpTo round n s' c' := by
    intro todo
    induction todo with
    | nil =>
      intro past hxs s c hs hc
      rw [List.append_nil] at hxs
      rw [hnil] at hc
      exact ⟨s, c, hxs ▸ hs, hc, by rw [List.length_nil, Nat.zero_add]⟩
    | cons x todo ih =>
      intro past hxs s c hs hc
      rw [hcons, at_append] at hc
      obtain ⟨r, c1, hrun, ⟨s1, rfl, hs1⟩, hc1⟩ :=
        hround past x todo hxs s hs _ (fun _ h => h) c hc
      obtain ⟨s2, c2, hs2, hc2, he⟩ := ih (past ++ [x]) (by rw [hxs]; simp) s1 c1 hs1 hc1
      refine ⟨s2, c2, hs2, hc2, ?_⟩
      rw [List.length_cons, Nat.add_right_comm, ← he]
      exact bind_of_ok hrun
  exact step xs [] rfl s c hs hc

/-- Rounds whose runs all stop in the same way. -/
theorem roundsUpTo_again {round : σ → Parse (Round σ)} {P : List β → σ → Prop}
    (hround : ∀ past x todo, xs = past ++ x :: todo → ∀ s, P past s →
      Reads (round s) (run x) T fun r => ∃ s', r = .again s' ∧ P (past ++ [x]) s')
    (hnext : ∀ x ∈ xs, ∀ c, At (run x) T c → T c) (hk : ∀ c, K c → T c) {s : σ} (hs : P [] s)
    (hc : At (xs.flatMap run) K c) (n : Nat) :
    ∃ s' c', P xs s' ∧ K c' ∧
      roundsUpTo round (xs.length + n) s c = roundsUpTo round n s' c' := by
  have hcons : ∀ x todo, (x :: todo).flatMap run = run x ++ todo.flatMap run :=
    fun _ _ => List.flatMap_cons
  refine roundsUpTo_follow List.flatMap_nil hcons (fun past x todo he s hs => ?_) hs hc n
  have hmem : ∀ y ∈ todo, y ∈ xs := fun y hy =>
    he ▸ List.mem_append_right _ (List.mem_cons_of_mem x hy)
  exact (hround past x todo he s hs).mono
    (stop_flatMap (fun y hy => hnext y (hmem y hy)) hk) fun _ hr => hr

end

end Parse

end PipeLang
