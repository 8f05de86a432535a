import PipeLang.Proofs.Parse.Alike
import PipeLang.Proofs.Parse.MovesExpr

/-! Two runs of the grammar side by side, over different tokens or under different options. What they
have in common is a relation between rules; once the few operations that all rules are made of respect
it, every rule of the grammar does. -/

namespace PipeLang.Parse

/-- What a further clause of a construct starts with. -/
inductive ClauseMark : (TokenKind → Bool) → Prop
  | keyword {k : Keyword} (clause : k ∈ [Keyword.in_, .then_, .elif_, .else_, .catch_]) :
    ClauseMark (TokenKind.isKeyword k)
  | bar : ClauseMark (TokenKind.isPunctuation .bar)

/-- The questions that take more than the kind of the next token to answer. -/
inductive Lookahead : (Cursor → Bool) → Prop
  | access : Lookahead Cursor.atAccess
  | argument : Lookahead Cursor.atArgument
  | negative : Lookahead Cursor.atNegative
  | function : Lookahead Cursor.atFunction
  | definition : Lookahead Cursor.atDefinition
  | afterLine : Lookahead afterLine
  | afterDedent : Lookahead Cursor.afterDedent
  | clause {p : TokenKind → Bool} (mark : ClauseMark p) :
    Lookahead fun c => c.atNewline && p (c.kindAt 1)

/-- Rounds of the same kind with related states. -/
inductive Round.Alike (R : σ → τ → Prop) : Round σ → Round τ → Prop
  | again {s : σ} {t : τ} (state : R s t) : Round.Alike R (.again s) (.again t)
  | done {s : σ} {t : τ} (state : R s t) : Round.Alike R (.done s) (.done t)

/-- A relation between the rules of two runs that the operations of the grammar respect. The results
of related rules are related by the first argument of `agree`; spans correspond when `left` and
`right` send them to the same one. -/
structure Coupling (o o' : ParseOptions) where
  left : Span → Span
  right : Span → Span
  holes : List Token → List Token → Prop
  budgets : Nat → Nat → Prop
  agree : {α β : Type} → (α → β → Prop) → Parse α → Parse β → Prop
  /-- Stages take levels in both runs or in neither, or in the first run alone, and then a first run
  with no levels left is related to any other. -/
  resolve : o.resolvePipelines = o'.resolvePipelines ∨ o'.resolvePipelines = false ∧
    (∀ {b b' : Nat}, budgets (b + 1) b' → budgets b b') ∧
    ∀ {α β : Type} {R : α → β → Prop} {y : Parse β}, agree R (tooDeep o : Parse α) y
  merge : ∀ {s t s' t' : Span}, left s = right s' → left t = right t' →
    left (s.merge t) = right (s'.merge t')
  succ : ∀ {b b' : Nat}, budgets (b + 1) b' → ∃ n, b' = n + 1 ∧ budgets b n
  ret : ∀ {α β : Type} {R : α → β → Prop} {a : α} {b : β}, R a b → agree R (pure a) (pure b)
  bind : ∀ {α β γ δ : Type} {R : α → β → Prop} {S : γ → δ → Prop} {x : Parse α} {y : Parse β}
    {f : α → Parse γ} {g : β → Parse δ}, agree R x y → (∀ a b, R a b → agree S (f a) (g b)) →
    agree S (x >>= f) (y >>= g)
  peek : agree (Token.Alike left right holes) (test Cursor.peek) (test Cursor.peek)
  look : ∀ {p : Cursor → Bool}, Lookahead p → agree (· = ·) (test p) (test p)
  skip : agree (fun s s' => left s = right s') skip skip
  openBlock : ∀ {p : TokenKind → Bool}, TokenKind.Blind p →
    agree (· = ·) (openBlock p) (openBlock p)
  fail : ∀ {α β : Type} {R : α → β → Prop} {d d' : Cursor → Diagnostic},
    (∀ c c', Token.Alike left right holes c.peek c'.peek → Diagnostic.Alike left right holes (d c) (d' c')) →
    agree R (fail d : Parse α) (fail d' : Parse β)
  deep : ∀ {α β : Type} {R : α → β → Prop} {b : Nat} {y : Parse β}, budgets 0 b →
    (b = 0 → y = tooDeep o') → agree R (tooDeep o : Parse α) y
  /-- A loop whose bound, the tokens ahead, only has to be large enough. -/
  bounded : ∀ {α β : Type} {R : α → β → Prop} {x : Nat → Parse α} {y : Nat → Parse β},
    (∀ n m c, Cursor.Ended c → c.rest.length < n → n ≤ m → x n c = x m c) →
    (∀ n, agree R (x n) (y n)) →
    agree R (fun c => x (c.rest.length + 1) c) (fun c => y (c.rest.length + 1) c)

namespace Coupling

/-! Laws of the couplings in which only equal spans correspond, and only equal budgets. -/

theorem merge_id {s t s' t' : Span} (h : id s = id s') (h' : id t = id t') :
    id (s.merge t) = id (s'.merge t') :=
  congrArg₂ Span.merge h h'

theorem succ_eq {b b' : Nat} (h : b + 1 = b') : ∃ n, b' = n + 1 ∧ b = n := ⟨b, h.symm, rfl⟩

variable {o o' : ParseOptions} (C : Coupling o o')

/-- Two trees that become the same one when their spans are replaced. -/
def same (F : (Span → Span) → α → α) (x y : α) : Prop := F C.left x = F C.right y

def spans (s s' : Span) : Prop := C.left s = C.right s'

variable {C} {α β : Type} {R : α → β → Prop} {x : Parse α} {y : Parse β}

theorem mono {S : α → β → Prop} (h : C.agree R x y) (hrs : ∀ a b, R a b → S a b) :
    C.agree S x y := by
  rw [← bind_pure x, ← bind_pure y]
  exact C.bind h fun a b hab => C.ret (hrs a b hab)

theorem kind {p : TokenKind → α} (hp : TokenKind.Blind p) :
    C.agree (· = ·) (test fun c => p c.kind) (test fun c => p c.kind) :=
  C.bind (f := fun t => pure (p t.kind)) (g := fun t => pure (p t.kind)) C.peek
    fun _ _ ht => C.ret (ht.kind.blind hp)

theorem peekSpan : C.agree C.spans (test fun c => c.peek.span) (test fun c => c.peek.span) :=
  C.bind (f := fun t => pure t.span) (g := fun t => pure t.span) C.peek fun _ _ h => C.ret h.span

/-- A question that the kind of the next token answers. -/
theorem kindOnly {q : Cursor → α} (hq : ∀ c, q c = q (.ofTokens [⟨c.kind, .origin⟩]))
    (hb : TokenKind.Blind fun k => q (.ofTokens [⟨k, .origin⟩])) :
    C.agree (· = ·) (test q) (test q) := by
  have heq : q = fun c => q (.ofTokens [⟨c.kind, .origin⟩]) := funext hq
  rw [heq]
  exact kind hb

/-- Two rules that go on in one of two ways by the same answer. -/
theorem choose {z z' : Parse Bool} {x' : Parse α} {y' : Parse β} (hz : C.agree (· = ·) z z')
    (hx : C.agree R x y) (hx' : C.agree R x' y') :
    C.agree R (do if ← z then x else x') (do if ← z' then y else y') := by
  refine C.bind hz fun b b' hb => ?_
  subst hb
  cases b with
  | true => exact hx
  | false => exact hx'

theorem accept {p : TokenKind → Bool} (hp : TokenKind.Blind p) :
    C.agree (· = ·) (accept fun c => p c.kind) (accept fun c => p c.kind) := by
  have haccept : Parse.accept (fun c => p c.kind) = (do
      if ← test fun c => p c.kind then
        let _ ← Parse.skip
        pure true
      else pure false) := by
    funext c
    unfold Parse.accept
    rw [test_bind]
    by_cases h : p c.kind = true
    · rw [if_pos h, if_pos h]; rfl
    · rw [if_neg h, if_neg h]; rfl
  rw [haccept]
  exact choose (kind hp) (C.bind C.skip fun _ _ _ => C.ret rfl) (C.ret rfl)

theorem unexpected (place : Place) (expected : List Expected) :
    C.agree R (unexpected place expected) (unexpected place expected) :=
  C.fail fun _ _ h => h.unexpected place expected

theorem expectPunctuation (p : Punctuation) (place : Place) :
    C.agree C.spans (expectPunctuation p place) (expectPunctuation p place) :=
  choose (kind fun _ _ => rfl) C.skip (unexpected place _)

theorem expectOperator (op : Operator) (place : Place) :
    C.agree C.spans (expectOperator op place) (expectOperator op place) :=
  choose (kind fun _ _ => rfl) C.skip (unexpected place _)

theorem identifier (place : Place) :
    C.agree (C.same Name.relocate) (identifier place) (identifier place) := by
  refine C.bind C.peek fun t t' ht => ?_
  obtain ⟨hk, _⟩ := ht
  generalize t.kind = k at hk ⊢
  generalize t'.kind = k' at hk ⊢
  cases hk with
  | text parts => exact unexpected place _
  | plain not_text =>
    cases k with
    | ident name => exact C.bind C.skip fun s s' hs => C.ret (congrArg (Name.mk name) hs)
    | _ => exact unexpected place _

section

variable {p : Cursor → Bool} (hp : C.agree (· = ·) (test p) (test p))

include hp

theorem manyUpTo (h : C.agree R x y) (n : Nat) :
    C.agree (List.Forall₂ R) (manyUpTo p x n) (manyUpTo p y n) := by
  induction n with
  | zero => exact C.ret .nil
  | succ n ih =>
    refine choose hp (C.bind h fun a b hab => ?_) (C.ret .nil)
    exact C.bind ih fun as bs hs => C.ret (.cons hab hs)

theorem many (hm : Moves (fun _ => 1) x) (h : C.agree R x y) :
    C.agree (List.Forall₂ R) (many p x) (many p y) :=
  C.bounded (manyUpTo_eq hm) (manyUpTo hp h)

end

section

variable {σ τ : Type} {S : σ → τ → Prop} {round : σ → Parse (Round σ)}
  {round' : τ → Parse (Round τ)}

theorem roundsUpTo (h : ∀ s t, S s t → C.agree (Round.Alike S) (round s) (round' t)) (n : Nat) :
    ∀ s t, S s t → C.agree S (roundsUpTo round n s) (roundsUpTo round' n t) := by
  induction n with
  | zero => exact fun s t hs => C.ret hs
  | succ n ih =>
    intro s t hs
    refine C.bind (h s t hs) fun r r' hr => ?_
    cases hr with
    | again state => exact ih _ _ state
    | done state => exact C.ret state

theorem rounds (hm : ∀ s, Moves Round.cost (round s))
    (h : ∀ s t, S s t → C.agree (Round.Alike S) (round s) (round' t)) {s : σ} {t : τ}
    (hs : S s t) : C.agree S (rounds round s) (rounds round' t) :=
  C.bounded (x := fun n => Parse.roundsUpTo round n s) (y := fun n => Parse.roundsUpTo round' n t)
    (fun n m c hc hn hm' => roundsUpTo_eq hm n m s c hc hn hm') fun n => roundsUpTo h n s t hs

end

theorem stillOpen {s s' : Span} (form : Form) (hs : C.spans s s') (expected : List Expected) :
    C.agree (· = ·) (stillOpen form s expected) (stillOpen form s' expected) := by
  have heq : ∀ opened, Parse.stillOpen form opened expected = (do
      if ← test fun c => c.kind.isEof || c.kind.isNewline then
        Parse.fail fun c => ((c.failure (.unterminated form)).withExpected expected).withLabel opened
          "opened here"
      else pure ()) := by
    intro opened
    funext c
    unfold Parse.stillOpen
    rw [test_bind]
    cases c.kind.isEof || c.kind.isNewline <;> rfl
  rw [heq, heq]
  refine choose (kind (p := fun k => k.isEof || k.isNewline) fun _ _ => rfl) (C.fail ?_) (C.ret rfl)
  intro c c' h
  exact ((h.failure _).withExpected expected).withLabel hs _

theorem noComma (form : Form) (sample : String) (expected : List Expected) :
    C.agree (· = ·) (noComma form sample expected) (noComma form sample expected) := by
  have heq : Parse.noComma form sample expected = (do
      if ← test (·.atPunctuation .comma) then
        Parse.fail fun c => ((c.failure (.comma form)).withExpected expected).withHint
          ("separate elements with whitespace: `" ++ sample ++ "`")
      else pure ()) := by
    funext c
    unfold Parse.noComma
    rw [test_bind]
    cases c.atPunctuation .comma <;> rfl
  rw [heq]
  refine choose (kind fun _ _ => rfl) (C.fail ?_) (C.ret rfl)
  intro c c' h
  exact ((h.failure _).withExpected expected).withHint _

theorem closeBlock (place : Place) :
    C.agree (· = ·) (closeBlock place) (closeBlock place) := by
  refine C.bind (accept fun _ _ => rfl) fun _ _ _ => ?_
  exact choose (kind fun _ _ => rfl) (C.bind C.skip fun _ _ _ => C.ret rfl) (unexpected place _)

theorem closeBlockIf (inBlock : Bool) (place : Place) :
    C.agree (· = ·) (closeBlockIf inBlock place) (closeBlockIf inBlock place) := by
  cases inBlock with
  | true => exact closeBlock place
  | false => exact C.ret rfl

theorem ClauseMark.blind {p : TokenKind → Bool} (h : ClauseMark p) : TokenKind.Blind p := by
  cases h <;> exact fun _ _ => rfl

theorem clauseAhead (inBlock : Bool) {p : TokenKind → Bool} (hp : ClauseMark p) :
    C.agree (· = ·) (clauseAhead inBlock p) (clauseAhead inBlock p) := by
  have heq : Parse.clauseAhead inBlock p = (do
      if ← test fun c => p c.kind then pure (some inBlock)
      else if inBlock then
        if ← test fun c => c.atNewline && p (c.kindAt 1) then
          let _ ← Parse.skip
          pure (some true)
        else pure none
      else if ← Parse.openBlock p then pure (some true)
      else pure none) := by
    funext c
    unfold Parse.clauseAhead
    rw [test_bind]
    cases hk : p c.kind with
    | true => rfl
    | false =>
      cases inBlock with
      | true =>
        show _ = (test _ >>= _) c
        rw [test_bind]
        cases c.atNewline && p (c.kindAt 1) <;> rfl
      | false =>
        show _ = (Parse.openBlock p >>= _) c
        cases hb : c.atBlock p with
        | true => rw [bind_of_ok (by rw [Parse.openBlock, if_pos hb])]; rfl
        | false => rw [bind_of_ok (by rw [Parse.openBlock, if_neg (by simp [hb])])]; rfl
  rw [heq]
  refine choose (kind (ClauseMark.blind hp)) (C.ret rfl) ?_
  cases inBlock with
  | true =>
    exact choose (C.look (.clause hp)) (C.bind C.skip fun _ _ _ => C.ret rfl) (C.ret rfl)
  | false => exact choose (C.openBlock (ClauseMark.blind hp)) (C.ret rfl) (C.ret rfl)

/-- Related lists with the same flag beside them. -/
def Flagged (R : α → β → Prop) (s : α × Bool) (t : β × Bool) : Prop := R s.1 t.1 ∧ s.2 = t.2

theorem clauses {p : TokenKind → Bool} (hp : ClauseMark p) {clause : Bool → Parse (α × Bool)}
    {clause' : Bool → Parse (β × Bool)} (hm : ∀ inBlock, Moves (fun _ => 1) (clause inBlock))
    (h : ∀ inBlock, C.agree (Flagged R) (clause inBlock) (clause' inBlock)) (inBlock : Bool) :
    C.agree (Flagged (List.Forall₂ R)) (clauses p clause inBlock) (clauses p clause' inBlock) := by
  refine C.bind (rounds (S := Flagged (List.Forall₂ R)) (moves_clauseRound p hm) ?_ ?_) ?_
  · rintro ⟨found, flag⟩ ⟨found', flag'⟩ ⟨hs, hflag⟩
    obtain rfl : flag = flag' := hflag
    refine C.bind (clauseAhead flag hp) fun ahead ahead' ha => ?_
    subst ha
    cases ahead with
    | none => exact C.ret (.done ⟨hs, rfl⟩)
    | some inBlock =>
      exact C.bind (h inBlock) fun a b hab => C.ret (.again ⟨.cons hab.1 hs, hab.2⟩)
  · exact ⟨.nil, rfl⟩
  · intro s t hs
    exact C.ret ⟨List.rel_reverse hs.1, hs.2⟩

theorem body {e e' : Parse Expr} (h : C.agree (C.same Expr.relocate) e e') :
    C.agree (C.same Expr.relocate) (body e) (body e') := by
  refine choose (C.openBlock fun _ _ => rfl) ?_ h
  exact C.bind h fun a b hab => C.bind (closeBlock _) fun _ _ _ => C.ret hab

end Coupling

end PipeLang.Parse
