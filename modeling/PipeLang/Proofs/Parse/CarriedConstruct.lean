import PipeLang.Proofs.Parse.CarriedStage
import PipeLang.Proofs.Parse.Yields

/-! Whole expressions with different tokens after them, and the constructs on one line among them. A
construct looks for further clauses on the line after it as well, and finds none where no block opens
there. -/

namespace PipeLang

/-- What may stand after an expression that has all its stages. -/
structure SeedFollow (v : List Token) : Prop extends StageFollow v where
  pipe : ∀ d : Cursor, d.rest = v → d.atPunctuation .pipe = false
  block : ∀ d : Cursor, d.rest = v → d.atBlock TokenKind.isIdent = false

/-- The end of a line after which no block opens. -/
structure LineFollow (v : List Token) : Prop extends StageFollow v where
  line : ∀ d : Cursor, d.rest = v → d.kind = .newline
  level : ∀ d : Cursor, d.rest = v → (d.kindAt 1).isIndent = false

theorem LineFollow.atBlock {v : List Token} (h : LineFollow v) {d : Cursor} (hd : d.rest = v)
    (p : TokenKind → Bool) : d.atBlock p = false := by
  unfold Cursor.atBlock
  rw [h.level d hd, Bool.and_false, Bool.false_and]

theorem LineFollow.seed {v : List Token} (h : LineFollow v) : SeedFollow v where
  toStageFollow := h.toStageFollow
  pipe d hd := by
    unfold Cursor.atPunctuation
    rw [h.line d hd]
    rfl
  block d hd := h.atBlock hd _

namespace Parse

variable {α β σ : Type} {o : ParseOptions} {e : Token} {v ts : List Token} {c : Cursor}

/-! ## Results that later rules rely on -/

section

variable (e : Token) (v ts : List Token)

/-- Carried from `c`, with a result that satisfies `Q`. -/
def CarriedWith (Q : α → Prop) (c : Cursor) (x : Parse α) : Prop :=
  ∀ r d, c.Outside e v ts r d → ∀ a c', x c = .ok a c' →
    Q a ∧ ∃ d' r', x d = .ok a d' ∧ c'.Outside e v ts r' d'

/-- The same without a look at the token before. -/
def LedWith (Q : α → Prop) (c : Cursor) (x : Parse α) : Prop :=
  ∀ r d, c.Ahead e v r d → c.Opens (ts ++ [e]) [] → ∀ a c', x c = .ok a c' →
    Q a ∧ ∃ d' r', x d = .ok a d' ∧ c'.Outside e v ts r' d'

end

namespace CarriedWith

variable {Q : α → Prop} {S : β → Prop} {x : Parse α} {f : α → Parse β}

theorem of_carried (h : CarriedFrom e v ts c x) : CarriedWith e v ts (fun _ => True) c x :=
  fun r d hcd a c' hrun => ⟨trivial, h r d hcd a c' hrun⟩

theorem carried (h : CarriedWith e v ts Q c x) : CarriedFrom e v ts c x :=
  fun r d hcd a c' hrun => (h r d hcd a c' hrun).2

theorem bind (hx : CarriedWith e v ts Q c x)
    (hf : ∀ a, Q a → ∀ c, CarriedWith e v ts S c (f a)) : CarriedWith e v ts S c (x >>= f) := by
  intro r d h b c' hrun
  obtain ⟨a, c1, ha, hb⟩ := bind_eq_ok.mp hrun
  obtain ⟨hq, d1, r1, hd1, h1⟩ := hx r d h a c1 ha
  rw [bind_of_ok hd1]
  exact hf a hq c1 r1 d1 h1 b c' hb

theorem then_carried (hx : CarriedWith e v ts Q c x) (hf : ∀ a, Q a → Carried e v ts (f a)) :
    CarriedFrom e v ts c (x >>= f) :=
  (hx.bind fun a ha c => of_carried (hf a ha c)).carried

theorem after (hx : CarriedFrom e v ts c x) (hf : ∀ a c, CarriedWith e v ts S c (f a)) :
    CarriedWith e v ts S c (x >>= f) :=
  (of_carried hx).bind fun a _ => hf a

theorem pure {a : α} (h : Q a) : CarriedWith e v ts Q c (pure a : Parse α) := by
  intro r d hcd b c' hrun
  cases hrun
  exact ⟨h, d, r, rfl, hcd⟩

theorem fail {d : Cursor → Diagnostic} : CarriedWith e v ts Q c (Parse.fail d : Parse α) := by
  intro r d hcd b c' hrun
  cases hrun

theorem roundsUpTo {P : σ → Prop} {round : σ → Parse (Round σ)}
    (h : ∀ s, P s → ∀ c, CarriedWith e v ts (Yields.Rounds P P) c (round s)) (n : Nat) :
    ∀ s, P s → ∀ c, CarriedWith e v ts P c (Parse.roundsUpTo round n s) := by
  induction n with
  | zero => exact fun s hs c => .pure hs
  | succ n ih =>
    intro s hs c
    refine (h s hs c).bind fun r hr => ?_
    cases r with
    | again s => exact ih s hr
    | done s => exact fun c => .pure hr

theorem rounds (he : e.kind = .eof) (hv : Follow v) {P : σ → Prop}
    {round : σ → Parse (Round σ)} (hm : ∀ s, Moves Round.cost (round s))
    (h : ∀ s, P s → ∀ c, CarriedWith e v ts (Yields.Rounds P P) c (round s)) {s : σ} (hs : P s)
    (c : Cursor) : CarriedWith e v ts P c (Parse.rounds round s) := by
  intro r d hcd a c' hrun
  have hlonger : c.rest.length + 1 ≤ d.rest.length + 1 := Nat.succ_le_succ (hcd.length_le hv)
  have hrun : Parse.roundsUpTo round (c.rest.length + 1) s c = .ok a c' := hrun
  rw [roundsUpTo_eq hm _ _ s c (hcd.ended he) (Nat.lt_succ_self _) hlonger] at hrun
  exact roundsUpTo h _ s hs c r d hcd a c' hrun

end CarriedWith

/-- A clause that hands on whether the construct has a block. -/
theorem CarriedFrom.flagged {clause : Parse α} (h : CarriedFrom e v ts c clause) (inBlock : Bool) :
    CarriedWith e v ts (fun s : α × Bool => s.2 = inBlock) c ((·, inBlock) <$> clause) := by
  rw [map_eq_pure_bind]
  exact .after h fun a c => .pure rfl

namespace LedWith

variable {Q : α → Prop} {x : Parse α} {f : α → Parse β}

theorem carried (h : LedWith e v ts Q c x) : CarriedWith e v ts Q c x :=
  fun r d hcd => h r d hcd.toAhead hcd.opens

theorem bind (hx : LedWith e v ts Q c x) (hf : ∀ a, Q a → Carried e v ts (f a)) :
    LedFrom e v ts c (x >>= f) := by
  intro r d h hopens b c' hrun
  obtain ⟨a, c1, ha, hb⟩ := bind_eq_ok.mp hrun
  obtain ⟨hq, d1, r1, hd1, h1⟩ := hx r d h hopens a c1 ha
  rw [bind_of_ok hd1]
  exact hf a hq c1 r1 d1 h1 b c' hb

theorem skip_bind {f : Span → Parse α} (he : e.kind = .eof) (hend : c.kind ≠ .eof)
    (hk : c.kind.isBracket = false) (hf : ∀ s c, CarriedWith e v ts Q c (f s)) :
    LedWith e v ts Q c (skip >>= f) := by
  intro r d h hopens b c' hrun
  obtain ⟨s, c1, hs, hb⟩ := bind_eq_ok.mp hrun
  obtain ⟨d1, r1, hd1, h1⟩ := LedFrom.skip he hend hk r d h hopens s c1 hs
  rw [bind_of_ok hd1]
  exact hf s c1 r1 d1 h1 b c' hb

end LedWith

/-! ## Questions and blocks -/

section

variable (he : e.kind = .eof)

/-- The kind of the next token answers alike, if it does so at the end of the common tokens. -/
theorem kind_eq_of {r : List Token} {d : Cursor} (h : c.Ahead e v r d) {p : TokenKind → Bool}
    (hp : p .eof = false) (hv : ∀ d : Cursor, d.rest = v → p d.kind = false) (he : e.kind = .eof) :
    p c.kind = p d.kind := by
  cases r with
  | nil => rw [kind_of_rest h.front, he, hp, hv d h.back]
  | cons t r => rw [h.kind.1, h.kind.2]

/-- Inside the common tokens no line ends. -/
theorem not_atNewline {r : List Token} {d : Cursor} (h : c.Ahead e v r d) (he : e.kind = .eof) :
    c.atNewline = false := by
  cases r with
  | nil =>
    unfold Cursor.atNewline
    rw [kind_of_rest h.front, he]
    rfl
  | cons t r => exact h.atNewline.1

theorem not_atBlock {r : List Token} {d : Cursor} (h : c.Ahead e v r d) (he : e.kind = .eof)
    {p : TokenKind → Bool} (hv : ∀ d : Cursor, d.rest = v → d.atBlock p = false) :
    c.atBlock p = false ∧ d.atBlock p = false := by
  refine ⟨by simp [Cursor.atBlock, not_atNewline h he], ?_⟩
  cases r with
  | nil => exact hv d h.back
  | cons t r => simp [Cursor.atBlock, h.atNewline.2]

include he

/-- A token of some kinds is taken if it comes next. -/
theorem carried_accept {p : TokenKind → Bool} (hp : p .eof = false)
    (hv : ∀ d : Cursor, d.rest = v → p d.kind = false) (hb : ∀ k, p k = true → k.isBracket = false) :
    Carried e v ts (accept fun c => p c.kind) := by
  have haccept : ∀ c : Cursor,
      accept (fun c => p c.kind) c = .ok (p c.kind) (if p c.kind then c.next else c) := by
    intro c
    unfold accept
    by_cases h : p c.kind = true <;> simp [h]
  intro c r d h a c' hrun
  rw [haccept] at hrun ⊢
  rw [← kind_eq_of h.toAhead hp hv he]
  cases hk : p c.kind with
  | false =>
    rw [hk] at hrun
    cases hrun
    exact ⟨d, r, rfl, h⟩
  | true =>
    rw [hk] at hrun
    cases hrun
    have hend : c.kind ≠ .eof := fun h => by rw [h, hp] at hk; cases hk
    obtain ⟨t, r, rfl⟩ := h.exists_cons he hend
    exact ⟨d.next, r, rfl, h.next (by rw [← h.kind.1]; exact hend),
      h.opens.next (bracketsAfter_of_not_bracket (hb _ hk) [])⟩

theorem carriedWith_openBlock {p : TokenKind → Bool}
    (hv : ∀ d : Cursor, d.rest = v → d.atBlock p = false) (c : Cursor) :
    CarriedWith e v ts (fun b => b = false) c (openBlock p) := by
  intro r d h a c' hrun
  obtain ⟨hc, hd⟩ := not_atBlock h.toAhead he hv
  unfold openBlock at hrun ⊢
  rw [hc] at hrun
  rw [hd]
  cases hrun
  exact ⟨rfl, d, r, rfl, h⟩

end

/-! ## Pipelines -/

section

variable (he : e.kind = .eof) (hv : SeedFollow v) {levels : Nat}
  (hp : ∀ b c, LedFrom e v ts c (primary o levels b))

include he hv hp

theorem carried_inlineStages_of_seed (s : Stages) :
    Carried e v ts (inlineStages o (primary o levels) s) := by
  refine .rounds he hv.follow (moves_pipeRound (moves_primary o levels)) (fun s => ?_) s
  refine .bind (carried_accept he (p := TokenKind.isPunctuation .pipe) rfl hv.pipe fun k hk => ?_)
    fun b => ?_
  · rw [TokenKind.isPunctuation_iff.mp hk]
    rfl
  · cases b with
    | false => exact .pure _
    | true => exact (carried_pushStage he hv.toStageFollow hp s).bind fun _ => .pure _

theorem carried_allStages (b : Nat) : Carried e v ts (allStages o (primary o levels) b) :=
  (carried_inlineStages_of_seed he hv hp _).bind fun _ c =>
    (carriedWith_openBlock he hv.block c).then_carried fun b hb => by
      rw [hb]
      exact .pure _

theorem led_expression (b : Nat) (c : Cursor) :
    LedFrom e v ts c (expression o (primary o levels) b) := by
  refine (led_application he hv.toStageFollow hp b c).bind fun first => ?_
  refine (carried_chain he hv.toStageFollow hp b first 0).bind fun seed => ?_
  refine (carried_allStages he hv hp b).bind fun stages => ?_
  cases stages.getLast? <;> exact .pure _

theorem carried_expression (b : Nat) : Carried e v ts (expression o (primary o levels) b) :=
  fun c => (led_expression he hv hp b c).carried

end

/-! ## Patterns -/

section

variable (he : e.kind = .eof) (hv : Follow v)

include he hv

theorem enclosed_recordPattern (hk : c.kind = .punctuation .lbrace) :
    EnclosedFrom e v c recordPattern := by
  refine SealedFrom.enclosed he (by simp [hk]) fun opened => ?_
  have hrounds : Framed e v (· = ·) (rounds (fun fields => do
      if ← test (·.atPunctuation .rbrace) then pure (.done fields)
      else
        let field ← patternField opened fields
        pure (Round.again (field :: fields))) []) (rounds (fun fields => do
      if ← test (·.atPunctuation .rbrace) then pure (.done fields)
      else
        let field ← patternField opened fields
        pure (Round.again (field :: fields))) []) := by
    refine Coupling.mono (C := framed {} he hv) (Coupling.rounds
      (S := List.Forall₂ ((framed {} he hv).same PatternField.relocate)) (moves_patternRound opened)
      (fun fields fields' hf => ?_) .nil) fun _ _ h => eq_of_framed_list he hv (fun _ => rfl) h
    refine Coupling.choose (Coupling.kind (p := TokenKind.isPunctuation .rbrace) fun _ _ => rfl)
      ((framed {} he hv).ret (.done hf)) ?_
    exact (framed {} he hv).bind (Coupling.patternField (C := framed {} he hv) rfl hf) fun _ _ h =>
      (framed {} he hv).ret (.again (.cons h hf))
  refine .after he hrounds fun hc fields c2 hfields => .map (.skip he fun hend => ?_)
  obtain ⟨s, d, hlast⟩ :=
    roundsUpTo_last (moves_patternRound opened) hc (Nat.lt_succ_self _) hfields
  -- the last round has seen the closing brace
  rw [test_bind] at hlast
  cases hd : d.atPunctuation .rbrace with
  | true =>
    rw [hd] at hlast
    cases hlast
    rw [Cursor.atPunctuation, hend] at hd
    cases hd
  | false =>
    rw [hd] at hlast
    obtain ⟨_, _, _, hlast⟩ := bind_eq_ok.mp hlast
    cases hlast

omit hv in
/-- The next token is the same at both places, unless it is the end marker. -/
theorem carriedFrom_peek {f : Token → Parse α} (hk : c.kind ≠ .eof)
    (hf : CarriedFrom e v ts c (f c.peek)) : CarriedFrom e v ts c (test Cursor.peek >>= f) := by
  refine .test_bind (fun r d h => ?_) hf
  obtain ⟨t, r, rfl⟩ := h.exists_cons he hk
  rw [h.peek.1, h.peek.2]

theorem carried_literal (hend : c.kind ≠ .eof) : CarriedFrom e v ts c literal? := by
  have hconstant : ∀ value, c.kind.isBracket = false →
      CarriedFrom e v ts c (literal?.constant value) :=
    fun value hb => .skip_bind he hend hb fun _ => .pure _
  refine carriedFrom_peek he hend ?_
  cases hk : c.peek.kind with
  | number value => exact hconstant _ (by rw [Cursor.kind, hk]; rfl)
  | text parts =>
    dsimp only
    cases plainText parts with
    | ok text => exact hconstant _ (by rw [Cursor.kind, hk]; rfl)
    | error span => exact .fail
  | operator op =>
    cases op with
    | minus =>
      refine .test_bind (fun r d h => ?_) (.ite (fun hn => ?_) fun _ => .pure _)
      · obtain ⟨t, r, rfl⟩ := h.exists_cons he hend
        exact h.atNegative he hv
      · exact (led_negativeNumber he hn).carried.bind fun _ => .pure _
    | _ => exact .pure _
  | keyword k =>
    cases k with
    | true_ | false_ | nil_ => exact hconstant _ (by rw [Cursor.kind, hk]; rfl)
    | _ => exact .pure _
  | _ => exact .pure _

theorem carried_patternInside : Carried e v ts patternInside := by
  intro c
  by_cases hend : c.kind = .eof
  · intro r d h a c' hrun
    unfold patternInside literal? at hrun
    rw [test_bind, show c.peek.kind = .eof from hend] at hrun
    dsimp only at hrun
    rw [bind_assoc, test_bind, show c.peek.kind = .eof from hend] at hrun
    cases hrun
  have hliteral : CarriedFrom e v ts c literalPattern := by
    refine (carried_literal he hv hend).bind fun found => ?_
    cases found <;> first | exact .pure _ | exact .fail
  have hskip : ∀ {f : Span → Parse Pattern}, c.kind.isBracket = false →
      (∀ s, Carried e v ts (f s)) → CarriedFrom e v ts c (skip >>= f) := .skip_bind he hend
  refine carriedFrom_peek he hend ?_
  cases hk : c.peek.kind with
  | ident name => exact hskip (by rw [Cursor.kind, hk]; rfl) fun _ => .pure _
  | keyword k =>
    cases k with
    | otherwise_ => exact hskip (by rw [Cursor.kind, hk]; rfl) fun _ => .pure _
    | _ => exact hliteral
  | punctuation q =>
    cases q with
    | underscore => exact hskip (by rw [Cursor.kind, hk]; rfl) fun _ => .pure _
    | lbrace =>
      exact (LedFrom.of_enclosed (enclosed_recordPattern he hv hk)
        (balanced_recordPattern hk)).carried
    | _ => exact hliteral
  | _ => exact hliteral

theorem carried_pattern (b : Nat) : Carried e v ts (pattern o b) := by
  intro c
  unfold pattern
  exact .ite (fun _ => .fail) fun _ => carried_patternInside he hv c

end

/-! ## Constructs on one line -/

theorem ClauseMark.closed {p : TokenKind → Bool} (h : ClauseMark p) :
    (∀ k, k.isLayout = true → p k = false) ∧ p .eof = false ∧
      ∀ k, p k = true → k.isBracket = false := by
  cases h with
  | keyword =>
    refine ⟨fun k hk => ?_, rfl, fun k hk => ?_⟩ <;> cases k <;> first | rfl | cases hk
  | bar =>
    refine ⟨fun k hk => ?_, rfl, fun k hk => ?_⟩
    · cases k <;> first | rfl | cases hk
    · rw [TokenKind.isPunctuation_iff.mp hk]
      rfl

section

variable (he : e.kind = .eof) (hv : LineFollow v)

include he hv

/-- No clause opens a block where none opens after the line. -/
theorem clauseAhead_inline {p : TokenKind → Bool} (hp : ClauseMark p) {r : List Token} {d : Cursor}
    (h : c.Ahead e v r d) :
    clauseAhead false p c = .ok (if p c.kind then some false else none) c ∧
      clauseAhead false p d = .ok (if p c.kind then some false else none) d := by
  obtain ⟨hline, heof, _⟩ := hp.closed
  obtain ⟨hc, hd⟩ := not_atBlock h he (p := p) fun d hd => hv.atBlock hd p
  have hsame : p c.kind = p d.kind := kind_eq_of h heof (fun d hd => by rw [hv.line d hd, hline _ rfl]) he
  unfold clauseAhead
  rw [hc, hd, ← hsame]
  cases p c.kind <;> exact ⟨rfl, rfl⟩

theorem carriedWith_clauseAhead {p : TokenKind → Bool} (hp : ClauseMark p) {Q : α → Prop}
    {f : Option Bool → Parse α} (hsome : p c.kind = true → CarriedWith e v ts Q c (f (some false)))
    (hnone : CarriedWith e v ts Q c (f none)) :
    CarriedWith e v ts Q c (clauseAhead false p >>= f) := by
  intro r d h a c' hrun
  obtain ⟨hc, hd⟩ := clauseAhead_inline he hv hp h.toAhead
  rw [bind_of_ok hc] at hrun
  rw [bind_of_ok hd]
  cases hk : p c.kind with
  | true =>
    rw [hk] at hrun
    exact hsome hk r d h a c' hrun
  | false =>
    rw [hk] at hrun
    exact hnone r d h a c' hrun

/-- All clauses on one line. -/
theorem carriedWith_clauses {p : TokenKind → Bool} (hp : ClauseMark p)
    {clause : Bool → Parse (α × Bool)} (hm : ∀ inBlock, Moves (fun _ => 1) (clause inBlock))
    (h : ∀ c : Cursor, p c.kind = true →
      CarriedWith e v ts (fun s : α × Bool => s.2 = false) c (clause false)) (c : Cursor) :
    CarriedWith e v ts (fun s : List α × Bool => s.2 = false) c (clauses p clause false) := by
  refine .bind (CarriedWith.rounds he hv.follow (P := fun s : List α × Bool => s.2 = false)
    (moves_clauseRound p hm) (fun s hs c => ?_) rfl c) fun s hs c => .pure hs
  obtain ⟨found, inBlock⟩ := s
  obtain rfl : inBlock = false := hs
  exact carriedWith_clauseAhead he hv hp
    (fun hk => (h c hk).bind fun s hs c => .pure hs) (.pure rfl)

variable {levels : Nat} (hp : ∀ b c, LedFrom e v ts c (primary o levels b)) (b : Nat)

include hp

theorem carried_result : Carried e v ts (result o (primary o levels) b) :=
  fun c => (carriedWith_openBlock he (fun _ hd => hv.atBlock hd _) c).then_carried fun b' hb => by
    rw [hb]
    exact carried_expression he hv.seed hp b

theorem carried_definition : Carried e v ts (definition o (primary o levels) b) := by
  have hname : ∀ place, Carried e v ts (identifier place) := carried_identifier he
  refine (hname _).bind fun name => .bind (.many he hv.follow (moves_identifier _)
    (fun r c d h => kind_eq_of h.toAhead (p := TokenKind.isIdent) rfl (fun d hd => by rw [hv.line d hd]; rfl) he)
    fun c _ => hname _ c) fun params => ?_
  refine .bind (fun c => ?_) fun _ => (carried_result he hv hp b).bind fun _ => .pure _
  refine .test_bind (fun r d h => kind_eq_of h.toAhead (p := TokenKind.isOperator .eq) rfl
    (fun d hd => by rw [hv.line d hd]; rfl) he) (.ite (fun hk => ?_) fun _ => .fail)
  have hk : c.kind = .operator .eq := TokenKind.isOperator_iff.mp hk
  exact (LedFrom.skip he (by simp [hk]) (by rw [hk]; rfl)).carried

theorem carried_binding : Carried e v ts (binding o (primary o levels) b) := by
  refine .test_bind (fun r c d h => ?_) fun c => .ite
    (fun _ => carried_definition he hv hp b c) fun _ => .fail
  cases r with
  | nil =>
    -- at the end no name comes next at either place
    have hnames : ∀ (c : Cursor) (t : Token) (us : List Token), c.rest = t :: us →
        t.kind.isIdent = false → c.atDefinition = false := by
      intro c t us hrest hident
      simp [Cursor.atDefinition, Cursor.namesThen, hrest, hident]
    obtain ⟨u, us, hu, _⟩ := hv.first
    rw [hnames c e [] h.front (by rw [he]; rfl), hnames d u us (h.back.trans hu) ?_]
    rw [← kind_of_rest (h.back.trans hu), hv.line d h.back]
    rfl
  | cons t r => exact h.look he hv.follow .definition

theorem carriedWith_bindings (c : Cursor) :
    CarriedWith e v ts (fun s : List Binding × Bool => s.2 = false) c
      (bindings o (primary o levels) b) := by
  refine .bind (carriedWith_openBlock he (fun _ hd => hv.atBlock hd _) c) fun inBlock hblock c => ?_
  rw [hblock]
  refine .after (carried_binding he hv hp b c) fun first c => ?_
  refine .after (Carried.many he hv.follow
    (.after .skip fun _ => moves_binding (moves_primary o levels) b)
    (fun r c d h => kind_eq_of h.toAhead (p := TokenKind.isPunctuation .semicolon) rfl
      (fun d hd => by rw [hv.line d hd]; rfl) he) (fun c hk => ?_) c) fun rest c => .pure rfl
  have hk : c.kind = .punctuation .semicolon := TokenKind.isPunctuation_iff.mp hk
  exact .skip_bind he (by simp [hk]) (by rw [hk]; rfl) fun _ => carried_binding he hv hp b

theorem led_letIn (hk : c.kind = .keyword .let_) :
    LedFrom e v ts c (letIn o (primary o levels) b) := by
  refine .skip_bind he (by simp [hk]) (by rw [hk]; rfl) fun start c => ?_
  refine (carriedWith_bindings he hv hp b c).then_carried ?_
  rintro ⟨found, inBlock⟩ hflag c
  obtain rfl : inBlock = false := hflag
  refine (carriedWith_clauseAhead (Q := fun _ => True) he hv (.keyword (by decide)) (fun hk => ?_)
    .fail).carried
  have hk : c.kind = .keyword .in_ := TokenKind.isKeyword_iff.mp hk
  refine .of_carried (.skip_bind he (by simp [hk]) (by rw [hk]; rfl) fun _ => ?_)
  exact (carried_result he hv hp b).bind fun value => .pure _

/-- A branch that starts with `if` or `elif`. -/
theorem led_branch (hend : c.kind ≠ .eof) (hb : c.kind.isBracket = false) :
    LedWith e v ts (fun s : Branch × Bool => s.2 = false) c
      (branch o (primary o levels) b false) := by
  refine .skip_bind he hend hb fun _ c => ?_
  refine .after (carried_expression he hv.seed hp b c) fun condition c => ?_
  refine carriedWith_clauseAhead he hv (.keyword (by decide)) (fun hk => ?_) .fail
  have hk : c.kind = .keyword .then_ := TokenKind.isKeyword_iff.mp hk
  refine .after (LedFrom.skip he (by simp [hk]) (by rw [hk]; rfl)).carried fun _ c => ?_
  exact .after (carried_result he hv hp b c) fun value c => .pure rfl

theorem led_ifElse (hk : c.kind = .keyword .if_) :
    LedFrom e v ts c (ifElse o (primary o levels) b) := by
  refine .test_bind (fun r d h => ?_) ?_
  · obtain ⟨t, r, rfl⟩ := h.exists_cons he (by simp [hk])
    rw [h.peek.1, h.peek.2]
  refine (led_branch he hv hp b (by simp [hk]) (by rw [hk]; rfl)).bind ?_
  rintro ⟨first, inBlock⟩ hflag c
  obtain rfl : inBlock = false := hflag
  have hclauses := carriedWith_clauses he hv (.keyword (k := .elif_) (by decide))
    (moves_branch (moves_primary o levels) b) (fun c hk => (led_branch he hv hp b
      (by rw [TokenKind.isKeyword_iff.mp hk]; simp) (by rw [TokenKind.isKeyword_iff.mp hk]; rfl)).carried) c
  refine hclauses.then_carried ?_
  rintro ⟨others, inBlock⟩ hflag c
  obtain rfl : inBlock = false := hflag
  refine (carriedWith_clauseAhead (Q := fun _ => True) he hv (.keyword (by decide)) (fun hk => ?_)
    .fail).carried
  have hk : c.kind = .keyword .else_ := TokenKind.isKeyword_iff.mp hk
  refine .of_carried (.skip_bind he (by simp [hk]) (by rw [hk]; rfl) fun _ => ?_)
  exact (carried_result he hv hp b).bind fun value => .pure _

theorem carried_guard : Carried e v ts (guard? o (primary o levels) b) := by
  refine .bind (carried_accept he (p := TokenKind.isKeyword .when_) rfl
    (fun d hd => by rw [hv.line d hd]; rfl) fun k hk => ?_) fun found => ?_
  · rw [TokenKind.isKeyword_iff.mp hk]
    rfl
  · cases found with
    | false => exact .pure _
    | true => exact (carried_expression he hv.seed hp b).bind fun _ => .pure _

omit hp in
theorem carried_arrow (place : Place) (others : List Expected) :
    Carried e v ts (arrow place others) := by
  refine .bind (carried_accept he (p := TokenKind.isPunctuation .arrow) rfl
    (fun d hd => by rw [hv.line d hd]; rfl) fun k hk => ?_) fun found => ?_
  · rw [TokenKind.isPunctuation_iff.mp hk]
    rfl
  · cases found <;> first | exact .pure _ | exact .fail

theorem led_matchClause (hk : c.kind = .punctuation .bar) :
    LedFrom e v ts c (matchClause o (primary o levels) b) := by
  refine .skip_bind he (by simp [hk]) (by rw [hk]; rfl) fun bar => ?_
  refine (carried_pattern he hv.follow b).bind fun pattern => ?_
  refine (carried_guard he hv hp b).bind fun guard => (carried_arrow he hv _ _).bind fun _ => ?_
  exact (carried_result he hv hp b).bind fun value => .pure _

omit hp in
theorem carried_nameIf {p : TokenKind → Bool} (hp : p .newline = false ∧ p .eof = false) :
    Carried e v ts (nameIf fun c => p c.kind) := by
  refine .test_bind (fun r c d h => kind_eq_of h.toAhead hp.2 (fun d hd => by rw [hv.line d hd, hp.1]) he)
    fun c => .ite (fun _ => ?_) fun _ => .pure _
  exact (carried_identifier he _ c).bind fun _ => .pure _

theorem led_catchClause (hk : c.kind = .keyword .catch_) :
    LedFrom e v ts c (catchClause o (primary o levels) b) := by
  refine .skip_bind he (by simp [hk]) (by rw [hk]; rfl) fun keyword => ?_
  refine (carried_nameIf he hv (p := fun k => Cursor.atCapitalized (.ofTokens [⟨k, .origin⟩]))
    ⟨rfl, rfl⟩).bind fun tag => ?_
  refine (carried_nameIf he hv (p := fun k => k.isIdent && !Cursor.atCapitalized (.ofTokens [⟨k, .origin⟩]))
    ⟨rfl, rfl⟩).bind fun bound => fun c => .ite (fun _ => .fail) fun _ => ?_
  refine (carried_arrow he hv _ _).bind (fun _ => ?_) c
  exact (carried_result he hv hp b).bind fun handler => .pure _

theorem led_matchOn (hk : c.kind = .keyword .match_) :
    LedFrom e v ts c (matchOn o (primary o levels) b) := by
  refine .skip_bind he (by simp [hk]) (by rw [hk]; rfl) fun start => ?_
  refine (carried_expression he hv.seed hp b).bind fun subject c => ?_
  refine (carriedWith_clauses he hv .bar (Moves.map_pair (moves_matchClause (moves_primary o levels) b))
    (fun c hk => CarriedFrom.flagged (led_matchClause he hv hp b
      (TokenKind.isPunctuation_iff.mp hk)).carried false) c).then_carried ?_
  rintro ⟨found, inBlock⟩ hflag
  obtain rfl : inBlock = false := hflag
  dsimp only
  cases found.getLast? with
  | none => exact .fail
  | some last => exact .pure _

theorem led_tryCatch (hk : c.kind = .keyword .try_) :
    LedFrom e v ts c (tryCatch o (primary o levels) b) := by
  refine .skip_bind he (by simp [hk]) (by rw [hk]; rfl) fun start => ?_
  refine (carried_result he hv hp b).bind fun value c => ?_
  refine (carriedWith_clauses he hv (.keyword (by decide))
    (Moves.map_pair (moves_catchClause (moves_primary o levels) b))
    (fun c hk => CarriedFrom.flagged (led_catchClause he hv hp b
      (TokenKind.isKeyword_iff.mp hk)).carried false) c).then_carried ?_
  rintro ⟨found, inBlock⟩ hflag
  obtain rfl : inBlock = false := hflag
  dsimp only
  cases found.getLast? with
  | none => exact .fail
  | some last => exact .pure _

theorem constructsLed : ConstructsLed o e v ts levels b := by
  intro c hc
  refine .test_bind (fun r d h => ?_) ?_
  · obtain ⟨t, r, rfl⟩ := h.exists_cons he fun hk => by rw [hk] at hc; cases hc
    rw [h.peek.1, h.peek.2]
  unfold Cursor.kind at hc
  cases hk : c.peek.kind with
  | keyword k =>
    rw [hk] at hc
    cases k with
    | let_ => exact led_letIn he hv hp b hk
    | if_ => exact led_ifElse he hv hp b hk
    | match_ => exact led_matchOn he hv hp b hk
    | try_ => exact led_tryCatch he hv hp b hk
    | _ => cases hc
  | _ =>
    rw [hk] at hc
    cases hc

end

/-- Primary expressions on one line, constructs among them. -/
theorem led_primary_of_line (he : e.kind = .eof) (hv : LineFollow v) (levels : Nat) :
    ∀ b c, LedFrom e v ts c (primary o levels b) :=
  led_primary he hv.follow (fun _ hp b => constructsLed he hv hp b) levels

end Parse

end PipeLang
