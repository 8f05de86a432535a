import PipeLang.Proofs.Parse.CoupledProgram

/-! What the parser sees of its tokens: their kinds, and whether each of them touches the next one.
Two runs over tokens that agree on that much stay side by side in all they do. -/

namespace PipeLang

section

variable (f g : Span → Span)

/-- Token by token the same kinds and the same gaps, up to an end marker; and so in every
interpolation. -/
inductive TokensAlike : List Token → List Token → Prop
  | last {s s' : Span} (span : f s = g s') : TokensAlike [⟨.eof, s⟩] [⟨.eof, s'⟩]
  | cons {t t' u u' : Token} {ts us : List Token}
    (kind : TokenKind.Alike f g TokensAlike t.kind t'.kind) (span : f t.span = g t'.span)
    (gap : t.SameGap u t' u') (rest : TokensAlike (u :: ts) (u' :: us)) :
    TokensAlike (t :: u :: ts) (t' :: u' :: us)

/-- The same place in two alike token lists, after the same errors. -/
structure Cursor.Alike (c d : Cursor) : Prop where
  before : List.Forall₂ (Token.Alike f g (TokensAlike f g)) c.before d.before
  rest : TokensAlike f g c.rest d.rest
  gap : ∀ t t', c.previous? = some t → d.previous? = some t' → t.SameGap c.peek t' d.peek
  errors : List.Forall₂ (Diagnostic.Alike f g (TokensAlike f g)) c.errors d.errors

end

variable {f g : Span → Span}

namespace Token.SameGap

variable {t u t' u' : Token}

theorem touch_eq (h : t.SameGap u t' u') :
    (t.span.stop == u.span.start) = (t'.span.stop == u'.span.start) := by
  rw [Bool.eq_iff_iff, beq_iff_eq, beq_iff_eq, h.touch]

theorem apart_eq (h : t.SameGap u t' u') :
    decide (t.span.stop < u.span.start) = decide (t'.span.stop < u'.span.start) :=
  decide_eq_decide.mpr h.apart

end Token.SameGap

namespace TokensAlike

variable {ts us : List Token}

theorem length_eq : ∀ {ts us : List Token}, TokensAlike f g ts us → ts.length = us.length
  | _, _, .last _ => rfl
  | _, _, .cons _ _ _ rest => congrArg (· + 1) rest.length_eq

theorem forall₂ : ∀ {ts us : List Token}, TokensAlike f g ts us →
    List.Forall₂ (Token.Alike f g (TokensAlike f g)) ts us
  | _, _, .last span => .cons ⟨.plain rfl, span⟩ .nil
  | _, _, .cons kind span _ rest => .cons ⟨kind, span⟩ rest.forall₂

theorem getLast?_kind : ∀ {ts us : List Token}, TokensAlike f g ts us →
    ∃ t, ts.getLast? = some t ∧ t.kind = .eof
  | _, _, .last _ => ⟨_, rfl, rfl⟩
  | _, _, .cons _ _ _ rest => by
    obtain ⟨t, ht, hk⟩ := rest.getLast?_kind
    exact ⟨t, by rwa [List.getLast?_cons_cons], hk⟩

end TokensAlike

section

variable {R : α → β → Prop} {as : List α} {bs : List β}

theorem rel_getElem? (h : List.Forall₂ R as bs) (n : Nat) : Option.Rel R as[n]? bs[n]? := by
  induction h generalizing n with
  | nil => exact .none
  | cons hab _ ih =>
    cases n with
    | zero => exact .some hab
    | succ n => exact ih n

theorem rel_head? (h : List.Forall₂ R as bs) : Option.Rel R as.head? bs.head? := by
  cases h with
  | nil => exact .none
  | cons hab _ => exact .some hab

end

namespace Cursor

theorem skipWhile_of_true {c : Cursor} {t : Token} {ts : List Token} (h : c.rest = t :: ts)
    {p : TokenKind → Bool} (hp : p t.kind = true) : c.skipWhile p = c.forward.skipWhile p := by
  unfold skipWhile forward
  rw [h]
  simp only [List.takeWhile_cons, List.dropWhile_cons, hp, if_true, List.reverse_cons,
    List.append_assoc, List.singleton_append]

theorem skipWhile_of_false {c : Cursor} {t : Token} {ts : List Token} (h : c.rest = t :: ts)
    {p : TokenKind → Bool} (hp : p t.kind = false) : c.skipWhile p = c := by
  unfold skipWhile
  rw [h]
  simp only [List.takeWhile_cons, List.dropWhile_cons, hp, Bool.false_eq_true, if_false,
    List.reverse_nil, List.nil_append]
  rw [← h]

end Cursor

namespace Cursor.Alike

variable {c d : Cursor}

theorem ended (h : c.Alike f g d) : c.Ended := h.rest.getLast?_kind

theorem exists_cons (h : c.Alike f g d) :
    ∃ t ts u us, c.rest = t :: ts ∧ d.rest = u :: us ∧ Token.Alike f g (TokensAlike f g) t u := by
  have hrest := h.rest.forall₂
  obtain ⟨t, ts, ht⟩ := h.ended.exists_cons
  rw [ht] at hrest
  generalize hd : d.rest = rest at hrest ⊢
  cases hrest with
  | cons htu _ => exact ⟨t, ts, _, _, ht, rfl, htu⟩

theorem peek (h : c.Alike f g d) : Token.Alike f g (TokensAlike f g) c.peek d.peek := by
  obtain ⟨t, ts, u, us, ht, hu, htu⟩ := h.exists_cons
  unfold Cursor.peek
  rw [ht, hu]
  exact htu

theorem kind (h : c.Alike f g d) : TokenKind.Alike f g (TokensAlike f g) c.kind d.kind := h.peek.kind

theorem previous? (h : c.Alike f g d) :
    Option.Rel (Token.Alike f g (TokensAlike f g)) c.previous? d.previous? := rel_head? h.before

theorem peekAt (h : c.Alike f g d) (n : Nat) : Token.Alike f g (TokensAlike f g) (c.peekAt n) (d.peekAt n) := by
  have hlast := Parse.rel_getLast? h.rest.forall₂
  have hat := rel_getElem? h.rest.forall₂ n
  have hprev := h.previous?
  unfold Cursor.peekAt final
  unfold Cursor.previous? at hprev
  generalize c.rest[n]? = t at hat ⊢
  generalize d.rest[n]? = t' at hat ⊢
  cases hat with
  | some h => exact h
  | none =>
    obtain ⟨t, ht, _⟩ := h.rest.getLast?_kind
    rw [ht] at hlast ⊢
    generalize d.rest.getLast? = last at hlast ⊢
    cases hlast with
    | some h => exact h

theorem kindAt (h : c.Alike f g d) (n : Nat) : TokenKind.Alike f g (TokensAlike f g) (c.kindAt n) (d.kindAt n) :=
  (h.peekAt n).kind

/-- The gap after the next token, unless that is the end marker. -/
theorem gap_ahead (h : c.Alike f g d) (hk : c.kind ≠ .eof) :
    c.peek.SameGap (c.peekAt 1) d.peek (d.peekAt 1) := by
  have hrest := h.rest
  unfold Cursor.kind at hk
  unfold Cursor.peekAt
  unfold Cursor.peek at hk ⊢
  generalize c.rest = ts at hrest hk ⊢
  generalize d.rest = us at hrest hk ⊢
  cases hrest with
  | last => exact absurd rfl hk
  | cons _ _ gap _ => exact gap

theorem forward (h : c.Alike f g d) (hk : c.kind ≠ .eof) : c.forward.Alike f g d.forward := by
  obtain ⟨before, rest, _, errors⟩ := h
  obtain ⟨cb, cr, ce⟩ := c
  obtain ⟨db, dr, de⟩ := d
  dsimp only at before rest errors
  cases rest with
  | last => exact absurd rfl hk
  | cons kind span gap rest =>
    refine ⟨.cons ⟨kind, span⟩ before, rest, ?_, errors⟩
    intro t t' ht ht'
    cases ht
    cases ht'
    exact gap

theorem next (h : c.Alike f g d) : c.next.Alike f g d.next := by
  have hend : c.atEnd = d.atEnd := h.kind.blind fun _ _ => rfl
  unfold Cursor.next
  rw [← hend]
  by_cases he : c.atEnd = true
  · rw [if_pos he, if_pos he]
    exact h
  · rw [if_neg he, if_neg he]
    exact h.forward fun hk => he (by rw [atEnd, hk]; rfl)

theorem record (h : c.Alike f g d) {e e' : Diagnostic} (he : Diagnostic.Alike f g (TokensAlike f g) e e') :
    (c.record e).Alike f g (d.record e') :=
  ⟨h.before, h.rest, h.gap, .cons he h.errors⟩

theorem skipWhile (h : c.Alike f g d) {p : TokenKind → Bool} (hp : TokenKind.Blind p)
    (he : p .eof = false) : (c.skipWhile p).Alike f g (d.skipWhile p) := by
  generalize hn : c.rest.length = n
  induction n generalizing c d with
  | zero =>
    obtain ⟨t, ts, ht⟩ := h.ended.exists_cons
    rw [ht] at hn
    cases hn
  | succ n ih =>
    obtain ⟨t, ts, u, us, ht, hu, htu⟩ := h.exists_cons
    have hpeek : c.kind = t.kind := by unfold Cursor.kind Cursor.peek; rw [ht]
    cases hpt : p t.kind with
    | true =>
      have hpu : p u.kind = true := by rw [← htu.kind.blind hp, hpt]
      have hforward := h.forward fun hk => by rw [← hpeek, hk, he] at hpt; cases hpt
      rw [skipWhile_of_true ht hpt, skipWhile_of_true hu hpu]
      refine ih hforward ?_
      rw [Cursor.forward, ht]
      rw [ht] at hn
      exact Nat.succ_inj.mp hn
    | false =>
      have hpu : p u.kind = false := by rw [← htu.kind.blind hp, hpt]
      rw [skipWhile_of_false ht hpt, skipWhile_of_false hu hpu]
      exact h

theorem level (h : c.Alike f g d) : c.level = d.level := by
  have hbefore := h.before
  unfold Cursor.level
  generalize c.before = ts at hbefore ⊢
  generalize d.before = us at hbefore ⊢
  induction hbefore with
  | nil => rfl
  | cons htu _ ih =>
    rw [List.foldr_cons, List.foldr_cons, ih, htu.kind.blind (p := TokenKind.levelChange) fun _ _ => rfl]

theorem ofTokens {ts us : List Token} (h : TokensAlike f g ts us) :
    (ofTokens ts).Alike f g (.ofTokens us) :=
  ⟨.nil, h, (fun _ _ ht => by cases ht), .nil⟩

/-! ## Questions about the tokens ahead -/

theorem blind {α : Type} {p : TokenKind → α} (h : c.Alike f g d) (hp : TokenKind.Blind p) :
    p c.kind = p d.kind :=
  h.kind.blind hp

theorem atNegative (h : c.Alike f g d) : c.atNegative = d.atNegative := by
  have hminus : c.atOperator .minus = d.atOperator .minus := h.blind fun _ _ => rfl
  have hnumber : (c.kindAt 1).isNumber = (d.kindAt 1).isNumber :=
    (h.kindAt 1).blind fun _ _ => rfl
  unfold Cursor.atNegative
  by_cases hk : c.kind = .eof
  · have hno : c.atOperator .minus = false := by rw [atOperator, hk]; rfl
    rw [← hminus, hno, Bool.false_and, Bool.false_and, Bool.false_and, Bool.false_and]
  · rw [hminus, hnumber, (h.gap_ahead hk).touch_eq]

theorem afterGap (h : c.Alike f g d) : c.afterGap = d.afterGap := by
  have hprev := h.previous?
  have hgap := h.gap
  unfold Cursor.afterGap
  generalize c.previous? = t at hprev hgap ⊢
  generalize d.previous? = t' at hprev hgap ⊢
  cases hprev with
  | none => rfl
  | some => exact (hgap _ _ rfl rfl).apart_eq

theorem atAccess (h : c.Alike f g d) : c.atAccess = d.atAccess := by
  have hdot : c.atPunctuation .dot = d.atPunctuation .dot := h.blind fun _ _ => rfl
  have hident : (c.kindAt 1).isIdent = (d.kindAt 1).isIdent :=
    (h.kindAt 1).blind fun _ _ => rfl
  have hprev := h.previous?
  have hgap := h.gap
  unfold Cursor.atAccess
  by_cases hk : c.kind = .eof
  · have hno : c.atPunctuation .dot = false := by rw [atPunctuation, hk]; rfl
    rw [← hdot, hno]
    rfl
  · rw [hdot, hident, (h.gap_ahead hk).touch_eq]
    generalize c.previous? = t at hprev hgap ⊢
    generalize d.previous? = t' at hprev hgap ⊢
    cases hprev with
    | none => rfl
    | some =>
      dsimp only
      rw [(hgap _ _ rfl rfl).touch_eq]

theorem atArgument (h : c.Alike f g d) : c.atArgument = d.atArgument := by
  have hcolon : (c.kindAt 1).isPunctuation .colon = (d.kindAt 1).isPunctuation .colon :=
    (h.kindAt 1).blind fun _ _ => rfl
  have hk := h.kind
  unfold Cursor.atArgument
  rw [hcolon, h.atNegative, h.afterGap]
  generalize c.kind = k at hk ⊢
  generalize d.kind = k' at hk ⊢
  cases hk <;> rfl

theorem namesThen (h : c.Alike f g d) {p : TokenKind → Bool} (hp : TokenKind.Blind p) (n : Nat) :
    c.namesThen p n = d.namesThen p n := by
  have hahead : List.Forall₂ (Token.Alike f g (TokensAlike f g)) (c.rest.drop n) (d.rest.drop n) :=
    List.forall₂_drop n h.rest.forall₂
  unfold Cursor.namesThen
  generalize c.rest.drop n = ts at hahead ⊢
  generalize d.rest.drop n = us at hahead ⊢
  have hident : ∀ {t u : Token}, Token.Alike f g (TokensAlike f g) t u → t.kind.isIdent = u.kind.isIdent :=
    fun h => h.kind.blind fun _ _ => rfl
  have hrest : (ts.dropWhile fun t => t.kind.isIdent).head?.map (fun t => p t.kind) =
      (us.dropWhile fun t => t.kind.isIdent).head?.map (fun t => p t.kind) := by
    induction hahead with
    | nil => rfl
    | @cons t u ts us htu hs ih =>
      rw [List.dropWhile_cons, List.dropWhile_cons, hident htu]
      split
      · exact ih
      · exact congrArg some (htu.kind.blind hp)
  have hnames : (ts.takeWhile fun t => t.kind.isIdent).isEmpty =
      (us.takeWhile fun t => t.kind.isIdent).isEmpty := by
    cases hahead with
    | nil => rfl
    | cons htu _ =>
      rw [List.takeWhile_cons, List.takeWhile_cons, hident htu]
      split <;> rfl
  dsimp only
  rw [hnames, hrest]

theorem afterLine (h : c.Alike f g d) : Parse.afterLine c = Parse.afterLine d := by
  have hprev := h.previous?
  unfold Parse.afterLine
  generalize c.previous? = t at hprev ⊢
  generalize d.previous? = t' at hprev ⊢
  cases hprev with
  | none => rfl
  | some h => exact h.kind.blind (p := fun k => k.isNewline || k.isDedent) fun _ _ => rfl

theorem afterDedent (h : c.Alike f g d) : c.afterDedent = d.afterDedent := by
  have hprev := h.previous?
  unfold Cursor.afterDedent
  generalize c.previous? = t at hprev ⊢
  generalize d.previous? = t' at hprev ⊢
  cases hprev with
  | none => rfl
  | some h => exact h.kind.blind (p := TokenKind.isDedent) fun _ _ => rfl

theorem atBlock (h : c.Alike f g d) {p : TokenKind → Bool} (hp : TokenKind.Blind p) :
    c.atBlock p = d.atBlock p := by
  have hline : c.atNewline = d.atNewline := h.blind fun _ _ => rfl
  unfold Cursor.atBlock
  rw [hline, (h.kindAt 1).blind (p := TokenKind.isIndent) fun _ _ => rfl, (h.kindAt 2).blind hp]

theorem look (h : c.Alike f g d) {p : Cursor → Bool} (hp : Parse.Lookahead p) : p c = p d := by
  cases hp with
  | access => exact h.atAccess
  | argument => exact h.atArgument
  | negative => exact h.atNegative
  | function => exact h.namesThen (fun _ _ => rfl) 1
  | definition => exact h.namesThen (fun _ _ => rfl) 0
  | afterLine => exact h.afterLine
  | afterDedent => exact h.afterDedent
  | clause mark =>
    have hline : c.atNewline = d.atNewline := h.blind fun _ _ => rfl
    dsimp only
    rw [hline, (h.kindAt 1).blind (Parse.Coupling.ClauseMark.blind mark)]

theorem enterBlock (h : c.Alike f g d) {p : TokenKind → Bool} (hb : c.atBlock p = true) :
    c.forward.forward.Alike f g d.forward.forward := by
  obtain ⟨t, ts, hr⟩ := h.ended.exists_cons
  simp only [Cursor.atBlock, Bool.and_eq_true] at hb
  obtain ⟨⟨hline, hindent⟩, _⟩ := hb
  refine (h.forward fun he => ?_).forward fun he => ?_
  · rw [atNewline, he] at hline
    cases hline
  · rw [kindAt_one hr, he] at hindent
    cases hindent

end Cursor.Alike

namespace Parse

variable {α β : Type}

/-- Both succeed with related results or both fail with alike diagnostics, at the same place. -/
inductive Outcome (f g : Span → Span) (R : α → β → Prop) :
    EStateM.Result Diagnostic Cursor α → EStateM.Result Diagnostic Cursor β → Prop
  | ok {a : α} {b : β} {c d : Cursor} (value : R a b) (cursor : c.Alike f g d) :
    Outcome f g R (.ok a c) (.ok b d)
  | error {e e' : Diagnostic} {c d : Cursor} (failure : Diagnostic.Alike f g (TokensAlike f g) e e')
    (cursor : c.Alike f g d) : Outcome f g R (.error e c) (.error e' d)

/-- The rules have the same outcome from every pair of alike cursors. -/
def SideBySide (f g : Span → Span) (R : α → β → Prop) (x : Parse α) (y : Parse β) : Prop :=
  ∀ c d, c.Alike f g d → Outcome f g R (x c) (y d)

namespace SideBySide

theorem bind {γ δ : Type} {R : α → β → Prop} {S : γ → δ → Prop} {x : Parse α} {y : Parse β}
    {h : α → Parse γ} {k : β → Parse δ} (hx : SideBySide f g R x y)
    (hh : ∀ a b, R a b → SideBySide f g S (h a) (k b)) : SideBySide f g S (x >>= h) (y >>= k) := by
  intro c d hcd
  have hout := hx c d hcd
  generalize hxc : x c = r at hout
  generalize hyd : y d = r' at hout
  cases hout with
  | ok value cursor =>
    rw [bind_of_ok hxc, bind_of_ok hyd]
    exact hh _ _ value _ _ cursor
  | error failure cursor =>
    rw [bind_of_error hxc, bind_of_error hyd]
    exact .error failure cursor

theorem test {p : Cursor → α} {q : Cursor → β} {R : α → β → Prop}
    (h : ∀ c d, c.Alike f g d → R (p c) (q d)) : SideBySide f g R (Parse.test p) (Parse.test q) :=
  fun c d hcd => .ok (h c d hcd) hcd

theorem openBlock {p : TokenKind → Bool} (hp : TokenKind.Blind p) :
    SideBySide f g (· = ·) (openBlock p) (openBlock p) := by
  intro c d hcd
  unfold Parse.openBlock
  rw [← hcd.atBlock hp]
  by_cases hb : c.atBlock p = true
  · rw [if_pos hb, if_pos hb]
    exact .ok rfl (hcd.enterBlock hb)
  · rw [if_neg hb, if_neg hb]
    exact .ok rfl hcd

end SideBySide

/-- Corresponding spans are merged to corresponding ones. -/
def Mergeable (f g : Span → Span) : Prop :=
  ∀ s t s' t' : Span, f s = g s' → f t = g t' → f (s.merge t) = g (s'.merge t')

/-- The runs of one grammar over alike tokens. -/
def sideBySide (o : ParseOptions) (hfg : Mergeable f g) : Coupling o o where
  left := f
  right := g
  holes := TokensAlike f g
  budgets := (· = ·)
  agree := SideBySide f g
  resolve := .inl rfl
  merge h h' := hfg _ _ _ _ h h'
  succ := Coupling.succ_eq
  ret h := fun _ _ hcd => .ok h hcd
  bind := SideBySide.bind
  peek := .test fun _ _ h => h.peek
  look hp := .test fun _ _ h => h.look hp
  skip := fun _ _ h => .ok h.peek.span h.next
  openBlock := SideBySide.openBlock
  fail h := fun c d hcd => .error (h c d hcd.peek) hcd
  deep hb hy := by
    intro c d hcd
    rw [hy hb.symm]
    exact .error ((hcd.peek.failure _).withHint _) hcd
  bounded := by
    intro _ _ R x y _ h c d hcd
    show Outcome f g R (x (c.rest.length + 1) c) (y (d.rest.length + 1) d)
    rw [← hcd.rest.length_eq]
    exact h _ c d hcd

section

variable (o : ParseOptions) (hfg : Mergeable f g)

theorem sideBySide_hole {p p' : Primary} (hm : ∀ b, Moves (fun _ => 1) (p b))
    (hp : ∀ b, SideBySide f g ((sideBySide o hfg).same Expr.relocate) (p b) (p' b)) (b : Nat)
    {ts us : List Token} {s s' : Span} (h : TokensAlike f g ts us) (hs : f s = g s') :
    SideBySide f g ((sideBySide o hfg).same Expr.relocate) (hole o p b ts s)
      (hole o p' b us s') := by
  have hinner : Outcome f g ((sideBySide o hfg).same Expr.relocate) (expression o p b (.ofTokens ts))
      (expression o p' b (.ofTokens us)) :=
    Coupling.expression (C := sideBySide o hfg) hm (fun {b _} h => by cases h; exact hp b) rfl _ _
      (.ofTokens h)
  intro c d hcd
  unfold hole interpolation
  generalize expression o p b (.ofTokens ts) = r at hinner ⊢
  generalize expression o p' b (.ofTokens us) = r' at hinner ⊢
  cases hinner with
  | @ok e e' c1 d1 value cursor =>
    have hend : c1.atEnd = d1.atEnd := cursor.blind fun _ _ => rfl
    dsimp only
    rw [← hend]
    cases c1.atEnd with
    | true => exact .ok value hcd
    | false =>
      have hfail := cursor.peek.unexpected .inInterpolation [.punctuation .rbrace]
      cases o.mode with
      | strict => exact .error hfail hcd
      | bestEffort => exact .ok (congrArg Expr.error hs) (hcd.record hfail)
  | error failure cursor =>
    dsimp only
    cases o.mode with
    | strict => exact .error failure hcd
    | bestEffort => exact .ok (congrArg Expr.error hs) (hcd.record failure)

theorem sideBySide_primary (levels : Nat) :
    ∀ b, SideBySide f g ((sideBySide o hfg).same Expr.relocate) (primary o levels b)
      (primary o levels b) := by
  induction levels with
  | zero => exact fun b => (sideBySide o hfg).deep (b := 0) rfl fun _ => rfl
  | succ levels ih =>
    intro b
    cases b with
    | zero => exact (sideBySide o hfg).deep (b := 0) rfl fun _ => rfl
    | succ b =>
      exact Coupling.primaryInside (C := sideBySide o hfg) (moves_primary o levels)
        (fun {b _} h => by cases h; exact ih b) rfl
        fun h hs => sideBySide_hole o hfg (moves_primary o levels) ih b h hs

theorem sideBySide_statementLine :
    SideBySide f g ((sideBySide o hfg).same Statement.relocate) (statementLine o)
      (statementLine o) :=
  Coupling.statementLine (C := sideBySide o hfg)
    (fun {b _} h => by cases h; exact sideBySide_primary o hfg _ b) rfl

end

/-! ## Programs -/

theorem seekLine_alike (level : Int) : ∀ {c d : Cursor}, c.Alike f g d →
    Cursor.Alike f g
      { c with before := (seekLine level c.before c.rest).1, rest := (seekLine level c.before c.rest).2 }
      { d with before := (seekLine level d.before d.rest).1, rest := (seekLine level d.before d.rest).2 }
  | ⟨cb, cr, ce⟩, ⟨db, dr, de⟩, h => by
    induction cr generalizing level cb db dr with
    | nil => exact absurd rfl h.ended.rest_ne_nil
    | cons t ts ih =>
      obtain ⟨_, _, u, us, ht, hu, htu⟩ := h.exists_cons
      cases ht
      obtain rfl : dr = u :: us := hu
      have heof : t.kind.isEof = u.kind.isEof := htu.kind.blind fun _ _ => rfl
      have hchange : t.kind.levelChange = u.kind.levelChange := htu.kind.blind fun _ _ => rfl
      have hend : (t.kind.isNewline || t.kind.isDedent) = (u.kind.isNewline || u.kind.isDedent) :=
        htu.kind.blind (p := fun k => k.isNewline || k.isDedent) fun _ _ => rfl
      dsimp only [seekLine]
      rw [← heof]
      cases hk : t.kind.isEof with
      | true => exact h
      | false =>
        have hforward : Cursor.Alike f g ⟨t :: cb, ts, ce⟩ ⟨u :: db, us, de⟩ :=
          h.forward fun he => by
            rw [show t.kind = .eof from he] at hk
            cases hk
        obtain ⟨t', ts', u', us', ht', hu', htu'⟩ := hforward.exists_cons
        have hfollow : (ts.head?.getD t).kind = t'.kind ∧ (us.head?.getD u).kind = u'.kind := by
          rw [show ts = _ from ht', show us = _ from hu']
          exact ⟨rfl, rfl⟩
        have hopen : (t'.kind.isIndent || t'.kind.isDedent) = (u'.kind.isIndent || u'.kind.isDedent) :=
          htu'.kind.blind (p := fun k => k.isIndent || k.isDedent) fun _ _ => rfl
        rw [hfollow.1, hfollow.2, ← hend, ← hopen, ← hchange]
        simp only [Bool.false_eq_true, if_false]
        split
        · exact hforward
        · exact ih _ _ _ _ hforward

theorem synchronize_alike {c d : Cursor} (h : c.Alike f g d) :
    (synchronize c).Alike f g (synchronize d) := by
  unfold synchronize
  rw [← h.level]
  exact seekLine_alike c.level h

theorem settled_alike {c d : Cursor} (h : c.Alike f g d) : (settled c).Alike f g (settled d) :=
  (h.skipWhile (fun _ _ => rfl) rfl).skipWhile (fun _ _ => rfl) rfl

theorem spanSince_alike (hfg : Mergeable f g) {start start' c d : Cursor}
    (hs : start.Alike f g start') (h : c.Alike f g d) :
    f (start.spanSince c) = g (start'.spanSince d) := by
  obtain ⟨t, ts, u, us, ht, hu, htu⟩ := hs.exists_cons
  have hprev := h.previous?
  unfold Cursor.spanSince
  rw [ht, hu, hs.before.length_eq, h.before.length_eq]
  dsimp only [List.head?_cons, Option.getD_some]
  generalize c.previous? = last at hprev ⊢
  generalize d.previous? = last' at hprev ⊢
  cases hprev with
  | none => exact htu.span
  | some h =>
    dsimp only
    split
    · exact hfg _ _ _ _ htu.span h.span
    · exact htu.span

theorem statementsUpTo_alike (o : ParseOptions) (hfg : Mergeable f g) (n : Nat) :
    ∀ {c d : Cursor}, c.Alike f g d →
      List.Forall₂ ((sideBySide o hfg).same Statement.relocate) (statementsUpTo o n c).1
        (statementsUpTo o n d).1 ∧
      (statementsUpTo o n c).2.Alike f g (statementsUpTo o n d).2 := by
  induction n with
  | zero => exact fun h => ⟨.nil, h⟩
  | succ n ih =>
    intro c d h
    have hs := settled_alike h
    have hend : (settled c).atEnd = (settled d).atEnd := hs.blind fun _ _ => rfl
    have hline := sideBySide_statementLine o hfg _ _ hs
    unfold statementsUpTo
    dsimp only
    rw [← hend]
    cases (settled c).atEnd with
    | true => exact ⟨.nil, hs⟩
    | false =>
      simp only [Bool.false_eq_true, if_false]
      generalize statementLine o (settled c) = r at hline ⊢
      generalize statementLine o (settled d) = r' at hline ⊢
      cases hline with
      | ok value cursor => exact ⟨.cons value (ih cursor).1, (ih cursor).2⟩
      | error failure cursor =>
        have hrecord := cursor.record failure
        cases o.mode with
        | strict => exact ⟨.nil, hrecord⟩
        | bestEffort =>
          have hresume := synchronize_alike hrecord
          refine ⟨.cons ?_ (ih hresume).1, (ih hresume).2⟩
          exact congrArg Statement.error (spanSince_alike hfg hs hresume)

/-- Runs over alike tokens give corresponding statements and alike errors. -/
theorem run_alike (o : ParseOptions) (hfg : Mergeable f g) {ts us : List Token}
    (h : TokensAlike f g ts us) :
    (run o ts).1.statements.map (Statement.relocate f) =
        (run o us).1.statements.map (Statement.relocate g) ∧
      List.Forall₂ (Diagnostic.Alike f g (TokensAlike f g)) (run o ts).2 (run o us).2 := by
  obtain ⟨hs, hc⟩ := statementsUpTo_alike o hfg (ts.length + 1) (.ofTokens h)
  rw [run_statements, run_statements]
  unfold run
  dsimp only
  rw [← h.length_eq]
  exact ⟨Coupling.map_same hs, List.rel_reverse hc.errors⟩

end Parse

/-- What a diagnostic says, without the places it points at. -/
structure Diagnostic.SaysSame (d d' : Diagnostic) : Prop where
  failure : d.failure = d'.failure
  message : d.message = d'.message
  expected : d.expected = d'.expected
  notes : d.notes = d'.notes
  hints : d.hints = d'.hints

theorem Diagnostic.Alike.saysSame {d d' : Diagnostic} (h : Diagnostic.Alike f g (TokensAlike f g) d d') :
    d.SaysSame d' :=
  ⟨h.cause.failure, h.cause.message, h.expected, h.notes, h.hints⟩

/-- The parser reads the kinds of its tokens and whether each token touches the next one or stands
apart from it, in the tokens of interpolations as well, and nothing else: two lists that agree on these
give the same tree and the same diagnostics, up to spans. -/
theorem run_of_same_gaps (o : ParseOptions) {ts us : List Token}
    (h : TokensAlike (fun _ => .origin) (fun _ => .origin) ts us) :
    (Parse.run o ts).1.erase = (Parse.run o us).1.erase ∧
      List.Forall₂ Diagnostic.SaysSame (Parse.run o ts).2 (Parse.run o us).2 := by
  obtain ⟨hs, he⟩ := Parse.run_alike o (fun _ _ _ _ _ _ => rfl) h
  exact ⟨congrArg (Program.mk · .origin) hs, he.imp fun _ _ h => h.saysSame⟩

/-- The same tokens with more blanks before the argument, and further down in the text. -/
theorem run_of_same_gaps_moved :
    let near : List Token :=
      [⟨.ident "f", ⟨0, 1, 1, 1⟩⟩,
        ⟨.text [.hole [⟨.ident "y", ⟨4, 5, 1, 5⟩⟩, ⟨.eof, ⟨5, 5, 1, 6⟩⟩] ⟨4, 5, 1, 5⟩], ⟨2, 7, 1, 3⟩⟩,
        ⟨.operator .minus, ⟨8, 9, 1, 9⟩⟩, ⟨.number .zero, ⟨9, 10, 1, 10⟩⟩, ⟨.eof, ⟨10, 10, 1, 11⟩⟩]
    let far : List Token :=
      [⟨.ident "f", ⟨20, 21, 3, 1⟩⟩,
        ⟨.text [.hole [⟨.ident "y", ⟨30, 31, 3, 11⟩⟩, ⟨.eof, ⟨31, 31, 3, 12⟩⟩] ⟨30, 31, 3, 11⟩],
          ⟨28, 33, 3, 9⟩⟩,
        ⟨.operator .minus, ⟨35, 36, 3, 16⟩⟩, ⟨.number .zero, ⟨36, 37, 3, 17⟩⟩,
        ⟨.eof, ⟨37, 37, 3, 18⟩⟩]
    TokensAlike (fun _ => .origin) (fun _ => .origin) near far ∧
      (Parse.run {} near).1.erase = (Parse.run {} far).1.erase ∧
      List.Forall₂ Diagnostic.SaysSame (Parse.run {} near).2 (Parse.run {} far).2 := by
  intro near far
  have h : TokensAlike (fun _ => .origin) (fun _ => .origin) near far := by
    refine .cons (.plain rfl) rfl ⟨by decide, by decide⟩ ?_
    refine .cons (.text (.cons (.hole ?_ rfl) .nil)) rfl ⟨by decide, by decide⟩ ?_
    · exact .cons (.plain rfl) rfl ⟨by decide, by decide⟩ (.last rfl)
    refine .cons (.plain rfl) rfl ⟨by decide, by decide⟩ ?_
    exact .cons (.plain rfl) rfl ⟨by decide, by decide⟩ (.last rfl)
  exact ⟨h, run_of_same_gaps {} h⟩

end PipeLang
