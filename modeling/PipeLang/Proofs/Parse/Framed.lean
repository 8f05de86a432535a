import PipeLang.Proofs.Parse.CoupledProgram
import PipeLang.Proofs.Tree.Nodes

/-! The same tokens with others after them. A run that stops short of the end marker has read nothing
that follows the tokens before it, so it does the same whatever stands there in place of the end marker. -/

namespace PipeLang

/-- What ends a stage, on its line or with it. A stage may be the last one before a clause. -/
def TokenKind.isStageEnd : TokenKind → Bool
  | punctuation p => p = .pipe || p = .bar
  | keyword k => k = .catch_
  | newline | eof => true
  | _ => false

/-- What may stand after a stage: a token that ends it, and the end marker at the latest. -/
structure StageFollow (v : List Token) : Prop where
  first : ∃ t ts, v = t :: ts ∧ t.kind.isStageEnd = true
  last : ∃ t, v.getLast? = some t ∧ t.kind = .eof

/-- What may stand after an operand: a token that is not a part of it, names that lead neither to an arrow
nor to an equals sign, and the end marker at the latest. -/
structure Follow (v : List Token) : Prop where
  first : ∃ t ts, v = t :: ts ∧ t.kind.isPunctuation .dot = false ∧ t.kind.isPunctuation .colon = false
  names : ∀ t ∈ (v.dropWhile fun t => t.kind.isIdent).head?,
    t.kind.isPunctuation .arrow = false ∧ t.kind.isOperator .eq = false
  last : ∃ t, v.getLast? = some t ∧ t.kind = .eof

/-- Where `v` comes after the token, no name and no number touches it. -/
def Token.Apart (v : List Token) (t : Token) : Prop :=
  ∀ u ∈ v.head?, (u.kind.isIdent || u.kind.isNumber) = true → t.span.stop ≠ u.span.start

namespace StageFollow

variable {v : List Token} (h : StageFollow v)

include h

theorem follow : Follow v := by
  obtain ⟨t, ts, rfl, hk⟩ := h.first
  have hident : t.kind.isIdent = false := by
    cases ht : t.kind <;> rw [ht] at hk <;> first | rfl | cases hk
  refine ⟨⟨t, ts, rfl, ?_⟩, fun u hu => ?_, h.last⟩
  · cases ht : t.kind with
    | punctuation p => cases p <;> first | exact ⟨rfl, rfl⟩ | (rw [ht] at hk; cases hk)
    | _ => exact ⟨rfl, rfl⟩
  · rw [List.dropWhile_cons_of_neg (by simp [hident])] at hu
    cases hu
    cases ht : t.kind with
    | punctuation p => cases p <;> first | exact ⟨rfl, rfl⟩ | (rw [ht] at hk; cases hk)
    | _ => first | exact ⟨rfl, rfl⟩ | (rw [ht] at hk; cases hk)

theorem apart (t : Token) : t.Apart v := by
  obtain ⟨u, us, rfl, hk⟩ := h.first
  intro u hu hname
  cases hu
  cases ht : u.kind <;> rw [ht] at hk hname <;> first | (cases hname; done) | cases hk

end StageFollow

namespace Cursor

section

variable (e : Token) (v : List Token)

/-- The tokens `r` come next at both places, and after them the end marker `e` or else `v`. -/
structure Ahead (r : List Token) (c d : Cursor) : Prop where
  front : c.rest = r ++ [e]
  back : d.rest = r ++ v
  free : ∀ t ∈ r, t.kind.isLayout = false
  apart : ∀ t ∈ r, t.Apart v

/-- Both places come after the same token as well. -/
structure Beside (r : List Token) (c d : Cursor) : Prop extends Ahead e v r c d where
  previous : c.previous? = d.previous?

end

/-- One more token is consumed at both places. -/
theorem Ahead.forward {e : Token} {v : List Token} {t : Token} {r : List Token} {c d : Cursor}
    (h : c.Ahead e v (t :: r) d) : c.forward.Beside e v r d.forward := by
  obtain ⟨front, back, free, apart⟩ := h
  have hfront : c.rest = t :: (r ++ [e]) := front
  have hback : d.rest = t :: (r ++ v) := back
  refine ⟨⟨?_, ?_, fun u hu => free u (List.mem_cons_of_mem t hu),
    fun u hu => apart u (List.mem_cons_of_mem t hu)⟩, ?_⟩
  · rw [Cursor.forward, hfront]
  · rw [Cursor.forward, hback]
  · rw [Cursor.forward, Cursor.forward, hfront, hback]
    rfl

namespace Ahead

variable {e : Token} {v : List Token} {t : Token} {r : List Token} {c d : Cursor}

theorem peek (h : c.Ahead e v (t :: r) d) : c.peek = t ∧ d.peek = t := by
  unfold Cursor.peek
  rw [h.front, h.back]
  exact ⟨rfl, rfl⟩

theorem kind (h : c.Ahead e v (t :: r) d) : c.kind = t.kind ∧ d.kind = t.kind :=
  ⟨congrArg Token.kind h.peek.1, congrArg Token.kind h.peek.2⟩

theorem next (h : c.Ahead e v (t :: r) d) (ht : t.kind ≠ .eof) : c.next.Beside e v r d.next := by
  rw [Parse.next_eq_forward (by rw [h.kind.1]; exact ht),
    Parse.next_eq_forward (by rw [h.kind.2]; exact ht)]
  exact h.forward

theorem ended (he : e.kind = .eof) (h : c.Ahead e v r d) : c.Ended :=
  ⟨e, by rw [h.front, List.getLast?_concat], he⟩

theorem ended_right (hv : Follow v) (h : c.Ahead e v r d) : d.Ended := by
  obtain ⟨t, ht, hk⟩ := hv.last
  obtain ⟨u, us, hu, _⟩ := hv.first
  refine ⟨t, ?_, hk⟩
  rw [h.back, List.getLast?_append_of_ne_nil _ (by rw [hu]; exact List.cons_ne_nil u us), ht]

theorem length_le (hv : Follow v) (h : c.Ahead e v r d) : c.rest.length ≤ d.rest.length := by
  obtain ⟨u, us, hu, _⟩ := hv.first
  rw [h.front, h.back, hu]
  simp

/-- At the end of the common tokens a stage is over at both places. -/
theorem kind_nil (he : e.kind = .eof) (hv : StageFollow v) (h : c.Ahead e v [] d) :
    c.kind = .eof ∧ d.kind.isStageEnd = true := by
  obtain ⟨u, us, rfl, hk⟩ := hv.first
  rw [Parse.kind_of_rest h.front, Parse.kind_of_rest h.back]
  exact ⟨he, hk⟩

theorem exists_cons (he : e.kind = .eof) (h : c.Ahead e v r d) (hk : c.kind ≠ .eof) :
    ∃ t r', r = t :: r' := by
  refine List.exists_cons_of_ne_nil fun hr => hk ?_
  subst hr
  exact (Parse.kind_of_rest h.front).trans he

/-- The second token ahead is the same at both places, unless the common tokens are over before it. -/
theorem peekAt_one (he : e.kind = .eof) (hv : Follow v) (h : c.Ahead e v (t :: r) d) :
    c.peekAt 1 = d.peekAt 1 ∨ c.kindAt 1 = .eof ∧ v.head? = some (d.peekAt 1) := by
  have hc : c.rest = t :: (r ++ [e]) := h.front
  have hd : d.rest = t :: (r ++ v) := h.back
  rw [Cursor.kindAt_one hc, Cursor.peekAt_one hc, Cursor.peekAt_one hd]
  have hnext := h.forward.toAhead
  cases r with
  | nil =>
    obtain ⟨u, us, rfl, _⟩ := hv.first
    refine .inr ⟨(Parse.kind_of_rest hnext.front).trans he, ?_⟩
    unfold Cursor.peek
    rw [hnext.back]
    rfl
  | cons u r => exact .inl (hnext.peek.1.trans hnext.peek.2.symm)

end Ahead

/-- Whether names and then a certain token come next is settled by the tokens before `w`, if it is not so of
`w` alone. -/
theorem names_append {p : TokenKind → Bool} (s : List Token) {w : List Token}
    (hw : ∀ t ∈ (w.dropWhile fun t => t.kind.isIdent).head?, p t.kind = false) :
    (!((s ++ w).takeWhile fun t => t.kind.isIdent).isEmpty &&
        (((s ++ w).dropWhile fun t => t.kind.isIdent).head?.map fun t => p t.kind) == some true) =
      (!(s.takeWhile fun t => t.kind.isIdent).isEmpty &&
        ((s.dropWhile fun t => t.kind.isIdent).head?.map fun t => p t.kind) == some true) := by
  have hnext : ((((s ++ w).dropWhile fun t => t.kind.isIdent).head?.map fun t => p t.kind) == some true) =
      (((s.dropWhile fun t => t.kind.isIdent).head?.map fun t => p t.kind) == some true) := by
    induction s with
    | nil =>
      rw [List.nil_append]
      cases hhead : (w.dropWhile fun t => t.kind.isIdent).head? with
      | none => rfl
      | some t => simp [hw t hhead]
    | cons t s ih =>
      rw [List.cons_append, List.dropWhile_cons, List.dropWhile_cons]
      cases t.kind.isIdent with
      | true => exact ih
      | false => rfl
  rw [hnext]
  cases s with
  | nil => simp
  | cons t s =>
    rw [List.cons_append, List.takeWhile_cons, List.takeWhile_cons]
    cases t.kind.isIdent <;> rfl

/-! ## Questions about the tokens ahead -/

section

variable {e : Token} {v : List Token} {t : Token} {r : List Token} {c d : Cursor} (he : e.kind = .eof)
  (hv : Follow v)

namespace Ahead

variable (h : c.Ahead e v (t :: r) d)

include he hv h

/-- A question about the next two tokens to which an end marker in second place answers no, and so does what
follows the common tokens. -/
theorem second {p q : TokenKind → Bool} {g : Token → Token → Bool} (hq : q .eof = false)
    (hfollow : ∀ u ∈ v.head?, q u.kind = true → g t u = false) :
    (p c.kind && q (c.kindAt 1) && g c.peek (c.peekAt 1)) =
      (p d.kind && q (d.kindAt 1) && g d.peek (d.peekAt 1)) := by
  obtain ⟨hc, hd⟩ := h.peek
  rcases h.peekAt_one he hv with hsame | ⟨hend, hhead⟩
  · unfold Cursor.kind Cursor.kindAt
    rw [hc, hd, hsame]
  · have hno := hfollow _ hhead
    rw [hend, hq, hd]
    unfold Cursor.kindAt
    cases hdq : q (d.peekAt 1).kind with
    | true => simp [hno hdq]
    | false => simp

/-- A number or a name that touches the token before it is not what follows the common tokens. -/
theorem second_touching {p q : TokenKind → Bool} (hq : q .eof = false)
    (hname : ∀ k, q k = true → (k.isIdent || k.isNumber) = true) :
    (p c.kind && q (c.kindAt 1) && c.peek.span.stop == (c.peekAt 1).span.start) =
      (p d.kind && q (d.kindAt 1) && d.peek.span.stop == (d.peekAt 1).span.start) :=
  second he hv h (g := fun t u => t.span.stop == u.span.start) hq fun u hu hk => by
    rw [beq_eq_false_iff_ne]
    exact h.apart t List.mem_cons_self u hu (hname _ hk)

theorem atNegative : c.atNegative = d.atNegative :=
  second_touching he hv h (p := TokenKind.isOperator .minus) (q := TokenKind.isNumber) rfl
    fun k hk => by rw [hk, Bool.or_true]

omit hv in
theorem namesThen {p : TokenKind → Bool} (hp : p .eof = false)
    (hw : ∀ t ∈ (v.dropWhile fun t => t.kind.isIdent).head?, p t.kind = false) {n : Nat} (hn : n ≤ 1) :
    c.namesThen p n = d.namesThen p n := by
  have hdrop : ∀ w : List Token, ((t :: r) ++ w).drop n = (t :: r).drop n ++ w := fun w =>
    List.drop_append_of_le_length (hn.trans (Nat.succ_le_succ (Nat.zero_le _)))
  have hend : ∀ u ∈ ([e].dropWhile fun t => t.kind.isIdent).head?, p u.kind = false := by
    rw [List.dropWhile_cons_of_neg (by rw [he]; simp [TokenKind.isIdent])]
    intro u hu
    cases hu
    rw [he, hp]
  unfold Cursor.namesThen
  rw [h.front, h.back, hdrop, hdrop]
  dsimp only
  rw [names_append _ hend, names_append _ hw]

theorem atFunction : c.atFunction = d.atFunction :=
  namesThen he h rfl (fun t ht => (hv.names t ht).1) (Nat.le_refl 1)

omit he hv in
theorem atNewline : c.atNewline = false ∧ d.atNewline = false := by
  have hfree := h.free t List.mem_cons_self
  unfold Cursor.atNewline
  rw [h.kind.1, h.kind.2]
  cases hk : t.kind <;> rw [hk] at hfree <;> first | exact ⟨rfl, rfl⟩ | cases hfree

end Ahead

namespace Beside

variable (h : c.Beside e v (t :: r) d)

include he hv h

theorem atAccess : c.atAccess = d.atAccess := by
  have htouch := h.second_touching he hv (p := TokenKind.isPunctuation .dot) (q := TokenKind.isIdent) rfl
    fun k hk => by rw [hk, Bool.true_or]
  unfold Cursor.atAccess Cursor.atPunctuation
  rw [h.previous]
  refine congrArg₂ and htouch ?_
  rw [h.peek.1, h.peek.2]

theorem atArgument : c.atArgument = d.atArgument := by
  have hcolon : (c.kindAt 1).isPunctuation .colon = (d.kindAt 1).isPunctuation .colon := by
    obtain ⟨u, us, rfl, -, hu⟩ := hv.first
    have := h.second he hv (p := fun _ => true) (q := TokenKind.isPunctuation .colon)
      (g := fun _ _ => true) rfl fun w hw hk => by
        cases hw
        rw [hu] at hk
        cases hk
    simpa using this
  have hgap : c.afterGap = d.afterGap := by
    unfold Cursor.afterGap
    rw [h.previous, h.peek.1, h.peek.2]
  unfold Cursor.atArgument
  rw [h.kind.1, h.kind.2, hcolon, h.atNegative he hv, hgap]

theorem look {p : Cursor → Bool} (hp : Parse.Lookahead p) : p c = p d := by
  obtain ⟨hc, hd⟩ := h.atNewline
  cases hp with
  | access => exact atAccess he hv h
  | argument => exact atArgument he hv h
  | negative => exact h.atNegative he hv
  | function => exact h.atFunction he hv
  | definition => exact h.namesThen he rfl (fun t ht => (hv.names t ht).2) (Nat.zero_le 1)
  | afterLine =>
    unfold Parse.afterLine
    rw [h.previous]
  | afterDedent =>
    unfold Cursor.afterDedent
    rw [h.previous]
  | clause =>
    dsimp only
    rw [hc, hd, Bool.false_and, Bool.false_and]

end Beside

end

end Cursor

namespace Parse

variable {α β : Type} {R : α → β → Prop} {x : Parse α} {y : Parse β}

/-- From places with the same tokens ahead of them `x` gets to the end marker, or else `y` does the same
and stops at the same token. -/
structure Framed (e : Token) (v : List Token) (R : α → β → Prop) (x : Parse α) (y : Parse β) :
    Prop where
  kept : ∀ c, c.Ended → ∀ a c', x c = .ok a c' →
    (∃ b, R a b) ∧ c'.Ended ∧ c'.rest.length ≤ c.rest.length
  along : ∀ r c d, r ≠ [] → c.Beside e v r d → ∀ a c', x c = .ok a c' →
    c'.rest.length ≤ 1 ∨ ∃ b d' r', R a b ∧ y d = .ok b d' ∧ r' ≠ [] ∧ c'.Beside e v r' d'

namespace Framed

variable {e : Token} {v : List Token} (he : e.kind = .eof) (hv : Follow v)

include he in
theorem bind {γ δ : Type} {S : γ → δ → Prop} {f : α → Parse γ} {g : β → Parse δ}
    (hx : Framed e v R x y) (hf : ∀ a b, R a b → Framed e v S (f a) (g b)) :
    Framed e v S (x >>= f) (y >>= g) where
  kept c hc b c' hrun := by
    obtain ⟨a, c1, ha, hb⟩ := bind_eq_ok.mp hrun
    obtain ⟨⟨a', haa'⟩, hc1, hl⟩ := hx.kept c hc a c1 ha
    obtain ⟨hrel, hc', hl'⟩ := (hf a a' haa').kept c1 hc1 b c' hb
    exact ⟨hrel, hc', hl'.trans hl⟩
  along r c d hr h b c' hrun := by
    obtain ⟨a, c1, ha, hb⟩ := bind_eq_ok.mp hrun
    rcases hx.along r c d hr h a c1 ha with hend | ⟨a', d1, r1, haa', hd1, hr1, h1⟩
    · obtain ⟨⟨a', haa'⟩, hc1, _⟩ := hx.kept c (h.ended he) a c1 ha
      exact .inl (((hf a a' haa').kept c1 hc1 b c' hb).2.2.trans hend)
    · rw [bind_of_ok hd1]
      exact (hf a a' haa').along r1 c1 d1 hr1 h1 b c' hb

/-- Rules that look at the tokens ahead and take none. -/
theorem test {p : Cursor → α} {q : Cursor → β} (hkept : ∀ c, ∃ b, R (p c) b)
    (h : ∀ t r c d, c.Beside e v (t :: r) d → R (p c) (q d)) :
    Framed e v R (Parse.test p) (Parse.test q) where
  kept c hc a c' hrun := by
    cases hrun
    exact ⟨hkept c, hc, Nat.le_refl _⟩
  along r c d hr hcd a c' hrun := by
    cases hrun
    obtain ⟨t, r, rfl⟩ := List.exists_cons_of_ne_nil hr
    exact .inr ⟨_, d, t :: r, h t r c d hcd, rfl, hr, hcd⟩

theorem fail {d d' : Cursor → Diagnostic} :
    Framed e v R (Parse.fail d : Parse α) (Parse.fail d' : Parse β) where
  kept _ _ _ _ hrun := by cases hrun
  along _ _ _ _ _ _ _ hrun := by cases hrun

theorem pure {a : α} {b : β} (h : R a b) : Framed e v R (pure a) (pure b) :=
  test (p := fun _ => a) (q := fun _ => b) (fun _ => ⟨b, h⟩) fun _ _ _ _ _ => h

theorem skip : Framed e v (fun s s' : Span => s = s') Parse.skip Parse.skip where
  kept c hc a c' hrun := by
    obtain ⟨hc', hl⟩ := Moves.skip c hc a c' hrun
    exact ⟨⟨a, rfl⟩, hc', hl⟩
  along r c d hr h a c' hrun := by
    cases hrun
    obtain ⟨t, r, rfl⟩ := List.exists_cons_of_ne_nil hr
    have hspan : c.peek.span = d.peek.span := by rw [h.peek.1, h.peek.2]
    by_cases ht : t.kind = .eof
    · have hc : c.next = c := if_pos (TokenKind.isEof_iff.mpr (h.kind.1.trans ht))
      have hd : d.next = d := if_pos (TokenKind.isEof_iff.mpr (h.kind.2.trans ht))
      exact .inr ⟨_, d, t :: r, hspan, by rw [skip_run, hd], hr, by rw [hc]; exact h⟩
    · have hnext := h.next ht
      cases r with
      | nil => exact .inl (by rw [hnext.front]; exact Nat.le_refl 1)
      | cons u r => exact .inr ⟨_, d.next, u :: r, hspan, rfl, List.cons_ne_nil u r, hnext⟩

theorem openBlock {p : TokenKind → Bool} :
    Framed e v (· = ·) (openBlock p) (openBlock p) where
  kept c hc a c' hrun := by
    obtain ⟨hc', hl⟩ := moves_openBlock p c hc a c' hrun
    exact ⟨⟨a, rfl⟩, hc', hl⟩
  along r c d hr h a c' hrun := by
    obtain ⟨t, r, rfl⟩ := List.exists_cons_of_ne_nil hr
    obtain ⟨hc, hd⟩ := h.atNewline
    have hcblock : c.atBlock p = false := by simp [Cursor.atBlock, hc]
    have hdblock : d.atBlock p = false := by simp [Cursor.atBlock, hd]
    have hcrun : Parse.openBlock p c = .ok false c := if_neg (by simp [hcblock])
    have hdrun : Parse.openBlock p d = .ok false d := if_neg (by simp [hdblock])
    rw [hcrun] at hrun
    cases hrun
    exact .inr ⟨_, d, t :: r, rfl, hdrun, hr, h⟩

include he hv in
/-- A loop whose bound is the number of the tokens ahead. -/
theorem bounded {x : Nat → Parse α} {y : Nat → Parse β}
    (hx : ∀ n m c, Cursor.Ended c → c.rest.length < n → n ≤ m → x n c = x m c)
    (h : ∀ n, Framed e v R (x n) (y n)) :
    Framed e v R (fun c => x (c.rest.length + 1) c) (fun c => y (c.rest.length + 1) c) where
  kept c hc a c' hrun := (h _).kept c hc a c' hrun
  along r c d hr hcd a c' hrun := by
    have hlonger : c.rest.length + 1 ≤ d.rest.length + 1 :=
      Nat.succ_le_succ (hcd.length_le hv)
    have hrun : x (c.rest.length + 1) c = .ok a c' := hrun
    rw [hx _ _ c (hcd.ended he) (Nat.lt_succ_self _) hlonger] at hrun
    exact (h _).along r c d hr hcd a c' hrun

end Framed

/-- The runs of one grammar over the same tokens with different ones after them. -/
def framed (o : ParseOptions) {e : Token} {v : List Token} (he : e.kind = .eof) (hv : Follow v) :
    Coupling o o where
  left := id
  right := id
  holes := (· = ·)
  budgets := (· = ·)
  agree := Framed e v
  resolve := .inl rfl
  merge := Coupling.merge_id
  succ := Coupling.succ_eq
  ret := Framed.pure
  bind := Framed.bind he
  peek := .test (fun c => ⟨_, .refl fun _ _ => rfl⟩) fun t r c d h => by
    rw [h.peek.1, h.peek.2]
    exact .refl fun _ _ => rfl
  look hp := .test (fun c => ⟨_, rfl⟩) fun t r c d h => Cursor.Beside.look he hv h hp
  skip := .skip
  openBlock _ := .openBlock
  fail _ := .fail
  deep hb hy := by
    rw [hy hb.symm]
    exact .fail
  bounded := Framed.bounded he hv

section

variable (o : ParseOptions) {e : Token} {v : List Token} (he : e.kind = .eof) (hv : Follow v)

/-- An interpolation has tokens of its own, so its run is one and the same. -/
theorem framed_hole (p : Primary) (b : Nat) (ts : List Token) (s : Span) :
    Framed e v ((framed o he hv).same Expr.relocate) (hole o p b ts s) (hole o p b ts s) where
  kept c hc a c' hrun := by
    obtain ⟨hc', hl⟩ := moves_hole b ts s c hc a c' hrun
    exact ⟨⟨a, rfl⟩, hc', hl⟩
  along r c d hr h a c' hrun := by
    unfold hole at hrun ⊢
    cases hinner : interpolation o p b ts with
    | ok value =>
      rw [hinner] at hrun
      cases hrun
      exact .inr ⟨a, d, r, rfl, rfl, hr, h⟩
    | error failure =>
      rw [hinner] at hrun
      cases hmode : o.mode with
      | strict =>
        rw [hmode] at hrun
        cases hrun
      | bestEffort =>
        rw [hmode] at hrun
        cases hrun
        exact .inr ⟨_, d.record failure, r, rfl, rfl, hr,
          ⟨⟨h.front, h.back, h.free, h.apart⟩, h.previous⟩⟩

theorem framed_primary (levels : Nat) :
    ∀ b, Framed e v ((framed o he hv).same Expr.relocate) (primary o levels b)
      (primary o levels b) := by
  induction levels with
  | zero => exact fun b => .fail
  | succ levels ih =>
    intro b
    cases b with
    | zero => exact .fail
    | succ b =>
      refine Coupling.primaryInside (C := framed o he hv) (moves_primary o levels)
        (fun {b _} h => by cases h; exact ih b) rfl fun {ts us s s'} h hs => ?_
      obtain rfl : ts = us := h
      obtain rfl : s = s' := hs
      exact framed_hole o he hv _ b ts s

end

end Parse

end PipeLang
