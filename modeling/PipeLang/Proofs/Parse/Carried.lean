import PipeLang.Proofs.Parse.BalancedExpr
import PipeLang.Proofs.Parse.Framed

/-! Stages and seeds with different tokens after them. Outside brackets, where no construct stands, a rule
may read on to the end of its tokens: it stops alike at the end of the text, at a pipe and at the end of a
line. A bracketed form is over before that, and reads what it would read anywhere. -/

namespace PipeLang

/-- The keyword of a construct. -/
def TokenKind.isConstruct : TokenKind → Bool
  | keyword k => k = .let_ || k = .if_ || k = .match_ || k = .try_
  | _ => false

/-- Constructs stand in brackets alone. -/
def ConstructsEnclosed (ts : List Token) : Prop :=
  ∀ before t after, ts = before ++ t :: after → openBrackets [] before = some [] →
    t.kind.isConstruct = false

theorem constructsEnclosed_iff {ts : List Token} : ConstructsEnclosed ts ↔
    ∀ (i : Nat) (h : i < ts.length), openBrackets [] (ts.take i) = some [] →
      ts[i].kind.isConstruct = false := by
  constructor
  · intro h i hi hopen
    refine h (ts.take i) ts[i] (ts.drop (i + 1)) ?_ hopen
    rw [List.cons_getElem_drop_succ, List.take_append_drop]
  · rintro h before t after rfl hopen
    have := h before.length (by simp) (by simpa using hopen)
    simpa using this

instance (ts : List Token) : Decidable (ConstructsEnclosed ts) :=
  decidable_of_iff _ constructsEnclosed_iff.symm

namespace Cursor

variable {e : Token} {v ts r : List Token} {c d : Cursor}

/-- The same tokens come next at both places, and the first one is outside the brackets of `ts`. -/
structure Outside (e : Token) (v ts r : List Token) (c d : Cursor) : Prop extends
    Beside e v r c d where
  opens : c.Opens (ts ++ [e]) []

section

variable (he : e.kind = .eof) (hv : StageFollow v)

namespace Ahead

variable (h : c.Ahead e v r d)

include he hv h

/-- A question that the kind of the next token answers, and every end of a stage alike. -/
theorem kind_eq {α : Type} {p : TokenKind → α} (hp : ∀ k, k.isStageEnd = true → p k = p .eof) :
    p c.kind = p d.kind := by
  cases r with
  | nil =>
    obtain ⟨hc, hd⟩ := h.kind_nil he hv
    rw [hc, hp _ hd]
  | cons t r => rw [h.kind.1, h.kind.2]

theorem operator?_eq (least : Nat) : c.operator? least = d.operator? least :=
  kind_eq he hv h
    (p := fun k : TokenKind => k.binary?.filter fun op : Operator =>
      decide (least ≤ op.precedence)) fun k hk => by
    cases k with
    | keyword k => cases k <;> first | rfl | cases hk
    | _ => first | rfl | cases hk

theorem atConstruct_eq : c.atConstruct = d.atConstruct :=
  kind_eq he hv h (p := TokenKind.isConstruct) fun k hk => by
    cases k with
    | keyword k => cases k <;> first | rfl | cases hk
    | _ => rfl

end Ahead

namespace Beside

variable (h : c.Beside e v r d)

include he hv h

omit hv in
theorem atAccess_eq (hv : Follow v) : c.atAccess = d.atAccess := by
  cases r with
  | nil =>
    obtain ⟨u, us, hu, hdot, -⟩ := hv.first
    have hc : c.atPunctuation .dot = false := by
      rw [Cursor.atPunctuation, Parse.kind_of_rest h.front, he]
      rfl
    have hd : d.atPunctuation .dot = false := by
      rw [Cursor.atPunctuation, Parse.kind_of_rest (h.back.trans hu), hdot]
    unfold Cursor.atAccess
    rw [hc, hd]
    rfl
  | cons t r => exact atAccess he hv h

theorem atArgument_eq : c.atArgument = d.atArgument := by
  cases r with
  | nil =>
    obtain ⟨hc, hd⟩ := h.kind_nil he hv
    have hno : d.atArgument = false := by
      unfold Cursor.atArgument
      cases hk : d.kind with
      | punctuation p => cases p <;> first | rfl | (rw [hk] at hd; cases hd)
      | keyword k => cases k <;> first | rfl | (rw [hk] at hd; cases hd)
      | _ => first | rfl | (rw [hk] at hd; cases hd)
    rw [hno]
    unfold Cursor.atArgument
    rw [hc]
  | cons t r => exact atArgument he hv.follow h

end Beside

end

end Cursor

namespace Parse

variable {α β σ : Type}

section

variable (e : Token) (v ts : List Token)

/-- From `c` and any place with the same tokens ahead of it the rule does the same. -/
def CarriedFrom (c : Cursor) (x : Parse α) : Prop :=
  ∀ r d, c.Outside e v ts r d → ∀ a c', x c = .ok a c' →
    ∃ d' r', x d = .ok a d' ∧ c'.Outside e v ts r' d'

def Carried (x : Parse α) : Prop := ∀ c, CarriedFrom e v ts c x

/-- The same without a look at the token before. -/
def LedFrom (c : Cursor) (x : Parse α) : Prop :=
  ∀ r d, c.Ahead e v r d → c.Opens (ts ++ [e]) [] → ∀ a c', x c = .ok a c' →
    ∃ d' r', x d = .ok a d' ∧ c'.Outside e v ts r' d'

/-- A bracketed form, which is over before the end of the text. -/
def EnclosedFrom (c : Cursor) (x : Parse α) : Prop :=
  ∀ r d, c.Ahead e v r d → ∀ a c', x c = .ok a c' → ∃ d' r', x d = .ok a d' ∧ c'.Beside e v r' d'

/-- What is left of a bracketed form: it does the same from both places, and has no success at the end
of the text. -/
structure SealedFrom (c : Cursor) (x : Parse α) : Prop where
  short : c.Ended → c.rest.length ≤ 1 → ∀ a c', x c ≠ .ok a c'
  along : ∀ r d, c.Beside e v r d → ∀ a c', x c = .ok a c' →
    ∃ d' r', x d = .ok a d' ∧ c'.Beside e v r' d'

end

variable {e : Token} {v ts : List Token} {c : Cursor}

namespace LedFrom

variable {x : Parse α} {f : α → Parse β}

theorem carried (h : LedFrom e v ts c x) : CarriedFrom e v ts c x :=
  fun r d hcd => h r d hcd.toAhead hcd.opens

theorem bind (hx : LedFrom e v ts c x) (hf : ∀ a, Carried e v ts (f a)) :
    LedFrom e v ts c (x >>= f) := by
  intro r d h hopens b c' hrun
  obtain ⟨a, c1, ha, hb⟩ := bind_eq_ok.mp hrun
  obtain ⟨d1, r1, hd1, h1⟩ := hx r d h hopens a c1 ha
  rw [bind_of_ok hd1]
  exact hf a c1 r1 d1 h1 b c' hb

theorem fail {d : Cursor → Diagnostic} : LedFrom e v ts c (Parse.fail d : Parse α) := by
  intro r d h _ b c' hrun
  cases hrun

theorem ite {p : Prop} [Decidable p] {x y : Parse α} (hx : p → LedFrom e v ts c x)
    (hy : ¬p → LedFrom e v ts c y) : LedFrom e v ts c (if p then x else y) := by
  by_cases h : p
  · rw [if_pos h]
    exact hx h
  · rw [if_neg h]
    exact hy h

/-- A question that has the same answer at both places. -/
theorem test_bind {p : Cursor → α} (hp : ∀ r d, c.Ahead e v r d → p c = p d)
    (h : LedFrom e v ts c (f (p c))) : LedFrom e v ts c (test p >>= f) := by
  intro r d hcd hopens b c' hrun
  rw [Parse.test_bind] at hrun ⊢
  rw [← hp r d hcd]
  exact h r d hcd hopens b c' hrun

theorem skip (he : e.kind = .eof) (hend : c.kind ≠ .eof) (hk : c.kind.isBracket = false) :
    LedFrom e v ts c Parse.skip := by
  intro r d h hopens s c' hrun
  cases hrun
  obtain ⟨t, r, rfl⟩ := h.exists_cons he hend
  refine ⟨d.next, r, ?_, h.next (by rw [← h.kind.1]; exact hend),
    hopens.next (bracketsAfter_of_not_bracket hk [])⟩
  rw [skip_run, h.peek.1, h.peek.2]

theorem skip_bind {f : Span → Parse β} (he : e.kind = .eof) (hend : c.kind ≠ .eof)
    (hk : c.kind.isBracket = false) (hf : ∀ s, Carried e v ts (f s)) :
    LedFrom e v ts c (Parse.skip >>= f) :=
  (skip he hend hk).bind hf

/-- A form that is over before the end marker, and closes its brackets. -/
theorem of_enclosed (hx : EnclosedFrom e v c x) (hb : BalancedFrom c x) : LedFrom e v ts c x := by
  intro r d h hopens a c' hrun
  obtain ⟨d', r', hd', h'⟩ := hx r d h a c' hrun
  exact ⟨d', r', hd', h', hb [] _ hopens a c' hrun⟩

end LedFrom

namespace CarriedFrom

variable {x : Parse α} {f : α → Parse β}

theorem bind (hx : CarriedFrom e v ts c x) (hf : ∀ a, Carried e v ts (f a)) :
    CarriedFrom e v ts c (x >>= f) := by
  intro r d h b c' hrun
  obtain ⟨a, c1, ha, hb⟩ := bind_eq_ok.mp hrun
  obtain ⟨d1, r1, hd1, h1⟩ := hx r d h a c1 ha
  rw [bind_of_ok hd1]
  exact hf a c1 r1 d1 h1 b c' hb

theorem pure (a : α) : CarriedFrom e v ts c (pure a : Parse α) := by
  intro r d h b c' hrun
  cases hrun
  exact ⟨d, r, rfl, h⟩

theorem fail {d : Cursor → Diagnostic} : CarriedFrom e v ts c (Parse.fail d : Parse α) := by
  intro r d h b c' hrun
  cases hrun

theorem ite {p : Prop} [Decidable p] {x y : Parse α} (hx : p → CarriedFrom e v ts c x)
    (hy : ¬p → CarriedFrom e v ts c y) : CarriedFrom e v ts c (if p then x else y) := by
  by_cases h : p
  · rw [if_pos h]
    exact hx h
  · rw [if_neg h]
    exact hy h

/-- A question that has the same answer at both places. -/
theorem test_bind {p : Cursor → α} (hp : ∀ r d, c.Beside e v r d → p c = p d)
    (h : CarriedFrom e v ts c (f (p c))) : CarriedFrom e v ts c (test p >>= f) := by
  intro r d hcd b c' hrun
  rw [Parse.test_bind] at hrun ⊢
  rw [← hp r d hcd.toBeside]
  exact h r d hcd b c' hrun

theorem skip_bind {f : Span → Parse β} (he : e.kind = .eof) (hend : c.kind ≠ .eof)
    (hk : c.kind.isBracket = false) (hf : ∀ s, Carried e v ts (f s)) :
    CarriedFrom e v ts c (Parse.skip >>= f) :=
  (LedFrom.skip_bind he hend hk hf).carried

end CarriedFrom

namespace Carried

variable {x : Parse α} {f : α → Parse β}

theorem bind (hx : Carried e v ts x) (hf : ∀ a, Carried e v ts (f a)) :
    Carried e v ts (x >>= f) :=
  fun c => (hx c).bind hf

theorem pure (a : α) : Carried e v ts (pure a : Parse α) := fun _ => .pure a

theorem fail {d : Cursor → Diagnostic} : Carried e v ts (Parse.fail d : Parse α) := fun _ => .fail

theorem test_bind {p : Cursor → α} (hp : ∀ r c d, c.Beside e v r d → p c = p d)
    (h : ∀ c, CarriedFrom e v ts c (f (p c))) : Carried e v ts (test p >>= f) :=
  fun c => .test_bind (fun r d hcd => hp r c d hcd) (h c)

theorem manyUpTo {ready : Cursor → Bool} {item : Parse α}
    (hready : ∀ r c d, c.Beside e v r d → ready c = ready d)
    (h : ∀ c, ready c = true → CarriedFrom e v ts c item) (n : Nat) :
    Carried e v ts (Parse.manyUpTo ready item n) := by
  induction n with
  | zero => exact .pure _
  | succ n ih =>
    refine test_bind hready fun c => ?_
    cases hc : ready c with
    | true => exact (h c hc).bind fun _ => ih.bind fun _ => .pure _
    | false => exact .pure _

theorem roundsUpTo {round : σ → Parse (Round σ)} (h : ∀ s, Carried e v ts (round s)) (n : Nat) :
    ∀ s, Carried e v ts (Parse.roundsUpTo round n s) := by
  induction n with
  | zero => exact fun s => .pure _
  | succ n ih =>
    intro s
    refine (h s).bind fun r => ?_
    cases r with
    | again s => exact ih s
    | done s => exact .pure s

section

variable (he : e.kind = .eof) (hv : Follow v)

include he hv

/-- A loop whose bound is the number of the tokens ahead. -/
theorem bounded {x : Nat → Parse α}
    (hx : ∀ n m c, Cursor.Ended c → c.rest.length < n → n ≤ m → x n c = x m c)
    (h : ∀ n, Carried e v ts (x n)) : Carried e v ts fun c => x (c.rest.length + 1) c := by
  intro c r d hcd a c' hrun
  have hlonger : c.rest.length + 1 ≤ d.rest.length + 1 := Nat.succ_le_succ (hcd.length_le hv)
  have hrun : x (c.rest.length + 1) c = .ok a c' := hrun
  rw [hx _ _ c (hcd.ended he) (Nat.lt_succ_self _) hlonger] at hrun
  exact h _ c r d hcd a c' hrun

theorem many {ready : Cursor → Bool} {item : Parse α} (hm : Moves (fun _ => 1) item)
    (hready : ∀ r c d, c.Beside e v r d → ready c = ready d)
    (h : ∀ c, ready c = true → CarriedFrom e v ts c item) :
    Carried e v ts (Parse.many ready item) :=
  bounded he hv (manyUpTo_eq hm) (manyUpTo hready h)

theorem rounds {round : σ → Parse (Round σ)} (hm : ∀ s, Moves Round.cost (round s))
    (h : ∀ s, Carried e v ts (round s)) (s : σ) : Carried e v ts (Parse.rounds round s) :=
  bounded he hv (x := fun n => Parse.roundsUpTo round n s)
    (fun n m c hc hn hm' => roundsUpTo_eq hm n m s c hc hn hm') fun n => roundsUpTo h n s

end

end Carried

/-! ## Bracketed forms -/

theorem kind_of_length_le {c : Cursor} (hc : c.Ended) (hl : c.rest.length ≤ 1) : c.kind = .eof := by
  obtain ⟨t, ht, hk⟩ := hc
  cases hr : c.rest with
  | nil =>
    rw [hr] at ht
    cases ht
  | cons u us =>
    rw [hr] at ht hl
    obtain rfl : us = [] := List.eq_nil_of_length_eq_zero (by simpa using hl)
    cases ht
    exact (kind_of_rest hr).trans hk

namespace SealedFrom

variable {x y : Parse α} {f : α → Parse β}

theorem never (h : ∀ c a c', x c ≠ .ok a c') : SealedFrom e v c x :=
  ⟨fun _ _ a c' => h c a c', fun _ _ _ a c' hrun => absurd hrun (h c a c')⟩

theorem fail {d : Cursor → Diagnostic} : SealedFrom e v c (Parse.fail d : Parse α) :=
  never fun _ _ _ hrun => by cases hrun

theorem map {f : α → β} (hx : SealedFrom e v c x) :
    SealedFrom e v c (x >>= fun a => pure (f a)) where
  short hc hl b c'' hrun := by
    obtain ⟨a, c', ha, _⟩ := bind_eq_ok.mp hrun
    exact hx.short hc hl a c' ha
  along r d h b c'' hrun := by
    obtain ⟨a, c', ha, hb⟩ := bind_eq_ok.mp hrun
    cases hb
    obtain ⟨d', r', hd', h'⟩ := hx.along r d h a c'' ha
    exact ⟨d', r', bind_of_ok hd', h'⟩

section

variable (he : e.kind = .eof)

include he

/-- A form from its opening bracket on. -/
theorem enclosed {f : Span → Parse β} (hk : c.kind ≠ .eof)
    (hf : ∀ opened, SealedFrom e v c.next (f opened)) : EnclosedFrom e v c (Parse.skip >>= f) := by
  intro r d h a c' hrun
  obtain ⟨t, r, rfl⟩ := h.exists_cons he hk
  rw [skip_bind] at hrun ⊢
  rw [h.peek.2, ← h.peek.1]
  exact (hf _).along r d.next (h.next (by rw [← h.kind.1]; exact hk)) a c' hrun

/-- Whatever is read on the way to the closing bracket is read alike. -/
theorem after (hx : Framed e v (· = ·) x x)
    (hf : c.Ended → ∀ a c', x c = .ok a c' → SealedFrom e v c' (f a)) :
    SealedFrom e v c (x >>= f) where
  short hc hl b c'' hrun := by
    obtain ⟨a, c1, ha, hb⟩ := bind_eq_ok.mp hrun
    obtain ⟨_, hc1, hl1⟩ := hx.kept c hc a c1 ha
    exact (hf hc a c1 ha).short hc1 (hl1.trans hl) b c'' hb
  along r d h b c'' hrun := by
    obtain ⟨a, c1, ha, hb⟩ := bind_eq_ok.mp hrun
    have hrest := hf (h.ended he) a c1 ha
    obtain ⟨_, hc1, hl⟩ := hx.kept c (h.ended he) a c1 ha
    have hlong : ¬c1.rest.length ≤ 1 := fun hl => hrest.short hc1 hl b c'' hb
    have hr : r ≠ [] := by
      rintro rfl
      rw [h.front] at hl
      exact hlong hl
    rcases hx.along r c d hr h a c1 ha with hend | ⟨_, d1, r1, rfl, hd1, _, h1⟩
    · exact absurd hend hlong
    · rw [bind_of_ok hd1]
      exact hrest.along r1 d1 h1 b c'' hb

theorem skip (hk : c.kind ≠ .eof) : SealedFrom e v c Parse.skip where
  short hc hl s c' hrun := hk (kind_of_length_le hc hl)
  along r d h s c' hrun := by
    cases hrun
    cases r with
    | nil => exact absurd (kind_of_length_le (h.ended he) (by rw [h.front]; exact Nat.le_refl 1)) hk
    | cons t r =>
      refine ⟨d.next, r, ?_, h.next (by rw [← h.kind.1]; exact hk)⟩
      rw [skip_run, h.peek.1, h.peek.2]

/-- A choice by the kind of the next token. -/
theorem choose {p : TokenKind → Bool} (hx : p c.kind = true → SealedFrom e v c x)
    (hy : SealedFrom e v c y) (hend : p .eof = false)
    (hstop : ∀ a c', c.kind = .eof → y c ≠ .ok a c') :
    SealedFrom e v c (do if ← test fun c => p c.kind then x else y) where
  short hc hl a c' hrun := by
    have hk := kind_of_length_le hc hl
    rw [Parse.test_bind, hk, hend] at hrun
    exact hstop a c' hk hrun
  along r d h a c' hrun := by
    rw [Parse.test_bind] at hrun ⊢
    cases r with
    | nil =>
      have hk := kind_of_length_le (h.ended he) (by rw [h.front]; exact Nat.le_refl 1)
      rw [hk, hend] at hrun
      exact absurd hrun (hstop a c' hk)
    | cons t r =>
      rw [show p d.kind = p c.kind by rw [h.kind.1, h.kind.2]]
      cases hp : p c.kind with
      | true =>
        rw [hp] at hrun
        exact (hx hp).along _ d h a c' hrun
      | false =>
        rw [hp] at hrun
        exact hy.along _ d h a c' hrun

theorem expectPunctuation (q : Punctuation) (place : Place) :
    SealedFrom e v c (expectPunctuation q place) := by
  refine choose he (p := TokenKind.isPunctuation q) (fun hk => skip he ?_) fail rfl ?_
  · rw [TokenKind.isPunctuation_iff.mp hk]
    exact nofun
  · intro a c' _ hrun
    cases hrun

end

end SealedFrom

section

variable {o : ParseOptions} (he : e.kind = .eof) (hv : Follow v)

/-- Only the same trees are related in framed runs. -/
theorem eq_of_framed {F : (Span → Span) → α → α} (hF : ∀ a, F id a = a) {a a' : α}
    (h : (framed o he hv).same F a a') : a = a' := by
  rw [← hF a, ← hF a']
  exact h

theorem eq_of_framed_list {F : (Span → Span) → α → α} (hF : ∀ a, F id a = a) {as as' : List α}
    (h : List.Forall₂ ((framed o he hv).same F) as as') : as = as' := by
  induction h with
  | nil => rfl
  | cons ha _ ih => rw [eq_of_framed he hv hF ha, ih]

variable (levels b : Nat)

include he hv

theorem framed_expression :
    Framed e v (· = ·) (expression o (primary o levels) b) (expression o (primary o levels) b) :=
  Coupling.mono (C := framed o he hv)
    (Coupling.expression (moves_primary o levels)
      (fun {b _} h => by cases h; exact framed_primary o he hv levels b) rfl)
    fun _ _ h => eq_of_framed he hv Expr.relocate_id h

theorem framed_stageArguments :
    Framed e v (· = ·) (stageArguments o (primary o levels) b)
      (stageArguments o (primary o levels) b) :=
  Coupling.mono (C := framed o he hv)
    (Coupling.stageArguments (moves_primary o levels)
      (fun {b _} h => by cases h; exact framed_primary o he hv levels b) rfl)
    fun _ _ h => eq_of_framed_list he hv Expr.relocate_id h

theorem framed_fields (opened : Span) :
    Framed e v (· = ·)
      (many (fun c => !c.atPunctuation .rbrace) (recordField o (primary o levels) b opened))
      (many (fun c => !c.atPunctuation .rbrace) (recordField o (primary o levels) b opened)) :=
  Coupling.mono (C := framed o he hv)
    (Coupling.many (Coupling.kind (p := fun k => !k.isPunctuation .rbrace) fun _ _ => rfl)
      (moves_recordField (moves_primary o levels) b opened)
      (Coupling.recordField (moves_primary o levels)
        (fun {b _} h => by cases h; exact framed_primary o he hv levels b) rfl rfl))
    fun _ _ h => eq_of_framed_list he hv (fun f => by
      obtain ⟨name, value⟩ := f
      exact congrArg (Binding.mk name) value.relocate_id) h

omit levels b in
theorem framed_params :
    Framed e v (· = ·) (many Cursor.atIdent (identifier .parameterList))
      (many Cursor.atIdent (identifier .parameterList)) :=
  Coupling.mono (C := framed {} he hv)
    (Coupling.many (Coupling.kind (p := TokenKind.isIdent) fun _ _ => rfl) (moves_identifier _)
      (Coupling.identifier _))
    fun _ _ h => eq_of_framed_list he hv (fun _ => rfl) h

theorem enclosed_record (hk : c.kind = .punctuation .lbrace) :
    EnclosedFrom e v c (record o (primary o levels) b) := by
  refine SealedFrom.enclosed he (by simp [hk]) fun opened => ?_
  refine .after he (framed_fields he hv levels b opened) fun hc1 fields c2 hfields => ?_
  refine .map (.skip he fun hend => ?_)
  have hrbrace := many_done (moves_recordField (moves_primary o levels) b opened) hc1 hfields
  rw [Cursor.atPunctuation, hend] at hrbrace
  cases hrbrace

theorem enclosed_function (hk : c.kind = .punctuation .lbracket) :
    EnclosedFrom e v c (function o (primary o levels) b) := by
  refine SealedFrom.enclosed he (by simp [hk]) fun opened => ?_
  refine .after he (framed_params he hv) fun _ params _ _ => ?_
  refine .after he (Coupling.expectPunctuation (C := framed {} he hv) _ _) fun _ _ _ _ => ?_
  refine .after he (framed_expression he hv levels b) fun _ value _ _ => ?_
  refine .after he (Coupling.stillOpen (C := framed {} he hv) _ rfl _) fun _ _ _ _ => ?_
  exact .map (.expectPunctuation he _ _)

theorem enclosed_list (hk : c.kind = .punctuation .lbracket) :
    EnclosedFrom e v c (list o (primary o levels) b) := by
  refine SealedFrom.enclosed he (by simp [hk]) fun opened => ?_
  refine .after he (Coupling.kind (C := framed {} he hv) (p := TokenKind.isPunctuation .arrow)
    fun _ _ => rfl) fun _ atArrow _ _ => ?_
  cases atArrow with
  | true => exact .fail
  | false =>
    refine .after he (framed_stageArguments he hv levels b) fun _ items _ _ => ?_
    -- the last way out is an error in any case
    have hstop : ∀ c (a : Expr) c', (do
        stillOpen .listLiteral opened listExpected
        noComma .listLiteral "[1 2 3]" listExpected
        unexpected (.within .listLiteral) listExpected : Parse Expr) c ≠ .ok a c' := by
      intro c a c' hrun
      obtain ⟨_, _, _, hrun⟩ := bind_eq_ok.mp hrun
      obtain ⟨_, _, _, hrun⟩ := bind_eq_ok.mp hrun
      cases hrun
    refine .choose he (p := TokenKind.isPunctuation .rbracket) (fun hk => .map (.skip he ?_))
      (.never hstop) rfl fun a c' _ => hstop _ a c'
    rw [TokenKind.isPunctuation_iff.mp hk]
    exact nofun

theorem enclosed_parenthesized (hk : c.kind = .punctuation .lparen) :
    EnclosedFrom e v c (parenthesized o (primary o levels) b) := by
  refine SealedFrom.enclosed he (by simp [hk]) fun opened => ?_
  refine .after he (framed_expression he hv levels b) fun _ _ _ _ => ?_
  refine .after he (Coupling.stillOpen (C := framed {} he hv) _ rfl _) fun _ _ _ _ => ?_
  exact .map (.expectPunctuation he _ _)

end

end Parse

end PipeLang
