import PipeLang.Proofs.Parse.CoupledProgram
import PipeLang.Proofs.Parse.FormedProgram
import PipeLang.Proofs.Scan.Formed
import PipeLang.Proofs.Tree.Unmarked

/-! Strict and best-effort runs. Up to the first error they are the same run; from there on the best-effort
run goes ahead alone, with that error on record. What a failed interpolation has recorded by itself is
dropped, though, so the first error is on record for sure only where no interpolation holds another. -/

namespace PipeLang

/-- No interpolation in these tokens holds another one. -/
def Flat (tokens : List Token) : Prop :=
  ∀ t ∈ tokens, ∀ ts ∈ t.kind.interpolations, ∀ u ∈ ts, u.kind.interpolations.isEmpty = true

instance (tokens : List Token) : Decidable (Flat tokens) := by
  unfold Flat
  infer_instance

namespace Parse

/-- What interpolations there may be in the tokens of a run. -/
inductive Interpolations
  | absent | flat | any

namespace Interpolations

/-- The tokens that an interpolation may hold. -/
def Holds : Interpolations → List Token → Prop
  | absent, _ => False
  | flat, ts => ∀ t ∈ ts, t.kind.interpolations.isEmpty = true
  | any, _ => True

/-- What interpolations there may be in the interpolations. -/
def inner : Interpolations → Interpolations
  | absent | flat => absent
  | any => any

def Fits (h : Interpolations) (t : Token) : Prop := ∀ ts ∈ t.kind.interpolations, h.Holds ts

/-- What a run that went on after `e` has on record, `errors` being the record before. -/
def Recorded : Interpolations → Diagnostic → List Diagnostic → List Diagnostic → Prop
  | absent, _, _, _ => False
  | flat, e, errors, record => e :: errors <:+ record
  | any, _, _, _ => True

variable {h : Interpolations} {e e' : Diagnostic} {errors record record' : List Diagnostic}

theorem Recorded.trans (hr : h.Recorded e errors record) (hr' : h.Recorded e' record record') :
    h.Recorded e errors record' := by
  cases h with
  | absent => exact hr
  | flat => exact List.IsSuffix.trans hr ((List.suffix_cons e' record).trans hr')
  | any => trivial

theorem Recorded.cons (hr : h.Recorded e errors record) (d : Diagnostic) :
    h.Recorded e errors (d :: record) := by
  cases h with
  | absent => exact hr
  | flat => exact List.IsSuffix.trans hr (List.suffix_cons d record)
  | any => trivial

theorem Holds.recorded {ts : List Token} (hts : h.Holds ts) (e : Diagnostic)
    (errors : List Diagnostic) : h.Recorded e errors (e :: errors) := by
  cases h with
  | absent => exact hts
  | flat => exact List.suffix_refl _
  | any => trivial

/-- A run that went on inside an interpolation, whatever becomes of its record. -/
theorem Recorded.of_inner (hr : h.inner.Recorded e errors record)
    (errors' record' : List Diagnostic) : h.Recorded e errors' record' := by
  cases h with
  | absent | flat => exact hr.elim
  | any => trivial

theorem Holds.fits {ts : List Token} (hts : h.Holds ts) : ∀ t ∈ ts, h.inner.Fits t := by
  intro t ht us hus
  cases h with
  | absent => exact hts
  | flat =>
    rw [List.isEmpty_iff.mp (hts t ht)] at hus
    cases hus
  | any => trivial

end Interpolations

/-- Every token of the text has a property, those behind the cursor and those ahead of it. -/
def Throughout (P : Token → Prop) (c : Cursor) : Prop := ∀ t ∈ c.before.reverse ++ c.rest, P t

section

variable {P : Token → Prop} {c : Cursor}

theorem Throughout.peek (h : Throughout P c) (hlast : P .last) : P c.peek := by
  unfold Cursor.peek
  cases hr : c.rest with
  | cons t ts => exact h t (List.mem_append_right _ (hr ▸ List.mem_cons_self))
  | nil =>
    cases hb : c.before with
    | nil => exact hlast
    | cons t ts =>
      exact h t (List.mem_append_left _ (List.mem_reverse.mpr (hb ▸ List.mem_cons_self)))

theorem Throughout.forward (h : Throughout P c) : Throughout P c.forward := by
  unfold Throughout
  rw [Cursor.forward_tokens]
  exact h

theorem Throughout.next (h : Throughout P c) : Throughout P c.next := by
  unfold Throughout
  rw [Cursor.next_tokens]
  exact h

theorem Throughout.settled (h : Throughout P c) : Throughout P (settled c) := by
  unfold Throughout Parse.settled
  rw [Cursor.skipWhile_tokens, Cursor.skipWhile_tokens]
  exact h

theorem seekLine_tokens (level : Int) (before rest : List Token) :
    (seekLine level before rest).1.reverse ++ (seekLine level before rest).2 =
      before.reverse ++ rest := by
  induction rest generalizing level before with
  | nil => rfl
  | cons t rest ih =>
    unfold seekLine
    dsimp only
    split
    · rfl
    · split
      · simp
      · rw [ih]
        simp

theorem Throughout.synchronize (h : Throughout P c) : Throughout P (synchronize c) := by
  unfold Throughout Parse.synchronize
  dsimp only
  rw [seekLine_tokens]
  exact h

end

variable {α β : Type} {R : α → β → Prop} {h : Interpolations}

/-- A strict and a best-effort run that started with the same record. They have the same result, or the
strict one has failed and the other one has gone on. -/
inductive InModes (h : Interpolations) (errors : List Diagnostic) (R : α → β → Prop) :
    EStateM.Result Diagnostic Cursor α → EStateM.Result Diagnostic Cursor β → Prop
  | ok {a : α} {b : β} {c : Cursor} (value : R a b) (fits : Throughout h.Fits c)
    (quiet : c.errors = errors) : InModes h errors R (.ok a c) (.ok b c)
  | error {e : Diagnostic} {c : Cursor} (fits : Throughout h.Fits c) (quiet : c.errors = errors) :
    InModes h errors R (.error e c) (.error e c)
  | ahead {e : Diagnostic} {a : α} {b : β} {c d : Cursor} (recorded : h.Recorded e errors d.errors)
    (quiet : c.errors = errors) (value : R a b) (fits : Throughout h.Fits d) :
    InModes h errors R (.error e c) (.ok b d)
  | late {e e' : Diagnostic} {c d : Cursor} (recorded : h.Recorded e errors d.errors)
    (quiet : c.errors = errors) (fits : Throughout h.Fits d) :
    InModes h errors R (.error e c) (.error e' d)

def BothModes (h : Interpolations) (R : α → β → Prop) (x : Parse α) (y : Parse β) : Prop :=
  ∀ c, Throughout h.Fits c → InModes h c.errors R (x c) (y c)

theorem BothModes.bind {γ δ : Type} {S : γ → δ → Prop} {x : Parse α} {y : Parse β}
    {f : α → Parse γ} {g : β → Parse δ} (hx : BothModes h R x y)
    (hf : ∀ a b, R a b → BothModes h S (f a) (g b)) : BothModes h S (x >>= f) (y >>= g) := by
  intro c hc
  have hout := hx c hc
  generalize hxc : x c = r at hout
  generalize hyc : y c = r' at hout
  cases hout with
  | ok value fits quiet =>
    rw [bind_of_ok hxc, bind_of_ok hyc, ← quiet]
    exact hf _ _ value _ fits
  | error fits quiet =>
    rw [bind_of_error hxc, bind_of_error hyc]
    exact .error fits quiet
  | late recorded quiet fits =>
    rw [bind_of_error hxc, bind_of_error hyc]
    exact .late recorded quiet fits
  | @ahead e a b c1 d recorded quiet value fits =>
    rw [bind_of_error hxc, bind_of_ok hyc]
    have hrest := hf a b value d fits
    generalize f a d = r at hrest
    generalize g b d = r' at hrest ⊢
    cases hrest with
    | ok value fits quiet' => exact .ahead (quiet' ▸ recorded) quiet value fits
    | error fits quiet' => exact .late (quiet' ▸ recorded) quiet fits
    | ahead recorded' _ value fits => exact .ahead (recorded.trans recorded') quiet value fits
    | late recorded' _ fits => exact .late (recorded.trans recorded') quiet fits

theorem fits_last (h : Interpolations) : h.Fits .last := by
  intro ts hts
  cases hts

/-- The strict and the best-effort run of one grammar. -/
def bothModes (h : Interpolations) (o : ParseOptions) :
    Coupling { o with mode := .strict } { o with mode := .bestEffort } where
  left := id
  right := id
  holes ts us := ts = us ∧ h.Holds ts
  budgets := (· = ·)
  agree := BothModes h
  resolve := .inl rfl
  merge := Coupling.merge_id
  succ := Coupling.succ_eq
  ret hab := fun _ hc => .ok hab hc rfl
  bind := BothModes.bind
  peek := fun c hc => .ok (.refl fun ts hts => ⟨rfl, hc.peek (fits_last h) ts hts⟩) hc rfl
  look _ := fun _ hc => .ok rfl hc rfl
  skip := fun c hc => .ok rfl hc.next c.next_errors
  openBlock {p} _ := by
    intro c hc
    unfold openBlock
    split
    · exact .ok rfl hc.forward.forward (by rw [Cursor.forward_errors, Cursor.forward_errors])
    · exact .ok rfl hc rfl
  fail {_ _ _ d d'} hd := by
    intro c hc
    have heq : d c = d' c := (hd c c (.refl fun ts hts =>
      ⟨rfl, hc.peek (fits_last h) ts hts⟩)).eq_of_id fun _ _ h => h.1
    show InModes h c.errors _ (.error (d c) c) (.error (d' c) c)
    rw [heq]
    exact .error hc rfl
  deep hb hy := by
    intro c hc
    rw [hy hb.symm]
    exact .error hc rfl
  bounded _ hx := fun c hc => hx _ c hc

section

variable (o : ParseOptions)

theorem bothModes_hole (h : Interpolations) {p p' : Primary} (hm : ∀ b, Moves (fun _ => 1) (p b))
    (hp : ∀ b, BothModes h.inner ((bothModes h.inner o).same Expr.relocate) (p b) (p' b)) (b : Nat)
    {ts : List Token} {s : Span} (hts : h.Holds ts) :
    BothModes h ((bothModes h o).same Expr.relocate) (hole { o with mode := .strict } p b ts s)
      (hole { o with mode := .bestEffort } p' b ts s) := by
  have hinner := Coupling.expression (C := bothModes h.inner o) hm
    (fun {b _} h => by cases h; exact hp b) (rfl : b = b) (.ofTokens ts) hts.fits
  intro c hc
  unfold hole interpolation
  generalize expression { o with mode := .strict } p b (.ofTokens ts) = r at hinner ⊢
  generalize expression { o with mode := .bestEffort } p' b (.ofTokens ts) = r' at hinner ⊢
  have marked : ∀ e d, h.Recorded e c.errors (d :: c.errors) →
      InModes h c.errors ((bothModes h o).same Expr.relocate) (.error e c)
        (.ok (.error s) (c.record d)) :=
    fun e d hr => .ahead (a := Expr.error s) (b := Expr.error s) hr rfl rfl hc
  cases hinner with
  | @ok e e' c1 value fits quiet =>
    dsimp only
    cases c1.atEnd with
    | true => exact .ok value hc rfl
    | false => exact marked _ _ (hts.recorded _ _)
  | error fits quiet => exact marked _ _ (hts.recorded _ _)
  | @ahead e a b c1 d recorded quiet value fits =>
    dsimp only
    cases d.atEnd with
    | true => exact .ahead (recorded.of_inner _ _) rfl value hc
    | false => exact marked _ _ (recorded.of_inner _ _)
  | late recorded quiet fits => exact marked _ _ (recorded.of_inner _ _)

theorem bothModes_primary (levels : Nat) : ∀ (h : Interpolations) (b : Nat),
    BothModes h ((bothModes h o).same Expr.relocate) (primary { o with mode := .strict } levels b)
      (primary { o with mode := .bestEffort } levels b) := by
  induction levels with
  | zero => exact fun h b => (bothModes h o).deep (b := 0) rfl fun _ => rfl
  | succ levels ih =>
    intro h b
    cases b with
    | zero => exact (bothModes h o).deep (b := 0) rfl fun _ => rfl
    | succ b =>
      refine Coupling.primaryInside (C := bothModes h o) (moves_primary _ levels)
        (fun {b _} hb => by cases hb; exact ih h b) rfl fun hts hs => ?_
      obtain ⟨rfl, hts⟩ := hts
      obtain rfl := hs
      exact bothModes_hole o h (moves_primary _ levels) (ih h.inner) b hts

theorem bothModes_statementLine (h : Interpolations) :
    BothModes h ((bothModes h o).same Statement.relocate)
      (statementLine { o with mode := .strict }) (statementLine { o with mode := .bestEffort }) :=
  Coupling.statementLine (C := bothModes h o)
    (fun {b _} hb => by cases hb; exact bothModes_primary o _ h b) rfl

/-! ## Programs -/

/-- What is on record stays there. -/
theorem recorded_statementsUpTo {h : Interpolations} {e : Diagnostic} {errors : List Diagnostic}
    (n : Nat) : ∀ c, Throughout h.Fits c → h.Recorded e errors c.errors →
      h.Recorded e errors (statementsUpTo { o with mode := .bestEffort } n c).2.errors := by
  induction n with
  | zero => exact fun _ _ hr => hr
  | succ n ih =>
    intro c hc hr
    have hsettled := hc.settled
    have hrecord : h.Recorded e errors (settled c).errors := hr
    have hline := bothModes_statementLine o h (settled c) hsettled
    unfold statementsUpTo
    dsimp only
    cases (settled c).atEnd with
    | true => exact hrecord
    | false =>
      simp only [Bool.false_eq_true, if_false]
      generalize statementLine { o with mode := .strict } (settled c) = r at hline
      generalize statementLine { o with mode := .bestEffort } (settled c) = r' at hline ⊢
      cases hline with
      | @ok _ _ c1 value fits quiet => exact ih c1 fits (quiet ▸ hrecord)
      | error fits quiet =>
        exact ih _ (Throughout.synchronize fits) ((quiet ▸ hrecord).cons _)
      | ahead recorded quiet value fits => exact ih _ fits (hrecord.trans recorded)
      | late recorded quiet fits =>
        exact ih _ (Throughout.synchronize fits) ((hrecord.trans recorded).cons _)

/-- Both runs read the same statements without an error, or the strict one has failed. -/
theorem statementsUpTo_inModes {h : Interpolations} (hsome : ∀ e, h.Recorded e [] [e]) (n : Nat) :
    ∀ c, Throughout h.Fits c → c.errors = [] →
    (statementsUpTo { o with mode := .bestEffort } n c =
        statementsUpTo { o with mode := .strict } n c ∧
      (statementsUpTo { o with mode := .strict } n c).2.errors = []) ∨
      ∃ e, (statementsUpTo { o with mode := .strict } n c).2.errors = [e] ∧
        h.Recorded e [] (statementsUpTo { o with mode := .bestEffort } n c).2.errors := by
  induction n with
  | zero => exact fun _ _ he => .inl ⟨rfl, he⟩
  | succ n ih =>
    intro c hc he
    have hsettled : (settled c).errors = [] := he
    have hline := bothModes_statementLine o h (settled c) hc.settled
    rw [hsettled] at hline
    unfold statementsUpTo
    dsimp only
    cases (settled c).atEnd with
    | true => exact .inl ⟨rfl, hsettled⟩
    | false =>
      simp only [Bool.false_eq_true, if_false]
      generalize statementLine { o with mode := .strict } (settled c) = r at hline ⊢
      generalize statementLine { o with mode := .bestEffort } (settled c) = r' at hline ⊢
      cases hline with
      | @ok s s' c1 value fits quiet =>
        have hs : s = s' := by
          rw [← s.relocate_id, ← s'.relocate_id]
          exact value
        rcases ih c1 fits quiet with ⟨hsame, hnone⟩ | hfailed
        · refine .inl ⟨?_, hnone⟩
          dsimp only
          rw [hsame, hs]
        · exact .inr hfailed
      | @error e c1 fits quiet =>
        refine .inr ⟨e, congrArg (e :: ·) quiet, ?_⟩
        refine recorded_statementsUpTo o n _ (Throughout.synchronize fits) ?_
        show h.Recorded e [] (e :: c1.errors)
        rw [quiet]
        exact hsome e
      | ahead recorded quiet value fits =>
        exact .inr ⟨_, congrArg (_ :: ·) quiet, recorded_statementsUpTo o n _ fits recorded⟩
      | late recorded quiet fits =>
        exact .inr ⟨_, congrArg (_ :: ·) quiet,
          recorded_statementsUpTo o n _ (Throughout.synchronize fits) (recorded.cons _)⟩

end

end Parse

namespace Parse

/-- Both modes on a whole text, `h` saying what interpolations it has. -/
theorem run_inModes (o : ParseOptions) {h : Interpolations} (hsome : ∀ e, h.Recorded e [] [e])
    {tokens : List Token} (hfits : ∀ t ∈ tokens, h.Fits t) :
    (run { o with mode := .bestEffort } tokens = run { o with mode := .strict } tokens ∧
      (run { o with mode := .strict } tokens).2 = []) ∨
      ∃ e errors, (run { o with mode := .strict } tokens).2 = [e] ∧
        h.Recorded e [] errors ∧ (run { o with mode := .bestEffort } tokens).2 = errors.reverse := by
  rcases statementsUpTo_inModes o hsome (tokens.length + 1) (.ofTokens tokens) hfits rfl with
    ⟨hsame, hnone⟩ | ⟨e, hfailed, hrecorded⟩
  · unfold run
    rw [hsame]
    exact .inl ⟨rfl, congrArg List.reverse hnone⟩
  · exact .inr ⟨e, _, congrArg List.reverse hfailed, hrecorded, rfl⟩

theorem unmarked_run {o : ParseOptions} (hmode : o.mode = .strict) {n : Nat} {tokens : List Token}
    (ht : ∀ t ∈ tokens, t.Formed n) : (run o tokens).1.Unmarked := by
  have hformed := formed_statementsUpTo hmode (tokens.length + 1) (.ofTokens tokens)
    ⟨fun t ht => absurd ht List.not_mem_nil, ht⟩
  exact Program.Formed.unmarked (n := n) fun s hs => hformed s (run_statements o tokens ▸ hs)

end Parse

/-- What strict and best-effort parsing of a text have to do with each other. A program that strict
parsing gives is what best-effort parsing gives, without errors and without markers. And if strict parsing
fails and no interpolation holds another, its first error is the first one of best-effort parsing. -/
theorem parseBestEffort_parse (o : ParseOptions) {source : String} {tokens : List Token}
    (hlex : Scan.lex source = .ok tokens) :
    (∀ p, parse { o with mode := .strict } tokens = .ok p →
      parseBestEffort o tokens = (p, []) ∧ p.Unmarked) ∧
      (Flat tokens → ∀ errors, parse { o with mode := .strict } tokens = .error errors →
        ∃ e rest rest', errors = e :: rest ∧ (parseBestEffort o tokens).2 = e :: rest') := by
  have hunmarked := Parse.unmarked_run (o := { o with mode := .strict }) rfl
    (Scan.formed_of_lex hlex)
  constructor
  · intro p hp
    obtain ⟨hquiet, hkeys, rfl⟩ := parse_eq_ok.mp hp
    rcases Parse.run_inModes o (h := .any) (fun _ => trivial)
      (fun t (_ : t ∈ tokens) _ _ => trivial) with ⟨hsame, hnone⟩ | ⟨e, errors, hfailed, _, _⟩
    · refine ⟨?_, hunmarked.desugar _⟩
      unfold parseBestEffort
      dsimp only
      rw [hsame, hnone, hkeys]
      rfl
    · rw [hfailed] at hquiet
      cases hquiet
  · intro hflat errors hp
    obtain ⟨hne, herrors⟩ := errors_of_parse hp
    rcases Parse.run_inModes o (h := .flat) (fun _ => List.suffix_refl _)
      hflat with
      ⟨hsame, hnone⟩ | ⟨e, record, hfailed, hrecorded, hbest⟩
    · rw [hnone] at herrors
      obtain rfl := (herrors.resolve_left hne).2
      unfold parseBestEffort
      dsimp only
      rw [hsame, hnone]
      obtain ⟨e, rest, hcons⟩ := List.exists_cons_of_ne_nil hne
      exact ⟨e, rest, rest, hcons, hcons⟩
    · rw [hfailed] at herrors
      obtain rfl := herrors.resolve_right fun h => by cases h.1
      obtain ⟨older, hold⟩ := hrecorded
      unfold parseBestEffort
      dsimp only
      rw [hbest, ← hold, List.reverse_append]
      exact ⟨e, [], _, rfl, rfl⟩

/-- An interpolation that fails to be read, and a statement that cannot be read after it. -/
theorem parseBestEffort_parse_twice : ∃ tokens errors,
    Scan.lex "x = \"\x7b1 +\x7d\"\ny = *" = .ok tokens ∧ Flat tokens ∧
      parse {} tokens = .error errors ∧
      ∃ e rest rest', errors = e :: rest ∧ (parseBestEffort {} tokens).2 = e :: rest' := by
  have hread : (Scan.lex "x = \"\x7b1 +\x7d\"\ny = *").isOk = true := by decide +kernel
  have hflat : Flat ((Scan.lex "x = \"\x7b1 +\x7d\"\ny = *").toOption.getD []) := by decide +kernel
  have hfail : (parse {} ((Scan.lex "x = \"\x7b1 +\x7d\"\ny = *").toOption.getD [])).isOk = false := by
    decide +kernel
  cases hlex : Scan.lex "x = \"\x7b1 +\x7d\"\ny = *" with
  | error errors =>
    rw [hlex] at hread
    cases hread
  | ok tokens =>
    rw [hlex] at hflat hfail
    cases hparse : parse {} tokens with
    | ok p =>
      rw [show (Except.ok tokens).toOption.getD [] = tokens from rfl, hparse] at hfail
      cases hfail
    | error errors =>
      exact ⟨tokens, errors, rfl, hflat, hparse,
        (parseBestEffort_parse {} hlex).2 hflat errors hparse⟩

/-- The error of an interpolation in an interpolation is dropped: best-effort parsing reports nothing
where strict parsing fails. -/
theorem parseBestEffort_drops_nested :
    (parseBestEffort {} ((Scan.lex "x = \"\x7b\"\x7b1 +\x7d\"\x7d\"").toOption.getD [])).2.isEmpty = true ∧
      (parse {} ((Scan.lex "x = \"\x7b\"\x7b1 +\x7d\"\x7d\"").toOption.getD [])).isOk = false := by
  decide +kernel

end PipeLang
