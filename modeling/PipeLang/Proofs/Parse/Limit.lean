import PipeLang.Parse.Fragment
import PipeLang.Proofs.Parse.CoupledProgram
import PipeLang.Proofs.Tree.Nodes

/-! What the nesting limit does, and the levels that stages take when pipelines are rewired. A strict run
under a limit either ends with the report that the limit was reached, or is the run under any larger
limit, also where that one takes no levels for stages. -/

namespace PipeLang

namespace Parse

variable {α β : Type} {R : α → β → Prop}

/-- The result under the smaller limit is the one under the larger, or reports that the limit was
reached. No error was recorded on the way, as is so in strict runs. -/
inductive WithinLimit (errors : List Diagnostic) (R : α → β → Prop) :
    EStateM.Result Diagnostic Cursor α → EStateM.Result Diagnostic Cursor β → Prop
  | ok {a : α} {b : β} {c : Cursor} (value : R a b) (quiet : c.errors = errors) :
    WithinLimit errors R (.ok a c) (.ok b c)
  | error {e : Diagnostic} {c : Cursor} (quiet : c.errors = errors) :
    WithinLimit errors R (.error e c) (.error e c)
  | beyond {e : Diagnostic} {c : Cursor} {r : EStateM.Result Diagnostic Cursor β}
    (limit : e.failure = .limit) (quiet : c.errors = errors) : WithinLimit errors R (.error e c) r

def Limited (R : α → β → Prop) (x : Parse α) (y : Parse β) : Prop :=
  ∀ c, WithinLimit c.errors R (x c) (y c)

theorem Limited.bind {γ δ : Type} {S : γ → δ → Prop} {x : Parse α} {y : Parse β}
    {f : α → Parse γ} {g : β → Parse δ} (hx : Limited R x y)
    (hf : ∀ a b, R a b → Limited S (f a) (g b)) : Limited S (x >>= f) (y >>= g) := by
  intro c
  have hout := hx c
  generalize hxc : x c = r at hout
  generalize hyc : y c = r' at hout
  cases hout with
  | ok value quiet =>
    rw [bind_of_ok hxc, bind_of_ok hyc, ← quiet]
    exact hf _ _ value _
  | error quiet =>
    rw [bind_of_error hxc, bind_of_error hyc]
    exact .error quiet
  | beyond limit quiet =>
    rw [bind_of_error hxc]
    exact .beyond limit quiet

theorem limit_tooDeep (o : ParseOptions) (c : Cursor) {r : EStateM.Result Diagnostic Cursor β} :
    WithinLimit c.errors R (tooDeep o c) r :=
  .beyond rfl rfl

/-- Strict runs of the grammar under a limit and under a larger one. Stages may take levels in the first
run alone. -/
def limited {o o' : ParseOptions}
    (hresolve : o'.resolvePipelines = true → o.resolvePipelines = true) : Coupling o o' where
  left := id
  right := id
  holes := (· = ·)
  budgets := (· ≤ ·)
  agree := Limited
  resolve := by
    cases hoff : o'.resolvePipelines with
    | true => exact .inl (hresolve hoff)
    | false => exact .inr ⟨rfl, Nat.le_of_succ_le, fun c => limit_tooDeep o c⟩
  merge := Coupling.merge_id
  succ {b b'} h := ⟨b' - 1, by omega, by omega⟩
  ret h := fun _ => .ok h rfl
  bind := Limited.bind
  peek := fun c => .ok (Token.Alike.refl fun _ _ => rfl) rfl
  look _ := fun _ => .ok rfl rfl
  skip := fun c => .ok rfl c.next_errors
  openBlock {p} _ := by
    intro c
    unfold openBlock
    split
    · exact .ok rfl (by rw [Cursor.forward_errors, Cursor.forward_errors])
    · exact .ok rfl rfl
  fail {_ _ _ d d'} h := by
    intro c
    have heq : d c = d' c := (h c c (Token.Alike.refl fun _ _ => rfl)).eq_of_id fun _ _ h => h
    show WithinLimit c.errors _ (.error (d c) c) (.error (d' c) c)
    rw [heq]
    exact .error rfl
  deep _ _ := fun c => limit_tooDeep o c
  bounded _ h := fun c => h _ c

section

variable {o o' : ParseOptions}
  (hresolve : o'.resolvePipelines = true → o.resolvePipelines = true)
  (hmode : o.mode = .strict) (hmode' : o'.mode = .strict)

include hmode hmode'

theorem limited_hole {p p' : Primary} (hm : ∀ b, Moves (fun _ => 1) (p b))
    (hp : ∀ {b b' : Nat}, b ≤ b' → Limited ((limited hresolve).same Expr.relocate) (p b) (p' b'))
    {b b' : Nat} (hb : b ≤ b') (ts : List Token) {s s' : Span} :
    Limited ((limited hresolve).same Expr.relocate) (hole o p b ts s) (hole o' p' b' ts s') := by
  have hinner := Coupling.expression (C := limited hresolve) hm hp hb (.ofTokens ts)
  intro c
  unfold hole interpolation
  rw [hmode, hmode']
  generalize expression o p b (.ofTokens ts) = r at hinner ⊢
  generalize expression o' p' b' (.ofTokens ts) = r' at hinner ⊢
  cases hinner with
  | @ok e e' c1 value quiet =>
    dsimp only
    cases c1.atEnd with
    | true => exact .ok value rfl
    | false => exact .error rfl
  | error quiet => exact .error rfl
  | beyond limit quiet => exact .beyond limit rfl

theorem limited_primary (levels : Nat) : ∀ {levels' b b' : Nat}, levels ≤ levels' → b ≤ b' →
    Limited ((limited hresolve).same Expr.relocate) (primary o levels b)
      (primary o' levels' b') := by
  induction levels with
  | zero => exact fun _ _ => fun c => limit_tooDeep o c
  | succ levels ih =>
    intro levels' b b' hl hb
    cases b with
    | zero => exact fun c => limit_tooDeep o c
    | succ b =>
      obtain ⟨l', rfl⟩ : ∃ l', levels' = l' + 1 := ⟨levels' - 1, by omega⟩
      obtain ⟨d, rfl⟩ : ∃ d, b' = d + 1 := ⟨b' - 1, by omega⟩
      have hl : levels ≤ l' := Nat.le_of_succ_le_succ hl
      have hb : b ≤ d := Nat.le_of_succ_le_succ hb
      refine Coupling.primaryInside (C := limited hresolve) (moves_primary o levels)
        (fun h => ih hl h) hb fun h hs => ?_
      cases h
      exact limited_hole hresolve hmode hmode' (moves_primary o levels) (fun h => ih hl h) hb _

theorem limited_statementLine (hlimit : o.maxDepth ≤ o'.maxDepth) :
    Limited ((limited hresolve).same Statement.relocate) (statementLine o) (statementLine o') :=
  Coupling.statementLine (C := limited hresolve)
    (fun h => limited_primary hresolve hmode hmode' _ hlimit h) hlimit

include hresolve in
/-- Both runs end with the same statements at the same place, or the first one with the report that
the limit was reached. -/
theorem statementsUpTo_limited (hlimit : o.maxDepth ≤ o'.maxDepth) (n : Nat) :
    ∀ c : Cursor, c.errors = [] →
      (∃ e, e.failure = .limit ∧ (statementsUpTo o n c).2.errors = [e]) ∨
        statementsUpTo o' n c = statementsUpTo o n c := by
  induction n with
  | zero => exact fun _ _ => .inr rfl
  | succ n ih =>
    intro c hc
    have hsettled : (settled c).errors = [] := hc
    have hline := limited_statementLine hresolve hmode hmode' hlimit (settled c)
    rw [hsettled] at hline
    unfold statementsUpTo
    dsimp only
    cases (settled c).atEnd with
    | true => exact .inr rfl
    | false =>
      simp only [Bool.false_eq_true, if_false]
      generalize statementLine o (settled c) = r at hline ⊢
      generalize statementLine o' (settled c) = r' at hline ⊢
      cases hline with
      | @ok s s' c1 value quiet =>
        have hs : s = s' := by
          rw [← s.relocate_id, ← s'.relocate_id]
          exact value
        rcases ih c1 quiet with ⟨e, he, hrest⟩ | hrest
        · exact .inl ⟨e, he, hrest⟩
        · refine .inr ?_
          dsimp only
          rw [hrest, hs]
      | error quiet =>
        rw [hmode, hmode']
        exact .inr rfl
      | beyond limit quiet =>
        rw [hmode]
        exact .inl ⟨_, limit, congrArg (_ :: ·) quiet⟩

end

end Parse

/-- A strict run either reports that the nesting limit was reached, and nothing else, or gives what it
gives under any larger limit. -/
theorem parse_of_le {o : ParseOptions} (hmode : o.mode = .strict) {limit : Nat}
    (hlimit : o.maxDepth ≤ limit) (tokens : List Token) :
    (∃ e, e.failure = .limit ∧ parse o tokens = .error [e]) ∨
      parse { o with maxDepth := limit } tokens = parse o tokens := by
  unfold parse Parse.run
  dsimp only
  have hresolve : { o with maxDepth := limit }.resolvePipelines = true →
      o.resolvePipelines = true := id
  rcases Parse.statementsUpTo_limited hresolve hmode hmode hlimit (tokens.length + 1)
    (.ofTokens tokens) rfl with ⟨e, he, herrors⟩ | hsame
  · refine .inl ⟨e, he, ?_⟩
    rw [herrors]
    rfl
  · rw [hsame]
    exact .inr rfl

/-- So does a strict run over a single expression. -/
theorem parseFragment_of_le {o : ParseOptions} (hmode : o.mode = .strict) {limit : Nat}
    (hlimit : o.maxDepth ≤ limit) (tokens : List Token) :
    (∃ e, e.failure = .limit ∧ parseFragment o .expression tokens = .error [e]) ∨
      parseFragment { o with maxDepth := limit } .expression tokens =
        parseFragment o .expression tokens := by
  have hresolve : { o with maxDepth := limit }.resolvePipelines = true →
      o.resolvePipelines = true := id
  let start := (Cursor.ofTokens tokens).skipWhile TokenKind.isNewline
  have hout : Parse.WithinLimit start.errors ((Parse.limited hresolve).same Expr.relocate)
      (Parse.rootExpression o start) (Parse.rootExpression { o with maxDepth := limit } start) :=
    Parse.Coupling.expression (C := Parse.limited hresolve) (Parse.moves_primary o o.maxDepth)
      (fun h => Parse.limited_primary hresolve hmode hmode o.maxDepth hlimit h) hlimit start
  have hskip : Parse.skipNewlines (.ofTokens tokens) = .ok () start := rfl
  unfold parseFragment Parse.wholeFragment
  rw [Parse.bind_of_ok hskip, Parse.bind_of_ok hskip]
  generalize hx : Parse.rootExpression o start = r at hout
  generalize hy : Parse.rootExpression { o with maxDepth := limit } start = r' at hout
  cases hout with
  | @ok a a' c value quiet =>
    obtain rfl : a = a' := by
      rw [← a.relocate_id, ← a'.relocate_id]
      exact value
    right
    rw [Parse.bind_of_ok (show Parse.fragment o .expression start = _ from Parse.bind_of_ok hx),
      Parse.bind_of_ok (show Parse.fragment _ .expression start = _ from Parse.bind_of_ok hy)]
    rfl
  | error quiet =>
    right
    rw [Parse.bind_of_error (show Parse.fragment o .expression start = _ from Parse.bind_of_error hx),
      Parse.bind_of_error (show Parse.fragment _ .expression start = _ from Parse.bind_of_error hy)]
  | beyond limit quiet =>
    left
    rw [Parse.bind_of_error (show Parse.fragment o .expression start = _ from Parse.bind_of_error hx)]
    exact ⟨_, limit, rfl⟩

/-- Rewiring costs levels and nothing else: the tree that is rewired is the one that is read without. -/
theorem parse_of_resolve {limit : Nat} {tokens : List Token} {p : Program}
    (h : parse ⟨.strict, limit, true⟩ tokens = .ok p) :
    ∃ q, parse ⟨.strict, limit, false⟩ tokens = .ok q ∧ p = q.resolve := by
  obtain ⟨hquiet, hkeys, rfl⟩ := parse_eq_ok.mp h
  have hresolve : ParseOptions.resolvePipelines ⟨.strict, limit, false⟩ = true →
      ParseOptions.resolvePipelines ⟨.strict, limit, true⟩ = true := fun _ => rfl
  rcases Parse.statementsUpTo_limited hresolve rfl rfl (Nat.le_refl _) (tokens.length + 1)
    (.ofTokens tokens) rfl with
    ⟨e, _, herrors⟩ | hsame
  · have hfailed : (Parse.run ⟨.strict, limit, true⟩ tokens).2 = [e] := congrArg List.reverse herrors
    rw [hfailed] at hquiet
    cases hquiet
  · have hrun : Parse.run ⟨.strict, limit, false⟩ tokens = Parse.run ⟨.strict, limit, true⟩ tokens := by
      unfold Parse.run
      rw [hsame]
    exact ⟨_, parse_eq_ok.mpr ⟨hrun ▸ hquiet, hrun ▸ hkeys, rfl⟩, hrun ▸ rfl⟩

/-- The limit and the rewiring have no other effect on a strict parse than that they may end it with the
report that the limit was reached. -/
theorem parse_limit_resolve {d d' : Nat} (h : d ≤ d') (tokens : List Token) :
    (∀ resolving, (∃ e, e.failure = .limit ∧ parse ⟨.strict, d, resolving⟩ tokens = .error [e]) ∨
        parse ⟨.strict, d, resolving⟩ tokens = parse ⟨.strict, d', resolving⟩ tokens) ∧
      ∀ p, parse ⟨.strict, d, true⟩ tokens = .ok p →
        ∃ q, parse ⟨.strict, d, false⟩ tokens = .ok q ∧ p = q.resolve := by
  refine ⟨fun resolving => ?_, fun p hp => parse_of_resolve hp⟩
  rcases parse_of_le (o := ⟨.strict, d, resolving⟩) rfl h tokens with hlimit | hsame
  · exact .inl hlimit
  · exact .inr hsame.symm

/-- Two stages, one level short of what rewiring takes and with enough levels. -/
theorem parse_limit_resolve_stages :
    let tokens : List Token :=
      [⟨.ident "x", ⟨0, 1, 1, 1⟩⟩, ⟨.punctuation .pipe, ⟨2, 4, 1, 3⟩⟩, ⟨.ident "f", ⟨5, 6, 1, 6⟩⟩,
        ⟨.punctuation .pipe, ⟨7, 9, 1, 8⟩⟩, ⟨.ident "g", ⟨10, 11, 1, 11⟩⟩,
        ⟨.newline, ⟨11, 12, 1, 12⟩⟩, ⟨.eof, ⟨12, 12, 2, 1⟩⟩]
    2 ≤ 3 ∧ (∃ e, e.failure = .limit ∧ parse ⟨.strict, 2, true⟩ tokens = .error [e]) ∧
      ∃ q, parse ⟨.strict, 3, false⟩ tokens = .ok q ∧
        parse ⟨.strict, 3, true⟩ tokens = .ok q.resolve := by
  intro tokens
  have hle : (2 : Nat) ≤ 3 := by decide
  have hshort : (parse ⟨.strict, 2, true⟩ tokens).isOk = false := by decide +kernel
  have henough : (parse ⟨.strict, 3, true⟩ tokens).isOk = true := by decide +kernel
  refine ⟨hle, ((parse_limit_resolve hle tokens).1 true).resolve_right fun hsame => ?_, ?_⟩
  · rw [hsame, henough] at hshort
    cases hshort
  · cases hparse : parse ⟨.strict, 3, true⟩ tokens with
    | error errors =>
      rw [hparse] at henough
      cases henough
    | ok p =>
      obtain ⟨q, hq, rfl⟩ := (parse_limit_resolve (Nat.le_refl 3) tokens).2 p hparse
      exact ⟨q, hq, rfl⟩

end PipeLang
