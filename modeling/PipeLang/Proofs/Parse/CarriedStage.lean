import PipeLang.Proofs.Parse.Carried

/-! The rules for seeds and stages, outside brackets. Each of them reads what it reads at the end of a
text also before a pipe and before the end of a line. -/

namespace PipeLang.Parse

variable {o : ParseOptions} {e : Token} {v ts : List Token} {c : Cursor} (he : e.kind = .eof)

section

include he

theorem carried_identifier (place : Place) : Carried e v ts (identifier place) := by
  intro c r d h name c' hrun
  obtain ⟨hk, hspan, rfl⟩ := identifier_eq_ok hrun
  have hend : c.kind ≠ .eof := by rw [hk]; simp
  obtain ⟨t, r, rfl⟩ := h.exists_cons he hend
  have hd : d.kind = .ident name.text := by rw [h.kind.2, ← h.kind.1, hk]
  refine ⟨d.next, r, ?_, h.next (by rw [← h.kind.1]; exact hend),
    h.opens.next (bracketsAfter_of_not_bracket (by rw [hk]; rfl) [])⟩
  rw [identifier_of_ident hd, h.peek.2, ← h.peek.1, ← hspan]

omit he in
/-- An interpolation has tokens of its own. -/
theorem carried_hole (p : Primary) (b : Nat) (tokens : List Token) (s : Span) :
    Carried e v ts (hole o p b tokens s) := by
  intro c r d h a c' hrun
  unfold hole at hrun ⊢
  cases hinner : interpolation o p b tokens with
  | ok value =>
    rw [hinner] at hrun
    cases hrun
    exact ⟨d, r, rfl, h⟩
  | error failure =>
    rw [hinner] at hrun
    cases hmode : o.mode with
    | strict =>
      rw [hmode] at hrun
      cases hrun
    | bestEffort =>
      rw [hmode] at hrun
      cases hrun
      exact ⟨d.record failure, r, rfl, ⟨⟨h.front, h.back, h.free, h.apart⟩, h.previous⟩,
        h.opens.tokens, h.opens.ended, h.opens.brackets⟩

omit he in
theorem carried_segments (p : Primary) (b : Nat) (parts : List StringPart) :
    Carried e v ts (segments o p b parts) := by
  induction parts with
  | nil => exact .pure _
  | cons part parts ih =>
    cases part with
    | literal text => exact ih.bind fun _ => .pure _
    | hole tokens span => exact (carried_hole p b tokens span).bind fun _ => ih.bind fun _ => .pure _

/-- A sign and its number. -/
theorem led_negativeNumber (hn : c.atNegative = true) : LedFrom e v ts c negativeNumber := by
  intro r d h hopens a c' hrun
  simp only [Cursor.atNegative, Bool.and_eq_true] at hn
  obtain ⟨⟨hminus, hnumber⟩, _⟩ := hn
  have hk : c.kind = .operator .minus := TokenKind.isOperator_iff.mp hminus
  obtain ⟨t, r, rfl⟩ := h.exists_cons he (by rw [hk]; simp)
  have ht : t.kind = .operator .minus := h.kind.1.symm.trans hk
  have hnext := h.next (by rw [ht]; simp)
  have hopens := hopens.next (bracketsAfter_of_not_bracket (by rw [hk]; rfl) [])
  have hc : c.next = c.forward := next_eq_forward (by rw [hk]; simp)
  rw [Cursor.kindAt_one h.front, ← hc] at hnumber
  have hend : c.next.kind ≠ .eof := fun hk' => by
    rw [hk'] at hnumber
    cases hnumber
  obtain ⟨u, r, rfl⟩ := hnext.exists_cons he hend
  have hbracket : c.next.kind.isBracket = false := by
    cases hk' : c.next.kind <;> rw [hk'] at hnumber <;> first | rfl | cases hnumber
  unfold negativeNumber at hrun ⊢
  rw [skip_bind, test_bind, skip_bind] at hrun ⊢
  rw [h.peek.1, hnext.peek.1] at hrun
  rw [h.peek.2, hnext.peek.2]
  refine ⟨d.next.next, r, ?_, ?_⟩
  · cases hu : u.kind <;> rw [hu] at hrun <;> cases hrun <;> rfl
  · have hc' : c' = c.next.next := by
      cases hu : u.kind <;> rw [hu] at hrun <;> cases hrun <;> rfl
    rw [hc']
    exact ⟨hnext.next (by rw [← hnext.kind.1]; exact hend),
      hopens.next (bracketsAfter_of_not_bracket hbracket [])⟩

end

section

variable (hv : Follow v)

include he hv

theorem led_wildcard (hk : c.kind = .punctuation .underscore) : LedFrom e v ts c wildcard := by
  refine .skip_bind he (by rw [hk]; simp) (by rw [hk]; rfl) fun first => ?_
  refine .bind (.many he hv (.after .skip fun _ => moves_identifier _)
    (fun r c d h => h.atAccess_eq he hv) fun c hc => ?_) fun path => .pure _
  refine .skip_bind he (fun hend => ?_) (not_bracket_of_access hc) fun _ => carried_identifier he _
  rw [Cursor.atAccess, Cursor.atPunctuation, hend] at hc
  cases hc

/-- The constructs among primary expressions are read alike at both places. -/
def ConstructsLed (o : ParseOptions) (e : Token) (v ts : List Token) (levels b : Nat) : Prop :=
  ∀ c : Cursor, c.kind.isConstruct = true → LedFrom e v ts c (primaryInside o (primary o levels) b)

variable (levels b : Nat)

/-- A primary expression does not look at what stands before it. -/
theorem led_primaryInside (hcon : ConstructsLed o e v ts levels b) (c : Cursor) :
    LedFrom e v ts c (primaryInside o (primary o levels) b) := by
  intro r d h hopens a c' hrun
  by_cases hplain : c.kind.isConstruct = true
  · exact hcon c hplain r d h hopens a c' hrun
  unfold primaryInside at hrun ⊢
  rw [test_bind] at hrun ⊢
  have hend : c.kind ≠ .eof := fun hk => by
    rw [show c.peek.kind = .eof from hk] at hrun
    cases hrun
  obtain ⟨t, r, rfl⟩ := h.exists_cons he hend
  rw [h.kind.1] at hplain
  have hskip : ∀ {f : Span → Parse Expr}, t.kind.isBracket = false → (∀ s, Carried e v ts (f s)) →
      LedFrom e v ts c (skip >>= f) :=
    fun hb hf => .skip_bind he hend (by rw [h.kind.1]; exact hb) hf
  have hmoves := moves_primary o levels
  have hbalanced := balanced_primary o levels
  rw [h.peek.1] at hrun
  rw [h.peek.2]
  revert hrun
  cases hk : t.kind with
  | ident _ | number _ => exact hskip (by rw [hk]; rfl) (fun _ => .pure _) _ d h hopens a c'
  | text parts =>
    exact hskip (by rw [hk]; rfl) (fun _ => (carried_segments _ b parts).bind fun _ => .pure _) _ d h
      hopens a c'
  | operator op =>
    cases op with
    | minus =>
      intro hrun
      dsimp only at hrun ⊢
      rw [test_bind] at hrun ⊢
      rw [← h.atNegative he hv]
      cases hn : c.atNegative with
      | true =>
        rw [hn] at hrun
        exact ((led_negativeNumber he hn).bind fun _ => .pure _) _ d h hopens a c' hrun
      | false =>
        rw [hn] at hrun
        cases hrun
    | _ => exact LedFrom.fail _ d h hopens a c'
  | keyword k =>
    cases k with
    | true_ | false_ | nil_ => exact hskip (by rw [hk]; rfl) (fun _ => .pure _) _ d h hopens a c'
    | let_ | if_ | match_ | try_ => exact absurd (by rw [hk]; rfl) hplain
    | _ => exact LedFrom.fail _ d h hopens a c'
  | punctuation q =>
    have hck : c.kind = .punctuation q := h.kind.1.trans hk
    cases q with
    | lbrace =>
      exact LedFrom.of_enclosed (enclosed_record he hv levels b hck)
        (balanced_record hbalanced b hmoves hck) _ d h hopens a c'
    | lbracket =>
      intro hrun
      dsimp only at hrun ⊢
      rw [test_bind] at hrun ⊢
      rw [← h.atFunction he hv]
      cases hf : c.atFunction with
      | true =>
        rw [hf] at hrun
        exact LedFrom.of_enclosed (enclosed_function he hv levels b hck)
          (balanced_function hbalanced b hck) _ d h hopens a c' hrun
      | false =>
        rw [hf] at hrun
        exact LedFrom.of_enclosed (enclosed_list he hv levels b hck)
          (balanced_list hbalanced b hck) _ d h hopens a c' hrun
    | lparen =>
      exact LedFrom.of_enclosed (enclosed_parenthesized he hv levels b hck)
        (balanced_parenthesized hbalanced b hck) _ d h hopens a c'
    | underscore => exact led_wildcard he hv hck _ d h hopens a c'
    | _ => exact LedFrom.fail _ d h hopens a c'
  | _ => exact LedFrom.fail _ d h hopens a c'

theorem led_primary (hcon : ∀ n, (∀ b c, LedFrom e v ts c (primary o n b)) →
    ∀ b, ConstructsLed o e v ts n b) (levels : Nat) :
    ∀ b c, LedFrom e v ts c (primary o levels b) := by
  induction levels with
  | zero => exact fun b c => .fail
  | succ levels ih =>
    intro b c
    cases b with
    | zero => exact .fail
    | succ b => exact led_primaryInside he hv levels b (hcon levels ih b) c

omit hv in
/-- Outside brackets no construct starts. -/
theorem constructsLed_of_enclosed (hcon : ConstructsEnclosed ts) (levels b : Nat) :
    ConstructsLed o e v ts levels b := by
  intro c hc r d h hopens
  obtain ⟨t, r, rfl⟩ := h.exists_cons he fun hk => by rw [hk] at hc; cases hc
  have htokens := hopens.tokens
  rw [h.front, ← List.append_assoc] at htokens
  have hplain := hcon c.before.reverse t r (List.append_cancel_right htokens).symm hopens.brackets
  rw [h.kind.1, hplain] at hc
  cases hc

omit levels in
theorem carried_accesses : ∀ target, Carried e v ts (accesses o b target) := by
  induction b with
  | zero =>
    intro target
    refine .test_bind (fun r c d h => h.atAccess_eq he hv) fun c => ?_
    exact .ite (fun _ => .fail) fun _ => .pure _
  | succ b ih =>
    intro target
    refine .test_bind (fun r c d h => h.atAccess_eq he hv) fun c => ?_
    refine .ite (fun hc => ?_) fun _ => .pure _
    refine .skip_bind he (fun hend => ?_) (not_bracket_of_access hc) fun _ => ?_
    · rw [Cursor.atAccess, Cursor.atPunctuation, hend] at hc
      cases hc
    · exact (carried_identifier he _).bind fun _ => ih _

end

include he in
theorem led_operand (hv : Follow v) {levels : Nat}
    (hp : ∀ b c, LedFrom e v ts c (primary o levels b)) (b : Nat) (c : Cursor) :
    LedFrom e v ts c (operand o (primary o levels) b) :=
  (hp b c).bind fun _ => carried_accesses he hv b _

section

variable (hv : StageFollow v) {levels : Nat} (hp : ∀ b c, LedFrom e v ts c (primary o levels b)) (b : Nat)

include he hv hp

theorem led_application (c : Cursor) : LedFrom e v ts c (application o (primary o levels) b) := by
  refine .test_bind (fun r d h => h.atConstruct_eq he hv) ?_
  refine (led_operand he hv.follow hp b c).bind fun head => fun c => ?_
  refine .ite (fun _ => .pure _) fun _ => ?_
  refine CarriedFrom.bind (Carried.many he hv.follow (moves_operand (moves_primary o levels) b)
    (fun r c d h => h.atArgument_eq he hv) (fun c _ => (led_operand he hv.follow hp b c).carried) c)
    fun args => ?_
  cases args.getLast? <;> exact .pure _

theorem carried_chain : ∀ left least, Carried e v ts (chain o (primary o levels) b left least) := by
  induction b with
  | zero =>
    intro left least
    refine .test_bind (fun r c d h => h.operator?_eq he hv least) fun c => ?_
    cases c.operator? least with
    | some op => exact .fail
    | none => exact .pure _
  | succ b ih =>
    intro left least
    refine .test_bind (fun r c d h => h.operator?_eq he hv least) fun c => ?_
    cases hop : c.operator? least with
    | none => exact .pure _
    | some op =>
      refine .skip_bind he (fun hend => ?_) (not_bracket_of_operator? hop) fun span => ?_
      · rw [Cursor.operator?, hend] at hop
        cases hop
      · refine Carried.bind (fun c => (led_application he hv hp b c).carried) fun first => ?_
        exact (ih _ _).bind fun right => ih _ _

theorem carried_stageArguments : Carried e v ts (stageArguments o (primary o levels) b) := by
  refine .bind (.rounds he hv.follow (moves_argumentRound (moves_primary o levels) b) (fun args => ?_) _)
    fun args => .pure _
  refine .test_bind (fun r c d h => h.atArgument_eq he hv) fun c => ?_
  refine .ite (fun _ => ?_) fun _ => ?_
  · exact (led_operand he hv.follow hp b c).carried.bind fun _ => .pure _
  · refine Carried.test_bind (fun r c d h => h.operator?_eq he hv 0) (fun c => ?_) c
    cases c.operator? 0 with
    | none => exact .pure _
    | some op =>
      cases args with
      | nil => exact .pure _
      | cons last others =>
        exact (carried_chain he hv hp b last 0 c).bind fun _ => .pure _

/-- The arguments of a stage, and the stage of them. -/
theorem carried_stageOf (head : Expr) :
    Carried e v ts (do
      let args ← stageArguments o (primary o levels) b
      match args.filter Expr.isPlaceholder with
      | first :: second :: _ =>
        fail fun _ => Diagnostic.withLabel { cause := .secondPlaceholder, span := second.span }
            first.span "first placeholder here"
          |>.withExample (Punctuation.examples .underscore)
      | _ => pure (stageOf head args)) := by
  refine (carried_stageArguments he hv hp b).bind fun args => ?_
  split
  · exact .fail
  · exact .pure _

theorem led_stage (c : Cursor) : LedFrom e v ts c (stage o (primary o levels) b) := by
  refine .test_bind (fun r d h => h.kind_eq he hv (p := TokenKind.isIdent) fun k hk => ?_) ?_
  · cases k <;> first | rfl | cases hk
  · exact .ite (fun _ => (led_operand he hv.follow hp b c).bind fun head => carried_stageOf he hv hp b head)
      fun _ => .fail

theorem carried_pushStage (s : Stages) : Carried e v ts (pushStage o (primary o levels) s) := by
  intro c
  unfold pushStage
  refine .ite (fun _ => ?_) fun _ => ?_
  · cases s.budget with
    | zero => exact .fail
    | succ b => exact (led_stage he hv hp b c).carried.bind fun _ => .pure _
  · exact (led_stage he hv hp _ c).carried.bind fun _ => .pure _

end

end PipeLang.Parse
