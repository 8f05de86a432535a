import PipeLang.Proofs.Parse.SeamExpr

/-! Pipelines and bracketed forms on either side of a seam. Arguments of a stage are looked for after a block
too, if an operation among them has closed it: there the second run may go on where the first one is over. -/

namespace PipeLang.Seam

open Parse

variable {S : Seam}

/-! ## The same runs, compared from further on -/

section

variable {m r : List Token} (hline : m.reverse ++ r = S.line) (hr : r ≠ [])

/-- The seam with the tokens `m` counted among those before. -/
def behind (S : Seam) {m r : List Token} (hline : m.reverse ++ r = S.line) (hr : r ≠ []) : Seam :=
  { S with
    line := r
    before := m ++ S.before
    before' := m ++ S.before'
    ends := fun t ht => S.ends t (by rwa [← hline, List.getLast?_append_of_ne_nil _ hr])
    within := fun t ht => S.within t (hline ▸ List.mem_append_right _ ht) }

variable {hline hr} {c d : Cursor}

theorem At.of_behind {m' r' : List Token} (h : (S.behind hline hr).At m' r' c d) :
    S.At (m' ++ m) r' c d where
  line := by
    rw [← hline, show r = _ from h.line.symm]
    simp
  more := h.more
  before := by rw [h.before, List.append_assoc]; rfl
  before' := by rw [h.before', List.append_assoc]; rfl
  rest := h.rest
  rest' := h.rest'
  errors := h.errors

theorem Inside.of_behind (h : (S.behind hline hr).Inside c d) : S.Inside c d := by
  obtain ⟨m', r', h⟩ := h
  exact ⟨_, _, h.of_behind⟩

theorem Moved.of_behind (h : (S.behind hline hr).Moved c d) : S.Moved c d := by
  obtain ⟨m', r', hm, h⟩ := h
  exact ⟨_, _, List.append_ne_nil_of_left_ne_nil hm m, h.of_behind⟩

theorem Closed.of_behind (h : (S.behind hline hr).Closed c d) : S.Closed c d := by
  obtain ⟨⟨n, hn, hpast⟩, hafter⟩ := h
  exact ⟨⟨n, hn, hpast.rest, hpast.rest', hpast.errors⟩, hafter⟩

theorem Outcome.of_behind {α : Type} {Q : α → Cursor → Cursor → Prop}
    {x y : EStateM.Result Diagnostic Cursor α} (h : (S.behind hline hr).Outcome Q x y) :
    S.Outcome Q x y := by
  cases h with
  | ok after => exact .ok after
  | error place => exact .error place.of_behind
  | late past => exact .late past
  | spills spills =>
    obtain ⟨hblocks, hmore, hopens⟩ := spills
    refine .spills ⟨hblocks, hmore, ?_⟩
    have hopens : OpensInStage r := hopens
    exact hline ▸ hopens.append m.reverse

/-- Where the comparison starts over. -/
theorem At.behind (h : S.At m r c d) : (S.behind h.line h.more).Inside c d :=
  ⟨[], r, rfl, h.more, h.before, h.before', h.rest, h.rest', h.errors⟩

end

/-! ## Pipelines -/

section

variable (o : ParseOptions) {p : Primary} (hm : ∀ b, Moves (fun _ => 1) (p b))
  (hp : ∀ S : Seam, S.MeetsPrimary p) (b : Nat)

include hm hp

theorem meets_argumentRound (args : List Expr) :
    S.Meets S.Moved (fun _ => S.Ending (OpensAfterOperator S.line)) (argumentRound o p b args) := by
  refine .choose (fun _ _ h => h.atArgument) ?_ ?_
  · refine Meets.bind (Q := fun _ => S.Moved) ?_ fun _ => .pure fun _ _ h => .inl h
    exact (meets_operand_plain o (hp S) b).mono
      (fun _ _ h => ⟨h.1.inside, not_construct_of_atArgument h.2⟩) fun _ _ _ h => h
  · refine .look (fun c d h => by unfold Cursor.operator?; rw [h.1.kind]) fun op => ?_
    have hmoved : ∀ c d, ((S.Moved c d ∧ c.atArgument = false) ∧ c.operator? 0 = op) → S.Moved c d :=
      fun _ _ h => h.1.1
    cases op with
    | none => exact .pure fun _ _ h => .inl (hmoved _ _ h)
    | some op =>
      cases args with
      | nil => exact .pure fun _ _ h => .inl (hmoved _ _ h)
      | cons last others =>
        refine Meets.bind ?_ fun _ => .pure fun _ _ h => h
        exact (meets_chain o hm (hp S) b id last 0).mono (fun _ _ h => .inl (hmoved _ _ h))
          fun _ _ _ h => h

omit hm hp in
/-- After a block there is nothing more for the first run. -/
theorem argumentRound_of_closed (args : List Expr) {c d : Cursor} (h : S.Closed c d) :
    argumentRound o p b args c = .ok (.done args) c ∧
      (d.atArgument = false → argumentRound o p b args d = .ok (.done args) d) := by
  obtain ⟨hcop, hdop⟩ := h.operator? 0
  unfold argumentRound
  constructor
  · rw [test_bind, h.atArgument.1, if_neg (by simp), test_bind, hcop]
    rfl
  · intro hno
    rw [test_bind, hno, if_neg (by simp), test_bind, hdop]
    rfl

/-- The first of two runs over arguments is over after a block, and the second one may go on. -/
def GoesOn (S : Seam) (r : EStateM.Result Diagnostic Cursor (List Expr)) : Prop :=
  ∃ args c, r = .ok args c ∧ (∃ d, S.Closed c d) ∧ (Cursor.ofTokens S.following).atArgument = true ∧
    OpensAfterOperator S.line

theorem argumentRounds_cases (n : Nat) : ∀ (args : List Expr) (c d : Cursor),
    S.Ending (OpensAfterOperator S.line) c d → c.Ended → c.rest.length < n →
      S.Outcome (fun _ => S.Ending (OpensAfterOperator S.line)) (roundsUpTo (argumentRound o p b) n args c)
          (roundsUpTo (argumentRound o p b) n args d) ∨
        S.GoesOn (roundsUpTo (argumentRound o p b) n args c) := by
  induction n with
  | zero => exact fun _ c d _ _ hn => absurd hn (Nat.not_lt_zero _)
  | succ n ih =>
    rintro args c d (h | ⟨h, hopens⟩) hended hn
    · have hout := meets_argumentRound o hm hp b args c d h
      unfold roundsUpTo
      generalize hcr : argumentRound o p b args c = x at hout
      generalize hdr : argumentRound o p b args d = y at hout
      cases hout with
      | @ok r c' d' after =>
        rw [bind_of_ok hcr, bind_of_ok hdr]
        obtain ⟨hc', hless⟩ := moves_argumentRound hm b args c hended r c' hcr
        cases r with
        | again args' =>
          have hless : c'.rest.length + 1 ≤ c.rest.length := hless
          exact ih args' c' d' after hc' (by omega)
        | done args' => exact .inl (.ok after)
      | error place =>
        rw [bind_of_error hcr, bind_of_error hdr]
        exact .inl (.error place)
      | late past =>
        rw [bind_of_error hcr]
        exact .inl (.late past)
      | spills spills => exact .inl (.spills spills)
    · obtain ⟨hcdone, hddone⟩ := argumentRound_of_closed o b args h
      unfold roundsUpTo
      rw [bind_of_ok hcdone]
      cases hd : d.atArgument with
      | true => exact .inr ⟨args, c, rfl, ⟨d, h⟩, h.atArgument.2 hd, hopens⟩
      | false =>
        rw [bind_of_ok (hddone hd)]
        exact .inl (.ok (.inr ⟨h, hopens⟩))

/-- Both runs read the same arguments, or the first one is over after a block and the second may go on. -/
theorem stageArguments_cases {c d : Cursor} (h : S.Moved c d) :
    S.Outcome (fun _ => S.Ending (OpensAfterOperator S.line)) (stageArguments o p b c)
        (stageArguments o p b d) ∨ S.GoesOn (stageArguments o p b c) := by
  obtain ⟨hc, hd⟩ := h.anywhere.ended
  have hmoves : ∀ args, Moves Round.cost (argumentRound o p b args) := moves_argumentRound hm b
  have hsame := argumentRounds_cases o hm hp b (max (c.rest.length + 1) (d.rest.length + 1)) [] c d (.inl h) hc
    (lt_max_of_lt_left (Nat.lt_succ_self _))
  rw [← roundsUpTo_eq hmoves _ _ [] c hc (Nat.lt_succ_self _) (le_max_left _ _),
    ← roundsUpTo_eq hmoves _ _ [] d hd (Nat.lt_succ_self _) (le_max_right _ _)] at hsame
  rcases hsame with hout | ⟨args, c', hrun, hclosed⟩
  · exact .inl (Outcome.bind (x := rounds (argumentRound o p b) []) hout fun _ _ _ _ h => .ok h)
  · exact .inr ⟨args.reverse, c', bind_of_ok (x := rounds (argumentRound o p b) []) hrun, hclosed⟩

/-- Where a stage may come: behind what leads one. -/
def AtStage (S : Seam) (c d : Cursor) : Prop :=
  S.Moved c d ∧ ∃ t, c.previous? = some t ∧ t.kind.leadsStage = true

theorem meets_stage :
    S.Meets (fun c d => S.AtStage c d ∨ S.Edge c d) (fun _ => S.Joined) (stage o p b) := by
  have habout : AboutNext fun c =>
      (c.unexpected .stageStart [.identifier]
        |>.withNote "each stage starts with the name of the function it applies"
        |>.withExample (Punctuation.examples .pipe)) :=
    ((AboutNext.unexpected _ _).map (f := fun e => e.withNote _) fun _ => rfl).withExample _
  rintro c d (⟨h, lead, hlead, hleads⟩ | h)
  · obtain ⟨m, r, hm', hat⟩ := h
    obtain ⟨t, r, rfl⟩ := List.exists_cons_of_ne_nil hat.more
    obtain ⟨u, m, rfl⟩ := List.exists_cons_of_ne_nil hm'
    obtain rfl : u = lead := by
      unfold Cursor.previous? at hlead
      rw [hat.before] at hlead
      exact Option.some.inj hlead
    unfold stage
    rw [test_bind, test_bind, Cursor.atIdent, Cursor.atIdent, hat.kind.1, hat.kind.2]
    cases hident : t.kind.isIdent with
    | false => exact meets_fail habout c d (.inl hat.inside)
    | true =>
      have hconstruct : c.atConstruct = false := by
        unfold Cursor.atConstruct
        rw [hat.kind.1]
        cases hk : t.kind with
        | keyword k =>
          rw [hk] at hident
          cases hident
        | _ => rfl
      have hopens : OpensAfterOperator (t :: r) → OpensInStage S.line := fun hopens => by
        refine ⟨m.reverse, u, t :: r, ?_, hleads, ⟨t, rfl, hident⟩, hopens⟩
        rw [← hat.line]
        simp
      -- what comes of the stage is told from its name on
      have hhead := (meets_operand_plain o (hp _) b c d ⟨hat.behind, hconstruct⟩).of_behind
      refine hhead.bind fun head c' d' _ hmoved => ?_
      rcases stageArguments_cases o hm hp b hmoved with hargs | ⟨args, c'', -, ⟨d'', hclosed⟩, harg, hop⟩
      · refine hargs.of_behind.bind fun args c'' d'' _ hend => ?_
        cases args.filter Expr.isPlaceholder with
        | nil => exact .ok (hend.imp Moved.of_behind fun h => h.1.of_behind)
        | cons first others =>
          cases others with
          | nil => exact .ok (hend.imp Moved.of_behind fun h => h.1.of_behind)
          | cons second others =>
            rcases hend with hend | ⟨hclosed, hop⟩
            · exact .error hend.of_behind.inside
            · obtain ⟨n, hn, -⟩ := hclosed.past
              rcases Nat.eq_zero_or_pos S.bound with hzero | hpos
              · exact .late (hzero ▸ Nat.zero_le _)
              · exact .spills ⟨Nat.zero_lt_of_lt hn, .inl hpos, hopens hop⟩
      · obtain ⟨n, hn, -⟩ := hclosed.past
        exact .spills ⟨Nat.zero_lt_of_lt hn, .inr harg, hopens hop⟩
  · have hno : c.atIdent = false := by
      unfold Cursor.atIdent
      rcases h.1.kind.1 with hk | hk <;> rw [hk] <;> rfl
    unfold stage
    rw [test_bind, hno]
    refine .late ?_
    rw [habout.span]
    exact h.1.late

theorem meets_pushStage (s : Stages) :
    S.Meets (fun c d => S.AtStage c d ∨ S.Edge c d) (fun _ => S.Joined) (pushStage o p s) := by
  unfold pushStage
  split
  · cases s.budget with
    | zero =>
      refine (meets_tooDeep o).mono (fun c d h => ?_) fun _ _ _ h => h
      exact h.elim (fun h => h.1.anywhere) Edge.anywhere
    | succ budget => exact (meets_stage o hm hp budget).bind fun _ => .pure fun _ _ h => h
  · exact (meets_stage o hm hp s.budget).bind fun _ => .pure fun _ _ h => h

omit hm hp in
/-- A pipe, and then a stage. -/
theorem meets_pipe : S.Meets S.Joined (fun b c d => if b then S.AtStage c d else S.Joined c d)
    (accept (·.atPunctuation .pipe)) := by
  have hpipe : Mark (TokenKind.isPunctuation .pipe) := .punctuation (by decide)
  intro c d h
  obtain ⟨hsame, hmoved⟩ := h.mark hpipe
  refine outcome_accept hsame (fun hk => ?_) fun _ => h
  have hinside := (hmoved hk).inside
  refine ⟨hinside.next (hpipe.kind_ne hk), c.peek, hinside.previous_next, ?_⟩
  have hk : c.peek.kind.isPunctuation .pipe = true := hk
  rw [TokenKind.leadsStage, hk]
  rfl

theorem meets_inlineStages (s : Stages) : S.Meets S.Joined (fun _ => S.Joined) (inlineStages o p s) := by
  refine meets_rounds (R := fun _ => S.Joined) (fun _ _ _ h => h.anywhere) (moves_pipeRound hm)
    (fun s => ?_) s
  refine meets_pipe.bind fun more => ?_
  cases more with
  | false => exact .pure fun _ _ h => h
  | true =>
    refine Meets.bind ?_ fun _ => .pure fun _ _ h => h
    exact (meets_pushStage o hm hp s).mono (fun _ _ h => .inl h) fun _ _ _ h => h

omit hm hp in
/-- A line end, and then a stage or the end of a block. -/
theorem meets_stageEnd :
    S.Meets S.Joined (fun b c d => if b then S.AtStage c d ∨ S.Edge c d else S.Joined c d)
      (accept Cursor.atNewline) := by
  intro c d h
  obtain ⟨hsame, hmoved⟩ := h.atNewline
  refine outcome_accept hsame (fun hk => ?_) fun _ => h
  have hinside := (hmoved hk).inside
  refine hinside.next_line.imp_left fun hnext => ⟨hnext, c.peek, hinside.previous_next, ?_⟩
  have hk : c.peek.kind.isNewline = true := hk
  rw [TokenKind.leadsStage, hk, Bool.or_true]
  rfl

theorem meets_stageLine (s : Stages) :
    S.Meets (fun c d => S.AtStage c d ∨ S.Edge c d)
      (AfterRound (fun _ c d => S.AtStage c d ∨ S.Edge c d) fun _ => S.Joined) (stageLine o p s) := by
  have habout : AboutNext fun c => (c.failure .unevenStages).withNote
      "a stage line cannot be indented deeper than the stage before it" :=
    (AboutNext.failure _).map (f := fun e => e.withNote _) fun _ => rfl
  have hanywhere : ∀ c d, S.AtStage c d ∨ S.Edge c d → S.Anywhere c d := fun _ _ h =>
    h.elim (fun h => h.1.anywhere) Edge.anywhere
  refine (meets_pushStage o hm hp s).bind fun s => (meets_inlineStages o hm hp s).bind fun s => ?_
  refine meets_stageEnd.bind fun line => ?_
  cases line with
  | true =>
    refine (meets_blockEnd fun _ _ h => ?_).bind fun blockEnd => ?_
    · exact h.elim (fun h => .inl h.1) fun h => .inr (.inl h)
    cases blockEnd with
    | true => exact .pure fun _ _ h => h
    | false =>
      refine .choose (fun c d h => ?_) ?_ (.pure fun _ _ h => h.1)
      · rcases h with h | h
        · rw [h.1.kind]
        · obtain ⟨hc, hd⟩ := h.1.not_at (p := TokenKind.isIndent) rfl fun k hk => by
            have hlayout := TokenKind.not_layout_of_begins hk
            cases k <;> first | rfl | cases hlayout
          rw [hc, hd]
      · exact (meets_fail habout).mono (fun _ _ h => hanywhere _ _ h.1) fun _ _ _ h => h
  | false =>
    refine (meets_blockEnd fun _ _ h => h.lined).bind fun blockEnd => ?_
    cases blockEnd with
    | true => exact .pure fun _ _ h => h
    | false => exact (meets_unexpected _ _).mono (fun _ _ h => h.anywhere) fun _ _ _ h => h

theorem meets_allStages : S.Meets S.Joined (fun _ => S.Joined) (allStages o p b) := by
  refine (meets_inlineStages o hm hp _).bind fun s => (meets_openBlock _).bind fun block => ?_
  cases block with
  | false => exact .pure fun _ _ h => h.2
  | true =>
    refine Meets.bind (Q := fun _ => S.Joined) ?_ fun _ => .pure fun _ _ h => h
    refine (meets_rounds (fun _ _ _ h => h.elim (fun h => h.1.anywhere) Edge.anywhere)
      (moves_stageLine hm) (meets_stageLine o hm hp) s).mono (fun c d h => ?_) fun _ _ _ h => h
    obtain ⟨hmoved, -, t, ht, hindent⟩ := h.1 rfl
    refine .inl ⟨hmoved, t, ht, ?_⟩
    rw [TokenKind.leadsStage, hindent, Bool.or_true]

theorem meets_expression : S.Meets S.Inside (fun _ => S.Joined) (expression o p b) := by
  refine (meets_application o hm (hp S) b).bind fun first => ?_
  refine ((meets_chain o hm (hp S) b (X := True) (fun _ => trivial) first 0).mono
    (fun _ _ h => h.imp_right (⟨·, trivial⟩)) fun _ _ _ h => h.joined).bind fun seed => ?_
  refine (meets_allStages o hm hp b).bind fun stages => ?_
  cases stages.getLast? <;> exact .pure fun _ _ h => h

end

/-! ## Bracketed forms -/

section

variable (o : ParseOptions) {p : Primary} (hm : ∀ b, Moves (fun _ => 1) (p b))
  (hp : ∀ S : Seam, S.MeetsPrimary p) (b : Nat)

/-- A rule at a token of a certain kind, and an error at any other. -/
theorem meets_require {α : Type} {Q : α → Cursor → Cursor → Prop} {q : TokenKind → Bool}
    (hdedent : q .dedent = false) (heof : q .eof = false) {x : Parse α} {e : Cursor → Diagnostic}
    (hx : S.Meets (fun c d => S.Inside c d ∧ q c.kind = true) Q x) (he : AboutNext e) :
    S.Meets S.Anywhere Q (do if ← test fun c => q c.kind then x else Parse.fail e) := by
  rintro c d (h | ⟨n, h⟩)
  · rw [test_bind, test_bind, ← h.kind]
    cases hk : q c.kind with
    | true => exact hx c d ⟨h, hk⟩
    | false => exact meets_fail he c d (.inl h)
  · have hc : q c.kind = false := by
      rcases h.kind.1 with hc | hc <;> rw [hc]
      · exact hdedent
      · exact heof
    rw [test_bind, hc]
    refine .late ?_
    show S.bound ≤ (e c).span.start
    rw [he.span]
    exact h.late

include hm hp

theorem meets_recordField (opened : Span) :
    S.Meets S.Joined (fun _ => S.Joined) (recordField o p b opened) := by
  have hany : ∀ c d, S.Joined c d → S.Anywhere c d := fun _ _ h => h.anywhere
  refine (meets_stillOpen hany _ _ _).bind fun _ => (meets_noComma hany _ _ _).bind fun _ => ?_
  refine Meets.mono (meets_require (q := TokenKind.isIdent) rfl rfl ?_ (.unexpected _ _))
    (fun _ _ h => h.anywhere) fun _ _ _ h => h
  refine ((meets_identifier _).mono (fun _ _ h => .inl h.1) fun _ _ _ h => h).bind fun key => ?_
  refine ((meets_expectPunctuation _ _).mono (fun _ _ h => h.anywhere) fun _ _ _ h => h).bind fun _ => ?_
  refine ((meets_expression o hm hp b).mono (fun _ _ h => h.inside) fun _ _ _ h => h).bind fun _ => ?_
  exact .pure fun _ _ h => h

theorem meets_record :
    S.Meets (fun c d => S.Inside c d ∧ c.kind ≠ .newline) (fun _ => S.Moved) (record o p b) := by
  have hbrace : Mark (TokenKind.isPunctuation .rbrace) := .punctuation (by decide)
  refine .skip fun opened => ?_
  refine Meets.bind (Q := fun _ c d => S.Inside c d ∧ c.kind ≠ .newline) ?_ fun _ => meets_single _
  refine (meets_many (P := S.Joined) (fun _ _ h => h.anywhere) (moves_recordField hm b opened)
    (fun c d h => congrArg not (h.mark hbrace).1) ?_).mono (fun _ _ h => h.joined) fun _ c d h => ?_
  · exact (meets_recordField o hm hp b opened).mono (fun _ _ h => h.1) fun _ _ _ h => h
  · have hk : c.kind.isPunctuation .rbrace = true := by simpa [Cursor.atPunctuation] using h.2
    exact ⟨((h.1.mark hbrace).2 hk).inside, hbrace.kind_ne hk⟩

theorem meets_function :
    S.Meets (fun c d => S.Inside c d ∧ c.kind ≠ .newline) (fun _ => S.Moved) (function o p b) := by
  refine .skip fun opened => (meets_names _).bind fun params => ?_
  refine ((meets_expectPunctuation _ _).mono (fun _ _ h => h.anywhere) fun _ _ _ h => h).bind fun _ => ?_
  refine ((meets_expression o hm hp b).mono (fun _ _ h => h.inside) fun _ _ _ h => h).bind fun value => ?_
  refine (meets_stillOpen (fun _ _ h => h.anywhere) _ _ _).bind fun _ => ?_
  refine ((meets_expectPunctuation _ _).mono (fun _ _ h => h.anywhere) fun _ _ _ h => h).bind fun _ => ?_
  exact .pure fun _ _ h => h

theorem meets_parenthesized :
    S.Meets (fun c d => S.Inside c d ∧ c.kind ≠ .newline) (fun _ => S.Moved) (parenthesized o p b) := by
  refine .skip fun opened => ?_
  refine ((meets_expression o hm hp b).mono (fun _ _ h => h.inside) fun _ _ _ h => h).bind fun value => ?_
  refine (meets_stillOpen (fun _ _ h => h.anywhere) _ _ _).bind fun _ => ?_
  refine ((meets_expectPunctuation _ _).mono (fun _ _ h => h.anywhere) fun _ _ _ h => h).bind fun _ => ?_
  exact .pure fun _ _ h => h

omit hm hp in
theorem meets_wildcard :
    S.Meets (fun c d => S.Inside c d ∧ c.kind ≠ .newline) (fun _ => S.Moved) wildcard := by
  have hfield : Moves (fun _ => 1) (do let _ ← Parse.skip; identifier .afterDot) :=
    .after .skip fun _ => moves_identifier _
  refine .skip fun first => Meets.bind (Q := fun _ => S.Moved) ?_ fun _ => .pure fun _ _ h => h
  refine (meets_many (fun _ _ h => h.anywhere) hfield (fun _ _ h => h.atAccess) ?_).mono
    (fun _ _ h => h) fun _ _ _ h => h.1
  refine (Meets.skip fun _ => meets_identifier _ |>.mono (fun _ _ h => h.anywhere) fun _ _ _ h => h).mono
    (fun _ _ h => ⟨h.1.inside, not_line_of_atAccess h.2⟩) fun _ _ _ h => h

/-- The closing bracket of a list, for which the first run looks in vain once it is past the common lines. -/
theorem meets_list :
    S.Meets (fun c d => S.Inside c d ∧ c.kind ≠ .newline) (fun _ => S.Moved) (list o p b) := by
  have hbracket : Mark (TokenKind.isPunctuation .rbracket) := .punctuation (by decide)
  have habout : AboutNext fun c => (c.failure .missingParameter).withExpected [.identifier]
      |>.withHint "write `[x -> ...]`" :=
    ((AboutNext.failure _).map (f := fun e => e.withExpected _) fun _ => rfl).map
      (f := fun e => e.withHint _) fun _ => rfl
  refine .skip fun opened => .choose (fun c d h => ?_) ?_ ?_
  · rw [Cursor.atPunctuation, Cursor.atPunctuation, h.kind]
  · exact (meets_fail habout).mono (fun _ _ h => h.1.anywhere) fun _ _ _ h => h
  rintro c d ⟨h, -⟩
  have hclose : ∀ items : List Expr, S.Meets S.Joined (fun _ => S.Moved) (do
      if ← test (·.atPunctuation .rbracket) then
        let closed ← Parse.skip
        pure (.list (opened.merge closed) items)
      else
        stillOpen .listLiteral opened listExpected
        noComma .listLiteral "[1 2 3]" listExpected
        Parse.unexpected (.within .listLiteral) listExpected : Parse Expr) := by
    intro items
    have hany : ∀ c d, (S.Joined c d ∧ c.atPunctuation .rbracket = false) → S.Anywhere c d :=
      fun _ _ h => h.1.anywhere
    refine .choose (fun c d h => (h.mark hbracket).1) ?_ ?_
    · exact (meets_single _).mono (fun c d h => ⟨((h.1.mark hbracket).2 h.2).inside, hbracket.kind_ne h.2⟩)
        fun _ _ _ h => h
    · refine (meets_stillOpen hany _ _ _).bind fun _ => (meets_noComma hany _ _ _).bind fun _ => ?_
      exact (meets_unexpected _ _).mono hany fun _ _ _ h => h
  rcases stageArguments_cases o hm hp b h with hargs | ⟨args, c', hrun, ⟨d', hclosed⟩, -, -⟩
  · exact hargs.bind fun args c' d' _ hend => hclose args c' d' hend.joined
  · rw [bind_of_ok hrun]
    obtain ⟨n, -, hpast⟩ := hclosed.past
    rw [test_bind, (hpast.not_punctuation (p := .rbracket) (by decide)).1]
    simp only [Bool.false_eq_true, if_false]
    cases n with
    | zero =>
      have hk : c'.kind = .eof := (kind_of_rest hpast.rest).trans S.last_eof
      have herror : stillOpen .listLiteral opened listExpected c' = .error
          (((c'.failure (.unterminated .listLiteral)).withExpected listExpected).withLabel opened "opened here")
          c' := by
        unfold stillOpen
        rw [hk]
        rfl
      rw [bind_of_error herror]
      exact .late hpast.late
    | succ n =>
      have hk : c'.kind = .dedent := kind_of_rest hpast.rest
      have hopen : stillOpen .listLiteral opened listExpected c' = .ok () c' := by
        unfold stillOpen
        rw [hk]
        rfl
      have hcomma : noComma .listLiteral "[1 2 3]" listExpected c' = .ok () c' := by
        unfold noComma Cursor.atPunctuation
        rw [hk]
        rfl
      rw [bind_of_ok hopen, bind_of_ok hcomma]
      exact .late hpast.late

end

end PipeLang.Seam
