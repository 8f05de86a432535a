import PipeLang.Proofs.Parse.CarriedStage

/-! Stages in the two layouts of a pipeline. They stand on the line of the seed, each after a pipe, or one
a line in an indented block. Two loops collect them, and they collect the same stages. -/

namespace PipeLang

/-- Stages on the line of the seed, each after a pipe, and the end of the text. -/
inductive InlineStages : List (List Token) → List Token → Prop
  | nil {e : Token} (eof : e.kind = .eof) : InlineStages [] [e]
  | cons {pipe : Token} {stage : List Token} {stages : List (List Token)} {rest : List Token}
    (kind : pipe.kind = .punctuation .pipe) (more : InlineStages stages rest) :
    InlineStages (stage :: stages) (pipe :: (stage ++ rest))

/-- Stages one a line, the end of their block and the end of the text. -/
inductive StageLines : List (List Token) → List Token → Prop
  | last {stage : List Token} {newline dedent e : Token} (line : newline.kind = .newline)
    (closed : dedent.kind = .dedent) (eof : e.kind = .eof) :
    StageLines [stage] (stage ++ [newline, dedent, e])
  | cons {stage : List Token} {newline : Token} {stages : List (List Token)} {rest : List Token}
    (line : newline.kind = .newline) (more : StageLines stages rest) :
    StageLines (stage :: stages) (stage ++ newline :: rest)

/-- The line of a seed is over and the block of its stages starts. -/
inductive IndentedStages : List (List Token) → List Token → Prop
  | block {newline indent : Token} {stages : List (List Token)} {rest : List Token}
    (line : newline.kind = .newline) (opened : indent.kind = .indent)
    (lines : StageLines stages rest) : IndentedStages stages (newline :: indent :: rest)

theorem InlineStages.follows {stages : List (List Token)} {v : List Token}
    (h : InlineStages stages v) : StageFollow v := by
  induction h with
  | @nil e eof => exact ⟨⟨e, [], rfl, by rw [eof]; rfl⟩, e, rfl, eof⟩
  | @cons pipe stage stages rest kind _ ih =>
    refine ⟨⟨pipe, _, rfl, by rw [kind]; rfl⟩, ?_⟩
    obtain ⟨t, ht, hk⟩ := ih.last
    obtain ⟨u, us, hu, _⟩ := ih.first
    refine ⟨t, ?_, hk⟩
    rw [← List.cons_append, List.getLast?_append_of_ne_nil _ (by rw [hu]; exact List.cons_ne_nil u us)]
    exact ht

theorem StageLines.last_eof {stages : List (List Token)} {v : List Token}
    (h : StageLines stages v) : ∃ t, v.getLast? = some t ∧ t.kind = .eof := by
  induction h with
  | @last stage newline dedent e _ _ eof =>
    exact ⟨e, by rw [List.getLast?_append_of_ne_nil _ (by simp)]; rfl, eof⟩
  | @cons stage newline stages rest _ more ih =>
    obtain ⟨t, ht, hk⟩ := ih
    refine ⟨t, ?_, hk⟩
    rw [List.getLast?_append_of_ne_nil _ (List.cons_ne_nil _ _), List.getLast?_cons, ht]
    rfl

/-- What ends a line and is followed by an end marker in the end may follow a stage. -/
theorem StageFollow.of_newline {newline : Token} {v : List Token} (hk : newline.kind = .newline)
    (hlast : ∃ t, v.getLast? = some t ∧ t.kind = .eof) : StageFollow (newline :: v) := by
  refine ⟨⟨newline, v, rfl, by rw [hk]; rfl⟩, ?_⟩
  obtain ⟨t, ht, he⟩ := hlast
  exact ⟨t, by rw [List.getLast?_cons, ht]; rfl, he⟩

theorem IndentedStages.follows {stages : List (List Token)} {v : List Token}
    (h : IndentedStages stages v) : StageFollow v := by
  cases h with
  | @block newline indent _ rest line _ lines =>
    refine .of_newline line ?_
    obtain ⟨t, ht, he⟩ := lines.last_eof
    exact ⟨t, by rw [List.getLast?_cons, ht]; rfl, he⟩

namespace Parse

variable {α β σ : Type}

/-- The rule reads a token list as far as its last token and records no error. -/
def ReadsAll (rule : Parse α) (ts : List Token) (a : α) : Prop :=
  ∃ c, rule (.ofTokens ts) = .ok a c ∧ c.rest.length = 1 ∧ c.errors = []

instance (rule : Parse α) (ts : List Token) : Decidable (∃ a, ReadsAll rule ts a) :=
  match h : rule (.ofTokens ts) with
  | .ok a c => decidable_of_iff (c.rest.length = 1 ∧ c.errors = [])
    ⟨fun hc => ⟨a, c, h, hc⟩, fun ⟨_, _, hrun, hc⟩ => by rw [h] at hrun; cases hrun; exact hc⟩
  | .error _ _ => .isFalse fun ⟨_, _, hrun, _⟩ => by rw [h] at hrun; cases hrun

/-- The rule reads all of `ts`, with nothing but an end marker after it. -/
def ReadsAlone (rule : Parse α) (ts : List Token) (a : α) : Prop :=
  ∃ e : Token, e.kind = .eof ∧ ReadsAll rule (ts ++ [e]) a

/-- Tokens with no line structure, in which no construct stands outside brackets. -/
structure Plain (ts : List Token) : Prop where
  free : ∀ t ∈ ts, t.kind.isLayout = false
  constructs : ConstructsEnclosed ts

theorem Plain.led_primary {o : ParseOptions} {e : Token} {v ts : List Token} (h : Plain ts)
    (he : e.kind = .eof) (hv : Follow v) (levels : Nat) :
    ∀ b c, LedFrom e v ts c (primary o levels b) :=
  Parse.led_primary he hv (fun n _ b => constructsLed_of_enclosed he h.constructs n b) levels

/-! ## The loops over stages -/

section

variable (o : ParseOptions) (primary : Primary)

/-- What `allStages` does once some stages are read. -/
def stagesFrom (s : Stages) : Parse (List Stage) := do
  let s ← inlineStages o primary s
  if ← openBlock TokenKind.isIdent then
    let s ← rounds (stageLine o primary) s
    pure s.stages.reverse
  else pure s.stages.reverse

def pipelineOf (seed : Expr) (stages : List Stage) : Expr :=
  match stages.getLast? with
  | some last => .pipeline (seed.span.merge last.span) seed stages
  | none => seed

theorem expression_parts (b : Nat) :
    expression o primary b = (do
      let first ← application o primary b
      let seed ← chain o primary b first 0
      let stages ← stagesFrom o primary ⟨b, []⟩
      pure (pipelineOf seed stages)) := by
  refine bind_congr fun first => bind_congr fun seed => ?_
  refine bind_congr (m := Parse) (x := allStages o primary b) fun stages => ?_
  unfold pipelineOf
  cases stages.getLast? <;> rfl

end

variable {o : ParseOptions}

section

variable {primary : Primary} (hm : ∀ b, Moves (fun _ => 1) (primary b))

include hm

theorem inlineStages_eq (s : Stages) {c : Cursor} (hc : c.Ended) :
    inlineStages o primary s c = if c.atPunctuation .pipe then
      (pushStage o primary s >>= inlineStages o primary) c.next else .ok s c := by
  unfold inlineStages
  rw [rounds_eq (moves_pipeRound hm) s hc]
  cases hp : c.atPunctuation .pipe with
  | true =>
    rw [bind_assoc, accept_bind_of_true hp]
    simp only [if_true, bind_assoc, pure_bind]
  | false =>
    rw [bind_assoc, accept_bind_of_false hp]
    rfl

theorem inlineStages_of_pipe {s s' : Stages} {c c' : Cursor} (hc : c.Ended)
    (hp : c.atPunctuation .pipe = true) (hpush : pushStage o primary s c.next = .ok s' c') :
    inlineStages o primary s c = inlineStages o primary s' c' := by
  rw [inlineStages_eq hm s hc, if_pos hp, bind_of_ok hpush]

theorem inlineStages_of_not_pipe (s : Stages) {c : Cursor} (hc : c.Ended)
    (hp : c.atPunctuation .pipe = false) : inlineStages o primary s c = .ok s c := by
  rw [inlineStages_eq hm s hc, hp]
  rfl

end

/-- Without rewiring every stage has the same levels. -/
theorem pushStage_eq (hfree : o.resolvePipelines = false) (primary : Primary) (s : Stages) :
    pushStage o primary s = (do
      let next ← stage o primary s.budget
      pure ⟨s.budget, next :: s.stages⟩) := by
  unfold pushStage
  rw [hfree]
  rfl

/-! ## Stages in their places -/

/-- A stage that is read alone is read in front of whatever may follow a stage. -/
theorem stage_of_alone {levels b : Nat} {ts v : List Token} {a : Stage} (hplain : Plain ts)
    (halone : ReadsAlone (stage o (primary o levels) b) ts a) (hv : StageFollow v) {d : Cursor}
    (hd : d.rest = ts ++ v) : ∃ d', stage o (primary o levels) b d = .ok a d' ∧ d'.rest = v := by
  obtain ⟨e, he, c', hrun, hlength, -⟩ := halone
  have hahead : (Cursor.ofTokens (ts ++ [e])).Ahead e v ts d := ⟨rfl, hd, hplain.free, fun t _ => hv.apart t⟩
  obtain ⟨d', r', hd', h'⟩ := led_stage he hv (hplain.led_primary he hv.follow levels) b _ _ _ hahead
    ⟨rfl, hahead.ended he, rfl⟩ _ _ hrun
  have hr' : r' = [] := by
    rw [h'.front] at hlength
    simpa using hlength
  exact ⟨d', hd', by rw [h'.back, hr']; rfl⟩

/-- A stage starts with a name. -/
theorem ident_of_alone {primary : Primary} {b : Nat} {ts : List Token} {a : Stage}
    (halone : ReadsAlone (stage o primary b) ts a) :
    ∃ t rest, ts = t :: rest ∧ t.kind.isIdent = true := by
  obtain ⟨e, he, c', hrun, -⟩ := halone
  unfold stage at hrun
  rw [test_bind] at hrun
  cases ts with
  | nil =>
    have hno : (Cursor.ofTokens ([] ++ [e])).atIdent = false := by
      show e.kind.isIdent = false
      rw [he]
      rfl
    rw [hno] at hrun
    cases hrun
  | cons t rest =>
    refine ⟨t, rest, rfl, ?_⟩
    cases hident : t.kind.isIdent with
    | true => rfl
    | false =>
      rw [show (Cursor.ofTokens (t :: rest ++ [e])).atIdent = false from hident] at hrun
      cases hrun

/-- The cursor past a token that is known to come next. -/
theorem next_rest {c : Cursor} {t : Token} {ts : List Token} (h : c.rest = t :: ts)
    (ht : t.kind ≠ .eof) : c.next.rest = ts := by
  rw [next_eq_forward (by rw [kind_of_rest h]; exact ht), Cursor.forward, h]

theorem ended_of_rest {c : Cursor} {v : List Token} (h : c.rest = v)
    (hlast : ∃ t, v.getLast? = some t ∧ t.kind = .eof) : c.Ended := by
  rw [← h] at hlast
  exact hlast

section

variable (hfree : o.resolvePipelines = false) {levels b : Nat} {stages : List (List Token)}
  {as : List Stage}
  (hstages : List.Forall₂ (fun ts a => Plain ts ∧ ReadsAlone (stage o (primary o levels) b) ts a)
    stages as)

include hfree

/-- One more stage in its place. -/
theorem pushStage_of_alone {ts v : List Token} {a : Stage}
    (h : Plain ts ∧ ReadsAlone (stage o (primary o levels) b) ts a) (hv : StageFollow v)
    (found : List Stage) {d : Cursor} (hd : d.rest = ts ++ v) :
    ∃ d', pushStage o (primary o levels) ⟨b, found⟩ d = .ok ⟨b, a :: found⟩ d' ∧ d'.rest = v := by
  obtain ⟨d', hrun, hrest⟩ := stage_of_alone h.1 h.2 hv hd
  refine ⟨d', ?_, hrest⟩
  rw [pushStage_eq hfree]
  exact bind_of_ok hrun

include hstages

theorem inlineStages_of_layout {v : List Token} (h : InlineStages stages v) :
    ∀ (found : List Stage) {d : Cursor}, d.rest = v →
      ∃ d', inlineStages o (primary o levels) ⟨b, found⟩ d = .ok ⟨b, as.reverse ++ found⟩ d' ∧
        d'.rest.length = 1 ∧ d'.kind = .eof := by
  have hm := moves_primary o levels
  induction h generalizing as with
  | @nil e eof =>
    intro found d hd
    cases hstages
    have hk : d.kind = .eof := (kind_of_rest hd).trans eof
    refine ⟨d, inlineStages_of_not_pipe hm _ (ended_of_rest hd (InlineStages.nil eof).follows.last) ?_,
      by rw [hd]; rfl, hk⟩
    rw [Cursor.atPunctuation, hk]
    rfl
  | @cons pipe ts stages rest kind more ih =>
    intro found d hd
    cases hstages with
    | @cons _ a _ as hstage hstages =>
      have hk : d.kind = .punctuation .pipe := (kind_of_rest hd).trans kind
      have hnext : d.next.rest = ts ++ rest := next_rest hd (by rw [kind]; simp)
      obtain ⟨d1, hpush, hd1⟩ := pushStage_of_alone hfree hstage more.follows found hnext
      obtain ⟨d2, hrun, hend⟩ := ih hstages (a :: found) hd1
      refine ⟨d2, ?_, hend⟩
      have hended := ended_of_rest hd (InlineStages.cons kind more).follows.last
      rw [inlineStages_of_pipe hm hended (TokenKind.isPunctuation_iff.mpr hk) hpush, hrun,
        List.reverse_cons, List.append_assoc]
      rfl

omit hstages in
/-- A line with one stage: what follows its line end says whether the block goes on. -/
theorem stageLine_of_alone {ts w : List Token} {newline : Token} {a : Stage}
    (h : Plain ts ∧ ReadsAlone (stage o (primary o levels) b) ts a)
    (hline : newline.kind = .newline) (hlast : ∃ t, w.getLast? = some t ∧ t.kind = .eof)
    (found : List Stage) {d : Cursor} (hd : d.rest = ts ++ newline :: w) :
    ∃ d', d'.rest = w ∧ stageLine o (primary o levels) ⟨b, found⟩ d = (do
      if ← accept Cursor.atDedent then pure (.done ⟨b, a :: found⟩)
      else if ← test (·.kind.isIndent) then
        fail fun c => (c.failure .unevenStages).withNote
          "a stage line cannot be indented deeper than the stage before it"
      else pure (.again ⟨b, a :: found⟩) : Parse (Round Stages)) d' := by
  have hv : StageFollow (newline :: w) := .of_newline hline hlast
  obtain ⟨d1, hpush, hd1⟩ := pushStage_of_alone hfree h hv found hd
  have hk : d1.kind = .newline := (kind_of_rest hd1).trans hline
  have hinline : inlineStages o (primary o levels) ⟨b, a :: found⟩ d1 = .ok ⟨b, a :: found⟩ d1 :=
    inlineStages_of_not_pipe (moves_primary o levels) _ (ended_of_rest hd1 hv.last)
      (by rw [Cursor.atPunctuation, hk]; rfl)
  refine ⟨d1.next, next_rest hd1 (by rw [hline]; simp), ?_⟩
  unfold stageLine
  rw [bind_of_ok hpush, bind_of_ok hinline, accept_bind_of_true (by rw [Cursor.atNewline, hk]; rfl)]
  rfl

omit hfree in
/-- A line of stages starts with the name of one. -/
theorem ident_of_lines {v : List Token} (h : StageLines stages v) :
    ∃ t rest, v = t :: rest ∧ t.kind.isIdent = true := by
  cases h with
  | last | cons =>
    cases hstages with
    | cons hstage _ =>
      obtain ⟨t, rest, rfl, ht⟩ := ident_of_alone hstage.2
      exact ⟨t, _, rfl, ht⟩

theorem stageLines_of_layout {v : List Token} (h : StageLines stages v) :
    ∀ (found : List Stage) {d : Cursor}, d.rest = v →
      ∃ d', rounds (stageLine o (primary o levels)) ⟨b, found⟩ d =
          .ok ⟨b, as.reverse ++ found⟩ d' ∧ d'.rest.length = 1 := by
  have hm := moves_primary o levels
  induction h generalizing as with
  | @last ts newline dedent e line closed eof =>
    intro found d hd
    cases hstages with
    | @cons _ a _ _ hstage hnil =>
      cases hnil
      obtain ⟨d1, hd1, hrun⟩ := stageLine_of_alone (w := [dedent, e]) hfree hstage line ⟨e, rfl, eof⟩ found hd
      have hk : d1.kind = .dedent := (kind_of_rest hd1).trans closed
      refine ⟨d1.next, ?_, by rw [next_rest hd1 (by rw [closed]; simp)]; rfl⟩
      rw [rounds_eq (moves_stageLine hm) _ (ended_of_rest hd (StageLines.last line closed eof).last_eof)]
      rw [accept_bind_of_true (by rw [Cursor.atDedent, hk]; rfl)] at hrun
      exact bind_of_ok hrun
  | @cons ts newline stages rest line more ih =>
    intro found d hd
    cases hstages with
    | @cons _ a _ as hstage hstages =>
      obtain ⟨d1, hd1, hrun⟩ := stageLine_of_alone hfree hstage line more.last_eof found hd
      -- the next line starts with the name of its stage
      have hident : d1.kind.isIdent = true := by
        obtain ⟨t, _, hname, ht⟩ := ident_of_lines hstages more
        rw [kind_of_rest (hd1.trans hname)]
        exact ht
      obtain ⟨d2, hrest, hend⟩ := ih hstages (a :: found) hd1
      refine ⟨d2, ?_, hend⟩
      rw [rounds_eq (moves_stageLine hm) _ (ended_of_rest hd (StageLines.cons line more).last_eof)]
      have hno : d1.atDedent = false ∧ d1.kind.isIndent = false := by
        unfold Cursor.atDedent
        cases hk : d1.kind <;> rw [hk] at hident <;> first | exact ⟨rfl, rfl⟩ | cases hident
      rw [accept_bind_of_false hno.1] at hrun
      simp only [Bool.false_eq_true, if_false] at hrun
      rw [test_bind, hno.2] at hrun
      rw [bind_of_ok hrun]
      dsimp only
      rw [hrest, List.reverse_cons, List.append_assoc]
      rfl

/-- The stages of either layout, with some read before them. -/
theorem stagesFrom_of_layout {v : List Token}
    (h : InlineStages stages v ∨ IndentedStages stages v) (found : List Stage) {d : Cursor}
    (hd : d.rest = v) :
    ∃ d', stagesFrom o (primary o levels) ⟨b, found⟩ d = .ok (found.reverse ++ as) d' ∧
      d'.rest.length = 1 := by
  have hall : (as.reverse ++ found).reverse = found.reverse ++ as := by
    rw [List.reverse_append, List.reverse_reverse]
  rcases h with hinline | hindented
  · obtain ⟨d1, hrun, hlength, hend⟩ := inlineStages_of_layout hfree hstages hinline found hd
    have hblock : openBlock TokenKind.isIdent d1 = .ok false d1 := by
      unfold openBlock Cursor.atBlock Cursor.atNewline
      rw [hend]
      rfl
    refine ⟨d1, ?_, hlength⟩
    unfold stagesFrom
    rw [bind_of_ok hrun, bind_of_ok hblock, ← hall]
    rfl
  · cases hindented with
    | @block newline indent _ rest line opened lines =>
      have hk : d.kind = .newline := (kind_of_rest hd).trans line
      have hforward : d.forward.rest = indent :: rest := by rw [Cursor.forward, hd]
      have hlines : d.forward.forward.rest = rest := by rw [Cursor.forward, hforward]
      have hinline : inlineStages o (primary o levels) ⟨b, found⟩ d = .ok ⟨b, found⟩ d := by
        refine inlineStages_of_not_pipe (moves_primary o levels) _ (ended_of_rest hd ?_) ?_
        · exact (IndentedStages.block line opened lines).follows.last
        · rw [Cursor.atPunctuation, hk]
          rfl
      have hblock : openBlock TokenKind.isIdent d = .ok true d.forward.forward := by
        obtain ⟨t, more, rfl, ht⟩ := ident_of_lines hstages lines
        have hone : d.kindAt 1 = .indent := by
          rw [Cursor.kindAt_one hd, kind_of_rest hforward, opened]
        have htwo : d.kindAt 2 = t.kind := by
          unfold Cursor.kindAt
          rw [Cursor.peekAt_succ hd, Cursor.peekAt_one hforward]
          exact kind_of_rest hlines
        unfold openBlock Cursor.atBlock Cursor.atNewline
        rw [hk, hone, htwo, ht]
        rfl
      obtain ⟨d1, hrun, hlength⟩ := stageLines_of_layout hfree hstages lines found hlines
      refine ⟨d1, ?_, hlength⟩
      unfold stagesFrom
      rw [bind_of_ok hinline, bind_of_ok hblock]
      simp only [if_true]
      rw [bind_of_ok hrun, ← hall]
      rfl

end

end Parse

end PipeLang
