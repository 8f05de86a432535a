import PipeLang.Format.Layout
import PipeLang.Parse.Program
import PipeLang.Proofs.Format.ReadExpr
import PipeLang.Proofs.Tree.Nodes

/-! Statements are read back, and so are whole programs. A statement takes up one line, but that a pipeline
as its value may have a line for each stage, in an indented block. -/

namespace PipeLang

/-- A statement begins here with a token of its own, or the text ends. -/
def Cursor.AtLineStart (c : Cursor) : Prop := c.kind.isLayout = false

namespace Format

/-- Whether the value of a statement takes up more than one line. -/
def breaks (config : FormatConfig) (lead : String) : Expr → Bool
  | .pipeline s seed stages =>
    match config.layout with
    | .indented => true
    | .inline => false
    | .fit => config.lineLength < lead.length + (bare (.pipeline s seed stages)).length
  | _ => false

/-- A value with the end of its line, or of its block. -/
def valuePieces (broken : Bool) : Expr → List Piece
  | .pipeline s seed stages =>
    if broken then placePieces .seed seed (pieces seed) ++ stageBlock stages
    else pieces (.pipeline s seed stages) ++ [.plain .newline]
  | e => pieces e ++ [.plain .newline]

def statementPieces (config : FormatConfig) : Statement → List Piece
  | .assign _ name (.function _ params body) =>
    headPieces name params ++ valuePieces (breaks config (definitionHead name params) body) body
  | .assign _ name value =>
    headPieces name [] ++ valuePieces (breaks config (definitionHead name []) value) value
  | .expr _ e =>
    if startsLikeDefinition e then parensPieces (pieces e) ++ [.plain .newline]
    else valuePieces (breaks config "" e) e
  | .error _ => []

def programPieces (config : FormatConfig) (p : Program) : List Piece :=
  p.statements.flatMap (statementPieces config)

theorem valuePieces_cases (broken : Bool) (e : Expr) :
    valuePieces broken e = pieces e ++ [.plain .newline] ∨
      ∃ s seed stages, e = .pipeline s seed stages ∧
        valuePieces broken e = placePieces .seed seed (pieces seed) ++ stageBlock stages := by
  cases e with
  | pipeline s seed stages =>
    cases broken with
    | true => exact .inr ⟨s, seed, stages, rfl, rfl⟩
    | false => exact .inl rfl
  | _ => exact .inl rfl

end Format

namespace Parse

open Format

variable {o : ParseOptions} {S : Cursor → Prop} {n : Nat}

/-! What stands before the cursor, and the errors so far. -/

/-- The last token of what was read. -/
theorem At.last {k : TokenKind} {ps : List Piece} {K : Cursor → Prop} {c : Cursor}
    (h : At (ps ++ [.plain k]) K c) :
    At (ps ++ [.plain k]) (fun c => K c ∧ ∃ t, c.previous? = some t ∧ t.kind = k) c := by
  rw [at_append] at h ⊢
  refine h.mono fun c hc => ?_
  have hkind := At.kind hc
  obtain ⟨⟨t, rest, hr, ht⟩, hk⟩ := hc
  refine ⟨⟨t, rest, hr, ht⟩, hk, c.peek, Cursor.previous?_forward hr, ?_⟩
  exact hkind

theorem At.errors {ps : List Piece} {K : Cursor → Prop} {c : Cursor} {errors : List Diagnostic}
    (h : At ps K c) (he : c.errors = errors) : At ps (fun c => K c ∧ c.errors = errors) c := by
  induction ps generalizing c with
  | nil => exact ⟨h, he⟩
  | cons p ps ih =>
    have hforward : c.forward.errors = errors := by rw [Cursor.forward_errors, he]
    cases p with
    | gap => exact ⟨h.1, ih h.2 he⟩
    | glue => exact ⟨h.1, ih h.2 he⟩
    | plain kind => exact ⟨h.1, ih h.2 hforward⟩
    | text parts => exact ⟨h.1, ih h.2 hforward⟩

/-! Statements. -/

/-- The line ends, and no block follows. -/
theorem ends_of_line {c : Cursor} (hc : At [.plain .newline] Cursor.AtLineStart c) : c.Ends := by
  refine Cursor.ends_of_newline hc.kind ?_
  obtain ⟨⟨t, rest, hr, _⟩, hnext⟩ := hc
  have hnext : c.forward.kind.isLayout = false := hnext
  rw [Cursor.kindAt_one hr]
  cases hk : c.forward.kind with
  | indent => rw [hk] at hnext; cases hnext
  | _ => rfl

/-- What stands at the end of a statement: a line end, or nothing after the end of a block. -/
def IsLineEnd (ps rest : List Piece) : Prop :=
  rest = [.plain .newline] ∨ (rest = [] ∧ ∃ qs, ps = qs ++ [.plain .dedent])

/-- The value of a statement, up to the end of its line or its block. -/
theorem reads_value (hpipe : o.resolvePipelines = false) {e : Expr} (he : e.Formed n)
    {levels budget : Nat} (hl : sizeOf e ≤ levels) (hb : sizeOf e ≤ budget) (broken : Bool) :
    ∃ ps rest, valuePieces broken e = ps ++ rest ∧ BeginsExpression ps ∧ IsLineEnd ps rest ∧
      Reads (expression o (primary o levels) budget) ps (At rest Cursor.AtLineStart) e.Same := by
  rcases valuePieces_cases broken e with hv | ⟨s, seed, stages, rfl, hv⟩
  · refine ⟨pieces e, [.plain .newline], hv, beginsExpression he, .inl rfl, ?_⟩
    exact ((readable hpipe he).tail levels budget hl hb).mono (fun c hc => ends_of_line hc)
      fun _ hv => hv
  · simp only [Expr.pipeline.sizeOf_spec] at hl hb
    cases he with
    | pipeline hseed hne hst hcs has =>
      have hstages := isStage_of_mem (o := o)
        (fun k x hx _ => readable hpipe hx) hst hcs has
      refine ⟨placePieces .seed seed (pieces seed) ++ stageBlock stages, [], by rw [hv]; simp,
        (beginsExpression_place hseed .seed).append _, .inr ⟨rfl, ?_⟩, ?_⟩
      · refine ⟨placePieces .seed seed (pieces seed) ++ .plain .newline :: .plain .indent ::
          stages.flatMap (fun g => stagePieces g ++ [.plain .newline]), ?_⟩
        simp [stageBlock]
      · refine reads_staged s hne ((readable hpipe hseed).seed (by omega) (by omega))
          (reads_stageBlock hpipe hstages hne (by omega) (by omega)) fun c hc => ?_
        exact Cursor.stopsChain_of_newline (At.kind hc) 0

/-- A statement whose own tokens are `ps`, with the end of its line. -/
theorem reads_statementLine {ps rest : List Piece} {s : Statement}
    (hend : IsLineEnd ps rest)
    (h : Reads (statement o) ps (At rest Cursor.AtLineStart) (fun v => v.erase = s.erase)) :
    Reads (statementLine o) (ps ++ rest) Cursor.AtLineStart (fun v => v.erase = s.erase) := by
  intro K hk c hc
  have finish : ∀ {c v c'}, statement o c = .ok v c' → v.erase = s.erase →
      ∀ {c''}, endOfStatement c' = .ok () c'' → K c'' →
      ∃ a c'', statementLine o c = .ok a c'' ∧ a.erase = s.erase ∧ K c'' := by
    intro c v c' hrun hv c'' hlast hc''
    refine ⟨v, c'', ?_, hv, hc''⟩
    rw [statementLine, bind_of_ok hrun, bind_of_ok hlast]
    rfl
  rcases hend with rfl | ⟨rfl, qs, rfl⟩
  · obtain ⟨v, c', hrun, hv, hc'⟩ := h _ (fun c hc => hc.mono hk) c ((at_append _ _).mp hc)
    have hline : c'.atNewline = true := by
      unfold Cursor.atNewline
      rw [hc'.kind]
      rfl
    have hlast : endOfStatement c' = .ok () c'.next := by
      rw [endOfStatement, accept_bind_of_true hline]
      rfl
    exact finish hrun hv hlast (hc'.next nofun)
  · rw [List.append_nil] at hc
    obtain ⟨v, c', hrun, hv, hc', t, hprev, ht⟩ := h _ (fun c hc => hk c hc.1) c hc.last
    have hline : c'.atNewline = false := by
      have hstart : c'.kind.isLayout = false := hk c' hc'
      unfold Cursor.atNewline
      cases hk : c'.kind with
      | newline => rw [hk] at hstart; cases hstart
      | _ => rfl
    have hafter : (c'.atEnd || c'.afterDedent) = true := by
      unfold Cursor.afterDedent
      rw [hprev]
      dsimp only
      rw [ht, show TokenKind.dedent.isDedent = true from rfl, Bool.or_true]
    have hlast : endOfStatement c' = .ok () c' := by
      rw [endOfStatement, accept_bind_of_false hline, if_neg Bool.false_ne_true, test_bind, hafter]
      rfl
    exact finish hrun hv hlast hc'

theorem reads_assign {ps : List Piece} {body : Expr} {T : Cursor → Prop} (s : Span) (name : Name)
    (params : List Name) (value : Expr) (hb : BeginsExpression ps)
    (hread : Reads (expression o (rootPrimary o) o.maxDepth) ps T body.Same)
    (hvalue : ∀ found v, found.map Name.text = params.map Name.text → body.Same v →
      value.Same (definedValue found v)) :
    Reads (statement o) (headPieces name params ++ ps) T
      (fun v => v.erase = (Statement.assign s name value).erase) := by
  refine .test_bind (a := true) (fun c hc => atDefinition_of_head hc) ?_
  rw [if_pos rfl, ← List.append_nil (headPieces name params ++ ps)]
  refine .bind (reads_definition name params hb hread) (fun b hb => .pure ?_) fun c hc => hc
  obtain ⟨hname, found, v, hfound, hv, hval⟩ := hb
  have hsame : (definedValue found v).erase = value.erase := hvalue found v hfound hv
  unfold Statement.erase Statement.relocate Name.relocate
  unfold Expr.erase at hsame
  dsimp only
  rw [hname, hval, hsame]

theorem reads_expr {ps : List Piece} {e : Expr} {T : Cursor → Prop} (s : Span)
    (hdef : ∀ c, At ps T c → ¬c.LeadsTo (TokenKind.isOperator .eq))
    (hread : Reads (expression o (rootPrimary o) o.maxDepth) ps T e.Same) :
    Reads (statement o) ps T (fun v => v.erase = (Statement.expr s e).erase) := by
  refine .test_bind (a := false) (fun c hc => Cursor.namesThen_eq_false (hdef c hc)) ?_
  rw [if_neg Bool.false_ne_true, ← List.append_nil ps]
  refine .bind hread (fun v hv => .pure ?_) fun c hc => hc
  have hv : v.erase = e.erase := hv
  unfold Statement.erase Statement.relocate
  unfold Expr.erase at hv
  dsimp only
  rw [hv]

/-- Where a line ends, no equals sign comes next. -/
theorem not_leadsTo_of_newline {ps : List Piece} {K : Cursor → Prop} {c : Cursor}
    (hc : At (.plain .newline :: ps) K c) : ¬c.LeadsTo (TokenKind.isOperator .eq) := by
  rw [hc.leadsTo_plain rfl]
  exact Bool.false_ne_true

theorem not_leadsTo_of_value {e : Expr} (he : e.Formed n) (hs : startsLikeDefinition e = false)
    {broken : Bool} {K : Cursor → Prop} {c : Cursor} (hc : At (valuePieces broken e) K c) :
    ¬c.LeadsTo (TokenKind.isOperator .eq) := by
  rcases valuePieces_cases broken e with hv | ⟨s, seed, stages, rfl, hv⟩
  · rw [hv, at_append] at hc
    exact not_leadsTo_of_not_startsLikeDefinition he hs hc fun _ _ hc => not_leadsTo_of_newline hc
  · rw [hv, at_append] at hc
    have hseed : startsLikeDefinition seed = false := hs
    cases he with
    | pipeline hf =>
      cases hn : needsParens .seed seed with
      | true =>
        rw [placePieces_of_true hn] at hc
        exact not_leadsTo_of_parens marksNames_eq hc
      | false =>
        rw [placePieces_of_false hn] at hc
        exact not_leadsTo_of_not_startsLikeDefinition hf hseed hc
          fun _ _ hc => not_leadsTo_of_newline hc

/-- The nesting depth is enough for a statement. -/
def Fits (depth : Nat) : Statement → Prop
  | .assign _ _ value | .expr _ value => sizeOf value < depth
  | .error _ => True

theorem reads_statement (hpipe : o.resolvePipelines = false) (config : FormatConfig) {s : Statement}
    (hs : s.Formed n) (hroom : Fits o.maxDepth s) :
    Reads (statementLine o) (statementPieces config s) Cursor.AtLineStart
      (fun v => v.erase = s.erase) := by
  cases s with
  | error => exact hs.elim
  | assign sp name value =>
    have hroom : sizeOf value < o.maxDepth := hroom
    have assigned : ∀ params body broken, body.Formed n → sizeOf body ≤ o.maxDepth →
        (∀ found v, found.map Name.text = params.map Name.text → body.Same v →
          value.Same (definedValue found v)) →
        Reads (statementLine o) (headPieces name params ++ valuePieces broken body)
          Cursor.AtLineStart (fun v => v.erase = (Statement.assign sp name value).erase) := by
      intro params body broken hf hsize hvalue
      obtain ⟨ps, rest, hv, hb, hend, hread⟩ := reads_value hpipe hf hsize hsize broken
      rw [hv, ← List.append_assoc]
      refine reads_statementLine ?_ (reads_assign sp name params value hb hread hvalue)
      rcases hend with hend | ⟨hend, qs, rfl⟩
      · exact .inl hend
      · exact .inr ⟨hend, headPieces name params ++ qs, by simp⟩
    cases hvalue : value with
    | function fs params body =>
      subst hvalue
      simp only [Expr.function.sizeOf_spec] at hroom
      cases hs.2 with
      | function hne hparams hbody =>
        refine assigned params body _ hbody (by omega) fun found v hfound hv => ?_
        exact (same_definedValue fs hfound hv).1 hne
    | _ =>
      rw [← hvalue]
      have hpieces : statementPieces config (.assign sp name value) = headPieces name [] ++
          valuePieces (breaks config (definitionHead name []) value) value := by
        rw [hvalue]
        rfl
      rw [hpieces]
      refine assigned [] value _ hs.2 (by omega) fun found v hfound hv => ?_
      exact (same_definedValue .origin hfound hv).2 rfl
  | expr sp e =>
    have he : e.Formed n := hs
    have hroom : sizeOf e < o.maxDepth := hroom
    have hpieces : statementPieces config (.expr sp e) =
        if startsLikeDefinition e then parensPieces (pieces e) ++ [.plain .newline]
        else valuePieces (breaks config "" e) e := rfl
    rw [hpieces]
    split
    · refine reads_statementLine (.inl rfl) (reads_expr sp
        (fun c hc => not_leadsTo_of_parens marksNames_eq hc) ?_)
      have hread := reads_unstaged ((climbs_parens (readable hpipe he) 0).reads (fun c hc => hc.1)
        hroom hroom)
      exact hread.mono (fun c hc => (ends_of_line hc).stages) fun _ hv => hv
    · next hlike =>
      have hlike : startsLikeDefinition e = false := Bool.eq_false_iff.mpr hlike
      have hsize : sizeOf e ≤ o.maxDepth := by omega
      obtain ⟨ps, rest, hv, _, hend, hread⟩ :=
        reads_value hpipe he hsize hsize (breaks config "" e)
      rw [hv]
      refine reads_statementLine hend (reads_expr sp (fun c hc => ?_) hread)
      rw [← at_append, ← hv] at hc
      exact not_leadsTo_of_value he hlike hc

/-! Programs. -/

theorem beginsExpression_value {e : Expr} (he : e.Formed n) (broken : Bool) :
    BeginsExpression (valuePieces broken e) := by
  rcases valuePieces_cases broken e with hv | ⟨s, seed, stages, rfl, hv⟩
  · rw [hv]
    exact (beginsExpression he).append _
  · rw [hv]
    cases he with
    | pipeline hf => exact (beginsExpression_place hf .seed).append _

theorem beginsExpression_statement (config : FormatConfig) {s : Statement} (hs : s.Formed n) :
    BeginsExpression (statementPieces config s) := by
  cases s with
  | error => exact hs.elim
  | assign sp name value =>
    have hname : ∀ params ps, BeginsExpression (headPieces name params ++ ps) :=
      fun _ _ => .inl ⟨_, _, rfl, rfl⟩
    cases value <;> exact hname _ _
  | expr sp e =>
    have hpieces : statementPieces config (.expr sp e) =
        if startsLikeDefinition e then parensPieces (pieces e) ++ [.plain .newline]
        else valuePieces (breaks config "" e) e := rfl
    rw [hpieces]
    split
    · exact .inl ⟨_, _, rfl, rfl⟩
    · exact beginsExpression_value hs _

theorem rest_of_beginsExpression {ps : List Piece} {K : Cursor → Prop} {c : Cursor}
    (hb : BeginsExpression ps) (h : At ps K c) : ∃ t rest, c.rest = t :: rest := by
  rcases hb with ⟨p, qs, rfl, hp⟩ | ⟨k, qs, rfl, _⟩
  · cases p with
    | gap => cases hp
    | glue => cases hp
    | plain kind =>
      obtain ⟨⟨t, rest, hr, _⟩, _⟩ := h
      exact ⟨t, rest, hr⟩
    | text parts =>
      obtain ⟨⟨t, rest, _, hr, _⟩, _⟩ := h
      exact ⟨t, rest, hr⟩
  · obtain ⟨⟨t, rest, hr, _⟩, _⟩ := h
    exact ⟨t, rest, hr⟩

theorem settled_of_start {c : Cursor} {t : Token} {rest : List Token} (hr : c.rest = t :: rest)
    (ht : t.kind.isLayout = false) : settled c = c := by
  obtain ⟨before, ts, errors⟩ := c
  have hr : ts = t :: rest := hr
  subst hr
  have hline : t.kind.isNewline = false := by
    cases hk : t.kind <;> first | rfl | (rw [hk] at ht; cases ht)
  have hdedent : t.kind.isDedent = false := by
    cases hk : t.kind <;> first | rfl | (rw [hk] at ht; cases ht)
  simp [settled, Cursor.skipWhile, hline, hdedent]

theorem reads_statements (hpipe : o.resolvePipelines = false) (config : FormatConfig)
    {ss : List Statement} (hs : ∀ s ∈ ss, s.Formed n)
    (hroom : ∀ s ∈ ss, Fits o.maxDepth s) {c : Cursor}
    (hc : At (ss.flatMap (statementPieces config)) Cursor.Finished c) {fuel : Nat}
    (hfuel : ss.length < fuel) :
    ∃ found last, statementsUpTo o fuel c = (found, last) ∧ last.errors = c.errors ∧
      found.map Statement.erase = ss.map Statement.erase := by
  induction ss generalizing c fuel with
  | nil =>
    obtain ⟨t, hr, ht⟩ := hc
    obtain ⟨m, rfl⟩ : ∃ m, fuel = m + 1 := ⟨fuel - 1, by simp at hfuel; omega⟩
    have hsettled := settled_of_start hr (by rw [ht]; rfl)
    have hend : c.atEnd = true := by
      unfold Cursor.atEnd
      rw [kind_of_rest hr, ht]
      rfl
    refine ⟨[], c, ?_, rfl, rfl⟩
    rw [statementsUpTo, hsettled, hend]
    rfl
  | cons s ss ih =>
    obtain ⟨m, rfl⟩ : ∃ m, fuel = m + 1 := ⟨fuel - 1, by simp at hfuel; omega⟩
    have hfuel : ss.length < m := by simpa using hfuel
    have hstart : ∀ c, At (ss.flatMap (statementPieces config)) Cursor.Finished c →
        c.AtLineStart := by
      intro c hc
      cases ss with
      | nil =>
        obtain ⟨t, hr, ht⟩ := hc
        unfold Cursor.AtLineStart
        rw [kind_of_rest hr, ht]
        rfl
      | cons s' ss =>
        have hs' := hs s' (List.mem_cons_of_mem _ List.mem_cons_self)
        rw [List.flatMap_cons, at_append] at hc
        exact (kind_of_beginsExpression (beginsExpression_statement config hs') hc).1
    rw [List.flatMap_cons, at_append] at hc
    have hbegin := kind_of_beginsExpression
      (beginsExpression_statement config (hs s List.mem_cons_self)) hc
    obtain ⟨t, rest, hr⟩ := rest_of_beginsExpression
      (beginsExpression_statement config (hs s List.mem_cons_self)) hc
    have hsettled := settled_of_start hr (by rw [← kind_of_rest hr]; exact hbegin.1)
    have hend : c.atEnd = false := by
      cases he : c.atEnd with
      | false => rfl
      | true => exact absurd (TokenKind.isEof_iff.mp he) hbegin.2.1
    obtain ⟨v, c', hrun, hv, hc', herrors⟩ :=
      reads_statement hpipe config (hs s List.mem_cons_self) (hroom s List.mem_cons_self)
        (fun c' => At (ss.flatMap (statementPieces config)) Cursor.Finished c' ∧
          c'.errors = c.errors) (fun c' hc' => hstart c' hc'.1) c (hc.errors rfl)
    obtain ⟨found, last, hrest, hlast, hfound⟩ :=
      ih (fun s hm => hs s (List.mem_cons_of_mem _ hm))
        (fun s hm => hroom s (List.mem_cons_of_mem _ hm)) hc' hfuel
    refine ⟨v :: found, last, ?_, hlast.trans herrors, ?_⟩
    · rw [statementsUpTo, hsettled]
      dsimp only
      rw [hend, if_neg Bool.false_ne_true, hrun]
      dsimp only
      rw [hrest]
    · rw [List.map_cons, List.map_cons, hv, hfound]

theorem count_pos_of_statement (config : FormatConfig) {s : Statement} (hs : s.Formed n) :
    0 < ((statementPieces config s).map Piece.count).sum := by
  rcases beginsExpression_statement config hs with ⟨p, rest, he, hp⟩ | ⟨k, rest, he, _⟩
  · rw [he]
    cases p with
    | gap => cases hp
    | glue => cases hp
    | plain kind => simp only [List.map_cons, List.sum_cons, Piece.count]; omega
    | text parts => simp only [List.map_cons, List.sum_cons, Piece.count]; omega
  · rw [he]
    simp only [List.map_cons, List.sum_cons, Piece.count]
    omega

theorem fits_of_size {p : Program} {s : Statement} (hs : s ∈ p.statements) {depth : Nat}
    (h : sizeOf p.statements ≤ depth) : Fits depth s := by
  have hsize := List.sizeOf_lt_of_mem hs
  cases s with
  | assign sp name value =>
    simp only [Statement.assign.sizeOf_spec] at hsize
    show sizeOf value < depth
    omega
  | expr sp value =>
    simp only [Statement.expr.sizeOf_spec] at hsize
    show sizeOf value < depth
    omega
  | error => trivial

/-- Where the tokens of a program are ahead that gives no key twice, parsing gives the program back. -/
theorem parse_of_at (hpipe : o.resolvePipelines = false) (config : FormatConfig) {p : Program}
    (hp : p.Formed n) (hkeys : p.keyErrors = []) (hdepth : sizeOf p.statements ≤ o.maxDepth)
    {tokens : List Token} (hc : At (programPieces config p) Cursor.Finished (.ofTokens tokens)) :
    ∃ q, parse o tokens = .ok q ∧ q.erase = p.erase := by
  have hlen : p.statements.length ≤ tokens.length :=
    hc.length_le fun s hs => count_pos_of_statement config (hp s hs)
  obtain ⟨found, last, hrun, herrors, hfound⟩ := reads_statements hpipe config hp
    (fun s hs => fits_of_size hs hdepth) hc (Nat.lt_succ_of_le hlen)
  have herase : (Program.ofStatements found).erase = p.erase := by
    show Program.mk ((Program.ofStatements found).statements.map Statement.erase) .origin =
      Program.mk (p.statements.map Statement.erase) .origin
    rw [Program.statements_ofStatements, hfound]
  refine ⟨.ofStatements found, ?_, herase⟩
  have hall : run o tokens = (.ofStatements found, []) := by
    have hlast : last.errors = [] := herrors
    unfold run
    rw [hrun]
    dsimp only
    rw [hlast]
    rfl
  have hmap := congrArg Program.keyErrors herase
  unfold Program.erase at hmap
  rw [Program.keyErrors_relocate, Program.keyErrors_relocate, hkeys, List.map_nil,
    List.map_eq_nil_iff] at hmap
  refine parse_eq_ok.mpr ⟨by rw [hall], by rw [hall]; exact hmap, ?_⟩
  rw [hall, Program.desugar, hpipe]
  rfl

end Parse

end PipeLang
