import PipeLang.Proofs.Format.ReadProgram
import PipeLang.Proofs.Format.WrittenLine

/-! The text of a program as it is read: lines for every statement, and for every stage of a pipeline that
is laid out so. The block of such a pipeline is closed by the next line, or by the end of the text. -/

namespace PipeLang

open Scan State

namespace Parse

open Format

variable {ps qs : List Piece} {config : FormatConfig}

/-- The indented block, if there is one. -/
def blocksOf (config : FormatConfig) (isOpen : Bool) : List (List Char) :=
  if isOpen then [List.replicate config.indentWidth ' '] else []

/-- What the next line, or the end of the text, has to close. -/
def due (isOpen : Bool) : List Piece := if isOpen then [.plain .dedent] else []

def linesText (lines : List String) : List Char := (String.join (lines.map (· ++ "\n"))).toList

theorem linesText_cons (line : String) (lines : List String) :
    linesText (line :: lines) = line.toList ++ ['\n'] ++ linesText lines := by
  simp [linesText]

theorem linesText_append (lines more : List String) :
    linesText (lines ++ more) = linesText lines ++ linesText more := by
  simp [linesText, String.join_append]

theorem not_slash_of_beginsExpression (h : BeginsExpression ps) :
    ps.head? ≠ some (.plain (.operator .slash)) := by
  rcases h with ⟨p, rest, rfl, hp⟩ | ⟨k, rest, rfl, _⟩
  · intro he
    rw [Option.some.inj he] at hp
    cases hp
  · nofun

section

variable (hwidth : 2 ≤ config.indentWidth)

include hwidth

/-- A line that is not indented. -/
theorem readsLines_outer (isOpen : Bool) {line : String}
    (h : Written nestingLimit line.toList ps) (hb : BeginsExpression ps) :
    ReadsLines (blocksOf config isOpen) (line.toList ++ ['\n'])
      (due isOpen ++ (ps ++ [.plain .newline])) [] := by
  have henter : Enters (blocksOf config isOpen) (List.replicate 0 ' ') (due isOpen) [] := by
    cases isOpen with
    | true =>
      refine enters_closes ?_
      rw [ne_eq, List.replicate_eq_nil_iff]
      omega
    | false => exact enters_same []
  exact readsLines_line henter h (not_slash_of_beginsExpression hb)

/-- The lines of the stages of a pipeline, the first of which opens their block if none is open. -/
theorem readsLines_stages (isOpen : Bool) {texts : List String} {runs : List (List Piece)}
    (h : WrittenAll nestingLimit texts runs) (hb : ∀ ps ∈ runs, BeginsExpression ps)
    (hne : texts = [] → isOpen = true) :
    ReadsLines (blocksOf config isOpen) (linesText (texts.map (Format.stageLine config)))
      ((if isOpen then [] else [.plain .indent]) ++ runs.flatMap (· ++ [.plain .newline]))
      (blocksOf config true) := by
  induction h generalizing isOpen with
  | nil =>
    obtain rfl := hne rfl
    exact .nil
  | @cons text ps texts runs hfirst _ ih =>
    have henter : Enters (blocksOf config isOpen) (List.replicate config.indentWidth ' ')
        (if isOpen then [] else [.plain .indent]) (blocksOf config true) := by
      cases isOpen with
      | true => exact enters_same (blocksOf config true)
      | false => exact enters_opens hwidth
    have hline : (Format.stageLine config text).toList =
        List.replicate config.indentWidth ' ' ++ text.toList := by
      obtain ⟨c, rest, _, _, hc, _, _⟩ := hfirst.head
      have hnot : text.isEmpty = false := by
        cases ht : text.isEmpty with
        | false => rfl
        | true =>
          rw [String.isEmpty_iff.mp ht] at hc
          cases hc
      unfold Format.stageLine
      rw [hnot]
      simp
    have hrest := ih true (fun qs hq => hb qs (List.mem_cons_of_mem ps hq)) fun _ => rfl
    have hstage := readsLines_line henter hfirst
      (not_slash_of_beginsExpression (hb ps List.mem_cons_self))
    have hall := hstage.append hrest
    rw [List.map_cons, linesText_cons, hline, List.flatMap_cons]
    simpa using hall

end

theorem stageRuns_eq (stages : List Stage) : stageRuns stages = stages.map stagePieces := by
  induction stages with
  | nil => rfl
  | cons g rest ih =>
    obtain ⟨_, callee, args⟩ := g
    rw [stageRuns, ih, writtenPieces_withPieces]
    rfl

theorem valueLines_pipeline (config : FormatConfig) (lead : String) (s : Span) (seed : Expr)
    (stages : List Stage) :
    valueLines config lead (.pipeline s seed stages) =
      if breaks config lead (.pipeline s seed stages) then
        (lead ++ place .seed seed (bare seed)) ::
          (stageTexts stages).map (Format.stageLine config)
      else [lead ++ bare (.pipeline s seed stages)] := by
  unfold valueLines breaks
  dsimp only
  cases config.layout with
  | indented => rfl
  | inline => rfl
  | fit => simp only [decide_eq_true_eq]

theorem beginsExpression_stage {n : Nat} {g : Stage} (hc : g.callee.Formed n) :
    BeginsExpression (stagePieces g) :=
  (beginsExpression_place hc .argument).append _

/-- Statements as they stand in a text, with what is due before them and without what is due after. -/
def ReadsStatements (config : FormatConfig) (isOpen : Bool) (cs : List Char) (ps : List Piece) :
    Prop :=
  ∃ stays body, ReadsLines (blocksOf config isOpen) cs body (blocksOf config stays) ∧
    body ++ due stays = due isOpen ++ ps

section

variable (hwidth : 2 ≤ config.indentWidth)

include hwidth

theorem readsStatement_line (isOpen : Bool) {line : String}
    (h : Written nestingLimit line.toList ps) (hb : BeginsExpression ps) :
    ReadsStatements config isOpen (linesText [line]) (ps ++ [.plain .newline]) := by
  refine ⟨false, due isOpen ++ (ps ++ [.plain .newline]), ?_, List.append_nil _⟩
  have hline := readsLines_outer hwidth isOpen h hb
  rw [linesText_cons, linesText, List.map_nil, String.join_nil, String.toList_empty,
    List.append_nil]
  exact hline

/-- A value after what stands to its left. -/
theorem readsStatement_value (isOpen : Bool) {lead : String} {hs : List Piece} {e : Expr}
    (hlead : ∀ {text : String} {ps : List Piece}, Written nestingLimit text.toList ps →
      BeginsExpression ps → Written nestingLimit (lead ++ text).toList (hs ++ ps) ∧
        BeginsExpression (hs ++ ps))
    (he : e.Formed nestingLimit) (hf : Finite e) :
    ReadsStatements config isOpen (linesText (valueLines config lead e))
      (hs ++ valuePieces (breaks config lead e) e) := by
  have hwritten := (isWritten he hf).text
  have plain : ReadsStatements config isOpen (linesText [lead ++ bare e])
      (hs ++ (pieces e ++ [.plain .newline])) := by
    obtain ⟨htext, hbegin⟩ := hlead hwritten (beginsExpression he)
    rw [← List.append_assoc]
    exact readsStatement_line hwidth isOpen htext hbegin
  cases he with
  | @pipeline _ s seed stages hseed hne hst hcs has =>
    cases hb : breaks config lead (.pipeline s seed stages) with
    | false =>
      rw [valueLines_pipeline, hb, if_neg Bool.false_ne_true]
      exact plain
    | true =>
      have hseed' := (isWritten hseed (hf.child List.mem_cons_self)).text
      obtain ⟨htext, hbegin⟩ := hlead (hseed'.place .seed seed)
        (beginsExpression_place hseed .seed)
      have hruns := writtenStages
        (fun g hg => (isWritten (hcs g hg) (hf.child (List.mem_cons_of_mem _ (List.mem_flatMap.mpr
          ⟨g, hg, List.mem_cons_self⟩)))).text)
        fun g hg a hm => (isWritten (has g hg a hm) (hf.child (List.mem_cons_of_mem _
          (List.mem_flatMap.mpr ⟨g, hg, List.mem_cons_of_mem _ hm⟩)))).text
      have hbegins : ∀ ps ∈ stageRuns stages, BeginsExpression ps := by
        intro ps hps
        rw [stageRuns_eq] at hps
        obtain ⟨g, hg, rfl⟩ := List.mem_map.mp hps
        exact beginsExpression_stage (hcs g hg)
      have hsome : stageTexts stages = [] → false = true := by
        intro hnil
        obtain ⟨g, rest, rfl⟩ := List.exists_cons_of_ne_nil hne
        obtain ⟨_, callee, args⟩ := g
        rw [stageTexts] at hnil
        cases hnil
      have hblock := readsLines_stages hwidth false hruns hbegins hsome
      have hline := readsLines_outer hwidth isOpen htext hbegin
      rw [valueLines_pipeline, hb, if_pos rfl, linesText_cons]
      refine ⟨true, _, hline.append hblock, ?_⟩
      simp [stageRuns_eq, valuePieces, stageBlock, due, List.flatMap_map]
  | _ => exact plain

theorem readsStatement_definition (isOpen : Bool) {name : Name} {params : List Name} {e : Expr}
    (hname : isIdentifier name.text = true) (hparams : ∀ p ∈ params, isIdentifier p.text = true)
    (he : e.Formed nestingLimit) (hf : Finite e) :
    ReadsStatements config isOpen (linesText (valueLines config (definitionHead name params) e))
      (headPieces name params ++ valuePieces (breaks config (definitionHead name params) e) e) :=
  readsStatement_value hwidth isOpen
    (fun hw _ => ⟨.definition hname hparams hw, .inl ⟨_, _, rfl, rfl⟩⟩) he hf

theorem readsStatement (isOpen : Bool) {s : Statement} (hs : s.Formed nestingLimit)
    (hf : ∀ e, s.value? = some e → Finite e) :
    ReadsStatements config isOpen (linesText (statementLines config s))
      (statementPieces config s) := by
  cases s with
  | error => exact hs.elim
  | assign sp name value =>
    obtain ⟨hname, hvalue⟩ := hs
    have hfinite := hf value rfl
    have plain : ReadsStatements config isOpen
        (linesText (valueLines config (definitionHead name []) value))
        (headPieces name [] ++ valuePieces (breaks config (definitionHead name []) value) value) :=
      readsStatement_definition hwidth isOpen hname (fun _ hm => absurd hm List.not_mem_nil) hvalue
        hfinite
    cases value with
    | function t params body =>
      cases hvalue with
      | function hne hparams hbody =>
        have hfinite := hfinite.child (List.mem_singleton_self body)
        exact readsStatement_definition hwidth isOpen hname hparams hbody hfinite
    | _ => exact plain
  | expr sp e =>
    have hfinite := hf e rfl
    have hwritten := (isWritten hs hfinite).text
    have hlines : statementLines config (.expr sp e) =
        if startsLikeDefinition e then [parens (bare e)] else valueLines config "" e := rfl
    have hpieces : statementPieces config (.expr sp e) =
        if startsLikeDefinition e then parensPieces (pieces e) ++ [.plain .newline]
        else valuePieces (breaks config "" e) e := rfl
    rw [hlines, hpieces]
    cases startsLikeDefinition e with
    | true =>
      rw [if_pos rfl, if_pos rfl]
      exact readsStatement_line hwidth isOpen hwritten.wrapped
        (.inl (beginsArgument_parens _).beginsOperand)
    | false =>
      rw [if_neg Bool.false_ne_true, if_neg Bool.false_ne_true]
      show ReadsStatements config isOpen _ ([] ++ valuePieces (breaks config "" e) e)
      refine readsStatement_value hwidth isOpen (fun hw hb => ?_) hs hfinite
      rw [String.empty_append]
      exact ⟨hw, hb⟩

theorem readsStatements (isOpen : Bool) {statements : List Statement}
    (hs : ∀ s ∈ statements, s.Formed nestingLimit)
    (hf : ∀ s ∈ statements, ∀ e, s.value? = some e → Finite e) :
    ReadsStatements config isOpen (linesText (statements.flatMap (statementLines config)))
      (statements.flatMap (statementPieces config)) := by
  induction statements generalizing isOpen with
  | nil => exact ⟨isOpen, [], .nil, (List.append_nil _).symm⟩
  | cons s rest ih =>
    obtain ⟨between, body, hfirst, hbody⟩ :=
      readsStatement hwidth isOpen (hs s List.mem_cons_self) (hf s List.mem_cons_self)
    obtain ⟨stays, others, hrest, hothers⟩ := ih between
      (fun t ht => hs t (List.mem_cons_of_mem s ht)) fun t ht => hf t (List.mem_cons_of_mem s ht)
    rw [List.flatMap_cons, List.flatMap_cons, linesText_append]
    refine ⟨stays, body ++ others, hfirst.append hrest, ?_⟩
    calc body ++ others ++ due stays
        = body ++ (due between ++ rest.flatMap (statementPieces config)) := by
          rw [List.append_assoc, hothers]
      _ = due isOpen ++ (statementPieces config s ++ rest.flatMap (statementPieces config)) := by
          rw [← List.append_assoc, hbody, List.append_assoc]

end

/-! The end of the text. -/

theorem starts_initial (config : FormatConfig) : State.initial.Starts (blocksOf config false) :=
  ⟨rfl, rfl, rfl, rfl⟩

/-- The end of the text closes what is still open. -/
theorem finish_of_starts (hwidth : 2 ≤ config.indentWidth) {s : State} (isOpen : Bool)
    (h : s.Starts (blocksOf config isOpen)) :
    s.finish.errors = [] ∧ ∃ ts, Laid s.position.offset s.position.offset (due isOpen) ts
        s.position.offset s.position.offset ∧
      s.finish.tokens = ⟨.eof, s.position.to s.position⟩ :: (ts.reverse ++ s.tokens) := by
  have hfinish : s.finish = s.closeAll.emitEof := by
    unfold finish
    rw [h.mode]
    rfl
  have hframes := h.frames
  rw [hfinish]
  refine ⟨h.errors, ?_⟩
  cases isOpen with
  | false =>
    refine ⟨[], .nil _ _, ?_⟩
    have hclosed : s.frames.takeWhile (· != []) = [] := by
      rw [hframes]
      rfl
    unfold closeAll closeTo
    rw [hclosed]
    rfl
  | true =>
    refine ⟨[⟨.dedent, s.position.to s.position⟩], laid_token (Nat.le_refl _), ?_⟩
    have hne : List.replicate config.indentWidth ' ' ≠ [] := by
      rw [ne_eq, List.replicate_eq_nil_iff]
      omega
    have hclosed : s.frames.takeWhile (· != []) = [List.replicate config.indentWidth ' '] := by
      rw [hframes]
      simp [blocksOf, hne]
    unfold closeAll closeTo
    rw [hclosed]
    rfl

theorem isToken_of_beginsExpression (h : BeginsExpression ps) :
    ∀ x ∈ ps.head?, x.isToken = true := by
  rcases h with ⟨p, rest, rfl, hp⟩ | ⟨k, rest, rfl, _⟩
  · intro x hx
    cases hx
    cases p <;> first | rfl | cases hp
  · intro x hx
    cases hx
    rfl

theorem isToken_programPieces (config : FormatConfig) {p : Program} {n : Nat} (hp : p.Formed n) :
    ∀ x ∈ (programPieces config p).head?, x.isToken = true := by
  obtain ⟨statements, span⟩ := p
  cases statements with
  | nil => nofun
  | cons s rest =>
    have hbegins := beginsExpression_statement config (hp s List.mem_cons_self)
    exact isToken_of_beginsExpression (hbegins.append _)

/-- The text of a program gives no error, and its tokens are those of the pieces of the program. -/
theorem lex_program (hwidth : 2 ≤ config.indentWidth) {p : Program} (hp : p.Formed nestingLimit)
    (hf : ∀ e ∈ p.values, Finite e) :
    ∃ tokens, lex (Format.program config p) = .ok tokens ∧
      At (programPieces config p) Cursor.Finished (.ofTokens tokens) := by
  have hvalues : ∀ s ∈ p.statements, ∀ e, s.value? = some e → Finite e :=
    fun s hs e he => hf e (List.mem_filterMap.mpr ⟨s, hs, he⟩)
  obtain ⟨stays, body, hlines, hbody⟩ := readsStatements hwidth false hp hvalues
  let last := scan (Format.program config p).toList
  obtain ⟨hstarts, hpos, ts, htokens, hlaid⟩ : last.Starts (blocksOf config stays) ∧ _ :=
    hlines _ (starts_initial config)
  obtain ⟨herrors, us, hlaid', hfinish⟩ := finish_of_starts hwidth stays hstarts
  let stop : Token := ⟨.eof, last.position.to last.position⟩
  have hlist : last.finish.tokenList = ts ++ us ++ [stop] := by
    have htokens : last.tokens = ts.reverse ++ State.initial.tokens := htokens
    unfold tokenList
    rw [hfinish, htokens]
    simp [State.initial, stop]
  refine ⟨ts ++ us ++ [stop], ?_, ?_⟩
  · have hlex : lex (Format.program config p) =
        if last.finish.errors.isEmpty then .ok last.finish.tokenList
        else .error last.finish.errorList := rfl
    rw [hlex, herrors, if_pos List.isEmpty_nil, hlist]
  · have hall := hlaid.append (hpos ▸ hlaid')
    have hpieces : body ++ due stays = programPieces config p := hbody
    rw [hpieces] at hall
    refine hall.ahead rfl (Nat.le_of_eq ?_) (.inr (isToken_programPieces config hp)) ⟨stop, rfl, rfl⟩
    exact congrArg Position.offset hpos.symm

end Parse

end PipeLang
