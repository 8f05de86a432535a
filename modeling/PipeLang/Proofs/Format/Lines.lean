import PipeLang.Proofs.Format.FeedFree
import PipeLang.Proofs.Format.WrittenProgram
import PipeLang.Proofs.Parse.WellFormed

/-! The lines of a program. A statement takes up one, but that a pipeline as its value has one more for every
stage if the layout asks for it; and no line ends anywhere else, for nothing that is written on one has
a line feed of its own. -/

namespace PipeLang

theorem betweenFeeds_append_feed (cs rest : List Char) :
    betweenFeeds (cs ++ '\n' :: rest) = betweenFeeds cs ++ betweenFeeds rest := by
  induction cs with
  | nil => rfl
  | cons c cs ih =>
    rw [List.cons_append, betweenFeeds, betweenFeeds, ih]
    split
    · rfl
    · obtain ⟨p, ps, hps⟩ := List.exists_cons_of_ne_nil (betweenFeeds_ne_nil cs)
      rw [hps]
      rfl

theorem betweenFeeds_of_feedless {line : List Char} (h : '\n' ∉ line) : betweenFeeds line = [line] := by
  induction line with
  | nil => rfl
  | cons c line ih =>
    have hc : c ≠ '\n' := fun heq => h (heq ▸ List.mem_cons_self)
    rw [betweenFeeds, if_neg hc, ih fun hmem => h (List.mem_cons_of_mem c hmem)]

theorem betweenFeeds_append {line : List Char} (h : '\n' ∉ line) (rest : List Char) :
    betweenFeeds (line ++ '\n' :: rest) = line :: betweenFeeds rest := by
  rw [betweenFeeds_append_feed, betweenFeeds_of_feedless h, List.singleton_append]

/-- Lines without line feeds are found again. -/
theorem betweenFeeds_linesText {lines : List String} (h : ∀ line ∈ lines, FeedFree line) :
    betweenFeeds (Parse.linesText lines) = lines.map String.toList ++ [[]] := by
  induction lines with
  | nil => rfl
  | cons line lines ih =>
    rw [Parse.linesText_cons, List.append_assoc, List.singleton_append,
      betweenFeeds_append (h line List.mem_cons_self), ih fun l hl => h l (List.mem_cons_of_mem line hl)]
    rfl

namespace Format

/-- A statement on one line. -/
def oneLine : Statement → String
  | .assign _ name (.function _ params body) => definitionHead name params ++ bare body
  | .assign _ name value => definitionHead name [] ++ bare value
  | .expr _ e => if startsLikeDefinition e then parens (bare e) else bare e
  | .error _ => "<error>"

/-- The stages of the pipeline that is the whole value. -/
def stages? : Expr → Option (List Stage)
  | .pipeline _ _ stages => some stages
  | _ => none

/-- The stages that may go on lines of their own: those of the value, or of the body if the value is a function,
but none of a statement that would be read as a definition without parentheses around it. -/
def lineStages? : Statement → Option (List Stage)
  | .assign _ _ (.function _ _ body) => stages? body
  | .assign _ _ value => stages? value
  | .expr _ e => if startsLikeDefinition e then none else stages? e
  | .error _ => none

/-- Whether the layout gives every stage a line of its own. -/
def Spreads (config : FormatConfig) (s : Statement) : Prop :=
  config.layout = .indented ∨ config.layout = .fit ∧ config.lineLength < (oneLine s).length

/-- The lines of a statement. If there is one for every stage, they show what stands between the pipes of the
statement on one line. -/
inductive LaidOut (config : FormatConfig) (s : Statement) : List String → Prop
  | whole (whole : lineStages? s = none ∨ ¬ Spreads config s) : LaidOut config s [oneLine s]
  | broken {stages : List Stage} {first : String} (pipeline : lineStages? s = some stages)
    (spreads : Spreads config s)
    (pipes : oneLine s = first ++ String.join (stages.map fun g => " |> " ++ stageText g))
    (visible : ∀ g ∈ stages, ∃ c rest, (stageText g).toList = c :: rest ∧ c ≠ ' ') :
    LaidOut config s
      (first :: stages.map fun g => String.ofList (List.replicate config.indentWidth ' ') ++ stageText g)

variable {config : FormatConfig} {n : Nat}

/-! ## Stages -/

theorem placeTarget_of_isPath {e : Expr} (h : e.isPath = true) (text : String) : placeTarget e text = text := by
  cases e <;> first | rfl | cases h

/-- A path begins with a letter. -/
theorem first_of_isPath {e : Expr} (hf : e.Formed n) (hp : e.isPath = true) :
    ∃ c rest, (bare e).toList = c :: rest ∧ c.isAlpha = true := by
  induction hf with
  | ident name_ok =>
    rw [bare]
    exact Parse.exists_isAlpha_of_isWord (Parse.wordKind_of_isIdentifier name_ok).1
  | @access n s target field _ _ ih =>
    have htarget : target.isPath = true := hp
    obtain ⟨c, rest, hc, halpha⟩ := ih htarget
    rw [bare, placeTarget_of_isPath htarget]
    exact ⟨c, _, by rw [String.toList_append, String.toList_append, hc]; rfl, halpha⟩
  | _ => cases hp

theorem first_of_stage {g : Stage} (hf : g.callee.Formed n) (hg : g.Formed) :
    ∃ c rest, (stageText g).toList = c :: rest ∧ c ≠ ' ' := by
  obtain ⟨c, rest, hc, halpha⟩ := first_of_isPath hf hg.1
  refine ⟨c, rest ++ (spaced (placeItems (writtenArguments (withTexts g.args)))).toList, ?_, ?_⟩
  · rw [stageText, joined, place, needsParens_of_isPath hg.1, if_neg Bool.false_ne_true, String.toList_append, hc]
    rfl
  · rintro rfl
    exact absurd halpha (by decide)

theorem stageLine_of_first {text : String} (h : ∃ c rest, text.toList = c :: rest ∧ c ≠ ' ') :
    stageLine config text = String.ofList (List.replicate config.indentWidth ' ') ++ text := by
  obtain ⟨c, rest, hc, -⟩ := h
  have hne : text.isEmpty = false := by
    rw [String.isEmpty_eq_false_iff]
    rintro rfl
    cases hc
  rw [stageLine, hne]
  rfl

/-! ## Statements -/

theorem breaks_pipeline {lead : String} {s : Span} {seed : Expr} {stages : List Stage} :
    breaks config lead (.pipeline s seed stages) = true ↔ config.layout = .indented ∨
      config.layout = .fit ∧ config.lineLength < (lead ++ bare (.pipeline s seed stages)).length := by
  rw [String.length_append]
  unfold breaks
  cases config.layout <;> simp

/-- A value after what stands to its left. -/
theorem laidOut_value {s : Statement} {lead : String} {e : Expr} (he : e.Formed n) (hlead : FeedFree lead)
    (hline : oneLine s = lead ++ bare e) (hstages : lineStages? s = stages? e) :
    LaidOut config s (valueLines config lead e) ∧ ∀ line ∈ valueLines config lead e, FeedFree line := by
  have htext := feedFree_bare he
  have plain : stages? e = none ∨ ¬ Spreads config s → LaidOut config s [lead ++ bare e] := by
    intro h
    rw [← hline]
    exact .whole (hstages ▸ h)
  have single : ∀ line ∈ [lead ++ bare e], FeedFree line :=
    List.forall_mem_singleton.mpr (hlead.append htext)
  cases he with
  | @pipeline _ t seed stages hseed hne hst hcs has =>
    have hbreaks : breaks config lead (.pipeline t seed stages) = true ↔ Spreads config s := by
      rw [Spreads, hline]
      exact breaks_pipeline
    rw [Parse.valueLines_pipeline]
    by_cases hb : Spreads config s
    · have hvisible : ∀ g ∈ stages, ∃ c rest, (stageText g).toList = c :: rest ∧ c ≠ ' ' :=
        fun g hg => first_of_stage (hcs g hg) (hst g hg)
      have hlines : (stageTexts stages).map (stageLine config) =
          stages.map fun g => String.ofList (List.replicate config.indentWidth ' ') ++ stageText g := by
        rw [stageTexts_eq_map, List.map_map]
        exact List.map_congr_left fun g hg => stageLine_of_first (hvisible g hg)
      rw [if_pos (hbreaks.mpr hb), hlines]
      refine ⟨.broken hstages hb ?_ hvisible, List.forall_mem_cons.mpr
        ⟨hlead.append (feedFree_place .seed seed (feedFree_bare hseed)), List.forall_mem_map.mpr fun g hg => ?_⟩⟩
      · rw [hline, bare, stageTexts_eq_map, List.map_map, String.append_assoc]
        rfl
      · refine FeedFree.append (by simp [FeedFree]) (feedFree_stage (feedFree_bare (hcs g hg)) fun a ha => ?_)
        exact feedFree_bare (has g hg a ha)
    · rw [if_neg fun h => hb (hbreaks.mp h)]
      exact ⟨plain (.inr hb), single⟩
  | _ => exact ⟨plain (.inl rfl), single⟩

theorem laidOut_statement {s : Statement} (hs : s.Formed n) :
    LaidOut config s (statementLines config s) ∧ ∀ line ∈ statementLines config s, FeedFree line := by
  cases s with
  | error => exact hs.elim
  | assign sp name value =>
    obtain ⟨hname, hvalue⟩ := hs
    have hhead : FeedFree (definitionHead name []) := feedFree_head hname (by simp)
    cases value with
    | function t params body =>
      cases hvalue with
      | function hne hparams hbody => exact laidOut_value hbody (feedFree_head hname hparams) rfl rfl
    | _ => exact laidOut_value hvalue hhead rfl rfl
  | expr sp e =>
    have hlines : statementLines config (.expr sp e) =
        if startsLikeDefinition e then [parens (bare e)] else valueLines config "" e := rfl
    have hone : oneLine (.expr sp e) = if startsLikeDefinition e then parens (bare e) else bare e := rfl
    have hstages : lineStages? (.expr sp e) = if startsLikeDefinition e then none else stages? e := rfl
    rw [hlines]
    cases hlike : startsLikeDefinition e with
    | true =>
      rw [hlike, if_pos rfl] at hone hstages
      rw [if_pos rfl, ← hone]
      refine ⟨.whole (.inl hstages), List.forall_mem_singleton.mpr ?_⟩
      rw [hone]
      exact feedFree_parens (feedFree_bare hs)
    | false =>
      rw [hlike, if_neg Bool.false_ne_true] at hone hstages
      rw [if_neg Bool.false_ne_true]
      exact laidOut_value hs (by decide) (by rw [hone, String.empty_append]) hstages

/-- The statements of a program, each on lines of its own, with no line feed but those that end the lines. -/
theorem lines_of_parse {source : String} {tokens : List Token} (hlex : Scan.lex source = .ok tokens)
    {o : ParseOptions} (hmode : o.mode = .strict) (hplain : o.resolvePipelines = false) {p : Program}
    (hparse : parse o tokens = .ok p) (config : FormatConfig) :
    ∃ blocks, List.Forall₂ (LaidOut config) p.statements blocks ∧
      betweenFeeds (Format.program config p).toList = blocks.flatten.map String.toList ++ [[]] := by
  have hformed := formed_of_parse hmode hplain (Scan.formed_of_lex hlex) hparse
  refine ⟨p.statements.map (statementLines config), ?_, ?_⟩
  · rw [List.forall₂_map_right_iff, List.forall₂_same]
    exact fun s hs => (laidOut_statement (hformed s hs)).1
  · rw [← List.flatMap_def]
    refine betweenFeeds_linesText fun line hline => ?_
    obtain ⟨s, hs, hline⟩ := List.mem_flatMap.mp hline
    exact (laidOut_statement (hformed s hs)).2 line hline

/-- A pipeline that is too long for its line, one that is not, and one between parentheses. -/
theorem lines_of_parse_fit :
    let source := "total = xs |> add 1 |> twice\nf x = x |> g\n(a = 1) |> longer than the others\n"
    let config : FormatConfig := { indentWidth := 4, lineLength := 24, layout := .fit }
    ∃ tokens p, Scan.lex source = .ok tokens ∧ parse {} tokens = .ok p ∧
      Format.program config p =
        "total = xs\n    add 1\n    twice\nf x = x |> g\n(a = 1 |> longer than the others)\n" ∧
      ∃ blocks, List.Forall₂ (LaidOut config) p.statements blocks ∧
        betweenFeeds (Format.program config p).toList = blocks.flatten.map String.toList ++ [[]] := by
  intro source config
  obtain ⟨tokens, p, hlex, hparse, htext⟩ := exists_of_read (f := Format.program config)
    (show (Scan.lex source).toOption.bind (fun tokens =>
      (parse {} tokens).toOption.map (Format.program config)) =
        some "total = xs\n    add 1\n    twice\nf x = x |> g\n(a = 1 |> longer than the others)\n" by
      decide +kernel)
  exact ⟨tokens, p, hlex, hparse, htext, lines_of_parse hlex rfl rfl hparse config⟩

end Format

end PipeLang
