import PipeLang.Format.Source
import PipeLang.Proofs.Format.Relocate
import PipeLang.Proofs.Format.RoundTrip
import PipeLang.Proofs.Parse.Limit

/-! Formatting a formatted text. The parser gives the same tree for it, and the tree is written as the same
text; only the nesting limit can come in between, for parentheses that the printer adds are levels of
nesting of their own. -/

namespace PipeLang

theorem format_eq_ok {config : FormatConfig} {source text : String} :
    format config source = .ok text ↔ ∃ tokens p, Scan.lex source = .ok tokens ∧
      parse {} tokens = .ok p ∧ Format.program config p = text := by
  unfold format
  cases hlex : Scan.lex source with
  | error errors => simp
  | ok tokens =>
    cases hparse : parse {} tokens with
    | error errors => simp [hparse]
    | ok p => simp [hparse]

/-- All numbers that the parser reads in a text are finite. -/
def FiniteNumbers (source : String) : Prop :=
  ∀ tokens p, Scan.lex source = .ok tokens → parse {} tokens = .ok p →
    ∀ x ∈ p.numbers, x.isFinite = true

/-- A formatted text is its own formatted text, unless it nests too deep to be read. -/
theorem format_of_format {config : FormatConfig} (hwidth : 2 ≤ config.indentWidth)
    {source text : String} (h : format config source = .ok text) (hfinite : FiniteNumbers source) :
    format config text = .ok text ∨
      ∃ e, e.failure = .limit ∧ format config text = .error (.unparsed [e]) := by
  obtain ⟨tokens, p, hlex, hparse, rfl⟩ := format_eq_ok.mp h
  have hformed : p.Formed Scan.nestingLimit :=
    formed_of_parse rfl rfl (Scan.formed_of_lex hlex) hparse
  have hvalues : ∀ e ∈ p.values, Parse.Finite e :=
    fun e he x hx => hfinite tokens p hlex hparse x (List.mem_flatMap.mpr ⟨e, he, hx⟩)
  obtain ⟨formatted, hformatted, hat⟩ := Parse.lex_program hwidth hformed hvalues
  rcases parse_of_le (o := {}) rfl (le_max_left _ (sizeOf p.statements)) formatted with
    ⟨e, he, hdeep⟩ | hsame
  · refine .inr ⟨e, he, ?_⟩
    unfold format
    rw [hformatted]
    dsimp only
    rw [hdeep]
  · obtain ⟨q, hq, hqp⟩ := Parse.parse_of_at (o := { maxDepth := max 256 (sizeOf p.statements) }) rfl config
      hformed (keyErrors_of_parse rfl hparse) (le_max_right 256 _) hat
    refine .inl (format_eq_ok.mpr ⟨formatted, q, hformatted, ?_, ?_⟩)
    · rw [← hsame]
      exact hq
    · rw [← Format.program_relocate (fun _ => .origin) config q,
        ← Format.program_relocate (fun _ => .origin) config p]
      exact congrArg (Format.program config) hqp

/-- A source that is formatted and whose numbers are finite is in canonical form from then on: the text
is its own formatted text, is found to be formatted, and has no difference from it. Or the parentheses
that the printer adds take the text over the nesting limit, and then that is all there is to report. -/
theorem formatted_is_canonical {source text : String} (h : format {} source = .ok text)
    (hfinite : FiniteNumbers source) :
    (format {} text = .ok text ∧ isFormatted text = .ok true ∧ formatDiff? text = .ok none) ∨
      ∃ e, e.failure = .limit ∧ format {} text = .error (.unparsed [e]) := by
  have hwidth : 2 ≤ ({} : FormatConfig).indentWidth := by decide
  rcases format_of_format hwidth h hfinite with hsame | hdeep
  · refine .inl ⟨hsame, ?_, ?_⟩
    · unfold isFormatted
      rw [hsame]
      exact congrArg Except.ok (beq_self_eq_true text)
    · unfold formatDiff?
      rw [hsame]
      exact congrArg Except.ok (if_pos rfl)
  · exact .inr hdeep

set_option maxRecDepth 8000 in
/-- A pipeline that is laid out with a line for each stage. -/
theorem formatted_is_canonical_stages :
    format {} "xs |> f  -1" = .ok "xs\n  f (-1)\n" ∧ FiniteNumbers "xs |> f  -1" ∧
      ((format {} "xs\n  f (-1)\n" = .ok "xs\n  f (-1)\n" ∧
          isFormatted "xs\n  f (-1)\n" = .ok true ∧
          formatDiff? "xs\n  f (-1)\n" = .ok none) ∨
        ∃ e, e.failure = .limit ∧ format {} "xs\n  f (-1)\n" = .error (.unparsed [e])) := by
  have hformat : format {} "xs |> f  -1" = .ok "xs\n  f (-1)\n" :=
    eq_ok_of_toOption (by decide +kernel)
  have hfinite : FiniteNumbers "xs |> f  -1" := by
    have hread : ∃ tokens, Scan.lex "xs |> f  -1" = .ok tokens ∧ ∃ p, parse {} tokens = .ok p ∧
        ∀ x ∈ p.numbers, x.isFinite = true := ⟨_, rfl, _, rfl, by decide +kernel⟩
    obtain ⟨tokens, hlex, p, hparse, hall⟩ := hread
    intro tokens' p' hlex' hparse'
    obtain rfl := Except.ok.inj (hlex.symm.trans hlex')
    obtain rfl := Except.ok.inj (hparse.symm.trans hparse')
    exact hall
  exact ⟨hformat, hfinite, formatted_is_canonical hformat hfinite⟩

/-- An infinite number is written as `inf`, which is read as a name. -/
example : (format {} "x = -inf\n").toOption = none := by decide +kernel

end PipeLang
