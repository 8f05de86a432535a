import PipeLang.Proofs.Format.WrittenProgram
import PipeLang.Proofs.Parse.FormedProgram

/-! Formatting preserves the tree. What was read from a text is formed, the text of what is formed lexes
into the tokens of its pieces, and from these the parser rebuilds the tree. -/

namespace PipeLang

/-- All numbers of a program. -/
def Program.numbers (p : Program) : List Number := p.values.flatMap Expr.numbers

/-- The formatted text of a program that was read from a text is read without errors, and parsing it
gives the program back up to spans, if the nesting limit is large enough and the numbers are
finite. Blocks are indented by two blanks at least, or the scanner would not see them. -/
theorem parse_format_eq {source : String} {tokens : List Token} {depth : Nat} {p : Program}
    (config : FormatConfig) (hwidth : 2 ≤ config.indentWidth) (hlex : Scan.lex source = .ok tokens)
    (hparse : parse { maxDepth := depth } tokens = .ok p)
    (hfinite : ∀ x ∈ p.numbers, x.isFinite = true) :
    ∃ formatted, Scan.lex (Format.program config p) = .ok formatted ∧
      ∃ least, ∀ limit, least ≤ limit →
        ∃ q, parse { maxDepth := limit } formatted = .ok q ∧ q.erase = p.erase := by
  have hformed : p.Formed Scan.nestingLimit :=
    formed_of_parse rfl rfl (Scan.formed_of_lex hlex) hparse
  have hkeys : p.keyErrors = [] := keyErrors_of_parse rfl hparse
  have hvalues : ∀ e ∈ p.values, Parse.Finite e :=
    fun e he x hx => hfinite x (List.mem_flatMap.mpr ⟨e, he, hx⟩)
  obtain ⟨formatted, hformatted, hat⟩ := Parse.lex_program hwidth hformed hvalues
  refine ⟨formatted, hformatted, sizeOf p.statements, fun limit hlimit => ?_⟩
  exact Parse.parse_of_at rfl config hformed hkeys hlimit hat

set_option maxRecDepth 8000 in
/-- A definition whose pipeline is laid out with a line for each stage. -/
theorem parse_format_eq_double : ∃ tokens p,
    Scan.lex "double xs = xs |> map [x -> x.price * 2] |> sum\n" = .ok tokens ∧
      parse {} tokens = .ok p ∧ (∀ x ∈ p.numbers, x.isFinite = true) ∧
      ∃ formatted, Scan.lex (Format.program {} p) = .ok formatted ∧
        ∃ least, ∀ limit, least ≤ limit →
          ∃ q, parse { maxDepth := limit } formatted = .ok q ∧ q.erase = p.erase := by
  have hlex : ∃ tokens, Scan.lex "double xs = xs |> map [x -> x.price * 2] |> sum\n" = .ok tokens ∧
      ∃ p, parse {} tokens = .ok p ∧ ∀ x ∈ p.numbers, x.isFinite = true :=
    ⟨_, rfl, _, rfl, by decide +kernel⟩
  obtain ⟨tokens, hlex, p, hparse, hfinite⟩ := hlex
  exact ⟨tokens, p, hlex, hparse, hfinite, parse_format_eq {} (by decide) hlex hparse hfinite⟩

end PipeLang
