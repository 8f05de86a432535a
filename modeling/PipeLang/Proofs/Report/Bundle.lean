import PipeLang.Proofs.Report.Underline
import PipeLang.Report.Bundle

/-! The report on a source that cannot be parsed. It holds the source and the errors of reading it, one at
least. What it marks of an error is a place in the source, and the text of every error underlines its
first mark. -/

namespace PipeLang

open String (utf8Len)

section

variable {o : ParseOptions} {name source : String}

theorem parseSource_eq_ok {p : Program} : parseSource o name source = .ok p ↔
    ∃ tokens, Scan.lex source = .ok tokens ∧ parse o tokens = .ok p := by
  unfold parseSource
  cases Scan.lex source with
  | error ds => simp
  | ok tokens => cases hparse : parse o tokens <;> simp [hparse]

theorem parseSource_eq_error {b : Bundle} : parseSource o name source = .error b ↔
    ∃ ds, (Scan.lex source = .error ds ∨
      ∃ tokens, Scan.lex source = .ok tokens ∧ parse o tokens = .error ds) ∧ b = ⟨name, source, ds⟩ := by
  unfold parseSource
  cases Scan.lex source with
  | error ds => simp [eq_comm]
  | ok tokens => cases hparse : parse o tokens <;> simp [hparse, eq_comm]

end

namespace Diagnostic

variable (d : Diagnostic)

/-- The one primary mark is where the diagnostic points. -/
theorem filter_isPrimary_marks :
    d.marks.filter Mark.isPrimary = [⟨true, d.failure.title, d.span⟩] := by
  rw [marks, List.filter_cons_of_pos rfl, List.filter_eq_nil_iff.mpr fun m hm => ?_]
  obtain ⟨l, -, rfl⟩ := List.mem_map.mp hm
  exact Bool.false_ne_true

theorem map_span_marks : d.marks.map Mark.span = d.span :: d.labels.map Prod.fst := by
  simp [marks, Function.comp_def]

end Diagnostic

/-- A report that can be displayed: it has the code of its first error, its marks lie in the source, and
the text of every error underlines the primary mark. -/
structure Bundle.Displayable (b : Bundle) : Prop where
  code : ∃ d ds, b.errors = d :: ds ∧ b.code? = some d.failure.code
  severity : ∀ d ∈ b.errors, d.severity = .error
  primary : ∀ d ∈ b.errors, d.marks.filter Mark.isPrimary = [⟨true, d.failure.title, d.span⟩]
  placed : ∀ d ∈ b.errors, ∀ m ∈ d.marks,
    m.span.Placed b.source.toList ∧ m.span.start + m.span.length ≤ utf8Len b.source.toList
  texts : List.Forall₂ (fun d text => text = Report.plain b.name b.source d ∧
    ∃ before line after shown, Report.Underlines b.name b.source d before line after shown) b.errors b.plain

theorem Bundle.displayable_of_returned {b : Bundle} (hne : b.errors ≠ [])
    (h : ∀ d ∈ b.errors, Returned b.source d) : b.Displayable where
  code := by
    obtain ⟨d, ds, hds⟩ := List.exists_cons_of_ne_nil hne
    exact ⟨d, ds, hds, by rw [Bundle.code?, hds]; rfl⟩
  severity _ _ := rfl
  primary d _ := d.filter_isPrimary_marks
  placed d hd m hm := by
    have hspan : m.span ∈ d.span :: d.labels.map Prod.fst := d.map_span_marks ▸ List.mem_map_of_mem hm
    have hplaced : m.span.Placed b.source.toList := (h d hd).placed.spans m.span hspan
    have hstop := hplaced.stop_le
    have hstart := hplaced.start_le_stop
    refine ⟨hplaced, ?_⟩
    unfold Span.length
    omega
  texts := List.forall₂_map_right_iff.mpr <| List.forall₂_same.mpr fun d hd =>
    ⟨rfl, Report.exists_underlines (h d hd).placed.span b.name⟩

/-- A source that cannot be parsed is reported with what reading it returned, and the report can be
displayed. -/
theorem displayable_of_parseSource {o : ParseOptions} {name source : String} {b : Bundle}
    (h : parseSource o name source = .error b) :
    b.name = name ∧ b.source = source ∧ (∀ d ∈ b.errors, Returned source d) ∧ b.Displayable := by
  obtain ⟨ds, hds, rfl⟩ := parseSource_eq_error.mp h
  have hne : ds ≠ [] := by
    rcases hds with hlex | ⟨tokens, -, hparse⟩
    · obtain ⟨herrors, rfl⟩ := Scan.lex_eq_error.mp hlex
      exact fun h => herrors (List.reverse_eq_nil_iff.mp h)
    · exact (errors_of_parse hparse).1
  have hreturned : ∀ d ∈ ds, Returned source d := by
    intro d hd
    rcases hds with hlex | ⟨tokens, hlex, hparse⟩
    · exact .lex hlex hd
    · exact .strict hlex hparse hd
  exact ⟨rfl, rfl, hreturned, Bundle.displayable_of_returned hne hreturned⟩

example : (match parseSource {} "f" "a = ," with
    | .ok _ => none
    | .error b => some (b.message, b.code?)) =
    some ("could not parse `f`: 1 error(s)", some "rill::syntax") := by decide +kernel

end PipeLang
