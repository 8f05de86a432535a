import PipeLang.Proofs.Parse.Adjacency
import PipeLang.Proofs.Scan.Anchored
import PipeLang.Proofs.Scan.Regular
import PipeLang.Proofs.Tree.Nodes

/-! Where the parser points when it reports an error. It makes no spans but by merging those of the tokens,
so what holds of these and of a merge holds of every span that it reports. What is known of two runs side by
side says this, when both are over the same tokens and the spans that correspond are those that are one and
the same place in the text. -/

namespace PipeLang

section

variable (text : List Char)

open Classical in
/-- A place in the text stands for itself, and any other span for `other`. -/
noncomputable def Span.placedOr (other s : Span) : Span := if s.Placed text then s else other

/-- Any other span stands for one that ends before it starts. -/
noncomputable def leftPlace : Span → Span := Span.placedOr text ⟨1, 0, 1, 1⟩

/-- Any other span stands for one that ends before it starts, but not for that of `leftPlace`. -/
noncomputable def rightPlace : Span → Span := Span.placedOr text ⟨2, 0, 1, 1⟩

end

variable {text : List Char}

theorem leftPlace_eq_iff {s t : Span} : leftPlace text s = rightPlace text t ↔ s = t ∧ s.Placed text := by
  have hleft : ¬ Span.Placed text ⟨1, 0, 1, 1⟩ := fun h => absurd h.start_le_stop (by decide)
  have hright : ¬ Span.Placed text ⟨2, 0, 1, 1⟩ := fun h => absurd h.start_le_stop (by decide)
  unfold leftPlace rightPlace Span.placedOr
  by_cases hs : s.Placed text <;> by_cases ht : t.Placed text
  · rw [if_pos hs, if_pos ht]
    exact ⟨fun h => ⟨h, hs⟩, And.left⟩
  · rw [if_pos hs, if_neg ht]
    exact ⟨fun h => absurd (h ▸ hs) hright, fun h => absurd (h.1 ▸ hs) ht⟩
  · rw [if_neg hs, if_pos ht]
    exact ⟨fun h => absurd (h ▸ ht) hleft, fun h => absurd h.2 hs⟩
  · rw [if_neg hs, if_neg ht]
    exact ⟨fun h => absurd h (by decide), fun h => absurd h.2 hs⟩

theorem leftPlace_of_placed {s : Span} (h : s.Placed text) : leftPlace text s = rightPlace text s :=
  leftPlace_eq_iff.mpr ⟨rfl, h⟩

theorem mergeable_places (text : List Char) : Parse.Mergeable (leftPlace text) (rightPlace text) := by
  intro s t s' t' hs ht
  obtain ⟨rfl, hs'⟩ := leftPlace_eq_iff.mp hs
  obtain ⟨rfl, ht'⟩ := leftPlace_eq_iff.mp ht
  exact leftPlace_of_placed (hs'.merge ht')

/-- Tokens in a row are like themselves when only places in the text correspond. -/
theorem Row.alike {lo hi : Nat} {ts : List Token} (h : Row text lo ts hi) :
    (∃ last, ts.getLast? = some last ∧ last.kind = .eof) → (∀ t ∈ ts, t.Enclosed) →
      TokensAlike (leftPlace text) (rightPlace text) ts ts := by
  induction h with
  | nil le =>
    rintro ⟨last, hlast, -⟩
    cases hlast
  | @cons lo hi t ts after placed nonempty within inside rest ihinside ihrest =>
    intro hended henclosed
    have hspan := leftPlace_of_placed placed
    cases ts with
    | nil =>
      obtain ⟨last, hlast, heof⟩ := hended
      obtain ⟨kind, span⟩ := t
      cases hlast
      cases heof
      exact .last hspan
    | cons u us =>
      rw [List.getLast?_cons_cons] at hended
      refine .cons ?_ hspan ⟨Iff.rfl, Iff.rfl⟩
        (ihrest hended fun v hv => henclosed v (List.mem_cons_of_mem t hv))
      cases htext : t.kind with
      | text parts =>
        refine .text (List.forall₂_same.mpr fun part hpart => ?_)
        cases part with
        | literal text => exact .literal text
        | hole us s =>
          obtain ⟨hline, hus⟩ := (henclosed t List.mem_cons_self).hole htext hpart
          exact .hole (ihinside parts htext us s hpart hline.ended.getLast? hus)
            (leftPlace_of_placed (within parts htext us s hpart).2.placed)
      | _ => exact .plain rfl

namespace Diagnostic

theorem Alike.placed {holes : List Token → List Token → Prop} {d : Diagnostic}
    (h : Diagnostic.Alike (leftPlace text) (rightPlace text) holes d d) : d.Placed text :=
  ⟨(leftPlace_eq_iff.mp h.span).2, fun l hl =>
    (leftPlace_eq_iff.mp (List.forall₂_same.mp h.labels l hl).1).2⟩

theorem placed_of_relocate {d : Diagnostic}
    (h : d.relocate (leftPlace text) = d.relocate (rightPlace text)) : d.Placed text := by
  obtain ⟨-, hspan, -, hlabels, -, -⟩ := Diagnostic.mk.inj h
  refine ⟨(leftPlace_eq_iff.mp hspan).2, fun l hl => ?_⟩
  exact (leftPlace_eq_iff.mp (Prod.mk.inj (List.map_inj_left.mp hlabels l hl)).1).2

end Diagnostic

/-- The errors of a run, and those about the keys of the records that it read. -/
theorem placed_of_run {source : String} {tokens : List Token} (hlex : Scan.lex source = .ok tokens)
    (o : ParseOptions) :
    (∀ d ∈ (Parse.run o tokens).2, d.Placed source.toList) ∧
      ∀ d ∈ (Parse.run o tokens).1.keyErrors, d.Placed source.toList := by
  obtain ⟨hscan, rfl⟩ := Scan.lex_eq_ok.mp hlex
  have hr := Scan.regular_scan hscan
  have halike := (Scan.row_scan hscan).alike hr.ended.getLast? hr.interpolations
  obtain ⟨hstatements, herrors⟩ := Parse.run_alike o (mergeable_places source.toList) halike
  refine ⟨fun d hd => (List.forall₂_same.mp herrors d hd).placed, fun d hd => ?_⟩
  -- the reports on keys are made from the statements, in which the same spans correspond
  refine Diagnostic.placed_of_relocate (List.map_inj_left.mp ?_ d hd)
  rw [← Program.keyErrors_relocate, ← Program.keyErrors_relocate]
  unfold Program.keyErrors Program.values Program.relocate
  rw [hstatements]

/-- Every error in a program points into the text that it was read from. -/
theorem placed_of_parse {source : String} {tokens : List Token} (hlex : Scan.lex source = .ok tokens)
    (o : ParseOptions) :
    (∀ ds, parse o tokens = .error ds → ∀ d ∈ ds, d.Placed source.toList) ∧
      ∀ d ∈ (parseBestEffort o tokens).2, d.Placed source.toList := by
  refine ⟨fun ds h d hd => ?_, fun d hd => ?_⟩
  · obtain ⟨hrun, hkeys⟩ := placed_of_run hlex o
    obtain ⟨-, rfl | ⟨-, rfl⟩⟩ := errors_of_parse h
    · exact hrun d hd
    · exact hkeys d hd
  · obtain ⟨hrun, hkeys⟩ := placed_of_run hlex { o with mode := .bestEffort }
    exact (List.mem_append.mp hd).elim (hrun d) (hkeys d)

end PipeLang
