import PipeLang.Proofs.Parse.Adjacency
import PipeLang.Proofs.Scan.Regular
import PipeLang.Proofs.Scan.Shift
import PipeLang.Proofs.Tree.Moved

/-! Tokens of a text, further on. The parser sees no difference, and what it makes of them is what it makes
of those of the text, further on. -/

namespace PipeLang

namespace Span

variable {d : Shift}

theorem shift_merge (s t : Span) : (s.merge t).shift d = (s.shift d).merge (t.shift d) := by
  unfold merge shift
  dsimp only
  by_cases h : t.start < s.start
  · rw [if_pos h, if_pos (by omega), Nat.add_max_add_right]
  · rw [if_neg h, if_neg (by omega), Nat.add_max_add_right]

theorem mergeable_shift : Parse.Mergeable (Span.shift d) id := by
  rintro s t _ _ rfl rfl
  exact shift_merge s t

end Span

section

variable {d : Shift}

theorem Token.sameGap_shift (t u : Token) :
    t.SameGap u (t.relocate (Span.shift d)) (u.relocate (Span.shift d)) := by
  constructor <;> simp [relocate, Span.shift]

theorem tokensAlike_shift_of_kinds {ts : List Token} (hends : EndsOnce ts)
    (h : ∀ t ∈ ts, TokenKind.Alike (Span.shift d) id (TokensAlike (Span.shift d) id) t.kind
      (t.relocate (Span.shift d)).kind) :
    TokensAlike (Span.shift d) id ts (ts.map (Token.relocate (Span.shift d))) := by
  obtain ⟨last, hlast, heof⟩ := hends.getLast?
  clear hends
  induction ts with
  | nil => cases hlast
  | cons t ts ih =>
    cases ts with
    | nil =>
      obtain ⟨k, s⟩ := t
      cases hlast
      obtain rfl : k = .eof := heof
      exact .last rfl
    | cons u ts =>
      exact .cons (h t List.mem_cons_self) rfl (t.sameGap_shift u)
        (ih (fun v hv => h v (List.mem_cons_of_mem t hv)) (by rwa [List.getLast?_cons_cons] at hlast))

theorem Token.Enclosed.alike_shift {t : Token} (h : t.Enclosed) :
    TokenKind.Alike (Span.shift d) id (TokensAlike (Span.shift d) id) t.kind
      (t.relocate (Span.shift d)).kind := by
  induction h with
  | @mk t lines _ ih =>
    obtain ⟨k, s⟩ := t
    cases k with
    | text parts =>
      rw [relocate, TokenKind.relocate_text]
      refine .text (List.forall₂_map_right_iff.mpr (List.forall₂_same.mpr fun part hpart => ?_))
      cases part with
      | literal text => exact .literal text
      | hole us s' =>
        have hus : us ∈ (TokenKind.text parts).interpolations :=
          List.mem_filterMap.mpr ⟨_, hpart, rfl⟩
        exact .hole (tokensAlike_shift_of_kinds (lines us hus).ended (ih us hus)) rfl
    | _ => exact .plain rfl

/-- The parser sees no difference between the tokens of a text and those further on. -/
theorem Regular.alike_shift {ts : List Token} (h : Regular ts) :
    TokensAlike (Span.shift d) id ts (ts.map (Token.relocate (Span.shift d))) :=
  tokensAlike_shift_of_kinds h.ended fun t ht => (h.interpolations t ht).alike_shift

end

section

variable {f : Span → Span}

/-- Only strings are changed. -/
theorem TokenKind.relocate_eq_of_not_text {k j : TokenKind} (hj : j.isText = false)
    (h : k.relocate f = j) : k = j := by
  cases k with
  | text parts =>
    rw [relocate_text] at h
    subst h
    cases hj
  | _ => exact h

/-- A property of the first token that depends on its kind alone, and not on what is in a string. -/
theorem forall_head?_relocate {us : List Token} {j : TokenKind} (hj : j.isText = false)
    (h : ∀ u ∈ us.head?, u.kind ≠ j) : ∀ u ∈ (us.map (Token.relocate f)).head?, u.kind ≠ j := by
  intro u hu hk
  rw [List.head?_map] at hu
  obtain ⟨v, hv, rfl⟩ := Option.map_eq_some_iff.mp hu
  exact h v hv (TokenKind.relocate_eq_of_not_text hj hk)

theorem EndsOnce.relocate {ts : List Token} (h : EndsOnce ts) :
    EndsOnce (ts.map (Token.relocate f)) := by
  obtain ⟨body, last, rfl, heof, hplain⟩ := h
  refine ⟨body.map (Token.relocate f), last.relocate f, by simp, ?_, fun t ht hk => ?_⟩
  · show last.kind.relocate f = .eof
    rw [heof]
    rfl
  · obtain ⟨u, hu, rfl⟩ := List.mem_map.mp ht
    exact hplain u hu (TokenKind.relocate_eq_of_not_text rfl hk)

end

namespace Parse

variable {o : ParseOptions} {us : List Token} {d : Shift}

/-- A text further on has the same statements further on. -/
theorem run_shift (hr : Regular us) (hquiet : (run o us).2 = []) :
    (run o (us.map (Token.relocate (Span.shift d)))).1.statements =
        (run o us).1.statements.map (Statement.relocate (Span.shift d)) ∧
      (run o (us.map (Token.relocate (Span.shift d)))).2 = [] := by
  obtain ⟨hstatements, herrors⟩ := run_alike o Span.mergeable_shift (hr.alike_shift (d := d))
  rw [hquiet] at herrors
  have hid : Statement.relocate id = id := funext Statement.relocate_id
  rw [hid, List.map_id] at hstatements
  exact ⟨hstatements.symm, List.forall₂_nil_left_iff.mp herrors⟩

end Parse

/-! ## Resolved trees -/

theorem Statement.resolve_relocate (s : Statement) (d : Shift) :
    (s.relocate (Span.shift d)).mapValue Expr.resolve =
      (s.mapValue Expr.resolve).relocate (Span.shift d) := by
  cases s with
  | error span => rfl
  | assign span name value =>
    exact congrArg (Statement.assign _ _) (Expr.resolve_relocate Span.shift_merge value)
  | expr span value => exact congrArg (Statement.expr _) (Expr.resolve_relocate Span.shift_merge value)

/-- What becomes of a statement in the end. -/
def Statement.desugar (o : ParseOptions) (s : Statement) : Statement :=
  if o.resolvePipelines then s.mapValue Expr.resolve else s

theorem Program.statements_desugar (o : ParseOptions) (p : Program) :
    (p.desugar o).statements = p.statements.map (Statement.desugar o) := by
  unfold desugar
  split
  · next h => exact List.map_congr_left fun s _ => by rw [Statement.desugar, if_pos h]
  · next h =>
    refine (List.map_id' _).symm.trans (List.map_congr_left fun s _ => ?_)
    rw [Statement.desugar, if_neg h]

theorem Statement.desugar_relocate (o : ParseOptions) (s : Statement) (d : Shift) :
    (s.relocate (Span.shift d)).desugar o = (s.desugar o).relocate (Span.shift d) := by
  unfold desugar
  split
  · exact s.resolve_relocate d
  · rfl

end PipeLang
