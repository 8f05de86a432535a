import PipeLang.Proofs.Parse.Reads

/-! Pieces against tokens with their places: where two pieces touch, one token starts where the other ends,
and a gap is a blank between them at least. What is laid out so is ahead of a cursor before it. -/

namespace PipeLang

open Format

/-- A piece that is a token by itself. -/
def Format.Piece.isToken : Piece → Bool
  | gap | glue => false
  | plain _ | text _ => true

namespace Parse

/-- The tokens of pieces, laid out from the offset `p` on. The token before them ends at `u`, the last of
them at `v`, and what follows them starts at `q`. -/
inductive Laid : Nat → Nat → List Piece → List Token → Nat → Nat → Prop
  | nil (u p : Nat) : Laid u p [] [] u p
  | gap {u p p' v q : Nat} {ps : List Piece} {ts : List Token} (le : u ≤ p) (later : p < p')
      (rest : Laid u p' ps ts v q) : Laid u p (.gap :: ps) ts v q
  /-- Blanks that no piece stands for, at the start of a line. -/
  | skip {u p p' v q : Nat} {ps : List Piece} {ts : List Token} (le : p ≤ p')
      (rest : Laid u p' ps ts v q) : Laid u p ps ts v q
  | glue {p v q : Nat} {ps : List Piece} {t : Token} {ts : List Token} (touch : t.span.start = p)
      (rest : Laid p p ps (t :: ts) v q) : Laid p p (.glue :: ps) (t :: ts) v q
  | plain {u p v q : Nat} {kind : TokenKind} {ps : List Piece} {t : Token} {ts : List Token}
      (kind_eq : t.kind = kind) (start : t.span.start = p) (le : p ≤ t.span.stop)
      (rest : Laid t.span.stop t.span.stop ps ts v q) : Laid u p (.plain kind :: ps) (t :: ts) v q
  | text {u p v q : Nat} {parts : List PiecePart} {found : List StringPart} {ps : List Piece}
      {t : Token} {ts : List Token} (kind_eq : t.kind = .text found)
      (parts_at : PartsAt parts found) (start : t.span.start = p) (le : p ≤ t.span.stop)
      (rest : Laid t.span.stop t.span.stop ps ts v q) : Laid u p (.text parts :: ps) (t :: ts) v q

namespace Laid

variable {u p v q w r : Nat} {ps qs : List Piece} {ts us : List Token}

theorem append (h : Laid u p ps ts v q) (h' : Laid v q qs us w r) :
    Laid u p (ps ++ qs) (ts ++ us) w r := by
  induction h with
  | nil => exact h'
  | gap le later _ ih => exact .gap le later (ih h')
  | skip le _ ih => exact .skip le (ih h')
  | glue touch _ ih => exact .glue touch (ih h')
  | plain kind_eq start le _ ih => exact .plain kind_eq start le (ih h')
  | text kind_eq parts_at start le _ ih => exact .text kind_eq parts_at start le (ih h')

/-- A token does not rely on where the one before it ends. -/
theorem of_isToken {x : Piece} (hx : x.isToken = true) (h : Laid u p (x :: ps) ts v q) (u' : Nat) :
    Laid u' p (x :: ps) ts v q := by
  generalize hl : x :: ps = l at h
  induction h with
  | nil => cases hl
  | gap => cases hl; cases hx
  | skip le _ ih => exact .skip le (ih hl)
  | glue => cases hl; cases hx
  | plain kind_eq start le rest => exact .plain kind_eq start le rest
  | text kind_eq parts_at start le rest => exact .text kind_eq parts_at start le rest

/-- The first token after the offset `p`. -/
theorem head_start (h : Laid u p ps ts v q) {t : Token} {rest : List Token} (ht : q ≤ t.span.start) :
    ∃ x xs, ts ++ t :: rest = x :: xs ∧ p ≤ x.span.start := by
  induction h with
  | nil => exact ⟨t, rest, rfl, ht⟩
  | gap _ later _ ih =>
    obtain ⟨x, xs, he, hx⟩ := ih ht
    exact ⟨x, xs, he, by omega⟩
  | skip le _ ih =>
    obtain ⟨x, xs, he, hx⟩ := ih ht
    exact ⟨x, xs, he, by omega⟩
  | glue touch _ _ => exact ⟨_, _, rfl, Nat.le_of_eq touch.symm⟩
  | plain _ start _ _ _ => exact ⟨_, _, rfl, Nat.le_of_eq start.symm⟩
  | text _ _ start _ _ _ => exact ⟨_, _, rfl, Nat.le_of_eq start.symm⟩

theorem forward_eq {c : Cursor} {t : Token} {rest : List Token} (h : c.rest = t :: rest) :
    c.forward = ⟨t :: c.before, rest, c.errors⟩ := by
  unfold Cursor.forward
  rw [h]

/-- What is laid out is ahead of a cursor before it, if a token comes after it. -/
theorem ahead {K : Cursor → Prop} (h : Laid u p ps ts v q) {c : Cursor} {t : Token}
    {rest : List Token} (hr : c.rest = ts ++ t :: rest) (ht : q ≤ t.span.start)
    (hprev : (∃ x, c.previous? = some x ∧ x.span.stop = u) ∨ ∀ x ∈ ps.head?, x.isToken = true)
    (hk : K ⟨ts.reverse ++ c.before, t :: rest, c.errors⟩) : At ps K c := by
  induction h generalizing c with
  | nil =>
    obtain ⟨before, ahead, errors⟩ := c
    cases hr
    exact hk
  | gap le later hrest ih =>
    rcases hprev with ⟨x, hx, hstop⟩ | hprev
    · obtain ⟨y, ys, he, hy⟩ : ∃ y ys, _ ++ t :: rest = y :: ys ∧ _ ≤ y.span.start :=
        hrest.head_start ht
      refine ⟨⟨x, hx, ?_⟩, ih hr ht (.inl ⟨x, hx, hstop⟩) hk⟩
      have hpeek : c.peek = y := by
        unfold Cursor.peek
        rw [hr, he]
      rw [hpeek]
      omega
    · exact absurd (hprev _ rfl) (by decide)
  | skip le _ ih => exact ih hr ht hprev hk
  | @glue p v q ps y ys touch hrest ih =>
    rcases hprev with ⟨x, hx, hstop⟩ | hprev
    · refine ⟨⟨x, hx, ?_⟩, ih hr ht (.inl ⟨x, hx, hstop⟩) hk⟩
      have hpeek : c.peek = y := by
        unfold Cursor.peek
        rw [hr]
        rfl
      rw [hpeek, touch, hstop]
    · exact absurd (hprev _ rfl) (by decide)
  | @plain u p v q kind ps y ys kind_eq start le hrest ih =>
    have hforward := forward_eq hr
    refine ⟨⟨y, _, hr, kind_eq⟩, ?_⟩
    refine ih (by rw [hforward]; rfl) ht (.inl ⟨y, by rw [hforward]; rfl, rfl⟩) ?_
    rw [hforward]
    simpa using hk
  | @text u p v q parts found ps y ys kind_eq parts_at start le hrest ih =>
    have hforward := forward_eq hr
    refine ⟨⟨y, _, found, hr, kind_eq, parts_at⟩, ?_⟩
    refine ih (by rw [hforward]; rfl) ht (.inl ⟨y, by rw [hforward]; rfl, rfl⟩) ?_
    rw [hforward]
    simpa using hk

end Laid

end Parse

end PipeLang
