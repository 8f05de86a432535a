import PipeLang.Proofs.Format.Lookahead
import PipeLang.Proofs.Tree.Relocate

/-! Operands are read back: names, numbers, placeholders and constants, whatever stands between
parentheses, and the field accesses after any of these. -/

namespace PipeLang

/-- `v` is `e` up to spans. -/
def Expr.Same (e v : Expr) : Prop := v.erase = e.erase

namespace Expr

theorem withSpan_span (e : Expr) : e.withSpan e.span = e := by
  cases e <;> rfl

theorem span_erase (e : Expr) : e.erase.span = .origin := span_relocate _ e

theorem erase_withSpan (s : Span) (e : Expr) : (e.withSpan s).erase = e.erase := by
  have h : (e.withSpan s).erase = e.erase.withSpan .origin := relocate_withSpan _ s e
  rw [h, ← span_erase e, withSpan_span]

theorem Same.isPlaceholder {e v : Expr} (h : e.Same v) : v.isPlaceholder = e.isPlaceholder := by
  have he : v.erase = e.erase := h
  rw [← isPlaceholder_relocate (fun _ => .origin) v, ← isPlaceholder_relocate (fun _ => .origin) e]
  exact congrArg Expr.isPlaceholder he

end Expr

/-- Two lists that agree item by item up to spans. -/
theorem map_eq_of_forall₂ {f : α → γ} {g : β → γ} {as : List α} {bs : List β}
    (h : List.Forall₂ (fun a b => g b = f a) as bs) : bs.map g = as.map f := by
  induction h with
  | nil => rfl
  | cons h _ ih => rw [List.map_cons, List.map_cons, h, ih]

namespace Parse

open Format

variable {o : ParseOptions} {S : Cursor → Prop}

/-- From where the tokens of `ps` are ahead an operand equal to `e` is read, up to the field accesses after
it, for which most of the nesting budget is left. -/
def ReadsOperand (o : ParseOptions) (ps : List Piece) (S : Cursor → Prop) (e : Expr) (room : Nat) :
    Prop :=
  ∀ levels budget, room ≤ levels → room ≤ budget → ∀ K : Cursor → Prop, (∀ c, K c → S c) →
    ∀ c, At ps K c → ∃ v c' used, used ≤ room ∧ e.Same v ∧ K c' ∧
      operand o (primary o levels) budget c = accesses o (budget - used) v c'

theorem accesses_of_atAccess {c : Cursor} (h : c.atAccess = false) (budget : Nat) (v : Expr) :
    accesses o budget v c = .ok v c := by
  cases budget with
  | zero => rw [accesses, test_bind, h]; rfl
  | succ budget => rw [accesses, test_bind, h]; rfl

theorem ReadsOperand.reads {ps : List Piece} {e : Expr} {room : Nat} (h : ReadsOperand o ps S e room)
    (hs : ∀ c : Cursor, c.StopsAccess → S c) {levels budget : Nat} (hl : room ≤ levels)
    (hb : room ≤ budget) :
    Reads (operand o (primary o levels) budget) ps Cursor.StopsAccess e.Same := by
  intro K hk c hc
  obtain ⟨v, c', used, _, hv, hc', hrun⟩ := h levels budget hl hb K (fun c hc => hs c (hk c hc)) c hc
  exact ⟨v, c', by rw [hrun, accesses_of_atAccess (hk c' hc').1], hv, hc'⟩

theorem ReadsOperand.mono {ps : List Piece} {e : Expr} {m n : Nat} {T : Cursor → Prop}
    (h : ReadsOperand o ps T e m) (hs : ∀ c, S c → T c) (hmn : m ≤ n) :
    ReadsOperand o ps S e n := by
  intro levels budget hl hb K hk c hc
  obtain ⟨v, c', used, hu, hv, hc', hrun⟩ :=
    h levels budget (by omega) (by omega) K (fun c hc => hs c (hk c hc)) c hc
  exact ⟨v, c', used, by omega, hv, hc', hrun⟩

/-- What the rule for primary expressions reads a level further down is an operand. -/
theorem readsOperand_of_primary {ps : List Piece} {e : Expr} {room : Nat}
    (h : ∀ levels budget, room ≤ levels → room ≤ budget →
      Reads (primaryInside o (primary o levels) budget) ps S e.Same) :
    ReadsOperand o ps S e (room + 1) := by
  intro levels budget hl hb K hk c hc
  obtain ⟨l, rfl⟩ : ∃ l, levels = l + 1 := ⟨levels - 1, by omega⟩
  obtain ⟨b, rfl⟩ : ∃ b, budget = b + 1 := ⟨budget - 1, by omega⟩
  obtain ⟨v, c', hrun, hv, hc'⟩ := h l b (by omega) (by omega) K hk c hc
  refine ⟨v, c', 0, by omega, hv, hc', ?_⟩
  exact bind_of_ok hrun

/-! Forms of one token. -/

section

variable {primary : Primary} {budget : Nat}

theorem reads_ident (s : Span) (name : String) :
    Reads (primaryInside o primary budget) (pieces (.ident s name)) S (Expr.ident s name).Same := by
  rw [pieces_ident]
  refine .peek_bind fun t ht => ?_
  rw [ht]
  exact .skip_bind (by simp) fun _ => .pure rfl

theorem reads_bool (s : Span) (value : Bool) :
    Reads (primaryInside o primary budget) (pieces (.bool s value)) S
      (Expr.bool s value).Same := by
  rw [pieces]
  refine .peek_bind fun t ht => ?_
  rw [ht]
  cases value with
  | true => exact .skip_bind (by simp) fun _ => .pure rfl
  | false => exact .skip_bind (by simp) fun _ => .pure rfl

theorem reads_nil (s : Span) :
    Reads (primaryInside o primary budget) (pieces (.nil s)) S (Expr.nil s).Same := by
  rw [pieces]
  refine .peek_bind fun t ht => ?_
  rw [ht]
  exact .skip_bind (by simp) fun _ => .pure rfl

/-- A minus that touches the number after it. -/
theorem atNegative_of_at {K : Cursor → Prop} {c : Cursor} {x : Number} {ps : List Piece}
    (h : At (.plain (.operator .minus) :: .glue :: .plain (.number x) :: ps) K c) :
    c.atNegative = true := by
  have hminus : c.atOperator .minus = true := TokenKind.isOperator_iff.mpr h.kind
  obtain ⟨⟨t, rest, hr, _⟩, ⟨u, hu, htouch⟩, hnumber⟩ := h
  have hkind : (c.kindAt 1).isNumber = true := by
    have hnumber : At (.plain (.number x) :: ps) K c.forward := hnumber
    rw [Cursor.kindAt_one hr, hnumber.kind]
    rfl
  rw [Cursor.previous?_forward hr] at hu
  obtain rfl := Option.some.inj hu
  rw [Cursor.atNegative, hminus, hkind, Cursor.peekAt_one hr, htouch]
  simp

theorem reads_negativeNumber {x : Number} :
    Reads negativeNumber [.plain (.operator .minus), .glue, .plain (.number x)] S
      (fun r => r.1 = x.neg) := by
  refine .skip_bind (by simp) fun _ => .glue (.peek_bind fun t ht => .skip_bind (by simp) fun _ => ?_)
  rw [ht]
  exact .pure rfl

theorem reads_number (s : Span) (value : Number) :
    Reads (primaryInside o primary budget) (pieces (.number s value)) S
      (Expr.number s value).Same := by
  rw [pieces, numberPieces]
  cases hneg : value.negative with
  | false =>
    refine .peek_bind fun t ht => ?_
    rw [ht]
    exact .skip_bind (by simp) fun _ => .pure rfl
  | true =>
    refine .peek_bind fun t ht => ?_
    rw [ht]
    refine .test_bind (a := true) (fun c hc => atNegative_of_at hc) ?_
    rw [if_pos rfl, ← List.append_nil [_, _, _]]
    refine .bind (T := S) reads_negativeNumber (fun r hr => .pure ?_) fun c hc => hc
    obtain ⟨v, sp⟩ := r
    have hv : v = value.neg.neg := hr
    rw [hv, Number.neg_neg]
    rfl

/-- A dot that touches what stands before it and the name after it. -/
theorem atAccess_of_at {K : Cursor → Prop} {c : Cursor} {field : String} {ps : List Piece}
    (h : At (fieldPieces field ++ ps) K c) : c.atAccess = true := by
  obtain ⟨⟨u, hu, htouch⟩, hdot⟩ := h
  have hdot : At (.mark .dot :: .glue :: .name field :: ps) K c := hdot
  have hmark : c.atPunctuation .dot = true := TokenKind.isPunctuation_iff.mpr hdot.kind
  obtain ⟨⟨t, rest, hr, _⟩, ⟨w, hw, htouch'⟩, hname⟩ := hdot
  have hkind : (c.kindAt 1).isIdent = true := by
    have hname : At (.name field :: ps) K c.forward := hname
    rw [Cursor.kindAt_one hr, hname.kind]
    rfl
  rw [Cursor.previous?_forward hr] at hw
  obtain rfl := Option.some.inj hw
  rw [Cursor.atAccess, hmark, hkind, Cursor.peekAt_one hr, htouch', hu]
  simp [htouch]

theorem reads_field {place : Place} {field : String} :
    Reads (do let _ ← skip; identifier place) (fieldPieces field) S (fun x => x.text = field) :=
  .glue (.skip_bind (by simp) fun _ => .glue .identifier)

theorem reads_wildcard (s : Span) (path : List String) :
    Reads (primaryInside o primary budget) (pieces (.wildcard s path)) Cursor.StopsAccess
      (Expr.wildcard s path).Same := by
  rw [pieces]
  refine .peek_bind fun t ht => ?_
  rw [ht]
  refine .skip_bind (by simp) fun _ => ?_
  rw [← List.append_nil (path.flatMap fieldPieces)]
  refine .bind (.many (T := fun _ => True) (Q := fun field x => x.text = field)
    (fun field _ => reads_field) (fun field _ c hc => ?_) (fun _ _ _ _ => trivial)
    (fun c hc => ⟨trivial, hc.1⟩) (fun field _ => by simp [fieldPieces, Piece.count]))
    (fun found hfound => .pure ?_) fun c hc => hc
  · rw [← List.append_nil (fieldPieces field)] at hc
    exact atAccess_of_at hc
  · have hpath : found.map Name.text = path := by
      rw [map_eq_of_forall₂ (f := id) hfound, List.map_id]
    rw [hpath]
    rfl

end

/-! Parentheses and field accesses. -/

/-- An expression up to the end of what encloses it. -/
def ReadsTail (o : ParseOptions) (e : Expr) : Prop :=
  ∀ levels budget, sizeOf e ≤ levels → sizeOf e ≤ budget →
    Reads (expression o (primary o levels) budget) (pieces e) Cursor.Ends e.Same

theorem reads_stillOpen {form : Form} {opened : Span} {expected : List Expected} {k : TokenKind}
    {ps : List Piece} {f : Unit → Parse β} {R : β → Prop} (hk : k ≠ .eof ∧ k ≠ .newline)
    (hf : Reads (f ()) (.plain k :: ps) S R) :
    Reads (stillOpen form opened expected >>= f) (.plain k :: ps) S R := by
  refine .congr (fun c hc => ?_) hf
  have hrun : stillOpen form opened expected c = .ok () c := by
    unfold stillOpen
    rw [hc.kind, if_neg]
    obtain ⟨heof, hline⟩ := hk
    cases k <;> first
      | exact absurd rfl heof
      | exact absurd rfl hline
      | simp [TokenKind.isNewline, TokenKind.isEof]
  exact bind_of_ok hrun

theorem readsOperand_parens {e : Expr} (h : ReadsTail o e) :
    ReadsOperand o (parensPieces (pieces e)) S e (sizeOf e + 1) := by
  refine readsOperand_of_primary fun levels budget hl hb => .peek_bind fun t ht => ?_
  rw [ht]
  refine .skip_bind (by simp) fun opened => .bind (h levels budget hl hb) (fun v hv => ?_)
    fun c hc => ends_of_end hc rfl
  refine reads_stillOpen ⟨by simp, by simp⟩ (.expectPunctuation_bind fun closed => .pure ?_)
  exact (Expr.erase_withSpan _ v).trans hv

theorem readsOperand_access {ps : List Piece} {target : Expr} {room : Nat} (s : Span) (field : Name)
    (h : ReadsOperand o ps (fun c => c.atAccess = true) target room) :
    ReadsOperand o (ps ++ fieldPieces field.text) S (.access s target field) (room + 1) := by
  intro levels budget hl hb K hk c hc
  obtain ⟨v, c1, used, hu, hv, hc1, hrun⟩ := h levels budget (by omega) (by omega)
    (At (fieldPieces field.text) K)
    (fun c hc => by
      rw [← List.append_nil (fieldPieces field.text)] at hc
      exact atAccess_of_at hc) c ((at_append _ _).mp hc)
  have hat : c1.atAccess = true := by
    rw [← List.append_nil (fieldPieces field.text)] at hc1
    exact atAccess_of_at hc1
  obtain ⟨x, c2, hfield, hx, hc2⟩ :=
    (reads_field : Reads (do let _ ← skip; identifier .afterDot) _ (fun _ => True) _) K
      (fun _ _ => trivial) c1 hc1
  obtain ⟨left, hleft⟩ : ∃ left, budget - used = left + 1 := ⟨budget - used - 1, by omega⟩
  refine ⟨.access (v.span.merge x.span) v x, c2, used + 1, by omega, ?_, hc2, ?_⟩
  · have hv : v.erase = target.erase := hv
    show (Expr.access _ v x).erase = (Expr.access s target field).erase
    simp only [Expr.erase, Expr.relocate, Name.relocate, hx] at hv ⊢
    rw [hv]
  · rw [hrun, hleft, accesses, test_bind, hat, if_pos rfl]
    obtain ⟨sp, c3, hskip, hident⟩ := bind_eq_ok.mp hfield
    rw [bind_of_ok hskip, bind_of_ok hident, show budget - (used + 1) = left by omega]

end Parse

end PipeLang
