import PipeLang.Proofs.Format.ReadBracket

/-! Patterns are read back. -/

namespace PipeLang

namespace Parse

open Format

variable {S : Cursor → Prop} {R : β → Prop}

theorem Reads.peek_text_bind {parts : List PiecePart} {ps : List Piece} {f : Token → Parse β}
    (hf : ∀ t found, t.kind = .text found → PartsAt parts found →
      Reads (f t) (.text parts :: ps) S R) :
    Reads (test Cursor.peek >>= f) (.text parts :: ps) S R := by
  intro K hs c hc
  obtain ⟨⟨t, rest, found, hr, hk, hparts⟩, _⟩ := id hc
  have hpeek : c.peek.kind = .text found := by
    rw [← hk]
    exact kind_of_rest hr
  exact hf c.peek found hpeek hparts K hs c hc

theorem Reads.skip_text_bind {parts : List PiecePart} {ps : List Piece} {f : Span → Parse β}
    (hf : ∀ s, Reads (f s) ps S R) : Reads (skip >>= f) (.text parts :: ps) S R := by
  intro K hs c hc
  obtain ⟨⟨t, rest, found, hr, hk, _⟩, hafter⟩ := hc
  have hnext : c.next = c.forward := next_eq_forward (by rw [kind_of_rest hr, hk]; simp)
  rw [Parse.skip_bind, hnext]
  exact hf c.peek.span K hs c.forward hafter

/-! Constants. -/

theorem plainText_of_parts {value : String} {found : List StringPart}
    (h : PartsAt (literalParts value) found) : plainText found = .ok value := by
  unfold literalParts at h
  split at h
  · next hv =>
    cases found with
    | nil => rw [hv]; rfl
    | cons part found => exact h.elim
  · cases found with
    | nil => exact h.elim
    | cons part found =>
      cases part with
      | hole tokens span => exact h.elim
      | literal t =>
        cases found with
        | nil =>
          obtain ⟨rfl, _⟩ : value = t ∧ PartsAt [] [] := h
          show (.ok (value ++ "") : Except Span String) = .ok value
          rw [String.append_empty]
        | cons part found => exact h.2.elim

theorem reads_constant {k : TokenKind} (hk : k ≠ .eof) (value : Literal) :
    Reads (literal?.constant value) [.plain k] S (fun r => ∃ s, r = some (value, s)) :=
  .skip_bind hk fun s => .pure ⟨s, rfl⟩

theorem reads_literal (value : Literal) :
    Reads literal? (literalPieces value) S (fun r => ∃ s, r = some (value, s)) := by
  cases value with
  | number x =>
    rw [literalPieces, numberPieces]
    cases hneg : x.negative with
    | false =>
      refine .peek_bind fun t ht => ?_
      rw [ht]
      exact reads_constant TokenKind.noConfusion (.number x)
    | true =>
      refine .peek_bind fun t ht => ?_
      rw [ht]
      refine .test_bind (a := true) (fun c hc => atNegative_of_at hc) ?_
      rw [if_pos rfl, ← List.append_nil [_, _, _]]
      refine .bind (T := S) reads_negativeNumber (fun r hr => .pure ?_) fun c hc => hc
      obtain ⟨v, sp⟩ := r
      have hv : v = x.neg.neg := hr
      exact ⟨sp, by rw [hv, Number.neg_neg]⟩
  | text s =>
    refine .peek_text_bind fun t found ht hparts => ?_
    rw [ht]
    dsimp only
    rw [plainText_of_parts hparts]
    exact .skip_text_bind fun s => .pure ⟨s, rfl⟩
  | bool b =>
    refine .peek_bind fun t ht => ?_
    rw [ht]
    cases b with
    | true => exact reads_constant TokenKind.noConfusion (.bool true)
    | false => exact reads_constant TokenKind.noConfusion (.bool false)
  | nil =>
    refine .peek_bind fun t ht => ?_
    rw [ht]
    exact reads_constant TokenKind.noConfusion .nil

/-- A constant begins as neither a name nor a mark nor the catch-all. -/
theorem kind_of_literal {value : Literal} {K : Cursor → Prop} {c : Cursor}
    (hc : At (literalPieces value) K c) :
    c.kind.isIdent = false ∧ (∀ p, c.kind ≠ .punctuation p) ∧ c.kind ≠ .keyword .otherwise_ := by
  cases value with
  | number x =>
    rw [literalPieces, numberPieces] at hc
    split at hc
    · rw [At.kind hc]; exact ⟨rfl, by simp, by simp⟩
    · rw [At.kind hc]; exact ⟨rfl, by simp, by simp⟩
  | text s =>
    obtain ⟨⟨t, rest, found, hr, hk, _⟩, _⟩ := hc
    rw [kind_of_rest hr, hk]
    exact ⟨rfl, by simp, by simp⟩
  | bool b =>
    rw [At.kind hc]
    cases b with
    | true => exact ⟨rfl, by simp, by simp [boolKeyword]⟩
    | false => exact ⟨rfl, by simp, by simp [boolKeyword]⟩
  | nil => rw [At.kind hc]; exact ⟨rfl, by simp, by simp⟩

/-! Record patterns. -/

def usePieces : FieldUse → List Piece
  | .bind name => [.name name]
  | .compare value => literalPieces value
  | .ignore => [.mark .underscore]

/-- A field that binds its own key is written once. -/
theorem patternFieldPieces_cases (f : PatternField) :
    (f.use = .bind f.key.text ∧ patternFieldPieces f = [.name f.key.text]) ∨
      patternFieldPieces f = keyPieces f.key.text (usePieces f.use) := by
  unfold patternFieldPieces
  cases huse : f.use with
  | bind name =>
    dsimp only
    split
    · next he => exact .inl ⟨by rw [he], rfl⟩
    · exact .inr rfl
  | compare value => exact .inr rfl
  | ignore => exact .inr rfl

theorem atPunctuation_of_ne {c : Cursor} {p : Punctuation} (h : c.kind ≠ .punctuation p) :
    c.atPunctuation p = false := by
  cases hp : c.atPunctuation p with
  | false => rfl
  | true => exact absurd (TokenKind.isPunctuation_iff.mp hp) h

theorem reads_fieldUse (use : FieldUse) : Reads fieldUse (usePieces use) S (· = use) := by
  cases use with
  | bind name =>
    refine .accept_bind_false (fun c hc => atPunctuation_of_ne (by rw [hc.kind]; simp)) ?_
    rw [if_neg Bool.false_ne_true]
    refine .peek_bind fun t ht => ?_
    rw [ht]
    exact .skip_bind (by simp) fun _ => .pure rfl
  | compare value =>
    refine .accept_bind_false (fun c hc => atPunctuation_of_ne ((kind_of_literal hc).2.1 _)) ?_
    rw [if_neg Bool.false_ne_true]
    refine .congr (y := comparison) (fun c hc => ?_) ?_
    · have hident := (kind_of_literal hc).1
      rw [Parse.test_bind]
      cases hk : c.peek.kind with
      | ident name =>
        have hkind : c.kind = .ident name := hk
        rw [hkind] at hident
        cases hident
      | _ => rfl
    · show Reads _ (literalPieces value) _ _
      rw [← List.append_nil (literalPieces value)]
      refine .bind (T := S) (reads_literal value) (fun r hr => ?_) fun c hc => hc
      obtain ⟨s, rfl⟩ := hr
      exact .pure rfl
  | ignore =>
    refine .accept_bind (by simp) (fun c hc => TokenKind.isPunctuation_iff.mpr hc) ?_
    exact .pure rfl

theorem reads_patternField {f : PatternField} {before : List PatternField} (opened : Span)
    (hnew : before.find? (fun g => g.key.text == f.key.text) = none) :
    Reads (patternField opened before) (patternFieldPieces f)
      (fun c => c.kind ≠ .punctuation .colon)
      (fun v => v.key.text = f.key.text ∧ v.use = f.use) := by
  have head : ∀ ps, (∀ s, Reads (do
        if ← accept (·.atPunctuation .colon) then
          let use ← fieldUse
          pure ⟨⟨f.key.text, s⟩, use⟩
        else pure ⟨⟨f.key.text, s⟩, .bind f.key.text⟩) ps
          (fun c => c.kind ≠ .punctuation .colon)
          (fun v : PatternField => v.key.text = f.key.text ∧ v.use = f.use)) →
      Reads (patternField opened before) (.name f.key.text :: ps)
        (fun c => c.kind ≠ .punctuation .colon)
        (fun v => v.key.text = f.key.text ∧ v.use = f.use) := by
    intro ps h
    unfold patternField
    refine reads_stillOpen ⟨by simp, by simp⟩ (reads_noComma (by simp) (.test_bind (a := true) ?_ ?_))
    · intro c hc
      unfold Cursor.atIdent
      rw [hc.kind]
      rfl
    rw [if_pos rfl]
    refine .identifier_bind fun s => ?_
    dsimp only
    rw [hnew]
    exact h s
  rcases patternFieldPieces_cases f with ⟨huse, he⟩ | he
  · rw [he]
    refine head [] fun s => .accept_bind_false (fun c hc => atPunctuation_of_ne hc) ?_
    rw [if_neg Bool.false_ne_true]
    exact .pure ⟨rfl, huse.symm⟩
  · rw [he]
    refine head _ fun s => .accept_bind (by simp) (fun c hc => TokenKind.isPunctuation_iff.mpr hc) ?_
    rw [if_pos rfl, ← List.append_nil (usePieces f.use)]
    refine .gap (.bind (reads_fieldUse f.use) (fun use huse => .pure ⟨rfl, huse⟩) fun c hc => hc)

/-- A round of `recordPattern`. -/
def patternRound (opened : Span) (fields : List PatternField) : Parse (Round (List PatternField)) := do
  if ← test (·.atPunctuation .rbrace) then pure (.done fields)
  else
    let field ← patternField opened fields
    pure (.again (field :: fields))

/-- The fields read so far, latest first. -/
def FieldsRead (past fields : List PatternField) : Prop :=
  List.Forall₂ (fun (f v : PatternField) => v.key.text = f.key.text ∧ v.use = f.use) past
    fields.reverse

theorem FieldsRead.keys {past fields : List PatternField} (h : FieldsRead past fields) :
    fields.reverse.map (fun v => v.key.text) = past.map fun f => f.key.text :=
  map_eq_of_forall₂ (h.imp fun _ _ hv => hv.1)

theorem FieldsRead.erase {past fields : List PatternField} (h : FieldsRead past fields) :
    fields.reverse.map (PatternField.relocate fun _ => .origin) =
      past.map (PatternField.relocate fun _ => .origin) := by
  refine map_eq_of_forall₂ (h.imp fun f v hv => ?_)
  unfold PatternField.relocate Name.relocate
  rw [hv.1, hv.2]

theorem reads_patternRound {past fields : List PatternField} {f : PatternField} (opened : Span)
    (h : FieldsRead past fields) (hf : f.key.text ∉ past.map fun f => f.key.text) :
    ∀ {ps}, ps = patternFieldPieces f ∨ ps = .gap :: patternFieldPieces f →
      Reads (patternRound opened fields) ps (fun c => c.kind ≠ .punctuation .colon)
        fun r => ∃ s, r = .again s ∧ FieldsRead (past ++ [f]) s := by
  have hnew : fields.find? (fun g => g.key.text == f.key.text) = none := by
    rw [List.find?_eq_none]
    intro g hg heq
    refine hf ?_
    rw [← h.keys]
    exact List.mem_map.mpr ⟨g, List.mem_reverse.mpr hg, by simpa using heq⟩
  have hread : Reads (patternRound opened fields) (patternFieldPieces f)
      (fun c => c.kind ≠ .punctuation .colon)
      fun r => ∃ s, r = .again s ∧ FieldsRead (past ++ [f]) s := by
    refine .test_bind (a := false) (fun c hc => atPunctuation_of_ne ?_) ?_
    · rcases patternFieldPieces_cases f with ⟨_, he⟩ | he
      · rw [he] at hc; rw [At.kind hc]; simp
      · rw [he] at hc; rw [At.kind hc]; simp
    rw [if_neg Bool.false_ne_true, ← List.append_nil (patternFieldPieces f)]
    refine .bind (reads_patternField opened hnew) (fun v hv => .pure ⟨_, rfl, ?_⟩) fun c hc => hc
    unfold FieldsRead
    rw [List.reverse_cons]
    exact List.rel_append h (.cons hv .nil)
  rintro ps (rfl | rfl)
  · exact hread
  · exact .gap hread

theorem reads_recordPattern (s : Span) {fields : List PatternField}
    (hkeys : (fields.map fun f => f.key.text).Nodup) :
    Reads recordPattern (patternPieces (.record s fields)) S
      (fun v => v.erase = (Pattern.record s fields).erase) := by
  refine .skip_bind (by simp) fun opened => ?_
  rw [← flatMap_gapped]
  refine .bind (T := fun c => c.kind = .punctuation .rbrace)
    (Q := fun found => FieldsRead fields found) ?_ (fun found hfound => ?_) fun c hc => hc.kind
  · intro K hk c hc
    have hmem : ∀ x ∈ gapped patternFieldPieces fields,
        x.1 = patternFieldPieces x.2 ∨ x.1 = .gap :: patternFieldPieces x.2 :=
      fun x hx => (mem_gapped hx).2
    have hcount : ∀ f, 0 < ((patternFieldPieces f).map Piece.count).sum := by
      intro f
      rcases patternFieldPieces_cases f with ⟨_, he⟩ | he
      · rw [he]; simp [Piece.count]
      · rw [he]; simp only [keyPieces, List.map_cons, List.sum_cons, Piece.count]; omega
    have hlen := hc.length_le fun x hx => by
      have := hcount x.2
      rcases hmem x hx with he | he
      · rw [he]; exact this
      · rw [he]; simpa [Piece.count] using this
    have hround : ∀ past x todo, gapped patternFieldPieces fields = past ++ x :: todo →
        ∀ found, FieldsRead (past.map Prod.snd) found →
        Reads (patternRound opened found) x.1 (fun c => c.kind ≠ .punctuation .colon)
          fun r => ∃ s, r = .again s ∧ FieldsRead ((past ++ [x]).map Prod.snd) s := by
      intro past x todo he found hfound
      have hx := hmem x (he ▸ List.mem_append_right _ List.mem_cons_self)
      rw [List.map_append, List.map_singleton]
      refine reads_patternRound opened hfound ?_ hx
      have hall := congrArg (List.map Prod.snd) he
      rw [map_snd_gapped, List.map_append, List.map_cons] at hall
      rw [hall, List.map_append, List.map_cons, List.nodup_append] at hkeys
      intro hin
      exact hkeys.2.2 _ hin _ List.mem_cons_self rfl
    have hnext : ∀ x ∈ gapped patternFieldPieces fields, ∀ c,
        At x.1 (fun c => c.kind ≠ .punctuation .colon) c → c.kind ≠ .punctuation .colon := by
      intro x hx c hc
      have hname : ∀ {c : Cursor} {f : PatternField}, At (patternFieldPieces f)
          (fun c => c.kind ≠ .punctuation .colon) c → c.kind ≠ .punctuation .colon := by
        intro c f hc
        rcases patternFieldPieces_cases f with ⟨_, he⟩ | he
        · rw [he] at hc; rw [At.kind hc]; simp
        · rw [he] at hc; rw [At.kind hc]; simp
      rcases hmem x hx with he | he
      · rw [he] at hc; exact hname hc
      · rw [he] at hc; exact hname hc.2
    have hstop : ∀ c, K c → c.kind ≠ .punctuation .colon := by
      intro c hc
      rw [hk c hc]
      simp
    have hnone : FieldsRead (([] : List (List Piece × PatternField)).map Prod.snd) [] := .nil
    obtain ⟨found, c', hfound, hc', hrun⟩ := roundsUpTo_again
      (P := fun past found => FieldsRead (past.map Prod.snd) found) hround hnext hstop hnone hc
      (c.rest.length + 1 - (gapped patternFieldPieces fields).length)
    rw [map_snd_gapped] at hfound
    refine ⟨found, c', ?_, hfound, hc'⟩
    show roundsUpTo (patternRound opened) (c.rest.length + 1) [] c = _
    rw [show c.rest.length + 1 = (gapped patternFieldPieces fields).length +
      (c.rest.length + 1 - (gapped patternFieldPieces fields).length) by omega, hrun]
    have hat : c'.atPunctuation .rbrace = true := TokenKind.isPunctuation_iff.mpr (hk c' hc')
    refine roundsUpTo_done ?_ _
    rw [patternRound, test_bind, hat]
    rfl
  · refine .skip_bind (by simp) fun _ => .pure ?_
    simp only [Pattern.erase, Pattern.relocate]
    rw [hfound.erase]

theorem reads_pattern {o : ParseOptions} {p : Pattern} (hp : p.Formed) {budget : Nat}
    (hb : 0 < budget) :
    Reads (pattern o budget) (patternPieces p) S (fun v => v.erase = p.erase) := by
  unfold pattern
  rw [if_neg (by omega)]
  cases p with
  | record s fields =>
    refine .congr (fun c hc => ?_) (reads_recordPattern s hp.2)
    have hk : c.peek.kind = .punctuation .lbrace := At.kind hc
    unfold patternInside
    rw [test_bind, hk]
  | literal s value =>
    refine .congr (y := literalPattern) (fun c hc => ?_) ?_
    · obtain ⟨hident, hmark, hword⟩ := kind_of_literal hc
      have hident : c.peek.kind.isIdent = false := hident
      have hmark : ∀ p, c.peek.kind ≠ .punctuation p := hmark
      have hword : c.peek.kind ≠ .keyword .otherwise_ := hword
      unfold patternInside
      rw [test_bind]
      cases hk : c.peek.kind with
      | punctuation p => exact absurd hk (hmark p)
      | ident name => rw [hk] at hident; cases hident
      | keyword k => cases k <;> first | exact absurd hk hword | rfl
      | _ => rfl
    · show Reads _ (literalPieces value) _ _
      rw [← List.append_nil (literalPieces value)]
      refine .bind (T := S) (reads_literal value) (fun r hr => ?_) fun c hc => hc
      obtain ⟨s, rfl⟩ := hr
      exact .pure rfl
  | bind s name =>
    refine .peek_bind fun t ht => ?_
    rw [ht]
    exact .skip_bind (by simp) fun _ => .pure rfl
  | wildcard s =>
    refine .peek_bind fun t ht => ?_
    rw [ht]
    exact .skip_bind (by simp) fun _ => .pure rfl
  | otherwise s =>
    refine .peek_bind fun t ht => ?_
    rw [ht]
    exact .skip_bind (by simp) fun _ => .pure rfl

end Parse

end PipeLang
