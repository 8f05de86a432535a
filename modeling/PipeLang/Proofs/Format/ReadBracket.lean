import PipeLang.Proofs.Format.ReadPipeline

/-! Forms between brackets and strings with interpolations are read back. -/

namespace PipeLang

namespace Format

theorem bindingRuns_eq_map (fields : List Binding) :
    bindingRuns fields = fields.map fun b =>
      keyPieces b.name.text (placePieces .clause b.value (pieces b.value)) := by
  induction fields with
  | nil => rfl
  | cons b rest ih =>
    obtain ⟨key, value⟩ := b
    rw [bindingRuns, ih]
    rfl

theorem sizeOf_value (b : Binding) : sizeOf b.value < sizeOf b := by
  cases b
  simp only [Binding.mk.sizeOf_spec]
  omega

end Format

namespace Parse

open Format

variable {o : ParseOptions} {S : Cursor → Prop} {n : Nat}

/-- An expression that a clause, a binding or a key may follow. -/
theorem Readable.placed {e : Expr} (h : Readable o e) {levels budget : Nat}
    (hl : sizeOf e + 1 ≤ levels) (hb : sizeOf e + 1 ≤ budget) :
    Reads (expression o (primary o levels) budget) (placePieces .clause e (pieces e))
      Cursor.StopsStages e.Same := by
  cases hn : needsParens .clause e with
  | true =>
    rw [placePieces_of_true hn]
    exact reads_unstaged ((climbs_parens h 0).reads (fun c hc => hc.1) hl hb)
  | false =>
    rw [placePieces_of_false hn]
    exact h.clause (isConstruct_of_needsParens hn) levels budget (by omega) (by omega)

theorem reads_noComma {form : Form} {sample : String} {expected : List Expected} {k : TokenKind}
    {ps : List Piece} {f : Unit → Parse β} {R : β → Prop} (hk : k ≠ .punctuation .comma)
    (hf : Reads (f ()) (.plain k :: ps) S R) :
    Reads (noComma form sample expected >>= f) (.plain k :: ps) S R := by
  refine .congr (fun c hc => ?_) hf
  have hcomma : c.atPunctuation .comma = false := by
    cases hp : c.atPunctuation .comma with
    | false => rfl
    | true => exact absurd (hc.kind.symm.trans (TokenKind.isPunctuation_iff.mp hp)) hk
  have hrun : noComma form sample expected c = .ok () c := by
    unfold noComma
    rw [hcomma]
    rfl
  exact bind_of_ok hrun

/-! Records. -/

theorem reads_recordField {b : Binding} (h : Readable o b.value) (opened : Span)
    {levels budget : Nat} (hl : sizeOf b.value + 1 ≤ levels) (hb : sizeOf b.value + 1 ≤ budget) :
    Reads (recordField o (primary o levels) budget opened)
      (keyPieces b.name.text (placePieces .clause b.value (pieces b.value))) Cursor.StopsStages
      (fun v => v.erase = b.erase) := by
  unfold recordField
  refine reads_stillOpen ⟨by simp, by simp⟩ (reads_noComma (by simp) (.test_bind (a := true) ?_ ?_))
  · intro c hc
    unfold Cursor.atIdent
    rw [hc.kind]
    rfl
  rw [if_pos rfl]
  refine .identifier_bind fun s => .expectPunctuation_bind fun _ => .gap ?_
  rw [← List.append_nil (placePieces _ _ _)]
  refine .bind (h.placed hl hb) (fun v hv => .pure ?_) fun c hc => hc
  have hv : v.erase = b.value.erase := hv
  unfold Binding.erase Binding.relocate
  unfold Expr.erase at hv
  rw [hv]
  rfl

theorem reads_record (s : Span) {fields : List Binding} (h : ∀ b ∈ fields, Readable o b.value)
    {levels budget : Nat} (hl : sizeOf fields ≤ levels) (hb : sizeOf fields ≤ budget) :
    Reads (primaryInside o (primary o levels) budget) (pieces (.record s fields)) S
      (Expr.record s fields).Same := by
  rw [pieces, bindingRuns_eq_map, ← flatMap_gapped]
  refine .peek_bind fun t ht => ?_
  rw [ht]
  refine .skip_bind (by simp) fun opened => ?_
  have hsize : ∀ x ∈ gapped (fun b : Binding =>
      keyPieces b.name.text (placePieces .clause b.value (pieces b.value))) fields,
      Readable o x.2.value ∧ sizeOf x.2.value + 1 ≤ sizeOf fields ∧
        (x.1 = keyPieces x.2.name.text (placePieces .clause x.2.value (pieces x.2.value)) ∨
          x.1 = .gap :: keyPieces x.2.name.text
            (placePieces .clause x.2.value (pieces x.2.value))) := by
    intro x hx
    obtain ⟨hm, he⟩ := mem_gapped hx
    have h1 := List.sizeOf_lt_of_mem hm
    have h2 := sizeOf_value x.2
    exact ⟨h x.2 hm, by omega, he⟩
  refine .bind (.many (T := Cursor.StopsStages)
    (Q := fun (x : List Piece × Binding) v => Binding.erase v = Binding.erase x.2) ?_ ?_ ?_ ?_ ?_)
    (fun found hfound => .skip_bind (by simp) fun _ => .pure ?_)
    fun c hc => hc
  · intro x hx
    obtain ⟨hr, hs, he⟩ := hsize x hx
    have hlevels : sizeOf x.2.value + 1 ≤ levels := by omega
    have hbudget : sizeOf x.2.value + 1 ≤ budget := by omega
    have hread := reads_recordField hr opened hlevels hbudget
    rcases he with he | he
    · rw [he]; exact hread
    · rw [he]; exact .gap hread
  · intro x hx c hc
    obtain ⟨_, _, he⟩ := hsize x hx
    have hkey : c.kind = .ident x.2.name.text := by
      rcases he with he | he
      · rw [he] at hc; exact At.kind hc
      · rw [he] at hc; exact At.kind hc.2
    unfold Cursor.atPunctuation
    rw [hkey]
    rfl
  · intro x hx c hc
    obtain ⟨_, _, he⟩ := hsize x hx
    rcases he with he | he
    · rw [he] at hc; exact stopsStages_of_key hc
    · rw [he] at hc; exact stopsStages_of_key hc.2
  · intro c hc
    refine ⟨stopsStages_of_closer hc rfl, ?_⟩
    unfold Cursor.atPunctuation
    rw [hc.kind]
    rfl
  · intro x hx
    obtain ⟨_, _, he⟩ := hsize x hx
    rcases he with he | he
    · rw [he]; simp only [keyPieces, List.map_cons, List.sum_cons, Piece.count]; omega
    · rw [he]; simp only [keyPieces, List.map_cons, List.sum_cons, Piece.count]; omega
  · have hmap : found.map Binding.erase = fields.map Binding.erase := by
      rw [map_eq_of_forall₂ hfound]
      conv_rhs => rw [← map_snd_gapped (fun b : Binding =>
        keyPieces b.name.text (placePieces .clause b.value (pieces b.value))) fields]
      rw [List.map_map]
      rfl
    show (Expr.record _ found).erase = (Expr.record s fields).erase
    unfold Expr.erase
    simp only [Expr.relocate, relocateBindings_eq_map]
    exact congrArg _ hmap

/-! Lists. -/

theorem not_leadsTo_of_items {es : List Expr} (hes : ∀ e ∈ es, e.Formed n) {ps : List Piece}
    {K : Cursor → Prop} {c : Cursor} (hc : At (joinedPieces (itemPieces (withPieces es)) ++ ps) K c)
    (hk : ∀ c, At ps K c → ¬c.LeadsTo (TokenKind.isPunctuation .arrow)) :
    ¬c.LeadsTo (TokenKind.isPunctuation .arrow) := by
  have first : ∀ (args : List Expr) e qs, (∀ a ∈ args, a.Formed n) → e.Formed n →
      At (argumentPieces e ++ (spacedPieces (args.map argumentPieces) ++ qs)) K c →
      (∀ c, At qs K c → ¬c.LeadsTo (TokenKind.isPunctuation .arrow)) →
      ¬c.LeadsTo (TokenKind.isPunctuation .arrow) := by
    intro args e qs hargs he hc hq
    refine not_leadsTo_of_argument marksNames_arrow (begins he).1 ((at_append _ _).mp hc) ?_
    intro _ c' hc'
    exact not_leadsTo_of_arguments hargs marksNames_arrow ((at_append _ _).mp hc') fun _ => hq
  rcases itemPieces_cases es with he | ⟨init, s, t, op, left, right, rfl, he⟩
  · rw [he] at hc
    cases es with
    | nil => exact hk c hc
    | cons e rest =>
      rw [List.map_cons, joinedPieces_cons, List.append_assoc] at hc
      exact first rest e ps (fun a ha => hes a (List.mem_cons_of_mem _ ha))
        (hes e List.mem_cons_self) hc hk
  · have hleft := (formed_of_binary (hes _ (List.mem_append_right _ List.mem_cons_self))).1
    have hop : ∀ c, At ((.gap :: .plain (operatorKind op) :: .gap ::
        operandPieces op.precedence true right (pieces right)) ++ ps) K c →
        ¬c.LeadsTo (TokenKind.isPunctuation .arrow) :=
      fun c hc => not_leadsTo_of_operator_arrow hc
    rw [he, joinedPieces_concat, List.append_assoc] at hc
    cases init with
    | nil =>
      rw [List.map_nil, List.nil_append, joinedPieces_cons, List.append_assoc] at hc
      exact first [] left _ (fun _ h => absurd h List.not_mem_nil) hleft hc hop
    | cons e rest =>
      rw [List.map_cons, List.cons_append, joinedPieces_cons, List.append_assoc] at hc
      refine first (rest ++ [left]) e _ (fun a ha => ?_)
        (hes e (List.mem_append_left _ List.mem_cons_self)) (by rwa [List.map_append]) hop
      rcases List.mem_append.mp ha with ha | ha
      · exact hes a (List.mem_append_left _ (List.mem_cons_of_mem _ ha))
      · rw [List.mem_singleton.mp ha]; exact hleft

theorem atFunction_of_bracket {ps : List Piece} {K : Cursor → Prop} {c : Cursor}
    (hc : At (.mark .lbracket :: ps) K c) {t : Token} {rest : List Token}
    (hr : c.forward.rest = t :: rest) :
    c.atFunction = true ↔ t.kind.isIdent = true ∧
      c.forward.LeadsTo (TokenKind.isPunctuation .arrow) := by
  obtain ⟨⟨u, more, hu, _⟩, _⟩ := hc
  rw [Cursor.atFunction, Cursor.namesThen_succ hu, Cursor.namesThen_zero hr]

theorem reads_list (s : Span) {items : List Expr} {room : Nat} (h : IsArguments o n room items)
    {levels budget : Nat} (hl : room ≤ levels) (hb : room ≤ budget) :
    Reads (primaryInside o (primary o levels) budget) (pieces (.list s items)) S
      (Expr.list s items).Same := by
  rw [pieces]
  have harrow : ∀ c, At (joinedPieces (itemPieces (withPieces items)) ++ [.mark .rbracket]) S c →
      ¬c.LeadsTo (TokenKind.isPunctuation .arrow) := by
    intro c hc
    refine not_leadsTo_of_items h.formed hc fun c hc => ?_
    rw [hc.leadsTo_plain rfl]
    exact Bool.false_ne_true
  refine .peek_bind fun t ht => ?_
  rw [ht]
  refine .test_bind (a := false) (fun c hc => ?_) ?_
  · have hinner : At (joinedPieces (itemPieces (withPieces items)) ++ [.mark .rbracket]) S c.forward :=
      hc.2
    cases hf : c.atFunction with
    | false => rfl
    | true =>
      cases hr : c.forward.rest with
      | nil =>
        obtain ⟨⟨u, more, hu, _⟩, _⟩ := hc
        rw [Cursor.atFunction, Cursor.namesThen_succ hu, Cursor.namesThen, hr] at hf
        cases hf
      | cons u more => exact absurd ((atFunction_of_bracket hc hr).mp hf).2 (harrow _ hinner)
  rw [if_neg Bool.false_ne_true]
  refine .skip_bind (by simp) fun opened => .test_bind (a := false) (fun c hc => ?_) ?_
  · cases ha : c.atPunctuation .arrow with
    | false => rfl
    | true =>
      have hk : c.kind = .punctuation .arrow := TokenKind.isPunctuation_iff.mp ha
      obtain ⟨c', ⟨hc', hlen⟩⟩ := hc.exists_rest
      obtain ⟨u, more, hr⟩ : ∃ u more, c.rest = u :: more := by
        cases hr : c.rest with
        | nil => rw [hr] at hlen; simp [Piece.count] at hlen
        | cons u more => exact ⟨u, more, rfl⟩
      rw [kind_of_rest hr] at hk
      refine absurd ?_ (harrow c hc)
      rw [Cursor.leadsTo_of_not_ident hr (by rw [hk]; rfl), hk]
      rfl
  rw [if_neg Bool.false_ne_true]
  refine .bind (reads_joined h hl hb) (fun found hfound => ?_) fun c hc =>
    (stopsStages_of_closer hc rfl).chain
  refine .test_bind (a := true) (fun c hc => TokenKind.isPunctuation_iff.mpr hc.kind) ?_
  rw [if_pos rfl]
  refine .skip_bind (by simp) fun _ => .pure ?_
  have hmap : found.map Expr.erase = items.map Expr.erase := map_eq_of_forall₂ hfound
  show (Expr.list _ found).erase = (Expr.list s items).erase
  unfold Expr.erase at hmap ⊢
  simp only [Expr.relocate, relocateExprs_eq_map]
  exact congrArg _ hmap

/-! Functions. -/

theorem reads_names {names : List Name} {xs : List (List Piece × Name)} {place : Place}
    (hnames : xs.map Prod.snd = names)
    (hxs : ∀ x ∈ xs, x.1 = namePieces x.2 ∨ x.1 = .gap :: namePieces x.2) :
    Reads (many Cursor.atIdent (identifier place)) (xs.flatMap Prod.fst)
      (fun c => c.atIdent = false) (fun found => found.map Name.text = names.map Name.text) := by
  have hread : ∀ x ∈ xs, Reads (identifier place) x.1 (fun _ => True)
      (fun v => v.text = x.2.text) := by
    intro x hx
    rcases hxs x hx with he | he
    · rw [he]; exact .identifier
    · rw [he]; exact .gap .identifier
  refine (Reads.many (T := fun _ => True) hread (fun x hx c hc => ?_) (fun _ _ _ _ => trivial)
    (fun c hc => ⟨trivial, hc⟩) (fun x hx => ?_)).mono (fun _ hc => hc) (fun found hfound => ?_)
  · unfold Cursor.atIdent
    rcases hxs x hx with he | he
    · rw [he] at hc; rw [At.kind hc]; rfl
    · rw [he] at hc; rw [At.kind hc.2]; rfl
  · rcases hxs x hx with he | he
    · rw [he]; simp [namePieces, Piece.count]
    · rw [he]; simp [namePieces, Piece.count]
  · rw [map_eq_of_forall₂ hfound, ← hnames, List.map_map]
    rfl

theorem reads_joinedNames (names : List Name) {place : Place} :
    Reads (many Cursor.atIdent (identifier place)) (joinedPieces (names.map namePieces))
      (fun c => c.atIdent = false) (fun found => found.map Name.text = names.map Name.text) := by
  rw [← flatMap_gapped]
  exact reads_names (map_snd_gapped namePieces names) fun x hx => (mem_gapped hx).2

theorem reads_spacedNames (names : List Name) {place : Place} :
    Reads (many Cursor.atIdent (identifier place)) (spacedPieces (names.map namePieces))
      (fun c => c.atIdent = false) (fun found => found.map Name.text = names.map Name.text) := by
  have hruns : spacedPieces (names.map namePieces) =
      (names.map fun x => (Piece.gap :: namePieces x, x)).flatMap Prod.fst := by
    rw [List.flatMap_map, spacedPieces, List.flatMap_map]
  rw [hruns]
  refine reads_names ?_ fun x hx => ?_
  · rw [List.map_map]
    exact List.map_id names
  · obtain ⟨y, _, rfl⟩ := List.mem_map.mp hx
    exact .inr rfl

/-- Names lead to the mark after them. -/
theorem leadsTo_of_names {p : TokenKind → Bool} {k : TokenKind} (hk : p k = true)
    (hi : k.isIdent = false) {names : List Name} {ps : List Piece} {K : Cursor → Prop} {c : Cursor}
    (hc : At (spacedPieces (names.map namePieces) ++ .gap :: .plain k :: ps) K c) :
    c.LeadsTo p := by
  induction names generalizing c with
  | nil =>
    have hc : At (.plain k :: ps) K c := hc.2
    rw [hc.leadsTo_plain hi]
    exact hk
  | cons x names ih =>
    have hc : At (.name x.text :: (spacedPieces (names.map namePieces) ++
        .gap :: .plain k :: ps)) K c := hc.2
    rw [hc.leadsTo_name]
    exact ih hc.2

theorem erase_function {s t : Span} {params found : List Name} {body v : Expr}
    (hparams : found.map Name.text = params.map Name.text) (hbody : body.Same v) :
    (Expr.function s params body).Same (.function t found v) := by
  have erased : ∀ names : List Name, names.map (Name.relocate fun _ => .origin) =
      (names.map Name.text).map fun text => ⟨text, .origin⟩ := by
    intro names
    rw [List.map_map]
    rfl
  have hbody : v.erase = body.erase := hbody
  show (Expr.function t found v).erase = (Expr.function s params body).erase
  unfold Expr.erase at hbody ⊢
  simp only [Expr.relocate]
  rw [hbody, erased, erased, hparams]

theorem reads_function (s : Span) {params : List Name} {body : Expr} (hne : params ≠ [])
    (h : Readable o body) {levels budget : Nat} (hl : sizeOf body ≤ levels)
    (hb : sizeOf body ≤ budget) :
    Reads (primaryInside o (primary o levels) budget) (pieces (.function s params body)) S
      (Expr.function s params body).Same := by
  rw [pieces]
  refine .peek_bind fun t ht => ?_
  rw [ht]
  refine .test_bind (a := true) (fun c hc => ?_) ?_
  · obtain ⟨x, names, rfl⟩ := List.exists_cons_of_ne_nil hne
    have hinner : At (.name x.text :: (spacedPieces (names.map namePieces) ++ .gap :: .mark .arrow ::
        .gap :: (pieces body ++ [.mark .rbracket]))) S c.forward := by
      have hc := hc.2
      simpa [joinedPieces, namePieces] using hc
    have hlead := hinner.leadsTo_name.mpr
      (leadsTo_of_names (p := TokenKind.isPunctuation .arrow) (k := .punctuation .arrow) rfl rfl
        hinner.2)
    obtain ⟨⟨u, more, hr, hu⟩, _⟩ := hinner
    exact (atFunction_of_bracket hc hr).mpr ⟨by rw [hu]; rfl, hlead⟩
  rw [if_pos rfl]
  refine .skip_bind (by simp) fun opened => ?_
  rw [List.append_assoc]
  refine .bind (reads_joinedNames params) (fun found hfound => ?_) fun c hc => ?_
  · refine .gap (.expectPunctuation_bind fun _ => .gap ?_)
    refine .bind (h.tail levels budget hl hb) (fun v hv => ?_) fun c hc => ends_of_end hc rfl
    refine reads_stillOpen ⟨by simp, by simp⟩ (.expectPunctuation_bind fun _ => .pure ?_)
    exact erase_function hfound hv
  · have hc : At (.mark .arrow :: .gap :: (pieces body ++ [.mark .rbracket])) S c := hc.2
    unfold Cursor.atIdent
    rw [hc.kind]
    rfl

/-! Strings. -/

theorem interpolation_of_at {e : Expr} (h : Readable o e) {levels budget : Nat}
    (hl : sizeOf e ≤ levels) (hb : sizeOf e ≤ budget) {tokens : List Token}
    (hc : At (pieces e) Cursor.Finished (.ofTokens tokens)) :
    ∃ v, interpolation o (primary o levels) budget tokens = .ok v ∧ e.Same v := by
  have hends : ∀ c : Cursor, c.Finished → c.Ends ∧ c.atEnd = true := by
    rintro c ⟨t, hr, ht⟩
    have hkind : c.kind = .eof := by rw [kind_of_rest hr, ht]
    refine ⟨Cursor.ends_of_isEnd (by rw [hkind]; rfl), ?_⟩
    unfold Cursor.atEnd
    rw [hkind]
    rfl
  obtain ⟨v, c', hrun, hv, hc'⟩ := h.tail levels budget hl hb _ (fun c hc => (hends c hc).1) _ hc
  refine ⟨v, ?_, hv⟩
  unfold interpolation
  rw [hrun]
  dsimp only
  rw [if_pos (hends c' hc').2]

theorem segments_of_parts {segs : List Segment} (h : ∀ e, .hole e ∈ segs → Readable o e)
    {levels budget : Nat} (hl : sizeOf segs ≤ levels) (hb : sizeOf segs ≤ budget)
    {found : List StringPart} (hparts : PartsAt (segmentParts segs) found) (c : Cursor) :
    ∃ vs, segments o (primary o levels) budget found c = .ok vs c ∧
      vs.map Segment.erase = segs.map Segment.erase := by
  induction segs generalizing found with
  | nil =>
    cases found with
    | nil => exact ⟨[], rfl, rfl⟩
    | cons part found => rw [segmentParts] at hparts; exact hparts.elim
  | cons seg segs ih =>
    simp only [List.cons.sizeOf_spec] at hl hb
    have htail := fun e he => h e (List.mem_cons_of_mem seg he)
    cases seg with
    | literal text =>
      cases found with
      | nil => rw [segmentParts] at hparts; exact hparts.elim
      | cons part found =>
        cases part with
        | hole tokens span => rw [segmentParts] at hparts; exact hparts.elim
        | literal t =>
          rw [segmentParts] at hparts
          obtain ⟨rfl, hparts⟩ : text = t ∧ PartsAt (segmentParts segs) found := hparts
          obtain ⟨vs, hrun, hvs⟩ := ih htail (by omega) (by omega) hparts
          refine ⟨.literal text :: vs, ?_, ?_⟩
          · rw [segments, bind_of_ok hrun]
            rfl
          · rw [List.map_cons, List.map_cons, hvs]
    | hole e =>
      simp only [Segment.hole.sizeOf_spec] at hl hb
      cases found with
      | nil => rw [segmentParts] at hparts; exact hparts.elim
      | cons part found =>
        cases part with
        | literal t => rw [segmentParts] at hparts; exact hparts.elim
        | hole tokens span =>
          rw [segmentParts] at hparts
          obtain ⟨hhole, hparts⟩ :
              At (pieces e) Cursor.Finished (.ofTokens tokens) ∧ PartsAt (segmentParts segs) found :=
            hparts
          have hlevels : sizeOf e ≤ levels := by omega
          have hbudget : sizeOf e ≤ budget := by omega
          obtain ⟨v, hinner, hv⟩ :=
            interpolation_of_at (h e List.mem_cons_self) hlevels hbudget hhole
          obtain ⟨vs, hrun, hvs⟩ := ih htail (by omega) (by omega) hparts
          have hrunHole : hole o (primary o levels) budget tokens span c = .ok v c := by
            unfold hole
            rw [hinner]
          refine ⟨.hole v :: vs, ?_, ?_⟩
          · rw [segments, bind_of_ok hrunHole, bind_of_ok hrun]
            rfl
          · have hv : v.erase = e.erase := hv
            rw [List.map_cons, List.map_cons, hvs]
            unfold Segment.erase Segment.relocate
            unfold Expr.erase at hv
            dsimp only
            rw [hv]

theorem reads_text (s : Span) {segs : List Segment} (h : ∀ e, .hole e ∈ segs → Readable o e)
    {levels budget : Nat} (hl : sizeOf segs ≤ levels) (hb : sizeOf segs ≤ budget) :
    Reads (primaryInside o (primary o levels) budget) (pieces (.text s segs)) S
      (Expr.text s segs).Same := by
  intro K hk c hc
  rw [pieces] at hc
  obtain ⟨⟨t, rest, found, hr, hkind, hparts⟩, hafter⟩ := hc
  have hk : c.kind = .text found := by rw [kind_of_rest hr, hkind]
  have hnext : c.next = c.forward := next_eq_forward (by rw [hk]; simp)
  obtain ⟨vs, hrun, hvs⟩ := segments_of_parts h hl hb hparts c.next
  refine ⟨.text c.peek.span vs, c.next, ?_, ?_, by rw [hnext]; exact hafter⟩
  · unfold primaryInside
    rw [test_bind]
    have hpeek : c.peek.kind = .text found := hk
    rw [hpeek]
    dsimp only
    rw [skip_bind, bind_of_ok hrun]
    rfl
  · show (Expr.text _ vs).erase = (Expr.text s segs).erase
    unfold Expr.erase
    simp only [Expr.relocate, relocateSegments_eq_map]
    exact congrArg _ hvs

end Parse

end PipeLang
