import PipeLang.Proofs.Format.ReadPattern

/-! Definitions and constructs are read back. They are written on one line, so no rule finds a block to
open, and a construct ends where what encloses it does. -/

namespace PipeLang

namespace Parse

open Format

variable {α β : Type} {o : ParseOptions} {S : Cursor → Prop} {R : β → Prop}

/-! Clauses. -/

theorem reads_result {primary : Primary} {budget : Nat} {ps : List Piece} {Q : Expr → Prop}
    (hb : BeginsExpression ps) (h : Reads (expression o primary budget) ps S Q) :
    Reads (result o primary budget) ps S Q := by
  refine .congr (fun c hc => ?_) h
  have hopen : openBlock (fun k => !k.isLayout && !k.isEof) c = .ok false c := by
    unfold openBlock
    rw [atBlock_of_beginsExpression hb hc]
    rfl
  rw [result, body, bind_of_ok hopen, if_neg Bool.false_ne_true]

/-- A clause that comes at once. -/
theorem reads_clauseAhead {k : TokenKind} {ps : List Piece} {p : TokenKind → Bool} {inBlock : Bool}
    {f : Option Bool → Parse β} (hp : p k = true)
    (hf : Reads (f (some inBlock)) (.plain k :: ps) S R) :
    Reads (clauseAhead inBlock p >>= f) (.plain k :: ps) S R := by
  refine .congr (fun c hc => ?_) hf
  have hrun : clauseAhead inBlock p c = .ok (some inBlock) c := by
    unfold clauseAhead
    rw [hc.kind, hp]
    rfl
  exact bind_of_ok hrun

theorem clauseAhead_none {p : TokenKind → Bool} {c : Cursor} (hp : p c.kind = false)
    (hblock : c.atBlock p = false) : clauseAhead false p c = .ok none c := by
  unfold clauseAhead
  rw [hp, hblock]
  rfl

/-- A round of `clauses`. -/
def clauseRound (p : TokenKind → Bool) (clause : Bool → Parse (α × Bool)) (s : List α × Bool) :
    Parse (Round (List α × Bool)) := do
  match ← clauseAhead s.2 p with
  | some inBlock =>
    let (a, inBlock) ← clause inBlock
    pure (.again (a :: s.1, inBlock))
  | none => pure (.done s)

theorem reads_clauses {xs : List β} {p : TokenKind → Bool} {clause : Bool → Parse (α × Bool)}
    {runs : List β → List Piece} {part : β → List β → List Piece} {Q : β → α → Prop}
    (hnil : runs [] = []) (hcons : ∀ x todo, runs (x :: todo) = part x todo ++ runs todo)
    (hclause : ∀ past x todo, xs = past ++ x :: todo →
      Reads (clause false) (part x todo) (At (runs todo) S) fun r => Q x r.1 ∧ r.2 = false)
    (hat : ∀ x ∈ xs, ∀ todo K c, At (part x todo) K c → p c.kind = true)
    (hcount : ∀ x ∈ xs, ∀ todo, 0 < ((part x todo).map Piece.count).sum)
    (hstop : ∀ c, S c → p c.kind = false ∧ c.atBlock p = false) :
    Reads (clauses p clause false) (runs xs) S fun r => List.Forall₂ Q xs r.1 ∧ r.2 = false := by
  intro K hk c hc
  have hlen := At.length_le_runs hcons hcount hc
  have hround : ∀ past x todo, xs = past ++ x :: todo → ∀ s : List α × Bool,
      (List.Forall₂ Q past s.1.reverse ∧ s.2 = false) →
      Reads (clauseRound p clause s) (part x todo) (At (runs todo) K) fun r =>
        ∃ s', r = .again s' ∧ (List.Forall₂ Q (past ++ [x]) s'.1.reverse ∧ s'.2 = false) := by
    rintro past x todo he ⟨found, inBlock⟩ ⟨hfound, rfl⟩
    have hx : x ∈ xs := he ▸ List.mem_append_right _ List.mem_cons_self
    refine .congr (y := do
      let (a, inBlock) ← clause false
      pure (.again (a :: found, inBlock))) (fun c hc => ?_) ?_
    · have hrun : clauseAhead false p c = .ok (some false) c := by
        unfold clauseAhead
        rw [hat x hx todo _ c hc]
        rfl
      exact bind_of_ok hrun
    · rw [← List.append_nil (part x todo)]
      have hafter : ∀ c, At (runs todo) K c → At (runs todo) S c := fun c hc => hc.mono hk
      refine .bind (hclause past x todo he) (fun r hr => .pure ⟨_, rfl, ?_⟩) hafter
      rw [List.reverse_cons]
      exact ⟨List.rel_append hfound (.cons hr.1 .nil), hr.2⟩
  obtain ⟨⟨found, inBlock⟩, c', ⟨hfound, hblock⟩, hc', hrun⟩ := roundsUpTo_follow
    (P := fun past (s : List α × Bool) => List.Forall₂ Q past s.1.reverse ∧ s.2 = false) hnil hcons
    hround (s := ([], false)) ⟨.nil, rfl⟩ hc (c.rest.length + 1 - xs.length)
  obtain rfl : inBlock = false := hblock
  refine ⟨(found.reverse, false), c', ?_, ⟨hfound, rfl⟩, hc'⟩
  have hdone : clauseRound p clause (found, false) c' = .ok (.done (found, false)) c' := by
    obtain ⟨hp, hblock⟩ := hstop c' (hk c' hc')
    exact bind_of_ok (clauseAhead_none hp hblock)
  have hall : rounds (clauseRound p clause) ([], false) c = .ok (found, false) c' := by
    unfold rounds
    rw [show c.rest.length + 1 = xs.length + (c.rest.length + 1 - xs.length) by omega, hrun]
    exact roundsUpTo_done hdone _
  exact bind_of_ok hall

/-! Definitions. -/

/-- A definition with `params` before the equals sign, however its body is read. -/
theorem reads_definition {levels budget : Nat} {body : Expr} {ps : List Piece} (name : Name)
    (params : List Name) (hb : BeginsExpression ps)
    (h : Reads (expression o (primary o levels) budget) ps S body.Same) :
    Reads (definition o (primary o levels) budget) (headPieces name params ++ ps) S
      (fun b => b.name.text = name.text ∧ ∃ found v, found.map Name.text = params.map Name.text ∧
        body.Same v ∧ b.value = definedValue found v) := by
  unfold headPieces
  rw [List.cons_append, List.append_assoc]
  refine .identifier_bind fun s => .bind (reads_spacedNames params) (fun found hfound => ?_)
    fun c hc => ?_
  · refine .gap (.expectOperator_bind fun _ => .gap ?_)
    have hread := reads_result hb h
    show Reads _ ps _ _
    rw [← List.append_nil ps]
    exact .bind hread (fun v hv => .pure ⟨rfl, found, v, hfound, hv, rfl⟩) fun c hc => hc
  · have hc : At (.plain (.operator .eq) :: .gap :: ps) S c := hc.2
    unfold Cursor.atIdent
    rw [hc.kind]
    rfl

theorem atDefinition_of_head {name : Name} {params : List Name} {ps : List Piece}
    {K : Cursor → Prop} {c : Cursor} (hc : At (headPieces name params ++ ps) K c) :
    c.atDefinition = true := by
  have hc : At (.name name.text :: (spacedPieces (params.map namePieces) ++
      .gap :: .plain (.operator .eq) :: (.gap :: ps))) K c := by
    simpa [headPieces] using hc
  have hlead := hc.leadsTo_name.mpr
    (leadsTo_of_names (p := TokenKind.isOperator .eq) (k := .operator .eq) rfl rfl hc.2)
  obtain ⟨⟨t, rest, hr, ht⟩, _⟩ := hc
  exact (Cursor.namesThen_zero hr).mpr ⟨by rw [ht]; rfl, hlead⟩

/-- The value of a definition: its body, or the function of its parameters. -/
theorem same_definedValue {params found : List Name} {body v : Expr} (s : Span)
    (hfound : found.map Name.text = params.map Name.text) (hv : body.Same v) :
    (params ≠ [] → (Expr.function s params body).Same (definedValue found v)) ∧
      (params = [] → body.Same (definedValue found v)) := by
  cases found with
  | nil =>
    have hparams : params = [] := List.map_eq_nil_iff.mp hfound.symm
    exact ⟨fun hne => absurd hparams hne, fun _ => hv⟩
  | cons x found =>
    refine ⟨fun _ => erase_function hfound hv, fun he => ?_⟩
    rw [he] at hfound
    cases hfound

end Parse

namespace Format

/-- How a local definition is written. -/
def definitionRun : Binding → List Piece
  | ⟨name, .function _ params body⟩ =>
    headPieces name params ++ placePieces .clause body (pieces body)
  | ⟨name, value⟩ => headPieces name [] ++ placePieces .clause value (pieces value)

theorem definitionPieces_cons (b : Binding) (rest : List Binding) :
    definitionPieces (b :: rest) =
      definitionRun b ++ rest.flatMap fun b => .mark .semicolon :: .gap :: definitionRun b := by
  have cons : ∀ b rest, definitionPieces (b :: rest) = definitionRun b ++
      (if rest.isEmpty then [] else .mark .semicolon :: .gap :: definitionPieces rest) := by
    rintro ⟨name, value⟩ rest
    cases value <;> simp [definitionPieces, definitionRun]
  induction rest generalizing b with
  | nil => rw [cons]; rfl
  | cons b' rest ih => rw [cons, ih]; rfl

theorem definitionRun_cases (b : Binding) :
    (∃ s params body, b.value = .function s params body ∧
      definitionRun b = headPieces b.name params ++ placePieces .clause body (pieces body)) ∨
      definitionRun b = headPieces b.name [] ++ placePieces .clause b.value (pieces b.value) := by
  obtain ⟨name, value⟩ := b
  cases value with
  | function s params body => exact .inl ⟨s, params, body, rfl, rfl⟩
  | _ => exact .inr rfl

end Format

namespace Parse

open Format

variable {α β : Type} {o : ParseOptions} {S : Cursor → Prop} {R : β → Prop} {n : Nat}

theorem erase_binding {b v : Binding} (hn : v.name.text = b.name.text) (hv : b.value.Same v.value) :
    v.erase = b.erase := by
  have hv : v.value.erase = b.value.erase := hv
  unfold Binding.erase Binding.relocate Name.relocate
  unfold Expr.erase at hv
  rw [hv, hn]

theorem atDefinition_of_run {b : Binding} {ps : List Piece} {K : Cursor → Prop} {c : Cursor}
    (hc : At (definitionRun b ++ ps) K c) : c.atDefinition = true := by
  rcases definitionRun_cases b with ⟨s, params, body, _, hrun⟩ | hrun
  · rw [hrun, List.append_assoc] at hc
    exact atDefinition_of_head hc
  · rw [hrun, List.append_assoc] at hc
    exact atDefinition_of_head hc

/-- A tree that takes up less than `room`, with all that stands in it, is read back. -/
structure IsPart (o : ParseOptions) (n room : Nat) (e : Expr) : Prop where
  formed : e.Formed n
  below : Below o room
  size : sizeOf e + 1 ≤ room

theorem IsPart.readable {room : Nat} {e : Expr} (h : IsPart o n room e) : Readable o e := by
  have := h.size
  exact h.below n e h.formed (by omega)

theorem IsPart.body {room : Nat} {s : Span} {params : List Name} {body : Expr}
    (h : IsPart o n room (.function s params body)) : params ≠ [] ∧ IsPart o n room body := by
  have hsize := h.size
  simp only [Expr.function.sizeOf_spec] at hsize
  cases h.formed with
  | function hne hparams hbody => exact ⟨hne, hbody, h.below, by omega⟩

section

variable {room levels budget : Nat} (hl : room ≤ levels) (hb : room ≤ budget)

include hl hb

theorem IsPart.placed {e : Expr} (h : IsPart o n room e) :
    Reads (expression o (primary o levels) budget) (placePieces .clause e (pieces e))
      Cursor.StopsStages e.Same := by
  have hsize := h.size
  exact h.readable.placed (by omega) (by omega)

theorem IsPart.placedResult {e : Expr} (h : IsPart o n room e) :
    Reads (result o (primary o levels) budget) (placePieces .clause e (pieces e))
      Cursor.StopsStages e.Same :=
  reads_result (beginsExpression_place h.formed .clause) (h.placed hl hb)

theorem IsPart.lastResult {e : Expr} (h : IsPart o n room e) :
    Reads (result o (primary o levels) budget) (pieces e) Cursor.Ends e.Same := by
  have hsize := h.size
  exact reads_result (beginsExpression h.formed)
    (h.readable.tail levels budget (by omega) (by omega))

theorem reads_binding {b : Binding} (h : IsPart o n room b.value) :
    Reads (binding o (primary o levels) budget) (definitionRun b) Cursor.StopsStages
      (fun v => v.erase = b.erase) := by
  refine .test_bind (a := true) (fun c hc => ?_) ?_
  · rw [← List.append_nil (definitionRun b)] at hc
    exact atDefinition_of_run hc
  rw [if_pos rfl]
  rcases definitionRun_cases b with ⟨s, params, body, hvalue, hrun⟩ | hrun
  · rw [hvalue] at h
    obtain ⟨hne, hbody⟩ := h.body
    rw [hrun]
    refine (reads_definition b.name params (beginsExpression_place hbody.formed .clause)
      (hbody.placed hl hb)).mono (fun _ hc => hc) ?_
    rintro v ⟨hname, found, w, hfound, hw, hval⟩
    refine erase_binding hname ?_
    rw [hvalue, hval]
    exact (same_definedValue s hfound hw).1 hne
  · rw [hrun]
    refine (reads_definition b.name [] (beginsExpression_place h.formed .clause)
      (h.placed hl hb)).mono (fun _ hc => hc) ?_
    rintro v ⟨hname, found, w, hfound, hw, hval⟩
    refine erase_binding hname ?_
    rw [hval]
    exact (same_definedValue .origin hfound hw).2 rfl

theorem reads_bindings {bs : List Binding} (hne : bs ≠ [])
    (h : ∀ b ∈ bs, IsPart o n room b.value) :
    Reads (bindings o (primary o levels) budget) (definitionPieces bs)
      (fun c => c.kind = .keyword .in_)
      (fun r => r.1.map Binding.erase = bs.map Binding.erase ∧ r.2 = false) := by
  obtain ⟨b, rest, rfl⟩ := List.exists_cons_of_ne_nil hne
  rw [definitionPieces_cons]
  refine .congr (y := do
      let first ← binding o (primary o levels) budget
      let rest ← many (·.atPunctuation .semicolon) do
        let _ ← skip
        binding o (primary o levels) budget
      pure (first :: rest, false)) (fun c hc => ?_) ?_
  · have hkind : c.kind ≠ .newline := by
      rcases definitionRun_cases b with ⟨s, params, body, _, hrun⟩ | hrun
      · rw [hrun] at hc; rw [At.kind hc]; simp
      · rw [hrun] at hc; rw [At.kind hc]; simp
    have hopen : openBlock TokenKind.isIdent c = .ok false c := by
      unfold openBlock
      rw [Cursor.atBlock_of_kind_ne _ hkind]
      rfl
    exact bind_of_ok hopen
  · have hstop : ∀ c : Cursor, c.kind = .keyword .in_ →
        c.StopsStages ∧ c.atPunctuation .semicolon = false := by
      intro c hc
      refine ⟨Cursor.stopsStages_of_isCloser (by rw [hc]; rfl), ?_⟩
      unfold Cursor.atPunctuation
      rw [hc]
      rfl
    have hmany : Reads (many (·.atPunctuation .semicolon) do
        let _ ← skip
        binding o (primary o levels) budget)
        (rest.flatMap fun b => .mark .semicolon :: .gap :: definitionRun b)
        (fun c => c.kind = .keyword .in_)
        (List.Forall₂ (fun b v => Binding.erase v = Binding.erase b) rest) := by
      refine .many (T := Cursor.StopsStages) (fun b hm => ?_) (fun b hm c hc => ?_)
        (fun b hm c hc => stopsStages_of_closer hc rfl) hstop (fun b hm => ?_)
      · exact .skip_bind (by simp) fun _ => .gap
          (reads_binding hl hb (h b (List.mem_cons_of_mem _ hm)))
      · exact TokenKind.isPunctuation_iff.mpr hc.kind
      · simp only [List.map_cons, List.sum_cons, Piece.count]; omega
    refine .bind (reads_binding hl hb (h b List.mem_cons_self)) (fun first hfirst => ?_) ?_
    · rw [← List.append_nil (rest.flatMap _)]
      refine .bind hmany (fun found hfound => .pure ⟨?_, rfl⟩) fun c hc => hc
      rw [List.map_cons, List.map_cons, hfirst, map_eq_of_forall₂ hfound]
    · intro c hc
      cases rest with
      | nil => exact (hstop c hc).1
      | cons b' rest => exact stopsStages_of_closer hc rfl

theorem reads_letIn (s : Span) {bs : List Binding} {body : Expr} (hne : bs ≠ [])
    (h : ∀ b ∈ bs, IsPart o n room b.value) (hbody : IsPart o n room body) :
    Reads (primaryInside o (primary o levels) budget) (pieces (.letIn s bs body)) Cursor.Ends
      (Expr.letIn s bs body).Same := by
  rw [pieces]
  refine .peek_bind fun t ht => ?_
  rw [ht]
  refine .skip_bind (by simp) fun start => .gap (.bind (reads_bindings hl hb hne h) ?_ ?_)
  · rintro ⟨found, inBlock⟩ ⟨hfound, rfl⟩
    refine .gap (reads_clauseAhead rfl (.skip_bind (by simp) fun _ => .gap ?_))
    rw [← List.append_nil (pieces body)]
    refine .bind (hbody.lastResult hl hb) (fun v hv => .pure ?_) fun c hc => hc
    have hv : v.erase = body.erase := hv
    show (Expr.letIn _ found v).erase = (Expr.letIn s bs body).erase
    unfold Expr.erase at hv ⊢
    simp only [Expr.relocate, relocateBindings_eq_map]
    rw [hv]
    exact congr (congrArg _ hfound) rfl
  · intro c hc
    have hc : At (.word .in_ :: .gap :: pieces body) Cursor.Ends c := hc.2
    exact hc.kind

end

end Parse

end PipeLang
