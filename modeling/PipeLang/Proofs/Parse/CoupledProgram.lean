import PipeLang.Proofs.Parse.CoupledExpr

/-! Bracketed forms, constructs and statements in two runs side by side. -/

namespace PipeLang.Parse.Coupling

variable {o o' : ParseOptions} {C : Coupling o o'}

theorem wildcard : C.agree (C.same Expr.relocate) wildcard wildcard := by
  refine C.bind C.skip fun first first' hf => ?_
  refine C.bind (many (R := C.same Name.relocate) (C.look .access)
    (.after .skip fun _ => moves_identifier _) ?_) fun path path' hpath => C.ret ?_
  · exact C.bind C.skip fun _ _ _ => identifier _
  · have hspan : C.spans _ _ := spans_foldl (fun _ _ h => nameSpan_of_same h) hpath hf
    have htexts : path.map Name.text = path'.map Name.text := by
      clear hspan
      induction hpath with
      | nil => rfl
      | cons h _ ih => rw [List.map_cons, List.map_cons, text_of_same h, ih]
    exact congrArg₂ Expr.wildcard hspan htexts

section

variable {p p' : Primary} (hm : ∀ b, Moves (fun _ => 1) (p b))
  (hp : ∀ {b b' : Nat}, C.budgets b b' → C.agree (C.same Expr.relocate) (p b) (p' b'))
  {b b' : Nat} (hb : C.budgets b b')

section

include hm hp hb

/-! ## Bracketed forms -/

theorem recordField {opened opened' : Span} (ho : C.spans opened opened') :
    C.agree (C.same Binding.relocate) (recordField o p b opened) (recordField o' p' b' opened') := by
  refine C.bind (stillOpen _ ho _) fun _ _ _ => C.bind (noComma _ _ _) fun _ _ _ => ?_
  refine choose (kind fun _ _ => rfl) (C.bind (identifier _) fun key key' hkey => ?_)
    (unexpected _ _)
  refine C.bind (expectPunctuation _ _) fun _ _ _ => ?_
  exact C.bind (expression hm hp hb) fun value value' hv => C.ret (congrArg₂ Binding.mk hkey hv)

theorem record : C.agree (C.same Expr.relocate) (record o p b) (record o' p' b') := by
  refine C.bind C.skip fun opened opened' ho => ?_
  refine C.bind (many (kind (p := fun k => !k.isPunctuation .rbrace) fun _ _ => rfl)
    (moves_recordField hm b opened) (recordField hm hp hb ho)) fun fields fields' hf => ?_
  refine C.bind C.skip fun closed closed' hc => C.ret ?_
  have hspan := C.merge ho hc
  simp only [same, Expr.relocate, relocateBindings_eq_map]
  rw [hspan, map_same hf]

theorem function : C.agree (C.same Expr.relocate) (function o p b) (function o' p' b') := by
  refine C.bind C.skip fun opened opened' ho => ?_
  refine C.bind (many (kind fun _ _ => rfl) (moves_identifier _) (identifier _))
    fun params params' hps => ?_
  refine C.bind (expectPunctuation _ _) fun _ _ _ => ?_
  refine C.bind (expression hm hp hb) fun value value' hv => ?_
  refine C.bind (stillOpen _ ho _) fun _ _ _ => ?_
  refine C.bind (expectPunctuation _ _) fun closed closed' hc => C.ret ?_
  have hspan := C.merge ho hc
  have hv : value.relocate C.left = value'.relocate C.right := hv
  simp only [same, Expr.relocate]
  rw [hspan, map_same hps, hv]

theorem list : C.agree (C.same Expr.relocate) (list o p b) (list o' p' b') := by
  refine C.bind C.skip fun opened opened' ho => ?_
  refine choose (kind fun _ _ => rfl) ?_ ?_
  · exact C.fail fun _ _ h => ((h.failure _).withExpected _).withHint _
  refine C.bind (stageArguments hm hp hb) fun items items' hi => ?_
  refine choose (kind fun _ _ => rfl) (C.bind C.skip fun closed closed' hc => C.ret ?_) ?_
  · have hspan := C.merge ho hc
    simp only [same, Expr.relocate, relocateExprs_eq_map]
    rw [hspan, map_same hi]
  · refine C.bind (stillOpen _ ho _) fun _ _ _ => C.bind (noComma _ _ _) fun _ _ _ => ?_
    exact unexpected _ _

theorem parenthesized :
    C.agree (C.same Expr.relocate) (parenthesized o p b) (parenthesized o' p' b') := by
  refine C.bind C.skip fun opened opened' ho => C.bind (expression hm hp hb) fun e e' he => ?_
  refine C.bind (stillOpen _ ho _) fun _ _ _ => ?_
  refine C.bind (expectPunctuation _ _) fun closed closed' hc => C.ret ?_
  have hspan := C.merge ho hc
  have he : e.relocate C.left = e'.relocate C.right := he
  simp only [same, Expr.relocate_withSpan]
  rw [hspan, he]

/-! ## Definitions -/

theorem result : C.agree (C.same Expr.relocate) (result o p b) (result o' p' b') :=
  body (expression hm hp hb)

omit hm hp hb in
theorem same_definedValue {params params' : List Name}
    (hps : List.Forall₂ (C.same Name.relocate) params params') {e e' : Expr}
    (he : C.same Expr.relocate e e') :
    C.same Expr.relocate (definedValue params e) (definedValue params' e') := by
  cases hps with
  | nil => exact he
  | cons hfirst hmore =>
    have hspan := C.merge (nameSpan_of_same hfirst) (span_of_same he)
    have he : e.relocate C.left = e'.relocate C.right := he
    simp only [definedValue, same, Expr.relocate]
    rw [hspan, map_same (.cons hfirst hmore), he]

theorem definition :
    C.agree (C.same Binding.relocate) (definition o p b) (definition o' p' b') := by
  refine C.bind (identifier _) fun name name' hn => ?_
  refine C.bind (many (kind fun _ _ => rfl) (moves_identifier _) (identifier _))
    fun params params' hps => ?_
  refine C.bind (expectOperator _ _) fun _ _ _ => C.bind (result hm hp hb) fun value value' hv => ?_
  exact C.ret (congrArg₂ Binding.mk hn (same_definedValue hps hv))

theorem binding : C.agree (C.same Binding.relocate) (binding o p b) (binding o' p' b') :=
  choose (C.look .definition) (definition hm hp hb) (unexpected _ _)

theorem blockBinding {s t : List Binding × Bool}
    (hs : Flagged (List.Forall₂ (C.same Binding.relocate)) s t) :
    C.agree (Round.Alike (Flagged (List.Forall₂ (C.same Binding.relocate))))
      (blockBinding o p b s) (blockBinding o' p' b' t) := by
  refine C.bind (binding hm hp hb) fun new new' hnew => ?_
  have hfound := List.Forall₂.cons hnew hs.1
  refine choose (accept fun _ _ => rfl) (C.ret (.again ⟨hfound, rfl⟩)) ?_
  refine C.bind (accept fun _ _ => rfl) fun _ _ _ => ?_
  refine choose (accept fun _ _ => rfl) (C.ret (.done ⟨hfound, rfl⟩)) ?_
  refine choose (kind fun _ _ => rfl) (C.ret (.done ⟨hfound, rfl⟩)) ?_
  exact choose (C.look .afterLine) (C.ret (.again ⟨hfound, rfl⟩)) (unexpected _ _)

theorem bindings :
    C.agree (Flagged (List.Forall₂ (C.same Binding.relocate))) (bindings o p b)
      (bindings o' p' b') := by
  refine choose (C.openBlock fun _ _ => rfl) ?_ ?_
  · refine C.bind (rounds (moves_blockBinding hm b) (fun _ _ h => blockBinding hm hp hb h)
      ⟨.nil, rfl⟩) fun s t h => C.ret ?_
    exact ⟨List.rel_reverse h.1, h.2⟩
  · refine C.bind (binding hm hp hb) fun first first' hf => ?_
    refine C.bind (many (kind fun _ _ => rfl) (.after .skip fun _ => moves_binding hm b)
      (C.bind C.skip fun _ _ _ => binding hm hp hb)) fun rest rest' hr => ?_
    exact C.ret ⟨.cons hf hr, rfl⟩

/-! ## Constructs -/

theorem letIn : C.agree (C.same Expr.relocate) (letIn o p b) (letIn o' p' b') := by
  refine C.bind C.skip fun start start' hs => C.bind (bindings hm hp hb) fun found found' hf => ?_
  obtain ⟨found, inBlock⟩ := found
  obtain ⟨found', inBlock'⟩ := found'
  obtain ⟨hf, hflag⟩ := hf
  obtain rfl : inBlock = inBlock' := hflag
  refine C.bind (clauseAhead inBlock (.keyword (by decide))) fun ahead ahead' ha => ?_
  subst ha
  cases ahead with
  | none => exact C.fail fun _ _ h => (h.unexpected _ _).withExample _
  | some inBlock =>
    refine C.bind C.skip fun _ _ _ => C.bind (result hm hp hb) fun value value' hv => ?_
    refine C.bind (closeBlockIf _ _) fun _ _ _ => C.ret ?_
    have hspan := C.merge hs (span_of_same hv)
    have hv : value.relocate C.left = value'.relocate C.right := hv
    simp only [same, Expr.relocate, relocateBindings_eq_map]
    rw [hspan, map_same hf, hv]

theorem branch (inBlock : Bool) :
    C.agree (Flagged (C.same Branch.relocate)) (branch o p b inBlock) (branch o' p' b' inBlock) := by
  refine C.bind C.skip fun _ _ _ => C.bind (expression hm hp hb) fun cond cond' hc => ?_
  refine C.bind (clauseAhead inBlock (.keyword (by decide))) fun ahead ahead' ha => ?_
  subst ha
  cases ahead with
  | none => exact unexpected _ _
  | some inBlock =>
    refine C.bind C.skip fun _ _ _ => C.bind (result hm hp hb) fun value value' hv => ?_
    exact C.ret ⟨congrArg₂ Branch.mk hc hv, rfl⟩

theorem ifElse : C.agree (C.same Expr.relocate) (ifElse o p b) (ifElse o' p' b') := by
  refine C.bind peekSpan fun start start' hs => ?_
  refine C.bind (branch hm hp hb false) fun first first' hf => ?_
  obtain ⟨first, inBlock⟩ := first
  obtain ⟨first', inBlock'⟩ := first'
  obtain ⟨hf, hflag⟩ := hf
  obtain rfl : inBlock = inBlock' := hflag
  refine C.bind (clauses (.keyword (by decide)) (moves_branch hm b) (branch hm hp hb) inBlock)
    fun others others' hothers => ?_
  obtain ⟨others, inBlock⟩ := others
  obtain ⟨others', inBlock'⟩ := others'
  obtain ⟨hothers, hflag⟩ := hothers
  obtain rfl : inBlock = inBlock' := hflag
  refine C.bind (clauseAhead inBlock (.keyword (by decide))) fun ahead ahead' ha => ?_
  subst ha
  cases ahead with
  | none => exact C.fail fun _ _ h => ((h.unexpected _ _).withNote _).withExample _
  | some inBlock =>
    refine C.bind C.skip fun _ _ _ => C.bind (result hm hp hb) fun value value' hv => ?_
    refine C.bind (closeBlockIf _ _) fun _ _ _ => C.ret ?_
    have hspan := C.merge hs (span_of_same hv)
    have hv : value.relocate C.left = value'.relocate C.right := hv
    simp only [same, Expr.relocate, relocateBranches_eq_map]
    rw [hspan, map_same (.cons hf hothers), hv]

theorem guard :
    C.agree (Option.Rel (C.same Expr.relocate)) (guard? o p b) (guard? o' p' b') :=
  choose (accept fun _ _ => rfl) (C.bind (expression hm hp hb) fun _ _ h => C.ret (.some h))
    (C.ret .none)

omit hm hp hb in
theorem arrow (place : Place) (others : List Expected) :
    C.agree (· = ·) (arrow place others) (arrow place others) :=
  choose (accept fun _ _ => rfl) (C.ret rfl) (unexpected _ _)

omit hm hp hb in
theorem isSome_of_rel {R : α → β → Prop} {x : Option α} {y : Option β} (h : Option.Rel R x y) :
    x.isSome = y.isSome := by
  cases h <;> rfl

omit hm hp hb in
theorem map_same_option {F : (Span → Span) → α → α} {x y : Option α}
    (h : Option.Rel (C.same F) x y) : x.map (F C.left) = y.map (F C.right) := by
  cases h with
  | none => rfl
  | some h => exact congrArg some h

theorem matchClause :
    C.agree (C.same Clause.relocate) (matchClause o p b) (matchClause o' p' b') := by
  refine C.bind C.skip fun bar bar' hbar => C.bind (pattern hb) fun pat pat' hpat => ?_
  refine C.bind (guard hm hp hb) fun guard guard' hguard => ?_
  rw [isSome_of_rel hguard]
  refine C.bind (arrow _ _) fun _ _ _ => C.bind (result hm hp hb) fun value value' hv => C.ret ?_
  have hspan := C.merge hbar (span_of_same hv)
  have hv : value.relocate C.left = value'.relocate C.right := hv
  have hpat : pat.relocate C.left = pat'.relocate C.right := hpat
  simp only [same, Clause.relocate]
  rw [hspan, hpat, map_same_option hguard, hv]

omit hm hp hb in
/-- A clause that hands on whether the construct has a block. -/
theorem flagged {R : α → β → Prop} {x : Parse α} {y : Parse β} (h : C.agree R x y)
    (inBlock : Bool) :
    C.agree (Flagged R) ((·, inBlock) <$> x) ((·, inBlock) <$> y) := by
  rw [map_eq_pure_bind, map_eq_pure_bind]
  exact C.bind h fun _ _ h => C.ret ⟨h, rfl⟩

theorem matchOn : C.agree (C.same Expr.relocate) (matchOn o p b) (matchOn o' p' b') := by
  refine C.bind C.skip fun start start' hs => C.bind (expression hm hp hb) fun subj subj' hsubj => ?_
  refine C.bind (clauses .bar (Moves.map_pair (moves_matchClause hm b))
    (flagged (matchClause hm hp hb)) false) fun found found' hf => ?_
  obtain ⟨found, inBlock⟩ := found
  obtain ⟨found', inBlock'⟩ := found'
  obtain ⟨hf, hflag⟩ := hf
  obtain rfl : inBlock = inBlock' := hflag
  dsimp only at hf ⊢
  have hlast := rel_getLast? hf
  generalize found.getLast? = last at hlast ⊢
  generalize found'.getLast? = last' at hlast ⊢
  cases hlast with
  | none => exact C.fail fun _ _ h => (h.unexpected _ _).withExample _
  | some h =>
    refine C.bind (closeBlockIf _ _) fun _ _ _ => C.ret ?_
    have hspan := C.merge hs (congrArg Clause.span h)
    have hsubj : subj.relocate C.left = subj'.relocate C.right := hsubj
    simp only [same, Expr.relocate, relocateClauses_eq_map]
    rw [hspan, hsubj, map_same hf]

omit hm hp hb in
theorem nameIf {q : Cursor → Bool} (hq : C.agree (· = ·) (test q) (test q)) :
    C.agree (Option.Rel (C.same Name.relocate)) (nameIf q) (nameIf q) :=
  choose hq (C.bind (identifier _) fun _ _ h => C.ret (.some h)) (C.ret .none)

theorem catchClause :
    C.agree (C.same Catch.relocate) (catchClause o p b) (catchClause o' p' b') := by
  refine C.bind C.skip fun start start' hs => ?_
  refine C.bind (nameIf (kindOnly (fun _ => rfl) fun _ _ => rfl)) fun tag tag' htag => ?_
  refine C.bind (nameIf (kindOnly (fun _ => rfl) fun _ _ => rfl)) fun bound bound' hbound => ?_
  rw [← isSome_of_rel hbound]
  have hnone : ∀ {x y : Option Name}, Option.Rel (C.same Name.relocate) x y →
      x.isNone = y.isNone := fun h => by cases h <;> rfl
  rw [← hnone htag, ← hnone hbound]
  split
  · exact C.fail fun _ _ h => ((h.failure _).withExpected _).withHint _
  · refine C.bind (arrow _ _) fun _ _ _ => C.bind (result hm hp hb) fun value value' hv => C.ret ?_
    have hspan := C.merge hs (span_of_same hv)
    have hv : value.relocate C.left = value'.relocate C.right := hv
    simp only [same, Catch.relocate]
    rw [hspan, map_same_option htag, map_same_option hbound, hv]

theorem tryCatch : C.agree (C.same Expr.relocate) (tryCatch o p b) (tryCatch o' p' b') := by
  refine C.bind C.skip fun start start' hs => C.bind (result hm hp hb) fun value value' hv => ?_
  refine C.bind (clauses (.keyword (by decide)) (Moves.map_pair (moves_catchClause hm b))
    (flagged (catchClause hm hp hb)) false) fun found found' hf => ?_
  obtain ⟨found, inBlock⟩ := found
  obtain ⟨found', inBlock'⟩ := found'
  obtain ⟨hf, hflag⟩ := hf
  obtain rfl : inBlock = inBlock' := hflag
  dsimp only at hf ⊢
  have hlast := rel_getLast? hf
  generalize found.getLast? = last at hlast ⊢
  generalize found'.getLast? = last' at hlast ⊢
  cases hlast with
  | none => exact C.fail fun _ _ h => (h.unexpected _ _).withExample _
  | some h =>
    refine C.bind (closeBlockIf _ _) fun _ _ _ => C.ret ?_
    have hspan := C.merge hs (congrArg Catch.span h)
    have hv : value.relocate C.left = value'.relocate C.right := hv
    simp only [same, Expr.relocate, relocateCatches_eq_map]
    rw [hspan, hv, map_same hf]

end

/-! ## Primary expressions and statements -/

section

variable (hh : ∀ {ts us : List Token} {s s' : Span}, C.holes ts us → C.spans s s' →
   C.agree (C.same Expr.relocate) (hole o p b ts s) (hole o' p' b' us s'))

include hh

theorem segments {ps qs : List StringPart}
    (h : List.Forall₂ (StringPart.Alike C.left C.right C.holes) ps qs) :
    C.agree (List.Forall₂ (C.same Segment.relocate)) (segments o p b ps)
      (segments o' p' b' qs) := by
  induction h with
  | nil => exact C.ret .nil
  | cons hpart _ ih =>
    cases hpart with
    | literal text => exact C.bind ih fun _ _ hs => C.ret (.cons rfl hs)
    | hole tokens span =>
      refine C.bind (hh tokens span) fun e e' he => C.bind ih fun _ _ hs => C.ret (.cons ?_ hs)
      exact congrArg Segment.hole he

include hm hp hb

theorem primaryInside :
    C.agree (C.same Expr.relocate) (primaryInside o p b) (primaryInside o' p' b') := by
  refine C.bind C.peek fun t t' ht => ?_
  obtain ⟨hk, _⟩ := ht
  generalize t.kind = k at hk ⊢
  generalize t'.kind = k' at hk ⊢
  cases hk with
  | text parts =>
    refine C.bind C.skip fun s s' hs => C.bind (segments hh parts) fun found found' hf => C.ret ?_
    have hs : C.left s = C.right s' := hs
    simp only [same, Expr.relocate, relocateSegments_eq_map]
    rw [hs, map_same hf]
  | plain not_text =>
    cases k with
    | ident name => exact C.bind C.skip fun _ _ hs => C.ret (congrArg (Expr.ident · name) hs)
    | number value => exact C.bind C.skip fun _ _ hs => C.ret (congrArg (Expr.number · value) hs)
    | text parts => cases not_text
    | operator op =>
      cases op with
      | minus =>
        refine choose (C.look .negative) (C.bind negativeNumber fun v w hv => C.ret ?_)
          (unexpected _ _)
        exact congrArg₂ Expr.number hv.2 hv.1
      | _ => exact unexpected _ _
    | keyword k =>
      cases k with
      | true_ => exact C.bind C.skip fun _ _ hs => C.ret (congrArg (Expr.bool · true) hs)
      | false_ => exact C.bind C.skip fun _ _ hs => C.ret (congrArg (Expr.bool · false) hs)
      | nil_ => exact C.bind C.skip fun _ _ hs => C.ret (congrArg Expr.nil hs)
      | let_ => exact letIn hm hp hb
      | if_ => exact ifElse hm hp hb
      | match_ => exact matchOn hm hp hb
      | try_ => exact tryCatch hm hp hb
      | _ => exact unexpected _ _
    | punctuation q =>
      cases q with
      | lbrace => exact record hm hp hb
      | lbracket => exact choose (C.look .function) (function hm hp hb) (list hm hp hb)
      | lparen => exact parenthesized hm hp hb
      | underscore => exact wildcard
      | _ => exact unexpected _ _
    | _ => exact unexpected _ _

end

end

section

variable (hp : ∀ {b b' : Nat}, C.budgets b b' →
    C.agree (C.same Expr.relocate) (rootPrimary o b) (rootPrimary o' b'))
  (hb : C.budgets o.maxDepth o'.maxDepth)

include hp hb

theorem statement : C.agree (C.same Statement.relocate) (statement o) (statement o') := by
  refine choose (C.look .definition) ?_ ?_
  · refine C.bind (definition (moves_primary o _) hp hb) fun d d' hd => C.ret ?_
    have hname : C.same Name.relocate d.name d'.name := congrArg Binding.name hd
    have hvalue : C.same Expr.relocate d.value d'.value := congrArg Binding.value hd
    have hspan := C.merge (nameSpan_of_same hname) (span_of_same hvalue)
    simp only [same, Statement.relocate]
    rw [hspan, show d.name.relocate C.left = _ from hname,
      show d.value.relocate C.left = _ from hvalue]
  · refine C.bind (expression (moves_primary o _) hp hb) fun e e' he => C.ret ?_
    exact congrArg₂ Statement.expr (span_of_same he) he

theorem statementLine :
    C.agree (C.same Statement.relocate) (statementLine o) (statementLine o') := by
  refine C.bind (statement hp hb) fun s s' hs => ?_
  refine C.bind (R := (· = ·)) ?_ fun _ _ _ => C.ret hs
  have hafter : C.agree (· = ·) (test fun c => c.atEnd || c.afterDedent)
      (test fun c => c.atEnd || c.afterDedent) :=
    C.bind (f := fun ended => test Cursor.afterDedent >>= fun closed => pure (ended || closed))
      (g := fun ended => test Cursor.afterDedent >>= fun closed => pure (ended || closed))
      (kind (p := TokenKind.isEof) fun _ _ => rfl) fun ended ended' h =>
        C.bind (C.look .afterDedent) fun closed closed' h' => C.ret (by rw [h, h'])
  exact choose (accept fun _ _ => rfl) (C.ret rfl) (choose hafter (C.ret rfl) (unexpected _ _))

end

end PipeLang.Parse.Coupling
