import PipeLang.Proofs.Parse.Coupling

/-! Patterns, applications, pipelines and bracketed forms in two runs side by side. -/

namespace PipeLang.Parse

section

variable {α β : Type} {R : α → β → Prop} {as : List α} {bs : List β}

theorem rel_getLast? (h : List.Forall₂ R as bs) : Option.Rel R as.getLast? bs.getLast? := by
  rw [← List.head?_reverse, ← List.head?_reverse]
  have hr := List.rel_reverse h
  generalize as.reverse = as at hr ⊢
  generalize bs.reverse = bs at hr ⊢
  cases hr with
  | nil => exact .none
  | cons hab _ => exact .some hab

theorem rel_find? {p : α → Bool} {q : β → Bool} (h : List.Forall₂ R as bs)
    (hpq : ∀ a b, R a b → p a = q b) : Option.Rel R (as.find? p) (bs.find? q) := by
  induction h with
  | nil => exact .none
  | @cons a b as bs hab hs ih =>
    rw [List.find?_cons, List.find?_cons, ← hpq a b hab]
    cases p a with
    | true => exact .some hab
    | false => exact ih

end

theorem plainText_alike {f g : Span → Span} {holes : List Token → List Token → Prop}
    {ps qs : List StringPart} (h : List.Forall₂ (StringPart.Alike f g holes) ps qs) :
    (∃ text, plainText ps = .ok text ∧ plainText qs = .ok text) ∨
      ∃ s s', plainText ps = .error s ∧ plainText qs = .error s' ∧ f s = g s' := by
  induction h with
  | nil => exact .inl ⟨"", rfl, rfl⟩
  | cons hpart hparts ih =>
    cases hpart with
    | hole tokens span => exact .inr ⟨_, _, rfl, rfl, span⟩
    | literal text =>
      rcases ih with ⟨more, hp, hq⟩ | ⟨s, s', hp, hq, hs⟩
      · exact .inl ⟨text ++ more, by rw [plainText, hp]; rfl, by rw [plainText, hq]; rfl⟩
      · exact .inr ⟨s, s', by rw [plainText, hp]; rfl, by rw [plainText, hq]; rfl, hs⟩

namespace Coupling

variable {o o' : ParseOptions} {C : Coupling o o'}

theorem map_same {F : (Span → Span) → α → α} {xs ys : List α}
    (h : List.Forall₂ (C.same F) xs ys) : xs.map (F C.left) = ys.map (F C.right) := by
  induction h with
  | nil => rfl
  | cons h _ ih => rw [List.map_cons, List.map_cons, h, ih]

theorem same_reverse {F : (Span → Span) → α → α} {xs ys : List α}
    (h : List.Forall₂ (C.same F) xs ys) :
    xs.reverse.map (F C.left) = ys.reverse.map (F C.right) :=
  map_same (List.rel_reverse h)

theorem spans_foldl {R : α → α → Prop} {F : α → Span} (hF : ∀ a b, R a b → C.spans (F a) (F b))
    {as bs : List α} (h : List.Forall₂ R as bs) {s s' : Span} (hs : C.spans s s') :
    C.spans (as.foldl (fun s a => s.merge (F a)) s) (bs.foldl (fun s a => s.merge (F a)) s') := by
  induction h generalizing s s' with
  | nil => exact hs
  | cons hab _ ih => exact ih (C.merge hs (hF _ _ hab))

theorem span_of_same {e e' : Expr} (h : C.same Expr.relocate e e') : C.spans e.span e'.span := by
  have := congrArg Expr.span h
  rwa [Expr.span_relocate, Expr.span_relocate] at this

theorem isPlaceholder_of_same {e e' : Expr} (h : C.same Expr.relocate e e') :
    e.isPlaceholder = e'.isPlaceholder := by
  have := congrArg Expr.isPlaceholder h
  rwa [Expr.isPlaceholder_relocate, Expr.isPlaceholder_relocate] at this

theorem text_of_same {n n' : Name} (h : C.same Name.relocate n n') : n.text = n'.text := by
  have := congrArg Name.text h
  exact this

theorem nameSpan_of_same {n n' : Name} (h : C.same Name.relocate n n') :
    C.spans n.span n'.span := by
  have := congrArg Name.span h
  exact this

theorem key_of_same {f f' : PatternField} (h : C.same PatternField.relocate f f') :
    C.same Name.relocate f.key f'.key := by
  have := congrArg PatternField.key h
  exact this

/-! ## Patterns -/

/-- The same constant at corresponding spans. -/
def Constant (C : Coupling o o') (v w : α × Span) : Prop := v.1 = w.1 ∧ C.spans v.2 w.2

theorem negativeNumber : C.agree C.Constant negativeNumber negativeNumber := by
  refine C.bind C.skip fun minus minus' hminus => C.bind C.peek fun t t' ht => ?_
  refine C.bind C.skip fun span span' hspan => ?_
  have hmerge := C.merge hminus hspan
  obtain ⟨hk, _⟩ := ht
  generalize t.kind = k at hk ⊢
  generalize t'.kind = k' at hk ⊢
  cases hk with
  | text parts => exact C.ret ⟨rfl, hmerge⟩
  | plain not_text => cases k <;> exact C.ret ⟨rfl, hmerge⟩

theorem constant (value : Literal) :
    C.agree (Option.Rel C.Constant) (literal?.constant value) (literal?.constant value) :=
  C.bind C.skip fun _ _ hs => C.ret (.some ⟨rfl, hs⟩)

theorem literal : C.agree (Option.Rel C.Constant) literal? literal? := by
  refine C.bind C.peek fun t t' ht => ?_
  obtain ⟨hk, _⟩ := ht
  generalize t.kind = k at hk ⊢
  generalize t'.kind = k' at hk ⊢
  cases hk with
  | text parts =>
    dsimp only
    rcases plainText_alike parts with ⟨text, hp, hq⟩ | ⟨s, s', hp, hq, hs⟩
    · rw [hp, hq]
      exact constant (.text text)
    · rw [hp, hq]
      exact C.fail fun _ _ _ => (Diagnostic.Alike.new (.same _) hs).withHint _
  | plain not_text =>
    cases k with
    | number value => exact constant (.number value)
    | text parts => cases not_text
    | keyword k => cases k <;> first | exact constant _ | exact C.ret .none
    | operator op =>
      cases op with
      | minus =>
        refine choose (C.look .negative) (C.bind negativeNumber fun v w hv => ?_) (C.ret .none)
        exact C.ret (.some ⟨congrArg Literal.number hv.1, hv.2⟩)
      | _ => exact C.ret .none
    | _ => exact C.ret .none

theorem fieldUse : C.agree (· = ·) fieldUse fieldUse := by
  have other : C.agree (· = ·) comparison comparison := by
    refine C.bind literal fun v w hv => ?_
    cases hv with
    | none => exact unexpected _ _
    | some h => exact C.ret (congrArg FieldUse.compare h.1)
  refine choose (accept fun _ _ => rfl) (C.ret rfl) (C.bind C.peek fun t t' ht => ?_)
  obtain ⟨hk, _⟩ := ht
  generalize t.kind = k at hk ⊢
  generalize t'.kind = k' at hk ⊢
  cases hk with
  | text parts => exact other
  | plain not_text =>
    cases k with
    | ident name => exact C.bind C.skip fun _ _ _ => C.ret rfl
    | _ => exact other

theorem patternField {opened opened' : Span} (ho : C.spans opened opened')
    {fields fields' : List PatternField}
    (hf : List.Forall₂ (C.same PatternField.relocate) fields fields') :
    C.agree (C.same PatternField.relocate) (patternField opened fields)
      (patternField opened' fields') := by
  refine C.bind (stillOpen _ ho _) fun _ _ _ => C.bind (noComma _ _ _) fun _ _ _ => ?_
  refine choose (kind fun _ _ => rfl) (C.bind (identifier _) fun key key' hkey => ?_)
    (unexpected _ _)
  have htext := text_of_same hkey
  have hfound := rel_find? (p := fun f => f.key.text == key.text)
    (q := fun f => f.key.text == key'.text) hf fun a b hab => by
      rw [htext, text_of_same (key_of_same hab)]
  generalize fields.find? _ = found at hfound ⊢
  generalize fields'.find? _ = found' at hfound ⊢
  cases hfound with
  | @some first first' h =>
    refine C.fail fun _ _ _ => ?_
    have hcause : Cause.Alike C.left C.right C.holes (.duplicateKey key.text .recordPattern)
        (.duplicateKey key'.text .recordPattern) := htext ▸ .same _
    refine (Diagnostic.Alike.withExpected (.new hcause (nameSpan_of_same hkey)) _).withLabel ?_ _
      |>.withNote _
    exact nameSpan_of_same (key_of_same h)
  | none =>
    refine choose (accept fun _ _ => rfl) (C.bind fieldUse fun use use' huse => ?_) ?_
    · exact C.ret (by rw [huse]; exact congrArg (PatternField.mk · use') hkey)
    · exact C.ret (by
        show PatternField.mk _ _ = PatternField.mk _ _
        rw [htext]
        exact congrArg (PatternField.mk · _) hkey)

theorem recordPattern : C.agree (C.same Pattern.relocate) recordPattern recordPattern := by
  refine C.bind C.skip fun opened opened' ho => ?_
  refine C.bind (rounds (S := List.Forall₂ (C.same PatternField.relocate)) (moves_patternRound opened)
    (fun fields fields' hf => ?_) .nil) fun fields fields' hf => C.bind C.skip fun closed closed' hc => C.ret ?_
  · refine choose (kind fun _ _ => rfl) (C.ret (.done hf)) ?_
    exact C.bind (patternField ho hf) fun _ _ h => C.ret (.again (.cons h hf))
  · show Pattern.record _ _ = Pattern.record _ _
    rw [C.merge ho hc, same_reverse hf]

theorem patternInside : C.agree (C.same Pattern.relocate) patternInside patternInside := by
  have other : C.agree (C.same Pattern.relocate) literalPattern literalPattern := by
    refine C.bind literal fun v w hv => ?_
    cases hv with
    | none => exact unexpected _ _
    | some h => exact C.ret (congrArg₂ Pattern.literal h.2 h.1)
  refine C.bind C.peek fun t t' ht => ?_
  obtain ⟨hk, _⟩ := ht
  generalize t.kind = k at hk ⊢
  generalize t'.kind = k' at hk ⊢
  cases hk with
  | text parts => exact other
  | plain not_text =>
    cases k with
    | ident name => exact C.bind C.skip fun _ _ hs => C.ret (congrArg (Pattern.bind · name) hs)
    | keyword k =>
      cases k with
      | otherwise_ => exact C.bind C.skip fun _ _ hs => C.ret (congrArg Pattern.otherwise hs)
      | _ => exact other
    | punctuation p =>
      cases p with
      | lbrace => exact recordPattern
      | underscore => exact C.bind C.skip fun _ _ hs => C.ret (congrArg Pattern.wildcard hs)
      | _ => exact other
    | _ => exact other

theorem pattern {b b' : Nat} (hb : C.budgets b b') :
    C.agree (C.same Pattern.relocate) (pattern o b) (pattern o' b') := by
  cases b with
  | zero => exact C.deep hb fun h => by rw [h]; rfl
  | succ b =>
    obtain ⟨n, rfl, _⟩ := C.succ hb
    exact patternInside

/-! ## Applications and binary expressions -/

theorem accesses {b b' : Nat} (hb : C.budgets b b') {e e' : Expr}
    (he : C.same Expr.relocate e e') :
    C.agree (C.same Expr.relocate) (accesses o b e) (accesses o' b' e') := by
  induction b generalizing b' e e' with
  | zero =>
    cases b' with
    | zero => exact choose (C.look .access) (C.deep hb fun _ => rfl) (C.ret he)
    | succ n => exact choose (C.look .access) (C.deep hb fun h => absurd h (Nat.succ_ne_zero n)) (C.ret he)
  | succ b ih =>
    obtain ⟨n, rfl, hmore⟩ := C.succ hb
    refine choose (C.look .access) (C.bind C.skip fun _ _ _ => ?_) (C.ret he)
    refine C.bind (identifier _) fun field field' hfield => ih hmore ?_
    have hs := C.merge (span_of_same he) (nameSpan_of_same hfield)
    show Expr.relocate _ (.access _ _ _) = Expr.relocate _ (.access _ _ _)
    rw [Expr.relocate, Expr.relocate, hs, he, hfield]

section

variable {p p' : Primary} (hm : ∀ b, Moves (fun _ => 1) (p b))
  (hp : ∀ {b b' : Nat}, C.budgets b b' → C.agree (C.same Expr.relocate) (p b) (p' b'))
  {b b' : Nat} (hb : C.budgets b b')

section

include hp hb

theorem operand : C.agree (C.same Expr.relocate) (operand o p b) (operand o' p' b') :=
  C.bind (hp hb) fun _ _ he => accesses hb he

end

include hm hp hb

theorem application :
    C.agree (C.same Expr.relocate) (application o p b) (application o' p' b') := by
  refine C.bind (kindOnly (fun _ => rfl) fun _ _ => rfl) fun construct construct' hconstruct => ?_
  obtain rfl : construct = construct' := hconstruct
  refine C.bind (operand hp hb) fun head head' hhead => ?_
  cases construct with
  | true => exact C.ret hhead
  | false =>
    refine C.bind (many (C.look .argument) (moves_operand hm b) (operand hp hb))
      fun args args' hargs => ?_
    have hlast := rel_getLast? hargs
    generalize args.getLast? = last at hlast ⊢
    generalize args'.getLast? = last' at hlast ⊢
    cases hlast with
    | none => exact C.ret hhead
    | some h =>
      refine C.ret ?_
      have hs := C.merge (span_of_same hhead) (span_of_same h)
      show Expr.relocate _ (.apply _ _ _) = Expr.relocate _ (.apply _ _ _)
      rw [Expr.relocate, Expr.relocate, hs, hhead, relocateExprs_eq_map, relocateExprs_eq_map,
        map_same hargs]

omit hm hp hb in
theorem same_binary (op : Operator) {s s' : Span} (hs : C.spans s s') {l l' r r' : Expr}
    (hl : C.same Expr.relocate l l') (hr : C.same Expr.relocate r r') :
    C.same Expr.relocate (binary op s l r) (binary op s' l' r') := by
  have hmerge := C.merge (span_of_same hl) (span_of_same hr)
  have hs : C.left s = C.right s' := hs
  simp only [binary, same, Expr.relocate, relocateExprs_eq_map]
  rw [hmerge, hs, map_same (.cons hl (.cons hr .nil))]

theorem chain {left left' : Expr} (hl : C.same Expr.relocate left left') (least : Nat) :
    C.agree (C.same Expr.relocate) (chain o p b left least) (chain o' p' b' left' least) := by
  have hop : ∀ least, C.agree (· = ·) (test (Cursor.operator? least))
      (test (Cursor.operator? least)) := fun least =>
    kind (p := fun k => k.binary?.filter fun op => decide (least ≤ op.precedence)) fun _ _ => rfl
  induction b generalizing b' left left' least with
  | zero =>
    cases b' with
    | zero =>
      refine C.bind (hop least) fun op op' h => ?_
      subst h
      cases op with
      | some op => exact C.deep hb fun _ => rfl
      | none => exact C.ret hl
    | succ n =>
      refine C.bind (hop least) fun op op' h => ?_
      subst h
      cases op with
      | some op => exact C.deep hb fun h => absurd h (Nat.succ_ne_zero n)
      | none => exact C.ret hl
  | succ b ih =>
    obtain ⟨n, rfl, hmore⟩ := C.succ hb
    refine C.bind (hop least) fun op op' h => ?_
    subst h
    cases op with
    | none => exact C.ret hl
    | some op =>
      refine C.bind C.skip fun s s' hs => C.bind (application hm hp hmore)
        fun first first' hf => ?_
      exact C.bind (ih hmore hf _) fun right right' hr => ih hmore (same_binary op hs hl hr) least

/-! ## Pipelines -/

theorem stageArguments :
    C.agree (List.Forall₂ (C.same Expr.relocate)) (stageArguments o p b)
      (stageArguments o' p' b') := by
  have hop : C.agree (· = ·) (test (Cursor.operator? 0)) (test (Cursor.operator? 0)) :=
    kind (p := fun k => k.binary?.filter fun op => decide (0 ≤ op.precedence)) fun _ _ => rfl
  refine C.bind (rounds (S := List.Forall₂ (C.same Expr.relocate)) (moves_argumentRound hm b)
    (fun args args' ha => ?_) .nil) fun args args' ha => C.ret (List.rel_reverse ha)
  refine choose (C.look .argument) ?_ (C.bind hop fun op op' h => ?_)
  · exact C.bind (operand hp hb) fun _ _ he => C.ret (.again (.cons he ha))
  · subst h
    cases op with
    | none => exact C.ret (.done ha)
    | some op =>
      cases ha with
      | nil => exact C.ret (.done .nil)
      | cons hlast hothers =>
        exact C.bind (chain hm hp hb hlast 0) fun _ _ he => C.ret (.again (.cons he hothers))

omit hm hp hb in
theorem same_stageOf {head head' : Expr} (hh : C.same Expr.relocate head head')
    {args args' : List Expr} (ha : List.Forall₂ (C.same Expr.relocate) args args') :
    C.same Stage.relocate (stageOf head args) (stageOf head' args') := by
  have hspan := span_of_same hh
  have hany : args.any Expr.isPlaceholder = args'.any Expr.isPlaceholder := by
    clear hh hspan
    induction ha with
    | nil => rfl
    | cons h _ ih => rw [List.any_cons, List.any_cons, isPlaceholder_of_same h, ih]
  have hfilled : List.Forall₂ (C.same Expr.relocate)
      (if args.any Expr.isPlaceholder then args else .wildcard head.span [] :: args)
      (if args'.any Expr.isPlaceholder then args' else .wildcard head'.span [] :: args') := by
    rw [hany]
    split
    · exact ha
    · exact .cons (congrArg (Expr.wildcard · []) hspan) ha
  unfold stageOf
  generalize (if args.any Expr.isPlaceholder then args else _) = all at hfilled ⊢
  generalize (if args'.any Expr.isPlaceholder then args' else _) = all' at hfilled ⊢
  have hfold : C.spans (all.foldl (fun s a => s.merge a.span) head.span)
      (all'.foldl (fun s a => s.merge a.span) head'.span) :=
    spans_foldl (fun _ _ h => span_of_same h) hfilled hspan
  show Stage.mk _ _ _ = Stage.mk _ _ _
  rw [hfold, hh, map_same hfilled]

theorem stage : C.agree (C.same Stage.relocate) (stage o p b) (stage o' p' b') := by
  refine choose (kind fun _ _ => rfl) (C.bind (operand hp hb) fun head head' hh => ?_)
    (C.fail fun _ _ h => ((h.unexpected _ _).withNote _).withExample _)
  refine C.bind (stageArguments hm hp hb) fun args args' ha => ?_
  have hwritten : List.Forall₂ (C.same Expr.relocate) (args.filter Expr.isPlaceholder)
      (args'.filter Expr.isPlaceholder) :=
    List.rel_filter (fun _ _ h => iff_of_eq (congrArg (· = true) (isPlaceholder_of_same h))) ha
  generalize args.filter Expr.isPlaceholder = written at hwritten ⊢
  generalize args'.filter Expr.isPlaceholder = written' at hwritten ⊢
  cases hwritten with
  | nil => exact C.ret (same_stageOf hh ha)
  | cons hfirst hmore =>
    cases hmore with
    | nil => exact C.ret (same_stageOf hh ha)
    | cons hsecond _ =>
      refine C.fail fun _ _ _ => ?_
      exact ((Diagnostic.Alike.new (.same _) (span_of_same hsecond)).withLabel
        (span_of_same hfirst) _).withExample _

/-- Related stages, and as much room for the next one. -/
structure SameStages (C : Coupling o o') (s t : Stages) : Prop where
  budget : C.budgets s.budget t.budget
  stages : List.Forall₂ (C.same Stage.relocate) s.stages t.stages

omit hb in
theorem pushStage {s t : Stages} (h : C.SameStages s t) :
    C.agree C.SameStages (pushStage o p s) (pushStage o' p' t) := by
  obtain ⟨b, stages⟩ := s
  obtain ⟨b', stages'⟩ := t
  obtain ⟨hb, hs⟩ := h
  have free {n n' : Nat} (hn : C.budgets n n') : C.agree C.SameStages
      (Parse.stage o p n >>= fun next => pure ⟨n, next :: stages⟩)
      (Parse.stage o' p' n' >>= fun next => pure ⟨n', next :: stages'⟩) :=
    C.bind (stage hm hp hn) fun _ _ h => C.ret ⟨hn, .cons h hs⟩
  unfold Parse.pushStage
  rcases C.resolve with heq | ⟨hoff, hless, hdeep⟩
  · rw [← heq]
    cases o.resolvePipelines with
    | false => exact free hb
    | true =>
      cases b with
      | zero => exact C.deep hb fun h => by rw [show b' = 0 from h]; rfl
      | succ b =>
        obtain ⟨n, hn, hmore⟩ := C.succ hb
        obtain rfl : b' = n + 1 := hn
        exact free hmore
  · rw [hoff]
    cases o.resolvePipelines with
    | false => exact free hb
    | true =>
      -- only the first run takes a level, so its budget shrinks against an unchanged one
      cases b with
      | zero => exact hdeep
      | succ b =>
        exact C.bind (stage hm hp (hless hb)) fun _ _ h => C.ret ⟨hless hb, .cons h hs⟩

omit hb in
theorem inlineStages {s t : Stages} (h : C.SameStages s t) :
    C.agree C.SameStages (inlineStages o p s) (inlineStages o' p' t) := by
  refine rounds (moves_pipeRound hm) (fun s t h => ?_) h
  refine choose (accept fun _ _ => rfl) ?_ (C.ret (.done h))
  exact C.bind (pushStage hm hp h) fun _ _ h => C.ret (.again h)

omit hb in
theorem stageLine {s t : Stages} (h : C.SameStages s t) :
    C.agree (Round.Alike C.SameStages) (stageLine o p s) (stageLine o' p' t) := by
  refine C.bind (pushStage hm hp h) fun s t h => C.bind (inlineStages hm hp h) fun s t h => ?_
  refine choose (accept fun _ _ => rfl) ?_ ?_
  · refine choose (accept fun _ _ => rfl) (C.ret (.done h)) ?_
    refine choose (kind fun _ _ => rfl) (C.fail fun _ _ h => (h.failure _).withNote _) ?_
    exact C.ret (.again h)
  · exact choose (accept fun _ _ => rfl) (C.ret (.done h)) (unexpected _ _)

theorem allStages :
    C.agree (List.Forall₂ (C.same Stage.relocate)) (allStages o p b) (allStages o' p' b') := by
  refine C.bind (inlineStages hm hp ⟨hb, .nil⟩) fun s t h => ?_
  refine choose (C.openBlock fun _ _ => rfl) ?_ (C.ret (List.rel_reverse h.stages))
  exact C.bind (rounds (moves_stageLine hm) (fun _ _ h => stageLine hm hp h) h)
    fun _ _ h => C.ret (List.rel_reverse h.stages)

theorem expression :
    C.agree (C.same Expr.relocate) (expression o p b) (expression o' p' b') := by
  refine C.bind (application hm hp hb) fun first first' hf => ?_
  refine C.bind (chain hm hp hb hf 0) fun seed seed' hs => ?_
  refine C.bind (allStages hm hp hb) fun stages stages' hst => ?_
  have hlast := rel_getLast? hst
  generalize stages.getLast? = last at hlast ⊢
  generalize stages'.getLast? = last' at hlast ⊢
  cases hlast with
  | none => exact C.ret hs
  | some h =>
    refine C.ret ?_
    have hspan : C.spans _ _ := C.merge (span_of_same hs) (congrArg Stage.span h)
    show Expr.relocate _ (.pipeline _ _ _) = Expr.relocate _ (.pipeline _ _ _)
    rw [Expr.relocate, Expr.relocate, relocateStages_eq_map, relocateStages_eq_map,
      map_same hst, hs, show C.left _ = C.right _ from hspan]

end

end Coupling

end PipeLang.Parse
