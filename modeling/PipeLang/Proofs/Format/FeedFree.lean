import PipeLang.Format.Printer
import PipeLang.Proofs.Format.WrittenToken
import PipeLang.Text.Lines

/-! An expression is written without line feeds, however deep it is: strings write them by an escape, names and
numbers have none, and everything else is set with blanks. So the line feeds of a text laid out in
lines are those between its lines. -/

namespace PipeLang

/-- A text on one line. -/
def FeedFree (s : String) : Prop := '\n' ∉ s.toList

instance : DecidablePred FeedFree := fun s => inferInstanceAs (Decidable ('\n' ∉ s.toList))

namespace FeedFree

variable {s t : String} {texts : List String}

theorem append_iff : FeedFree (s ++ t) ↔ FeedFree s ∧ FeedFree t := by
  unfold FeedFree
  rw [String.toList_append, List.mem_append]
  exact not_or

theorem append (hs : FeedFree s) (ht : FeedFree t) : FeedFree (s ++ t) := append_iff.mpr ⟨hs, ht⟩

theorem join (h : ∀ t ∈ texts, FeedFree t) : FeedFree (String.join texts) := by
  induction texts with
  | nil => decide
  | cons t texts ih =>
    rw [String.join_cons]
    exact (h t List.mem_cons_self).append (ih fun u hu => h u (List.mem_cons_of_mem t hu))

theorem spaced (h : ∀ t ∈ texts, FeedFree t) : FeedFree (spaced texts) := by
  induction texts with
  | nil => decide
  | cons t texts ih =>
    have hfirst : FeedFree (" " ++ t) := append (by decide) (h t List.mem_cons_self)
    exact hfirst.append (ih fun u hu => h u (List.mem_cons_of_mem t hu))

theorem joined (h : ∀ t ∈ texts, FeedFree t) : FeedFree (joined texts) := by
  cases texts with
  | nil => decide
  | cons t texts =>
    exact (h t List.mem_cons_self).append (.spaced fun u hu => h u (List.mem_cons_of_mem t hu))

theorem intercalate (hs : FeedFree s) (h : ∀ t ∈ texts, FeedFree t) : FeedFree (s.intercalate texts) := by
  induction texts with
  | nil =>
    rw [String.intercalate_nil]
    decide
  | cons t texts ih =>
    have ht := h t List.mem_cons_self
    have hrest := ih fun u hu => h u (List.mem_cons_of_mem t hu)
    cases texts with
    | nil => rwa [String.intercalate_singleton]
    | cons u texts =>
      rw [String.intercalate_cons_cons]
      exact (ht.append hs).append hrest

/-! Tokens. -/

theorem name (h : isIdentifier s = true) : FeedFree s :=
  fun hmem => (Parse.plain_of_isWord (Parse.wordKind_of_isIdentifier h).1 _ hmem).1 rfl

theorem escape (s : String) : FeedFree (escape s) := by
  unfold FeedFree
  rw [escape_toList, List.mem_flatMap]
  rintro ⟨c, -, hmem⟩
  rcases escapeChar_cases c with ⟨he, -, -, -, -, hc⟩ | ⟨d, he, -, hd⟩
  · rw [he, List.mem_singleton] at hmem
    exact hc hmem.symm
  · rw [he] at hmem
    simp [Ne.symm hd] at hmem

theorem quoted (s : String) : FeedFree (quoted s) :=
  (append (by decide) (escape s)).append (by decide)

theorem number (x : Number) : FeedFree x.text := by
  have magnitude : ∀ m : Magnitude, FeedFree m.text := by
    intro m
    cases m with
    | finite rank =>
      obtain ⟨w, -⟩ := Decimal.text_written (Magnitude.shortest rank)
      exact fun hmem => (Parse.plain_of_written w _ hmem).1 rfl
    | infinite => decide
    | undefined => decide
  unfold Number.text
  split
  · exact append (by decide) (magnitude _)
  · exact magnitude _

theorem literal (x : Literal) : FeedFree x.dump := by
  cases x with
  | number value => exact number value
  | text value => exact quoted value
  | bool value => cases value <;> decide
  | nil => decide

theorem operator (op : Operator) : FeedFree op.spelling := by cases op <;> decide

end FeedFree

namespace Format

variable {s t : String} {n : Nat}

theorem feedFree_parens (h : FeedFree s) : FeedFree (parens s) :=
  (FeedFree.append (by decide) h).append (by decide)

theorem feedFree_braces (h : FeedFree s) : FeedFree (braces s) :=
  (FeedFree.append (by decide) h).append (by decide)

theorem feedFree_place (slot : Slot) (e : Expr) (h : FeedFree s) : FeedFree (place slot e s) := by
  unfold place
  split
  · exact feedFree_parens h
  · exact h

theorem feedFree_operand (precedence : Nat) (onRight : Bool) (e : Expr) (h : FeedFree s) :
    FeedFree (placeOperand precedence onRight e s) := by
  unfold placeOperand
  split
  · split
    · exact feedFree_parens h
    · exact h
  · exact feedFree_place .operand e h

theorem feedFree_target (e : Expr) (h : FeedFree s) : FeedFree (placeTarget e s) := by
  unfold placeTarget
  split
  · exact feedFree_parens h
  · exact feedFree_place .argument _ h

theorem feedFree_head {name : Name} {params : List Name} (hname : isIdentifier name.text = true)
    (hparams : ∀ p ∈ params, isIdentifier p.text = true) : FeedFree (definitionHead name params) := by
  refine FeedFree.append (.joined ?_) (by decide)
  exact List.forall_mem_cons.mpr ⟨.name hname, List.forall_mem_map.mpr fun p hp => .name (hparams p hp)⟩

theorem feedFree_pattern {p : Pattern} (h : p.Formed) : FeedFree (pattern p) := by
  cases p with
  | record s fields =>
    refine feedFree_braces (.joined (List.forall_mem_map.mpr fun f hf => ?_))
    obtain ⟨hkey, huse⟩ := h.1 f hf
    obtain ⟨key, use⟩ := f
    unfold patternField
    cases use with
    | bind name =>
      dsimp only
      split
      · exact .name hkey
      · exact ((FeedFree.name hkey).append (by decide)).append (.name huse)
    | compare value => exact ((FeedFree.name hkey).append (by decide)).append (.literal value)
    | ignore => exact (FeedFree.name hkey).append (by decide)
  | literal s value => exact .literal value
  | bind s name => exact .name h
  | wildcard s => exact show FeedFree "_" by decide
  | otherwise s => exact show FeedFree "otherwise" by decide

/-! Lists of parts. -/

variable {parts : List (Expr × String)}

theorem feedFree_texts {es : List Expr} (h : ∀ e ∈ es, FeedFree (bare e)) :
    ∀ part ∈ withTexts es, FeedFree part.2 := by
  rw [withTexts_eq_map]
  exact List.forall_mem_map.mpr h

theorem feedFree_items (h : ∀ part ∈ parts, FeedFree part.2) : ∀ text ∈ placeItems parts, FeedFree text := by
  induction parts with
  | nil => exact fun text hmem => absurd hmem List.not_mem_nil
  | cons part parts ih =>
    obtain ⟨e, text⟩ := part
    have htext := h (e, text) List.mem_cons_self
    refine List.forall_mem_cons.mpr ⟨?_, ih fun p hp => h p (List.mem_cons_of_mem _ hp)⟩
    split
    · exact htext
    · exact feedFree_place .argument e htext

theorem feedFree_arguments (h : ∀ part ∈ parts, FeedFree part.2) :
    ∀ part ∈ writtenArguments parts, FeedFree part.2 := by
  cases parts with
  | nil => exact h
  | cons part parts =>
    obtain ⟨e, text⟩ := part
    rw [writtenArguments]
    split
    · exact fun p hp => h p (List.mem_cons_of_mem _ hp)
    · exact h

theorem feedFree_application {op : Option Operator} {callee : Expr × String} (hc : FeedFree callee.2)
    (h : ∀ part ∈ parts, FeedFree part.2) : FeedFree (applicationText op callee parts) := by
  unfold applicationText
  split
  · next op left l right r =>
    have hl := feedFree_operand op.precedence false left (h (left, l) List.mem_cons_self)
    have hr := feedFree_operand op.precedence true right (h (right, r) (by simp))
    exact (((hl.append (by decide)).append (.operator op)).append (by decide)).append hr
  · refine .joined (List.forall_mem_map.mpr (List.forall_mem_cons.mpr ⟨?_, fun part hpart => ?_⟩))
    · exact feedFree_place .argument _ hc
    · exact feedFree_place .argument _ (h part hpart)

/-- A stage without the pipe before it. -/
def stageText (g : Stage) : String :=
  joined (place .argument g.callee (bare g.callee) :: placeItems (writtenArguments (withTexts g.args)))

theorem stageTexts_eq_map (stages : List Stage) : stageTexts stages = stages.map stageText := by
  induction stages with
  | nil => simp [stageTexts]
  | cons g rest ih =>
    obtain ⟨_, callee, args⟩ := g
    simp [stageTexts, stageText, ih]

theorem feedFree_stage {g : Stage} (hc : FeedFree (bare g.callee)) (ha : ∀ a ∈ g.args, FeedFree (bare a)) :
    FeedFree (stageText g) :=
  .joined (List.forall_mem_cons.mpr
    ⟨feedFree_place .argument _ hc, feedFree_items (feedFree_arguments (feedFree_texts ha))⟩)

theorem feedFree_segments {segments : List Segment} (h : ∀ e, .hole e ∈ segments → FeedFree (bare e)) :
    FeedFree (segmentsText segments) := by
  induction segments with
  | nil =>
    rw [segmentsText]
    decide
  | cons x rest ih =>
    have hrest := ih fun e he => h e (List.mem_cons_of_mem x he)
    cases x with
    | literal text =>
      rw [segmentsText]
      exact (FeedFree.escape text).append hrest
    | hole e =>
      rw [segmentsText]
      exact (feedFree_braces (h e List.mem_cons_self)).append hrest

theorem feedFree_fields {fields : List Binding} (hk : ∀ b ∈ fields, isIdentifier b.name.text = true)
    (hv : ∀ b ∈ fields, FeedFree (bare b.value)) : ∀ text ∈ fieldTexts fields, FeedFree text := by
  induction fields with
  | nil =>
    rw [fieldTexts]
    exact fun text hmem => absurd hmem List.not_mem_nil
  | cons b rest ih =>
    have hkey := hk b List.mem_cons_self
    have hvalue := hv b List.mem_cons_self
    obtain ⟨key, value⟩ := b
    rw [fieldTexts]
    refine List.forall_mem_cons.mpr ⟨?_, ih (fun b hb => hk b (List.mem_cons_of_mem _ hb))
      fun b hb => hv b (List.mem_cons_of_mem _ hb)⟩
    exact ((FeedFree.name hkey).append (by decide)).append (feedFree_place .clause value hvalue)

theorem feedFree_branches {branches : List Branch} (hc : ∀ b ∈ branches, FeedFree (bare b.condition))
    (hr : ∀ b ∈ branches, FeedFree (bare b.result)) : ∀ text ∈ branchTexts branches, FeedFree text := by
  induction branches with
  | nil =>
    rw [branchTexts]
    exact fun text hmem => absurd hmem List.not_mem_nil
  | cons b rest ih =>
    have hcondition := hc b List.mem_cons_self
    have hresult := hr b List.mem_cons_self
    obtain ⟨condition, result⟩ := b
    rw [branchTexts]
    refine List.forall_mem_cons.mpr ⟨?_, ih (fun b hb => hc b (List.mem_cons_of_mem _ hb))
      fun b hb => hr b (List.mem_cons_of_mem _ hb)⟩
    exact ((feedFree_place .clause condition hcondition).append (by decide)).append
      (feedFree_place .clause result hresult)

theorem feedFree_definitions {bindings : List Binding}
    (hnames : ∀ b ∈ bindings, isIdentifier b.name.text = true) (hf : ∀ b ∈ bindings, b.value.Formed n)
    (hv : ∀ b ∈ bindings, FeedFree (bare b.value)) : ∀ text ∈ definitionTexts bindings, FeedFree text := by
  induction bindings with
  | nil =>
    rw [definitionTexts]
    exact fun text hmem => absurd hmem List.not_mem_nil
  | cons b rest ih =>
    have hname := hnames b List.mem_cons_self
    have hformed := hf b List.mem_cons_self
    have hvalue := hv b List.mem_cons_self
    have hrest := ih (fun b hb => hnames b (List.mem_cons_of_mem _ hb))
      (fun b hb => hf b (List.mem_cons_of_mem _ hb)) fun b hb => hv b (List.mem_cons_of_mem _ hb)
    obtain ⟨name, value⟩ := b
    cases value with
    | function s params body =>
      rw [bare] at hvalue
      have hbody := (FeedFree.append_iff.mp (FeedFree.append_iff.mp hvalue).1).2
      cases hformed with
      | function _ hparams _ =>
        rw [definitionTexts]
        exact List.forall_mem_cons.mpr
          ⟨(feedFree_head hname hparams).append (feedFree_place .clause body hbody), hrest⟩
    | _ =>
      rw [definitionTexts]
      · refine List.forall_mem_cons.mpr ⟨?_, hrest⟩
        exact (feedFree_head hname (by simp)).append (feedFree_place .clause _ hvalue)
      · simp

/-- The result of a clause, which is wrapped where more clauses follow. -/
theorem feedFree_result (last : Bool) {e : Expr} (h : FeedFree (bare e)) :
    FeedFree (if last then bare e else place .clause e (bare e)) := by
  split
  · exact h
  · exact feedFree_place .clause e h

theorem feedFree_clauses {clauses : List Clause} (hp : ∀ c ∈ clauses, c.pattern.Formed)
    (hg : ∀ c ∈ clauses, ∀ g, c.guard = some g → FeedFree (bare g))
    (hr : ∀ c ∈ clauses, FeedFree (bare c.result)) : FeedFree (clausesText clauses) := by
  induction clauses with
  | nil =>
    rw [clausesText]
    decide
  | cons c rest ih =>
    have hpattern := feedFree_pattern (hp c List.mem_cons_self)
    have hguard := hg c List.mem_cons_self
    have hresult := feedFree_result rest.isEmpty (hr c List.mem_cons_self)
    have hrest := ih (fun c hc => hp c (List.mem_cons_of_mem _ hc))
      (fun c hc => hg c (List.mem_cons_of_mem _ hc)) fun c hc => hr c (List.mem_cons_of_mem _ hc)
    obtain ⟨s, p, guard, result⟩ := c
    have hhead : FeedFree (" | " ++ pattern p) := FeedFree.append (by decide) hpattern
    cases guard with
    | none =>
      rw [clausesText]
      exact ((hhead.append (by decide)).append hresult).append hrest
    | some g =>
      rw [clausesText]
      exact (((((hhead.append (by decide)).append (feedFree_place .clause g (hguard g rfl))).append
        (by decide)).append hresult)).append hrest

theorem feedFree_catches {catches : List Catch} (hn : ∀ c ∈ catches, c.Named)
    (hh : ∀ c ∈ catches, FeedFree (bare c.handler)) : FeedFree (catchesText catches) := by
  induction catches with
  | nil =>
    rw [catchesText]
    decide
  | cons c rest ih =>
    have hnamed := hn c List.mem_cons_self
    have hresult := feedFree_result rest.isEmpty (hh c List.mem_cons_self)
    have hrest := ih (fun c hc => hn c (List.mem_cons_of_mem _ hc)) fun c hc => hh c (List.mem_cons_of_mem _ hc)
    obtain ⟨s, tag, binding, handler⟩ := c
    have hnames : FeedFree (catchNames tag binding) := by
      refine .spaced (List.forall_mem_map.mpr fun name hmem => ?_)
      rcases List.mem_append.mp hmem with hmem | hmem
      · exact .name (hnamed.tag name (Option.mem_toList.mp hmem)).1
      · exact .name (hnamed.binding name (Option.mem_toList.mp hmem)).1
    rw [catchesText]
    exact ((((FeedFree.append (by decide) hnames).append (by decide)).append hresult)).append hrest

theorem feedFree_chain {texts : List String} (h : ∀ t ∈ texts, FeedFree t) : FeedFree (branchChain texts) := by
  cases texts with
  | nil => decide
  | cons first rest =>
    refine (FeedFree.append (by decide) (h first List.mem_cons_self)).append
      (.join (List.forall_mem_map.mpr fun t ht => ?_))
    exact FeedFree.append (by decide) (h t (List.mem_cons_of_mem first ht))

/-- By induction on the tree, with a lemma above for every list of parts. -/
theorem feedFree_bare {e : Expr} (h : e.Formed n) : FeedFree (bare e) := by
  induction h with
  | ident name_ok =>
    rw [bare]
    exact .name name_ok
  | wildcard path_ok =>
    rw [bare]
    exact .intercalate (by decide) (List.forall_mem_cons.mpr ⟨by decide, fun f hf => .name (path_ok f hf)⟩)
  | number =>
    rw [bare]
    exact .number _
  | text _ _ _ _ ih =>
    rw [bare]
    exact (FeedFree.append (by decide) (feedFree_segments ih)).append (by decide)
  | @bool n s value =>
    rw [bare]
    cases value <;> decide
  | nil =>
    rw [bare]
    decide
  | record keys _ ih =>
    rw [bare]
    exact feedFree_braces (.joined (feedFree_fields keys ih))
  | list _ ih =>
    rw [bare]
    exact (FeedFree.append (by decide) (.joined (feedFree_items (feedFree_texts ih)))).append (by decide)
  | function _ params_ok _ ih =>
    have hparams := FeedFree.joined (List.forall_mem_map.mpr fun p hp => .name (params_ok p hp))
    rw [bare]
    exact (((FeedFree.append (by decide) hparams).append (by decide)).append ih).append (by decide)
  | @binary n s t left right op _ _ ihl ihr =>
    have hname : FeedFree (bare (.ident t op.spelling)) := by
      rw [bare]
      exact .operator op
    rw [bare]
    exact feedFree_application hname (feedFree_texts (by simp [ihl, ihr]))
  | apply _ _ _ ihc iha =>
    rw [bare]
    exact feedFree_application ihc (feedFree_texts iha)
  | access _ field_ok ih =>
    rw [bare]
    exact ((feedFree_target _ ih).append (by decide)).append (.name field_ok)
  | pipeline _ _ _ _ _ ih ihc iha =>
    rw [bare, stageTexts_eq_map]
    refine (feedFree_place .seed _ ih).append (.join ?_)
    refine List.forall_mem_map.mpr (List.forall_mem_map.mpr fun g hg => ?_)
    exact FeedFree.append (by decide) (feedFree_stage (ihc g hg) (iha g hg))
  | letIn _ names values _ ihv ihb =>
    rw [bare]
    exact ((FeedFree.append (by decide) (.intercalate (by decide)
      (feedFree_definitions names values ihv))).append (by decide)).append ihb
  | ifElse _ _ _ _ ihc ihr ihf =>
    rw [bare]
    exact ((feedFree_chain (feedFree_branches ihc ihr)).append (by decide)).append ihf
  | matchOn _ _ patterns _ _ ihs ihg ihr =>
    rw [bare]
    exact (FeedFree.append (by decide) (feedFree_place .clause _ ihs)).append
      (feedFree_clauses patterns ihg ihr)
  | tryCatch _ _ named _ ihb ihh =>
    rw [bare]
    exact (FeedFree.append (by decide) (feedFree_place .clause _ ihb)).append (feedFree_catches named ihh)

end Format

end PipeLang
