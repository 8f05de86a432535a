import PipeLang.Proofs.Format.ReadClause
import PipeLang.Proofs.Format.WrittenForm

/-! The text of every tree of the language is written for its pieces, if its numbers are finite: what is
neither a number nor written as one, an overflow for example, has no spelling. -/

namespace PipeLang

open Scan State

namespace Parse

open Format

variable {n : Nat} {ps : List Piece}

/-! Lists of parts. -/

/-- A part with its text, and the same part with its pieces. -/
abbrev WrittenPart (n : Nat) (a : Expr × String) (b : Expr × List Piece) : Prop :=
  a.1 = b.1 ∧ Written n a.2.toList b.2

theorem writtenParts {es : List Expr} (h : ∀ e ∈ es, Written n (bare e).toList (pieces e)) :
    List.Forall₂ (WrittenPart n) (withTexts es) (withPieces es) := by
  induction es with
  | nil =>
    rw [withTexts, withPieces]
    exact .nil
  | cons e rest ih =>
    rw [withTexts, withPieces]
    exact .cons ⟨rfl, h e List.mem_cons_self⟩ (ih fun a ha => h a (List.mem_cons_of_mem e ha))

theorem writtenItems {as : List (Expr × String)} {bs : List (Expr × List Piece)}
    (h : List.Forall₂ (WrittenPart n) as bs) : WrittenAll n (placeItems as) (itemPieces bs) := by
  induction h with
  | nil => exact .nil
  | @cons a b as bs hab hrest ih =>
    obtain ⟨e, text⟩ := a
    obtain ⟨_, ps⟩ := b
    obtain ⟨rfl, hw⟩ := hab
    have hempty : as.isEmpty = bs.isEmpty := by
      cases hrest <;> rfl
    rw [placeItems, itemPieces, hempty]
    refine .cons ?_ ih
    split
    · exact hw
    · exact hw.place .argument e

theorem writtenPlaced {as : List (Expr × String)} {bs : List (Expr × List Piece)} (slot : Slot)
    (h : List.Forall₂ (WrittenPart n) as bs) :
    WrittenAll n (as.map fun (e, text) => place slot e text)
      (bs.map fun (e, ps) => placePieces slot e ps) := by
  induction h with
  | nil => exact .nil
  | @cons a b as bs hab _ ih =>
    obtain ⟨e, text⟩ := a
    obtain ⟨_, ps⟩ := b
    obtain ⟨rfl, hw⟩ := hab
    exact .cons (hw.place slot e) ih

/-- A placeholder that goes first is left out of both. -/
theorem writtenArguments_parts {as : List (Expr × String)} {bs : List (Expr × List Piece)}
    (h : List.Forall₂ (WrittenPart n) as bs) :
    List.Forall₂ (WrittenPart n) (writtenArguments as) (writtenPieces bs) := by
  cases h with
  | nil => exact .nil
  | @cons a b as bs hab hrest =>
    obtain ⟨e, text⟩ := a
    obtain ⟨_, ps⟩ := b
    obtain ⟨rfl, hw⟩ := hab
    unfold writtenArguments writtenPieces
    dsimp only
    split
    · exact hrest
    · exact .cons ⟨rfl, hw⟩ hrest

/-! Applications and pipelines. -/

theorem Written.binary {callee : Expr × String} {callee' : Expr × List Piece} {left right : Expr}
    {l r : String} {qs : List Piece} (op : Operator) (hl : Written n l.toList ps)
    (hr : Written n r.toList qs) :
    Written n (applicationText (some op) callee [(left, l), (right, r)]).toList
      (applicationPieces (some op) callee' [(left, ps), (right, qs)]) := by
  have hright := hr.operand op.precedence true right
  have h := (hl.operand op.precedence false left).append (.around (.operator op) hright)
  simpa [applicationText, applicationPieces] using h

theorem Written.application {callee : Expr × String} {callee' : Expr × List Piece}
    {as : List (Expr × String)} {bs : List (Expr × List Piece)} (op : Option Operator)
    (hc : WrittenPart n callee callee') (h : List.Forall₂ (WrittenPart n) as bs) :
    Written n (applicationText op callee as).toList (applicationPieces op callee' bs) := by
  have hrun : Written n (PipeLang.joined
        ((callee :: as).map fun (e, text) => Format.place .argument e text)).toList
      (joinedPieces ((callee' :: bs).map fun (e, ps) => placePieces .argument e ps)) :=
    .joined (writtenPlaced .argument (.cons hc h)) (List.cons_ne_nil _ _)
  cases op with
  | none => exact hrun
  | some op =>
    cases h with
    | nil => exact hrun
    | @cons a b as bs hab hrest =>
      cases hrest with
      | nil => exact hrun
      | @cons a' b' as bs hab' hrest =>
        cases hrest with
        | cons _ _ => exact hrun
        | nil =>
          obtain ⟨left, l⟩ := a
          obtain ⟨right, r⟩ := a'
          obtain ⟨_, ps⟩ := b
          obtain ⟨_, qs⟩ := b'
          obtain ⟨rfl, hl⟩ := hab
          obtain ⟨rfl, hr⟩ := hab'
          exact .binary op hl hr

theorem writtenStages {stages : List Stage}
    (hc : ∀ g ∈ stages, Written n (bare g.callee).toList (pieces g.callee))
    (ha : ∀ g ∈ stages, ∀ a ∈ g.args, Written n (bare a).toList (pieces a)) :
    WrittenAll n (stageTexts stages) (stageRuns stages) := by
  induction stages with
  | nil =>
    rw [stageTexts, stageRuns]
    exact .nil
  | cons g rest ih =>
    have hcallee := hc g List.mem_cons_self
    have hargs := writtenParts (ha g List.mem_cons_self)
    obtain ⟨s, callee, args⟩ := g
    rw [stageTexts, stageRuns]
    refine .cons (.joined (.cons (hcallee.place .argument callee)
      (writtenItems (writtenArguments_parts hargs))) (List.cons_ne_nil _ _)) ?_
    exact ih (fun g hg => hc g (List.mem_cons_of_mem _ hg))
      fun g hg => ha g (List.mem_cons_of_mem _ hg)

theorem follows_pipes {texts : List String} {runs : List (List Piece)}
    (h : WrittenAll n texts runs) :
    Follows n (String.join (texts.map (" |> " ++ ·))).toList
      (runs.flatMap fun ps => .gap :: .mark .pipe :: .gap :: ps) := by
  induction h with
  | nil => exact .nil
  | @cons text ps texts runs hfirst _ ih =>
    rw [List.map_cons, String.join_cons, List.flatMap_cons, String.toList_append]
    refine .append ?_ ih
    have h := Follows.around .pipe hfirst
    simpa using h

/-! Local definitions and fields. -/

theorem writtenFields {fields : List Binding} (hk : ∀ b ∈ fields, isIdentifier b.name.text = true)
    (hv : ∀ b ∈ fields, Written n (bare b.value).toList (pieces b.value)) :
    WrittenAll n (fieldTexts fields) (bindingRuns fields) := by
  induction fields with
  | nil =>
    rw [fieldTexts, bindingRuns]
    exact .nil
  | cons b rest ih =>
    have hkey := hk b List.mem_cons_self
    have hvalue := hv b List.mem_cons_self
    obtain ⟨key, value⟩ := b
    rw [fieldTexts, bindingRuns]
    refine .cons (.key hkey (hvalue.place .clause value)) ?_
    exact ih (fun b hb => hk b (List.mem_cons_of_mem _ hb))
      fun b hb => hv b (List.mem_cons_of_mem _ hb)

/-- The text of a tree is written for its pieces, and if it is a function, so is its body. -/
structure IsWritten (n : Nat) (e : Expr) : Prop where
  text : Written n (bare e).toList (pieces e)
  body : ∀ s params body, e = .function s params body →
    (∀ p ∈ params, isIdentifier p.text = true) ∧ Written n (bare body).toList (pieces body)

theorem IsWritten.definition {b : Binding} (hname : isIdentifier b.name.text = true)
    (h : IsWritten n b.value) (rest : List Binding) :
    ∃ text, definitionTexts (b :: rest) = text :: definitionTexts rest ∧
      Written n text.toList (definitionRun b) := by
  obtain ⟨name, value⟩ := b
  have plain : Written n (definitionHead name [] ++ place .clause value (bare value)).toList
      (headPieces name [] ++ placePieces .clause value (pieces value)) :=
    .definition hname (by simp) (h.text.place .clause value)
  cases value with
  | function s params body =>
    obtain ⟨hparams, hbody⟩ := h.body s params body rfl
    rw [definitionTexts]
    exact ⟨_, rfl, .definition hname hparams (hbody.place .clause body)⟩
  | _ =>
    rw [definitionTexts]
    · exact ⟨_, rfl, plain⟩
    · simp

theorem IsWritten.definitions {bs : List Binding} (hne : bs ≠ [])
    (hnames : ∀ b ∈ bs, isIdentifier b.name.text = true) (h : ∀ b ∈ bs, IsWritten n b.value) :
    Written n ("; ".intercalate (definitionTexts bs)).toList (definitionPieces bs) := by
  induction bs with
  | nil => exact absurd rfl hne
  | cons b rest ih =>
    obtain ⟨text, htexts, hfirst⟩ :=
      (h b List.mem_cons_self).definition (hnames b List.mem_cons_self) rest
    rw [htexts, definitionPieces_cons]
    cases rest with
    | nil =>
      rw [definitionTexts, String.intercalate_singleton, List.flatMap_nil, List.append_nil]
      exact hfirst
    | cons b' rest =>
      have hrest := ih (List.cons_ne_nil _ _) (fun c hc => hnames c (List.mem_cons_of_mem b hc))
        fun c hc => h c (List.mem_cons_of_mem b hc)
      have hne : definitionTexts (b' :: rest) ≠ [] := by
        obtain ⟨text, htexts, _⟩ := (h b' (List.mem_cons_of_mem b List.mem_cons_self)).definition
          (hnames b' (List.mem_cons_of_mem b List.mem_cons_self)) rest
        rw [htexts]
        exact List.cons_ne_nil _ _
      rw [definitionPieces_cons] at hrest
      have hmark : Follows n [';'] [.mark .semicolon] := .mark rfl rfl
      have hall := hfirst.append (hmark.append (.gap hrest))
      rw [String.intercalate_cons_of_ne_nil hne, List.flatMap_cons]
      simpa using hall

/-! Branches, clauses and handlers. -/

theorem Written.branch {b : Branch} (opener : Keyword)
    (hc : Written n (bare b.condition).toList (pieces b.condition))
    (hr : Written n (bare b.result).toList (pieces b.result)) (rest : List Branch) :
    ∃ text, branchTexts (b :: rest) = text :: branchTexts rest ∧
      Written n (opener.spelling.toList ++ ' ' :: text.toList) (branchRun opener b) := by
  obtain ⟨condition, result⟩ := b
  rw [branchTexts]
  refine ⟨_, rfl, ?_⟩
  have hthen := Follows.around (.keyword .then_) (hr.place .clause result)
  have h := (Written.keyword (n := n) opener).gap ((hc.place .clause condition).append hthen)
  simpa [branchRun, Keyword.spelling] using h

theorem Written.branches {bs : List Branch} (hne : bs ≠ [])
    (hc : ∀ b ∈ bs, Written n (bare b.condition).toList (pieces b.condition))
    (hr : ∀ b ∈ bs, Written n (bare b.result).toList (pieces b.result)) :
    Written n (branchChain (branchTexts bs)).toList (branchPieces .if_ bs) := by
  have further : ∀ bs : List Branch,
      (∀ b ∈ bs, Written n (bare b.condition).toList (pieces b.condition)) →
      (∀ b ∈ bs, Written n (bare b.result).toList (pieces b.result)) →
      Follows n (String.join ((branchTexts bs).map (" elif " ++ ·))).toList
        (bs.flatMap fun b => .gap :: branchRun .elif_ b) := by
    intro bs
    induction bs with
    | nil =>
      intro _ _
      rw [branchTexts]
      exact .nil
    | cons b rest ih =>
      intro hc hr
      obtain ⟨text, htexts, hfirst⟩ := Written.branch .elif_ (hc b List.mem_cons_self)
        (hr b List.mem_cons_self) rest
      have hrest := ih (fun c h => hc c (List.mem_cons_of_mem b h))
        fun c h => hr c (List.mem_cons_of_mem b h)
      rw [htexts, List.map_cons, String.join_cons, List.flatMap_cons, String.toList_append]
      refine .append ?_ hrest
      have h := Follows.gap hfirst
      simpa [Keyword.spelling] using h
  obtain ⟨b, rest, rfl⟩ := List.exists_cons_of_ne_nil hne
  obtain ⟨text, htexts, hfirst⟩ := Written.branch .if_ (hc b List.mem_cons_self)
    (hr b List.mem_cons_self) rest
  have hrest := further rest (fun c h => hc c (List.mem_cons_of_mem b h))
    fun c h => hr c (List.mem_cons_of_mem b h)
  rw [htexts, branchPieces_eq, branchChain]
  have h := hfirst.append hrest
  simpa [Keyword.spelling] using h

theorem Follows.clauses {cs : List Clause} (hp : ∀ c ∈ cs, Written n (Format.pattern c.pattern).toList
      (patternPieces c.pattern))
    (hg : ∀ c ∈ cs, ∀ g, c.guard = some g → Written n (bare g).toList (pieces g))
    (hr : ∀ c ∈ cs, Written n (bare c.result).toList (pieces c.result)) :
    Follows n (clausesText cs).toList (clausePieces cs) := by
  induction cs with
  | nil =>
    rw [clausesText, clausePieces]
    exact .nil
  | cons c rest ih =>
    have hrest := ih (fun d hd => hp d (List.mem_cons_of_mem c hd))
      (fun d hd => hg d (List.mem_cons_of_mem c hd)) fun d hd => hr d (List.mem_cons_of_mem c hd)
    have hpat := hp c List.mem_cons_self
    have hguard := hg c List.mem_cons_self
    have hresult := (hr c List.mem_cons_self).result rest.isEmpty c.result
    obtain ⟨s, p, guard, result⟩ := c
    have harrow := Follows.around .arrow hresult
    cases guard with
    | none =>
      have h := (Follows.around .bar (hpat.append harrow)).append hrest
      rw [clausesText, clausePieces]
      simpa using h
    | some g =>
      have hwhen := Follows.around (.keyword .when_) (((hguard g rfl).place .clause g).append harrow)
      have h := (Follows.around .bar (hpat.append hwhen)).append hrest
      rw [clausesText, clausePieces]
      simpa [Keyword.spelling] using h

theorem Follows.catches {cs : List Catch} (hn : ∀ c ∈ cs, c.Named)
    (hh : ∀ c ∈ cs, Written n (bare c.handler).toList (pieces c.handler)) :
    Follows n (catchesText cs).toList (catchPieces cs) := by
  induction cs with
  | nil =>
    rw [catchesText, catchPieces]
    exact .nil
  | cons c rest ih =>
    have hrest := ih (fun d hd => hn d (List.mem_cons_of_mem c hd))
      fun d hd => hh d (List.mem_cons_of_mem c hd)
    have hnamed := hn c List.mem_cons_self
    have hhandler := (hh c List.mem_cons_self).result rest.isEmpty c.handler
    obtain ⟨s, tag, binding, handler⟩ := c
    have hnames : ∀ name ∈ tag.toList ++ binding.toList,
        Written n name.text.toList (namePieces name) := by
      intro name hm
      rcases List.mem_append.mp hm with hm | hm
      · exact .name (hnamed.tag name (Option.mem_toList.mp hm)).1
      · exact .name (hnamed.binding name (Option.mem_toList.mp hm)).1
    have hcatch := (Follows.gap (.keyword (n := n) .catch_)).append
      (Follows.spaced (writtenAll_map hnames))
    have h := (hcatch.append (.around .arrow hhandler)).append hrest
    rw [catchesText, catchPieces]
    simpa [catchNames, Keyword.spelling] using h

/-! All trees. -/

/-- The numbers of a tree can be written. -/
def Finite (e : Expr) : Prop := ∀ x ∈ e.numbers, x.isFinite = true

theorem Finite.child {e child : Expr} (h : Finite e) (hc : child ∈ e.children) : Finite child :=
  fun x hx => h x (Expr.mem_numbers_of_child hc hx)

theorem Finite.own {e : Expr} (h : Finite e) : ∀ x ∈ e.ownNumbers, x.isFinite = true := by
  intro x hx
  refine h x ?_
  rw [Expr.numbers_eq]
  exact List.mem_append_left _ hx

theorem toList_path (first : String) (path : List String) :
    (".".intercalate (first :: path)).toList =
      first.toList ++ path.flatMap fun f => '.' :: f.toList := by
  induction path generalizing first with
  | nil => simp
  | cons f path ih =>
    rw [String.intercalate_cons_cons, String.toList_append, String.toList_append, ih]
    simp

theorem Written.path {path : List String} (h : ∀ f ∈ path, isIdentifier f = true) :
    Written n (".".intercalate ("_" :: path)).toList
      (.mark .underscore :: path.flatMap fieldPieces) := by
  have fields : Follows n (path.flatMap fun f => '.' :: f.toList) (path.flatMap fieldPieces) := by
    induction path with
    | nil => exact .nil
    | cons f path ih =>
      rw [List.flatMap_cons, List.flatMap_cons]
      exact (Follows.field (h f List.mem_cons_self)).append
        (ih fun g hg => h g (List.mem_cons_of_mem f hg))
  rw [toList_path]
  exact Written.ignored.append fields

theorem isWritten {e : Expr} (he : e.Formed n) (hf : Finite e) : IsWritten n e := by
  induction he with
  | @ident n s name hn => exact ⟨by rw [bare, pieces]; exact .name hn, by simp⟩
  | @wildcard n s path hn => exact ⟨by rw [bare, pieces]; exact .path hn, by simp⟩
  | @number n s value =>
    have hfinite := hf.own value (List.mem_singleton_self value)
    exact ⟨by rw [bare, pieces]; exact .number hfinite, by simp⟩
  | @bool n s value => exact ⟨by rw [bare, pieces]; exact .bool value, by simp⟩
  | @nil n s => exact ⟨by rw [bare, pieces]; exact .keyword .nil_, by simp⟩
  | @text n s segments hlit hapart hroom hholes ih =>
    have hparts : ∀ e, .hole e ∈ segments → Written (n - 1) (bare e).toList (pieces e) := by
      intro e hm
      refine (ih e hm (hf.child ?_)).text
      exact List.mem_flatMap.mpr ⟨_, hm, List.mem_singleton_self e⟩
    have h := Written.text (reads_segments hlit hapart fun e hm => ⟨hroom e hm, hparts e hm⟩)
      (burrows_segments fun e hm => (hparts e hm).passes)
    refine ⟨?_, by simp⟩
    rw [bare, pieces]
    simpa using h
  | @record n s fields hkeys hvalues ih =>
    refine ⟨?_, by simp⟩
    rw [bare, pieces]
    exact .braced (writtenFields hkeys fun b hm => (ih b hm (hf.child
      (List.mem_map_of_mem hm))).text)
  | @list n s items hitems ih =>
    refine ⟨?_, by simp⟩
    rw [bare, pieces]
    exact .bracketed (writtenItems (writtenParts fun e hm => (ih e hm (hf.child hm)).text))
  | @function n s params body hne hparams hbody ih =>
    have hwritten := (ih (hf.child (List.mem_singleton_self body))).text
    refine ⟨?_, ?_⟩
    · have hparts : WrittenAll n (params.map Name.text) (params.map namePieces) :=
        writtenAll_map fun p hp => Written.name (hparams p hp)
      have hnames := Written.joined hparts (by simpa using hne)
      have hall := hnames.append (.around .arrow hwritten)
      have h := Written.brackets hall.passes hall.reads
      rw [bare, pieces]
      simpa using h
    · intro t names value he
      cases he
      exact ⟨hparams, hwritten⟩
  | @access n s target field ht hn ih =>
    have htarget := (ih (hf.child (List.mem_singleton_self target))).text
    have h := (htarget.target target).field hn
    refine ⟨?_, by simp⟩
    rw [bare, pieces]
    simpa using h
  | @binary n s t left right op hl hr ihl ihr =>
    have hleft := (ihl (hf.child (List.mem_cons_of_mem _ List.mem_cons_self))).text
    have hright := (ihr (hf.child (List.mem_cons_of_mem _ (List.mem_cons_of_mem _
      List.mem_cons_self)))).text
    refine ⟨?_, by simp⟩
    rw [bare, pieces, Expr.operator?_binary]
    simp only [withTexts, withPieces]
    exact .binary op hleft hright
  | @apply n s callee args hne hc ha ihc iha =>
    have hcallee := (ihc (hf.child List.mem_cons_self)).text
    have hargs := writtenParts fun a hm => (iha a hm (hf.child (List.mem_cons_of_mem _ hm))).text
    refine ⟨?_, by simp⟩
    rw [bare, pieces]
    exact .application _ ⟨rfl, hcallee⟩ hargs
  | @pipeline n s seed stages hs hne hst hcs has ihs ihc iha =>
    have hseed := (ihs (hf.child List.mem_cons_self)).text
    have hstages := writtenStages
      (fun g hg => (ihc g hg (hf.child (List.mem_cons_of_mem _ (List.mem_flatMap.mpr
        ⟨g, hg, List.mem_cons_self⟩)))).text)
      fun g hg a hm => (iha g hg a hm (hf.child (List.mem_cons_of_mem _ (List.mem_flatMap.mpr
        ⟨g, hg, List.mem_cons_of_mem _ hm⟩)))).text
    refine ⟨?_, by simp⟩
    rw [bare, pieces, pipePieces_eq, String.toList_append]
    exact (hseed.place .seed seed).append (follows_pipes hstages)
  | @letIn n s bindings body hne hnames hvalues hbody ihv ihb =>
    have hbs := IsWritten.definitions hne hnames fun b hm =>
      ihv b hm (hf.child (List.mem_append_left _ (List.mem_map_of_mem hm)))
    have hin := Follows.around (.keyword .in_)
      (ihb (hf.child (List.mem_append_right _ (List.mem_singleton_self body)))).text
    have h := (Written.keyword .let_).gap (hbs.append hin)
    refine ⟨?_, by simp⟩
    rw [bare, pieces]
    simpa [Keyword.spelling] using h
  | @ifElse n s branches fallback hne hc hr hfb ihc ihr ihf =>
    have hbranches := Written.branches hne
      (fun b hm => (ihc b hm (hf.child (List.mem_append_left _ (List.mem_flatMap.mpr
        ⟨b, hm, List.mem_cons_self⟩)))).text)
      fun b hm => (ihr b hm (hf.child (List.mem_append_left _ (List.mem_flatMap.mpr
        ⟨b, hm, List.mem_cons_of_mem _ (List.mem_singleton_self _)⟩)))).text
    have helse := Follows.around (.keyword .else_)
      (ihf (hf.child (List.mem_append_right _ (List.mem_singleton_self fallback)))).text
    have h := hbranches.append helse
    refine ⟨?_, by simp⟩
    rw [bare, pieces]
    simpa [Keyword.spelling] using h
  | @matchOn n s subject clauses hs hne hp hg hr ihs ihg ihr =>
    have hsubject := (ihs (hf.child List.mem_cons_self)).text
    have hpatterns : ∀ c ∈ clauses, Written n (Format.pattern c.pattern).toList
        (patternPieces c.pattern) := fun c hm =>
      .pattern (hp c hm) fun x hx => hf.own x (List.mem_flatMap.mpr ⟨c, hm, hx⟩)
    have hclauses := Follows.clauses hpatterns
      (fun c hm g hguard => (ihg c hm g hguard (hf.child (List.mem_cons_of_mem _
        (List.mem_flatMap.mpr ⟨c, hm, List.mem_append_left _ (Option.mem_toList.mpr hguard)⟩)))).text)
      fun c hm => (ihr c hm (hf.child (List.mem_cons_of_mem _ (List.mem_flatMap.mpr
        ⟨c, hm, List.mem_append_right _ (List.mem_singleton_self _)⟩)))).text
    have h := (Written.keyword .match_).gap ((hsubject.place .clause subject).append hclauses)
    refine ⟨?_, by simp⟩
    rw [bare, pieces]
    simpa [Keyword.spelling] using h
  | @tryCatch n s body catches hb hne hn hh ihb ihh =>
    have hbody := (ihb (hf.child List.mem_cons_self)).text
    have hcatches := Follows.catches hn fun c hm =>
      (ihh c hm (hf.child (List.mem_cons_of_mem _ (List.mem_map_of_mem hm)))).text
    have h := (Written.keyword .try_).gap ((hbody.place .clause body).append hcatches)
    refine ⟨?_, by simp⟩
    rw [bare, pieces]
    simpa [Keyword.spelling] using h

end Parse

end PipeLang
