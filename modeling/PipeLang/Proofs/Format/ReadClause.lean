import PipeLang.Proofs.Format.ReadConstruct

/-! The constructs that are made of clauses are read back. -/

namespace PipeLang

namespace Format

def branchRun (opener : Keyword) (b : Branch) : List Piece :=
  .word opener :: .gap :: (placePieces .clause b.condition (pieces b.condition) ++
    .gap :: .word .then_ :: .gap :: placePieces .clause b.result (pieces b.result))

theorem branchPieces_eq (opener : Keyword) (b : Branch) (rest : List Branch) :
    branchPieces opener (b :: rest) =
      branchRun opener b ++ rest.flatMap fun b => .gap :: branchRun .elif_ b := by
  induction rest generalizing opener b with
  | nil =>
    obtain ⟨condition, result⟩ := b
    simp [branchPieces, branchRun]
  | cons b' rest ih =>
    obtain ⟨condition, result⟩ := b
    rw [branchPieces, ih]
    simp [branchRun]

def guardPieces : Option Expr → List Piece
  | none => []
  | some guard => .gap :: .word .when_ :: .gap :: placePieces .clause guard (pieces guard)

/-- A clause; the result of the last one is not wrapped. -/
def clauseRun (isLast : Bool) (c : Clause) : List Piece :=
  .gap :: .mark .bar :: .gap :: (patternPieces c.pattern ++ (guardPieces c.guard ++
    .gap :: .mark .arrow :: .gap :: resultPieces isLast c.result (pieces c.result)))

theorem clausePieces_cons (c : Clause) (rest : List Clause) :
    clausePieces (c :: rest) = clauseRun rest.isEmpty c ++ clausePieces rest := by
  obtain ⟨s, p, guard, result⟩ := c
  cases guard with
  | none => simp [clausePieces, clauseRun, guardPieces]
  | some guard => simp [clausePieces, clauseRun, guardPieces]

def optionalPieces (x : Option Name) : List Piece := spacedPieces (x.toList.map namePieces)

def catchRun (isLast : Bool) (c : Catch) : List Piece :=
  .gap :: .word .catch_ :: (optionalPieces c.tag ++ (optionalPieces c.binding ++
    .gap :: .mark .arrow :: .gap :: resultPieces isLast c.handler (pieces c.handler)))

theorem catchPieces_cons (c : Catch) (rest : List Catch) :
    catchPieces (c :: rest) = catchRun rest.isEmpty c ++ catchPieces rest := by
  obtain ⟨s, tag, binding, handler⟩ := c
  simp [catchPieces, catchRun, optionalPieces, spacedPieces]

end Format

namespace Parse

open Format

variable {α β : Type} {o : ParseOptions} {S : Cursor → Prop} {R : β → Prop} {n : Nat}

section

variable {room levels budget : Nat} (hl : room ≤ levels) (hb : room ≤ budget)

include hl hb

theorem IsPart.result {e : Expr} (h : IsPart o n room e) {isLast : Bool}
    (hlast : isLast = true → ∀ c, S c → c.Ends)
    (hnext : isLast = false → ∀ c, S c → c.StopsStages) :
    Reads (result o (primary o levels) budget) (resultPieces isLast e (pieces e)) S e.Same := by
  cases isLast with
  | true => exact (h.lastResult hl hb).mono (hlast rfl) fun _ hv => hv
  | false => exact (h.placedResult hl hb).mono (hnext rfl) fun _ hv => hv

/-! Branches. -/

theorem reads_branch (opener : Keyword) {b : Branch} (hc : IsPart o n room b.condition)
    (hr : IsPart o n room b.result) :
    Reads (branch o (primary o levels) budget false) (branchRun opener b) Cursor.StopsStages
      (fun r => r.1.erase = b.erase ∧ r.2 = false) := by
  refine .skip_bind (by simp) fun _ => .gap (.bind (hc.placed hl hb) (fun condition hcond => ?_)
    fun c hc => stopsStages_of_closer hc.2 rfl)
  refine .gap (reads_clauseAhead rfl (.skip_bind (by simp) fun _ => .gap ?_))
  rw [← List.append_nil (placePieces .clause b.result (pieces b.result))]
  refine .bind (hr.placedResult hl hb) (fun v hv => .pure ⟨?_, rfl⟩) fun c hc => hc
  have hcond : condition.erase = b.condition.erase := hcond
  have hv : v.erase = b.result.erase := hv
  unfold Branch.erase Branch.relocate
  unfold Expr.erase at hcond hv
  rw [hcond, hv]

theorem reads_branches {bs : List Branch} (h : ∀ b ∈ bs, IsPart o n room b.condition)
    (h' : ∀ b ∈ bs, IsPart o n room b.result) :
    Reads (clauses (TokenKind.isKeyword .elif_) (branch o (primary o levels) budget) false)
      (bs.flatMap fun b => .gap :: branchRun .elif_ b) (fun c => c.kind = .keyword .else_)
      (fun r => List.Forall₂ (fun b v => Branch.erase v = Branch.erase b) bs r.1 ∧
        r.2 = false) := by
  have hcons : ∀ (b : Branch) todo, ((b :: todo).flatMap fun b => .gap :: branchRun .elif_ b) =
      (.gap :: branchRun .elif_ b) ++ todo.flatMap fun b => .gap :: branchRun .elif_ b :=
    fun _ _ => List.flatMap_cons
  refine reads_clauses List.flatMap_nil hcons (fun past b todo he => ?_) (fun b _ _ K c hc => ?_)
    (fun b _ _ => ?_) (fun c hc => ?_)
  · have hm : b ∈ bs := he ▸ List.mem_append_right _ List.mem_cons_self
    refine .gap ((reads_branch hl hb .elif_ (h b hm) (h' b hm)).mono (fun c hc => ?_)
      fun _ hr => hr)
    cases todo with
    | nil =>
      have hc : c.kind = .keyword .else_ := hc
      exact Cursor.stopsStages_of_isCloser (by rw [hc]; rfl)
    | cons b' todo => exact stopsStages_of_closer hc.2 rfl
  · rw [At.kind hc.2]
    rfl
  · simp only [branchRun, List.map_cons, List.sum_cons, Piece.count]; omega
  · exact ⟨by rw [hc]; rfl, Cursor.atBlock_of_kind_ne _ (by rw [hc]; simp)⟩

theorem reads_ifElse (s : Span) {bs : List Branch} {fallback : Expr} (hne : bs ≠ [])
    (h : ∀ b ∈ bs, IsPart o n room b.condition) (h' : ∀ b ∈ bs, IsPart o n room b.result)
    (hf : IsPart o n room fallback) :
    Reads (primaryInside o (primary o levels) budget) (pieces (.ifElse s bs fallback)) Cursor.Ends
      (Expr.ifElse s bs fallback).Same := by
  obtain ⟨b, rest, rfl⟩ := List.exists_cons_of_ne_nil hne
  have hrest := fun b hm => h b (List.mem_cons_of_mem _ hm)
  have hrest' := fun b hm => h' b (List.mem_cons_of_mem _ hm)
  rw [pieces, branchPieces_eq, List.append_assoc]
  refine .peek_bind fun t ht => ?_
  rw [ht]
  refine .look_bind fun start => ?_
  refine .bind (reads_branch hl hb .if_ (h b List.mem_cons_self) (h' b List.mem_cons_self)) ?_
    fun c hc => ?_
  · rintro ⟨first, inBlock⟩ ⟨hfirst, rfl⟩
    refine .bind (reads_branches hl hb hrest hrest') ?_ fun c hc => At.kind hc.2
    rintro ⟨others, inBlock⟩ ⟨hothers, rfl⟩
    refine .gap (reads_clauseAhead rfl (.skip_bind (by simp) fun _ => .gap ?_))
    rw [← List.append_nil (pieces fallback)]
    refine .bind (hf.lastResult hl hb) (fun v hv => .pure ?_) fun c hc => hc
    have hv : v.erase = fallback.erase := hv
    have hbranches : (first :: others).map Branch.erase = (b :: rest).map Branch.erase := by
      rw [List.map_cons, List.map_cons, hfirst, map_eq_of_forall₂ hothers]
    show (Expr.ifElse _ (first :: others) v).erase = (Expr.ifElse s (b :: rest) fallback).erase
    unfold Expr.erase at hv ⊢
    simp only [Expr.relocate, relocateBranches_eq_map]
    rw [hv]
    exact congr (congrArg _ hbranches) rfl
  · cases rest with
    | nil => exact stopsStages_of_closer hc.2 rfl
    | cons b' rest => exact stopsStages_of_closer hc.2 rfl

/-! Clauses of a match. -/

theorem reads_guard {guard : Option Expr} (h : ∀ g, guard = some g → IsPart o n room g) :
    Reads (guard? o (primary o levels) budget) (guardPieces guard)
      (fun c => c.kind = .punctuation .arrow)
      (fun r => r.map Expr.erase = guard.map Expr.erase) := by
  cases guard with
  | none =>
    refine .accept_bind_false (fun c hc => ?_) (.pure rfl)
    have hc : c.kind = .punctuation .arrow := hc
    unfold Cursor.atKeyword
    rw [hc]
    rfl
  | some g =>
    refine .gap (.accept_bind (by simp) (fun c hc => TokenKind.isKeyword_iff.mpr hc) (.gap ?_))
    rw [if_pos rfl, ← List.append_nil (placePieces .clause g (pieces g))]
    refine .bind ((h g rfl).placed hl hb) (fun v hv => .pure (congrArg some hv)) fun c hc => ?_
    have hc : c.kind = .punctuation .arrow := hc
    exact Cursor.stopsStages_of_isCloser (by rw [hc]; rfl)

omit hl hb in
theorem reads_arrow {place : Place} {others : List Expected} {ps : List Piece} {f : Unit → Parse β}
    (hf : Reads (f ()) ps S R) : Reads (arrow place others >>= f) (.mark .arrow :: ps) S R := by
  intro K hs c hc
  have hat : c.atPunctuation .arrow = true := TokenKind.isPunctuation_iff.mpr hc.kind
  have hrun : arrow place others c = .ok () c.next := by
    unfold arrow
    rw [accept_bind_of_true hat]
    rfl
  rw [bind_of_ok hrun]
  exact hf K hs c.next (hc.next (by simp))

theorem reads_matchClause {x : Clause} (hp : x.pattern.Formed)
    (hg : ∀ g, x.guard = some g → IsPart o n room g) (hr : IsPart o n room x.result)
    {isLast : Bool} (hlast : isLast = true → ∀ c, S c → c.Ends)
    (hnext : isLast = false → ∀ c, S c → c.StopsStages) :
    Reads (matchClause o (primary o levels) budget) (clauseRun isLast x) S
      (fun v => v.erase = x.erase) := by
  have hroom : 0 < budget := by
    have := hr.size
    omega
  refine .gap (.skip_bind (by simp) fun bar => .gap ?_)
  refine .bind (T := fun _ => True) (reads_pattern hp hroom) (fun p hp => ?_) fun _ _ => trivial
  refine .bind (reads_guard hl hb hg) (fun guard hguard => .gap (reads_arrow (.gap ?_)))
    fun c hc => At.kind hc.2
  rw [← List.append_nil (resultPieces isLast x.result (pieces x.result))]
  refine .bind (hr.result hl hb hlast hnext) (fun v hv => .pure ?_) fun c hc => hc
  have hv : v.erase = x.result.erase := hv
  unfold Clause.erase Clause.relocate
  unfold Pattern.erase at hp
  unfold Expr.erase at hguard hv
  dsimp only
  rw [hp, hguard, hv]

omit hl hb in
theorem map_pair_false (rule : Parse α) :
    ((·, false) <$> rule) = rule >>= fun a => pure (a, false) := rfl

theorem reads_matchOn (s : Span) {subject : Expr} {xs : List Clause} (hne : xs ≠ [])
    (hs : IsPart o n room subject) (hp : ∀ x ∈ xs, x.pattern.Formed)
    (hg : ∀ x ∈ xs, ∀ g, x.guard = some g → IsPart o n room g)
    (hr : ∀ x ∈ xs, IsPart o n room x.result) :
    Reads (primaryInside o (primary o levels) budget) (pieces (.matchOn s subject xs)) Cursor.Ends
      (Expr.matchOn s subject xs).Same := by
  have hbar : ∀ {x rest c}, At (clausePieces (x :: rest)) Cursor.Ends c →
      c.kind = .punctuation .bar := by
    intro x rest c hc
    rw [clausePieces_cons] at hc
    exact At.kind hc.2
  have hclauses : Reads (clauses (TokenKind.isPunctuation .bar)
      (fun inBlock => (·, inBlock) <$> matchClause o (primary o levels) budget) false)
      (clausePieces xs) Cursor.Ends
      fun r => List.Forall₂ (fun x v => Clause.erase v = Clause.erase x) xs r.1 ∧
        r.2 = false := by
    refine reads_clauses rfl clausePieces_cons (fun past x todo he => ?_) (fun x _ _ K c hc => ?_)
      (fun x _ _ => ?_) (fun c hc => ⟨hc.bar, hc.bars⟩)
    · have hm : x ∈ xs := he ▸ List.mem_append_right _ List.mem_cons_self
      rw [map_pair_false, ← List.append_nil (clauseRun _ x)]
      refine .bind (reads_matchClause hl hb (hp x hm) (hg x hm) (hr x hm) ?_ ?_)
        (fun v hv => .pure ⟨hv, rfl⟩) fun c hc => hc
      · intro hlast c hc
        rw [List.isEmpty_iff.mp hlast] at hc
        exact hc
      · intro hnext c hc
        cases todo with
        | nil => cases hnext
        | cons y todo => exact Cursor.stopsStages_of_isCloser (by rw [hbar hc]; rfl)
    · rw [At.kind hc.2]
      rfl
    · simp only [clauseRun, List.map_cons, List.sum_cons, Piece.count]; omega
  rw [pieces]
  refine .peek_bind fun t ht => ?_
  rw [ht]
  refine .skip_bind (by simp) fun start => .gap (.bind (hs.placed hl hb) (fun v hv => ?_) ?_)
  · rw [← List.append_nil (clausePieces xs)]
    refine .bind hclauses ?_ fun c hc => hc
    rintro ⟨found, inBlock⟩ ⟨hfound, rfl⟩
    dsimp only
    cases hlast : found.getLast? with
    | none =>
      rw [List.getLast?_eq_none_iff] at hlast
      rw [hlast] at hfound
      cases hfound
      exact absurd rfl hne
    | some last =>
      refine .pure ?_
      have hv : v.erase = subject.erase := hv
      have hmap : found.map Clause.erase = xs.map Clause.erase := map_eq_of_forall₂ hfound
      show (Expr.matchOn _ v found).erase = (Expr.matchOn s subject xs).erase
      unfold Expr.erase at hv ⊢
      simp only [Expr.relocate, relocateClauses_eq_map]
      rw [hv]
      exact congrArg _ hmap
  · intro c hc
    obtain ⟨x, rest, rfl⟩ := List.exists_cons_of_ne_nil hne
    exact Cursor.stopsStages_of_isCloser (by rw [hbar hc]; rfl)

/-! Clauses that catch. -/

omit hl hb in
theorem reads_nameIf {p : Cursor → Bool} {x : Option Name}
    (hsome : ∀ name, x = some name → ∀ c : Cursor, c.kind = .ident name.text → p c = true)
    (hnone : x = none → ∀ c, S c → p c = false) :
    Reads (nameIf p) (optionalPieces x) S (fun r => r.map Name.text = x.map Name.text) := by
  cases x with
  | none =>
    refine .test_bind (a := false) (fun c hc => hnone rfl c hc) ?_
    exact .pure rfl
  | some name =>
    refine .gap (.test_bind (a := true) (fun c hc => hsome name rfl c hc.kind) ?_)
    exact .identifier_bind fun s => .pure rfl

omit hl hb in
theorem atCapitalized_of_ident {c : Cursor} {name : Name} (h : c.kind = .ident name.text) :
    c.atCapitalized = name.isCapitalized := by
  unfold Cursor.atCapitalized
  rw [h]
  rfl

theorem reads_catchClause {x : Catch} (hnamed : x.Named) (hr : IsPart o n room x.handler)
    {isLast : Bool} (hlast : isLast = true → ∀ c, S c → c.Ends)
    (hnext : isLast = false → ∀ c, S c → c.StopsStages) :
    Reads (catchClause o (primary o levels) budget) (catchRun isLast x) S
      (fun v => v.erase = x.erase) := by
  refine .gap (.skip_bind (by simp) fun keyword => ?_)
  refine .bind (T := fun c => x.tag = none → c.atCapitalized = false)
    (reads_nameIf (fun name he c hc => ?_) fun he c hc => hc he) (fun tag htag => ?_)
    fun c hc he => ?_
  · rw [atCapitalized_of_ident hc]
    exact (hnamed.tag name he).2
  · refine .bind (T := fun c => c.kind = .punctuation .arrow)
      (reads_nameIf (fun name he c hc => ?_) fun he c hc => ?_) (fun bound hbound => ?_)
      fun c hc => At.kind hc.2
    · rw [atCapitalized_of_ident hc, (hnamed.binding name he).2]
      unfold Cursor.atIdent
      rw [hc]
      rfl
    · unfold Cursor.atIdent
      rw [hc]
      rfl
    · have hnames : (tag.isNone && bound.isNone) = false := by
        have htag : tag.isNone = x.tag.isNone := by
          rw [← Option.isNone_map (f := Name.text), htag, Option.isNone_map]
        have hbound : bound.isNone = x.binding.isNone := by
          rw [← Option.isNone_map (f := Name.text), hbound, Option.isNone_map]
        rw [htag, hbound]
        rcases hnamed.some_name with h | h
        · rw [Option.isNone_eq_false_iff.mpr h]; rfl
        · rw [Option.isNone_eq_false_iff.mpr h, Bool.and_false]
      rw [hnames, if_neg Bool.false_ne_true]
      refine .gap (reads_arrow (.gap ?_))
      rw [← List.append_nil (resultPieces isLast x.handler (pieces x.handler))]
      refine .bind (hr.result hl hb hlast hnext) (fun v hv => .pure ?_) fun c hc => hc
      have erased : ∀ y : Option Name, y.map (Name.relocate fun _ => .origin) =
          (y.map Name.text).map fun text => ⟨text, .origin⟩ := by
        intro y
        cases y <;> rfl
      have hv : v.erase = x.handler.erase := hv
      unfold Catch.erase Catch.relocate
      unfold Expr.erase at hv
      rw [hv, erased, erased, erased, erased, htag, hbound]
  · -- Without a tag the name that comes next, if any, is the binding, which has no capital.
    cases hbinding : x.binding with
    | none =>
      rw [hbinding] at hc
      have hk : c.kind = .punctuation .arrow := At.kind hc.2
      unfold Cursor.atCapitalized
      rw [hk]
    | some name =>
      rw [hbinding] at hc
      have hk : c.kind = .ident name.text := At.kind hc.2
      rw [atCapitalized_of_ident hk]
      exact (hnamed.binding name hbinding).2

theorem reads_tryCatch (s : Span) {value : Expr} {xs : List Catch} (hne : xs ≠ [])
    (hs : IsPart o n room value) (hnamed : ∀ x ∈ xs, x.Named)
    (hr : ∀ x ∈ xs, IsPart o n room x.handler) :
    Reads (primaryInside o (primary o levels) budget) (pieces (.tryCatch s value xs)) Cursor.Ends
      (Expr.tryCatch s value xs).Same := by
  have hword : ∀ {x rest c}, At (catchPieces (x :: rest)) Cursor.Ends c →
      c.kind = .keyword .catch_ := by
    intro x rest c hc
    rw [catchPieces_cons] at hc
    exact At.kind hc.2
  have hclauses : Reads (clauses (TokenKind.isKeyword .catch_)
      (fun inBlock => (·, inBlock) <$> catchClause o (primary o levels) budget) false)
      (catchPieces xs) Cursor.Ends
      fun r => List.Forall₂ (fun x v => Catch.erase v = Catch.erase x) xs r.1 ∧
        r.2 = false := by
    refine reads_clauses rfl catchPieces_cons (fun past x todo he => ?_) (fun x _ _ K c hc => ?_)
      (fun x _ _ => ?_) (fun c hc => ⟨hc.catching, hc.catches⟩)
    · have hm : x ∈ xs := he ▸ List.mem_append_right _ List.mem_cons_self
      rw [map_pair_false, ← List.append_nil (catchRun _ x)]
      refine .bind (reads_catchClause hl hb (hnamed x hm) (hr x hm) ?_ ?_)
        (fun v hv => .pure ⟨hv, rfl⟩) fun c hc => hc
      · intro hlast c hc
        rw [List.isEmpty_iff.mp hlast] at hc
        exact hc
      · intro hnext c hc
        cases todo with
        | nil => cases hnext
        | cons y todo => exact Cursor.stopsStages_of_isCloser (by rw [hword hc]; rfl)
    · rw [At.kind hc.2]
      rfl
    · simp only [catchRun, List.map_cons, List.sum_cons, Piece.count]; omega
  rw [pieces]
  refine .peek_bind fun t ht => ?_
  rw [ht]
  refine .skip_bind (by simp) fun start => .gap (.bind (hs.placedResult hl hb) (fun v hv => ?_) ?_)
  · rw [← List.append_nil (catchPieces xs)]
    refine .bind hclauses ?_ fun c hc => hc
    rintro ⟨found, inBlock⟩ ⟨hfound, rfl⟩
    dsimp only
    cases hlast : found.getLast? with
    | none =>
      rw [List.getLast?_eq_none_iff] at hlast
      rw [hlast] at hfound
      cases hfound
      exact absurd rfl hne
    | some last =>
      refine .pure ?_
      have hv : v.erase = value.erase := hv
      have hmap : found.map Catch.erase = xs.map Catch.erase := map_eq_of_forall₂ hfound
      show (Expr.tryCatch _ v found).erase = (Expr.tryCatch s value xs).erase
      unfold Expr.erase at hv ⊢
      simp only [Expr.relocate, relocateCatches_eq_map]
      rw [hv]
      exact congrArg _ hmap
  · intro c hc
    obtain ⟨x, rest, rfl⟩ := List.exists_cons_of_ne_nil hne
    exact Cursor.stopsStages_of_isCloser (by rw [hword hc]; rfl)

end

end Parse

end PipeLang
