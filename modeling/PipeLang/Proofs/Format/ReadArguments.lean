import PipeLang.Proofs.Format.ReadApplication

/-! Arguments among which an operator belongs to the one before it are read back. So are the items of a
list and the arguments of a stage. -/

namespace PipeLang

namespace Format

/-- Runs of pieces with what they stand for, with a blank before each but the first. -/
def gapped (f : γ → List Piece) : List γ → List (List Piece × γ)
  | [] => []
  | y :: ys => (f y, y) :: ys.map fun y => (.gap :: f y, y)

theorem flatMap_gapped (f : γ → List Piece) (ys : List γ) :
    (gapped f ys).flatMap Prod.fst = joinedPieces (ys.map f) := by
  cases ys with
  | nil => rfl
  | cons y ys =>
    rw [gapped, List.flatMap_cons, List.flatMap_map, List.map_cons, joinedPieces, spacedPieces,
      List.flatMap_map]

theorem map_snd_gapped (f : γ → List Piece) (ys : List γ) : (gapped f ys).map Prod.snd = ys := by
  cases ys with
  | nil => rfl
  | cons y ys =>
    rw [gapped, List.map_cons, List.map_map]
    exact congrArg _ (List.map_id ys)

theorem mem_gapped {f : γ → List Piece} {ys : List γ} {x : List Piece × γ} (h : x ∈ gapped f ys) :
    x.2 ∈ ys ∧ (x.1 = f x.2 ∨ x.1 = .gap :: f x.2) := by
  cases ys with
  | nil => cases h
  | cons y ys =>
    rcases List.mem_cons.mp h with rfl | h
    · exact ⟨List.mem_cons_self, .inl rfl⟩
    · obtain ⟨z, hz, rfl⟩ := List.mem_map.mp h
      exact ⟨List.mem_cons_of_mem _ hz, .inr rfl⟩

end Format

namespace Parse

open Format

variable {o : ParseOptions} {S : Cursor → Prop}

/-- How an argument is written. -/
abbrev argumentPieces (e : Expr) : List Piece := placePieces .argument e (pieces e)

/-- A run of pieces for an argument, with or without a blank before it. -/
structure IsArgument (o : ParseOptions) (room : Nat) (x : List Piece × Expr) : Prop where
  run : x.1 = argumentPieces x.2 ∨ x.1 = .gap :: argumentPieces x.2
  begins : BeginsArgument (argumentPieces x.2)
  readable : Readable o x.2
  size : sizeOf x.2 + 1 ≤ room

namespace IsArgument

variable {room : Nat} {x : List Piece × Expr} (h : IsArgument o room x)

include h

theorem at_bare {K : Cursor → Prop} {c : Cursor} (hc : At x.1 K c) :
    At (argumentPieces x.2) K c := by
  rcases h.run with hr | hr
  · rw [hr] at hc; exact hc
  · rw [hr] at hc; exact hc.2

theorem stopsAccess {K : Cursor → Prop} {c : Cursor} (hc : At x.1 K c) : c.StopsAccess :=
  stopsAccess_of_beginsExpression (.inl h.begins.beginsOperand) (h.at_bare hc)

theorem atArgument {c : Cursor} (hc : At x.1 Cursor.StopsAccess c) : c.atArgument = true :=
  atArgument_of_beginsArgument h.begins (h.at_bare hc)

theorem count_pos : 0 < (x.1.map Piece.count).sum := by
  rcases h.run with hr | hr
  · rw [hr]; exact count_pos_of_beginsArgument h.begins
  · rw [hr]; exact count_pos_of_gap h.begins

theorem reads {levels budget : Nat} (hl : room ≤ levels) (hb : room ≤ budget) :
    Reads (operand o (primary o levels) budget) x.1 Cursor.StopsAccess x.2.Same := by
  have hs := h.size
  have hlevels : sizeOf x.2 + 1 ≤ levels := by omega
  have hbudget : sizeOf x.2 + 1 ≤ budget := by omega
  have hread := h.readable.argument.reads (fun _ hc => hc) hlevels hbudget
  rcases h.run with hr | hr
  · rw [hr]; exact hread
  · rw [hr]; exact .gap hread

end IsArgument

/-- A round of `stageArguments`. -/
def argumentRound (o : ParseOptions) (primary : Primary) (budget : Nat) (args : List Expr) :
    Parse (Round (List Expr)) := do
  if ← test Cursor.atArgument then
    let e ← operand o primary budget
    pure (.again (e :: args))
  else
    match ← test (Cursor.operator? 0), args with
    | some _, last :: others =>
      let e ← chain o primary budget last 0
      pure (.again (e :: others))
    | _, _ => pure (.done args)

theorem stageArguments_eq (primary : Primary) (budget : Nat) :
    stageArguments o primary budget =
      (rounds (argumentRound o primary budget) [] >>= fun args => pure args.reverse) := rfl

theorem argumentRound_done {primary : Primary} {budget : Nat} {args : List Expr} {c : Cursor}
    (h : c.StopsChain 0) : argumentRound o primary budget args c = .ok (.done args) c := by
  rw [argumentRound, test_bind, h.1.2, if_neg Bool.false_ne_true, test_bind, h.2]
  rfl

theorem roundsUpTo_done {round : σ → Parse (Round σ)} {s : σ} {c : Cursor}
    (h : round s c = .ok (.done s) c) (n : Nat) : roundsUpTo round n s c = .ok s c := by
  cases n with
  | zero => rfl
  | succ n => exact bind_of_ok h

section

variable {room levels budget : Nat} {xs : List (List Piece × Expr)}
  (hxs : ∀ x ∈ xs, IsArgument o room x) (hl : room ≤ levels) (hb : room ≤ budget)

include hxs hl hb

/-- Arguments, in rounds of one each. -/
theorem arguments_again {K : Cursor → Prop} (hk : ∀ c, K c → c.StopsAccess) {c : Cursor}
    (hc : At (xs.flatMap Prod.fst) K c) (n : Nat) :
    ∃ args c', List.Forall₂ (fun x v => Expr.Same x.2 v) xs args.reverse ∧ K c' ∧
      roundsUpTo (argumentRound o (primary o levels) budget) (xs.length + n) [] c =
        roundsUpTo (argumentRound o (primary o levels) budget) n args c' := by
  have hnone : List.Forall₂ (fun x v => Expr.Same x.2 v) ([] : List (List Piece × Expr))
      ([] : List Expr).reverse := .nil
  refine roundsUpTo_again (P := fun past (args : List Expr) =>
      List.Forall₂ (fun x v => Expr.Same x.2 v) past args.reverse) ?_
    (fun x hx c hc => (hxs x hx).stopsAccess hc) hk hnone hc n
  intro past x todo he args hargs
  have hx := hxs x (he ▸ List.mem_append_right _ List.mem_cons_self)
  refine .test_bind (a := true) (fun c hc => hx.atArgument hc) ?_
  rw [if_pos rfl, ← List.append_nil x.1]
  refine .bind (hx.reads hl hb) (fun v hv => .pure ⟨_, rfl, ?_⟩) fun c hc => hc
  rw [List.reverse_cons]
  exact List.rel_append hargs (.cons hv .nil)

theorem reads_arguments :
    Reads (stageArguments o (primary o levels) budget) (xs.flatMap Prod.fst) (Cursor.StopsChain 0)
      (List.Forall₂ (fun x v => Expr.Same x.2 v) xs) := by
  intro K hk c hc
  have hlen := hc.length_le fun x hx => (hxs x hx).count_pos
  obtain ⟨args, c', hargs, hc', hrun⟩ := arguments_again hxs hl hb
    (fun c hc => (hk c hc).1.1) hc (c.rest.length + 1 - xs.length)
  refine ⟨args.reverse, c', ?_, hargs, hc'⟩
  rw [stageArguments_eq]
  refine bind_of_ok ?_
  unfold rounds
  rw [show c.rest.length + 1 = xs.length + (c.rest.length + 1 - xs.length) by omega, hrun]
  exact roundsUpTo_done (argumentRound_done (hk c' hc')) _

end

/-- The last argument may be a binary expression without parentheses: its operator takes the argument
before it. -/
theorem reads_arguments_binary {room levels budget : Nat} {init : List (List Piece × Expr)}
    {x : List Piece × Expr} {right : Expr} (s t : Span) (op : Operator)
    (hxs : ∀ y ∈ init ++ [x], IsArgument o room y) (hright : Readable o right)
    (hsize : sizeOf right + 2 ≤ room) (hl : room ≤ levels) (hb : room ≤ budget) :
    Reads (stageArguments o (primary o levels) budget)
      ((init ++ [x]).flatMap Prod.fst ++ .gap :: .plain (operatorKind op) :: .gap ::
        operandPieces op.precedence true right (pieces right)) (Cursor.StopsChain 0)
      (List.Forall₂ Expr.Same
        (init.map Prod.snd ++ [.apply s (.ident t op.spelling) [x.2, right]])) := by
  intro K hk c hc
  have hc := (at_append _ _).mp hc
  have hlen := hc.length_le fun y hy => (hxs y hy).count_pos
  obtain ⟨args, c1, hargs, hc1, hrun⟩ := arguments_again hxs hl hb
    (fun c hc => (stopsArguments_of_operator hc).1) hc (c.rest.length + 1 - (init ++ [x]).length)
  rw [← List.reverse_reverse (init ++ [x]), List.forall₂_reverse_iff, List.reverse_append] at hargs
  cases hargs with
  | @cons _ v _ others hv hothers =>
    have hlevels : sizeOf right + 1 ≤ levels := by omega
    have hbudget : sizeOf right + 2 ≤ budget := by omega
    obtain ⟨w, c2, hw, hc2, hchain⟩ := chain_step s t hright hv (Nat.zero_le _) hlevels hbudget
      (fun c hc => (hk c hc).mono (Nat.zero_le _)) hc1
    rw [chain_of_stop (hk c2 hc2).2] at hchain
    have hround : argumentRound o (primary o levels) budget (v :: others) c1 =
        .ok (.again (w :: others)) c2 := by
      have hop : c1.operator? 0 = some op := by
        have hat : At (.plain (operatorKind op) :: .gap ::
            operandPieces op.precedence true right (pieces right)) K c1 := hc1.2
        rw [operator?_of_at hat, if_pos (Nat.zero_le _)]
      rw [argumentRound, test_bind, (stopsArguments_of_operator hc1).2, if_neg Bool.false_ne_true,
        test_bind, hop]
      exact bind_of_ok hchain
    refine ⟨(w :: others).reverse, c2, ?_, ?_, hc2⟩
    · rw [stageArguments_eq]
      refine bind_of_ok ?_
      obtain ⟨n, hn⟩ : ∃ n, c.rest.length + 1 - (init ++ [x]).length = n + 1 :=
        ⟨c.rest.length - (init ++ [x]).length, by omega⟩
      rw [hn] at hrun
      unfold rounds
      rw [show c.rest.length + 1 = (init ++ [x]).length + (n + 1) by omega, hrun]
      refine (bind_of_ok hround).trans ?_
      exact roundsUpTo_done (argumentRound_done (hk c2 hc2)) _
    · rw [List.reverse_cons]
      refine List.rel_append ?_ (.cons hw .nil)
      rw [← List.forall₂_reverse_iff, List.reverse_reverse, ← List.map_reverse,
        List.forall₂_map_left_iff]
      simpa using hothers

end Parse

namespace Format

theorem joinedPieces_concat (runs : List (List Piece)) (ps qs : List Piece) :
    joinedPieces (runs ++ [ps ++ qs]) = joinedPieces (runs ++ [ps]) ++ qs := by
  cases runs with
  | nil => simp [joinedPieces, spacedPieces]
  | cons r runs => simp [joinedPieces, spacedPieces]

theorem spacedPieces_concat (runs : List (List Piece)) (ps qs : List Piece) :
    spacedPieces (runs ++ [ps ++ qs]) = spacedPieces (runs ++ [ps]) ++ qs := by
  simp [spacedPieces]

theorem operandPieces_of_argument {e : Expr} (h : needsParens .argument e = false)
    (precedence : Nat) (onRight : Bool) (ps : List Piece) :
    operandPieces precedence onRight e ps = placePieces .argument e ps := by
  have hop : e.operator? = none := by
    cases e <;> first | rfl | cases h
  have hoperand : needsParens .operand e = false := by
    cases e <;> first | rfl | cases h | exact h
  rw [placePieces_of_false h, operandPieces, hop]
  exact placePieces_of_false hoperand ps

/-- All items are arguments, but that a binary expression at the end may stand bare. -/
theorem itemPieces_cases (es : List Expr) :
    itemPieces (withPieces es) = es.map Parse.argumentPieces ∨
      ∃ init s t op left right,
        es = init ++ [.apply s (.ident t (Operator.spelling op)) [left, right]] ∧
        itemPieces (withPieces es) = init.map Parse.argumentPieces ++
          [Parse.argumentPieces left ++ .gap :: .plain (operatorKind op) :: .gap ::
            operandPieces op.precedence true right (pieces right)] := by
  induction es with
  | nil => exact .inl rfl
  | cons e rest ih =>
    cases rest with
    | cons e' rest =>
      have hcons : itemPieces (withPieces (e :: e' :: rest)) =
          Parse.argumentPieces e :: itemPieces (withPieces (e' :: rest)) := by
        simp [withPieces, itemPieces]
      rw [hcons]
      rcases ih with ih | ⟨init, s, t, op, left, right, he, ih⟩
      · exact .inl (by rw [ih]; rfl)
      · exact .inr ⟨e :: init, s, t, op, left, right, by rw [he]; rfl, by rw [ih]; rfl⟩
    | nil =>
      cases hbare : trailsBare e with
      | false =>
        refine .inl ?_
        simp [withPieces, itemPieces, hbare]
      | true =>
        unfold trailsBare at hbare
        cases hb : e.binary? with
        | none => rw [hb] at hbare; cases hbare
        | some found =>
          obtain ⟨op, left, right⟩ := found
          rw [hb] at hbare
          have hleft : needsParens .argument left = false := by simpa using hbare
          unfold Expr.binary? at hb
          split at hb
          · next s t name l r =>
            cases hop : Operator.ofSpelling? name with
            | none => rw [hop] at hb; cases hb
            | some op' =>
              rw [hop] at hb
              cases hb
              obtain rfl := Operator.spelling_of_ofSpelling? hop
              refine .inr ⟨[], s, t, op, left, right, rfl, ?_⟩
              have htrail : trailsBare (.apply s (.ident t op.spelling) [left, right]) = true := by
                simp [trailsBare, Expr.binary?, Operator.ofSpelling?_spelling, hleft]
              simp only [withPieces, itemPieces, htrail, pieces_binary,
                operandPieces_of_argument hleft]
              rfl
          · cases hb

end Format

namespace Parse

open Format

variable {o : ParseOptions} {S : Cursor → Prop}

/-- Every tree smaller than `room` is read back. -/
def Below (o : ParseOptions) (room : Nat) : Prop :=
  ∀ n e, Expr.Formed n e → sizeOf e < room → Readable o e

theorem Below.mono {m n : Nat} (h : Below o n) (hmn : m ≤ n) : Below o m :=
  fun k e he hs => h k e he (by omega)

theorem formed_of_binary {n : Nat} {s t : Span} {op : Operator} {left right : Expr}
    (h : (Expr.apply s (.ident t op.spelling) [left, right]).Formed n) :
    left.Formed n ∧ right.Formed n := by
  generalize hc : Expr.ident t op.spelling = callee at h
  generalize ha : [left, right] = args at h
  cases h with
  | binary op' hl hr => cases ha; exact ⟨hl, hr⟩
  | apply hne hcallee hargs =>
    subst hc
    subst ha
    exact ⟨hargs _ List.mem_cons_self, hargs _ (List.mem_cons_of_mem _ List.mem_cons_self)⟩

/-- Arguments of a form that takes up `room`. -/
structure IsArguments (o : ParseOptions) (n room : Nat) (es : List Expr) : Prop where
  formed : ∀ e ∈ es, e.Formed n
  below : Below o room
  size : sizeOf es ≤ room

theorem IsArguments.isArgument {n room : Nat} {es : List Expr} (h : IsArguments o n room es) {e : Expr}
    (he : e.Formed n) (hs : sizeOf e < sizeOf es) {ps : List Piece}
    (hps : ps = argumentPieces e ∨ ps = .gap :: argumentPieces e) :
    IsArgument o room (ps, e) := by
  have hsize := h.size
  exact ⟨hps, (begins he).1, h.below n e he (by omega), by dsimp only; omega⟩

/-- Arguments that are laid out by `lay`, one after the other. -/
theorem reads_laid {n room levels budget : Nat} {es : List Expr} (h : IsArguments o n room es)
    (hl : room ≤ levels) (hb : room ≤ budget) {join : List (List Piece) → List Piece}
    {lay : List Expr → List (List Piece × Expr)}
    (hconcat : ∀ runs ps qs, join (runs ++ [ps ++ qs]) = join (runs ++ [ps]) ++ qs)
    (hjoin : ∀ es, (lay es).flatMap Prod.fst = join (es.map argumentPieces))
    (hsnd : ∀ es, (lay es).map Prod.snd = es)
    (hmem : ∀ es, ∀ x ∈ lay es,
      x.1 = argumentPieces x.2 ∨ x.1 = .gap :: argumentPieces x.2) :
    Reads (stageArguments o (primary o levels) budget) (join (itemPieces (withPieces es)))
      (Cursor.StopsChain 0) (List.Forall₂ Expr.Same es) := by
  have mem_of_lay : ∀ {es x}, x ∈ lay es → x.2 ∈ es := by
    intro es x hx
    have := List.mem_map_of_mem (f := Prod.snd) hx
    rwa [hsnd] at this
  rcases itemPieces_cases es with he | ⟨init, s, t, op, left, right, rfl, he⟩
  · rw [he, ← hjoin]
    refine (reads_arguments (fun x hx => ?_) hl hb).mono (fun c hc => hc) (fun vs hvs => ?_)
    · have hmx := mem_of_lay hx
      exact h.isArgument (h.formed x.2 hmx) (List.sizeOf_lt_of_mem hmx) (hmem _ x hx)
    · have := (List.forall₂_map_left_iff (f := Prod.snd)).mpr hvs
      rwa [hsnd] at this
  · have hlast := h.formed _ (List.mem_append_right init List.mem_cons_self)
    obtain ⟨hleft, hright⟩ := formed_of_binary hlast
    have hsize : sizeOf left + sizeOf right + 5 < sizeOf (init ++
        [Expr.apply s (.ident t op.spelling) [left, right]]) := by
      have := List.sizeOf_lt_of_mem (List.mem_append_right init
        (List.mem_cons_self (a := Expr.apply s (.ident t op.spelling) [left, right]) (l := [])))
      simp only [Expr.apply.sizeOf_spec, List.cons.sizeOf_spec, List.nil.sizeOf_spec,
        Expr.ident.sizeOf_spec] at this ⊢
      omega
    have hroom := h.size
    have hruns : join (init.map argumentPieces ++ [argumentPieces left]) =
        (lay (init ++ [left])).flatMap Prod.fst := by
      rw [hjoin, List.map_append]
      rfl
    obtain ⟨front, back, hlay, hfront, hback⟩ := List.map_eq_append_iff.mp (hsnd (init ++ [left]))
    obtain ⟨x, rest, rfl, hx, hrest⟩ := List.map_eq_cons_iff.mp hback
    obtain rfl := List.map_eq_nil_iff.mp hrest
    subst hx
    have harg : ∀ y ∈ front ++ [x], IsArgument o room y := by
      intro y hy
      rw [← hlay] at hy
      have hmy := mem_of_lay hy
      rcases List.mem_append.mp hmy with hm | hm
      · have hm' := List.mem_append_left
          [Expr.apply s (.ident t op.spelling) [x.2, right]] hm
        exact h.isArgument (h.formed _ hm') (List.sizeOf_lt_of_mem hm') (hmem _ y hy)
      · have he : y.2 = x.2 := List.mem_singleton.mp hm
        exact h.isArgument (by rw [he]; exact hleft) (by rw [he]; omega) (hmem _ y hy)
    have hread := reads_arguments_binary s t op harg (h.below n right hright (by omega))
      (by omega) hl hb
    rw [he, hconcat, hruns, hlay, ← hfront]
    exact hread

/-- The first argument does not go on with what stands before it. -/
theorem stopsAccess_of_items {n : Nat} {es : List Expr} (h : ∀ e ∈ es, e.Formed n)
    (hs : ∀ c, S c → c.StopsAccess) {c : Cursor}
    (hc : At (spacedPieces (itemPieces (withPieces es))) S c) : c.StopsAccess := by
  have first : ∀ e : Expr, e.Formed n → ∀ ps, At (.gap :: (argumentPieces e ++ ps)) S c →
      c.StopsAccess := by
    intro e he ps hc
    exact stopsAccess_of_beginsExpression (.inl ((begins he).1.beginsOperand.append ps)) hc.2
  rcases itemPieces_cases es with he | ⟨init, s, t, op, left, right, rfl, he⟩
  · rw [he] at hc
    cases es with
    | nil => exact hs c hc
    | cons e rest =>
      rw [List.map_cons, spacedPieces, List.flatMap_cons] at hc
      exact first e (h e List.mem_cons_self) _ hc
  · rw [he] at hc
    cases init with
    | nil =>
      have hleft := (formed_of_binary (h _ List.mem_cons_self)).1
      refine first left hleft (.gap :: .plain (operatorKind op) :: .gap ::
        operandPieces op.precedence true right (pieces right)) ?_
      simpa [spacedPieces] using hc
    | cons e rest =>
      rw [List.map_cons, List.cons_append, spacedPieces, List.flatMap_cons] at hc
      exact first e (h e List.mem_cons_self) _ hc

theorem reads_joined {n room levels budget : Nat} {es : List Expr}
    (h : IsArguments o n room es) (hl : room ≤ levels) (hb : room ≤ budget) :
    Reads (stageArguments o (primary o levels) budget) (joinedPieces (itemPieces (withPieces es)))
      (Cursor.StopsChain 0) (List.Forall₂ Expr.Same es) :=
  reads_laid h hl hb joinedPieces_concat (flatMap_gapped argumentPieces)
    (map_snd_gapped argumentPieces) fun _ _ hx => (mem_gapped hx).2

theorem reads_spaced {n room levels budget : Nat} {es : List Expr}
    (h : IsArguments o n room es) (hl : room ≤ levels) (hb : room ≤ budget) :
    Reads (stageArguments o (primary o levels) budget) (spacedPieces (itemPieces (withPieces es)))
      (Cursor.StopsChain 0) (List.Forall₂ Expr.Same es) := by
  have lay : ∀ es : List Expr, ((es.map fun e => (.gap :: argumentPieces e, e)).flatMap Prod.fst) =
      spacedPieces (es.map argumentPieces) := by
    intro es
    rw [List.flatMap_map, spacedPieces, List.flatMap_map]
  refine reads_laid h hl hb spacedPieces_concat lay (fun es => ?_) (fun es x hx => ?_)
  · rw [List.map_map]
    exact List.map_id es
  · obtain ⟨e, _, rfl⟩ := List.mem_map.mp hx
    exact .inr rfl

end Parse

end PipeLang
