import PipeLang.Proofs.Format.ReadConstruct
import PipeLang.Proofs.Parse.CoupledProgram
import PipeLang.Proofs.Tree.Nodes

/-! The loops and the recursion of the grammar without their bounds. A loop is bounded by the tokens ahead,
and each of its rounds takes one, but for the last. So it comes to an end by itself, and the bound has no
part in what it comes to. The same holds of the recursion, which is bounded by the nesting limit. -/

namespace PipeLang.Parse

/-- What the items come to that are read while the cursor is ready, however many there are. -/
inductive RepeatsTo (ready : Cursor → Bool) (item : Parse α) :
    Cursor → EStateM.Result Diagnostic Cursor (List α) → Prop
  | stop {c : Cursor} (ended : ready c = false) : RepeatsTo ready item c (.ok [] c)
  | fail {c c' : Cursor} {d : Diagnostic} (more : ready c = true) (read : item c = .error d c') :
    RepeatsTo ready item c (.error d c')
  | item {c c' c'' : Cursor} {a : α} {as : List α} (more : ready c = true)
    (read : item c = .ok a c') (rest : RepeatsTo ready item c' (.ok as c'')) :
    RepeatsTo ready item c (.ok (a :: as) c'')
  | later {c c' c'' : Cursor} {a : α} {d : Diagnostic} (more : ready c = true)
    (read : item c = .ok a c') (rest : RepeatsTo ready item c' (.error d c'')) :
    RepeatsTo ready item c (.error d c'')

/-- What rounds come to, however many there are. -/
inductive RoundsTo (round : σ → Parse (Round σ)) :
    σ → Cursor → EStateM.Result Diagnostic Cursor σ → Prop
  | fail {s : σ} {c c' : Cursor} {d : Diagnostic} (run : round s c = .error d c') :
    RoundsTo round s c (.error d c')
  | done {s t : σ} {c c' : Cursor} (run : round s c = .ok (.done t) c') :
    RoundsTo round s c (.ok t c')
  | again {s t : σ} {c c' : Cursor} {r : EStateM.Result Diagnostic Cursor σ}
    (run : round s c = .ok (.again t) c') (rest : RoundsTo round t c' r) : RoundsTo round s c r

section

variable {ready : Cursor → Bool} {item : Parse α} {round : σ → Parse (Round σ)} {c : Cursor}

theorem repeatsTo_manyUpTo (h : Moves (fun _ => 1) item) (n : Nat) :
    ∀ c : Cursor, c.Ended → c.rest.length < n → RepeatsTo ready item c (manyUpTo ready item n c) := by
  induction n with
  | zero => exact fun _ _ hn => absurd hn (Nat.not_lt_zero _)
  | succ n ih =>
    intro c hc hn
    unfold manyUpTo
    rw [test_bind]
    cases hready : ready c with
    | false => exact .stop hready
    | true =>
      rw [if_pos rfl]
      cases hitem : item c with
      | error d c' =>
        rw [bind_of_error hitem]
        exact .fail hready hitem
      | ok a c' =>
        obtain ⟨hc', hless⟩ := h c hc a c' hitem
        have hless : c'.rest.length + 1 ≤ c.rest.length := hless
        have hrest := ih c' hc' (by omega)
        rw [bind_of_ok hitem]
        cases hmore : manyUpTo ready item n c' with
        | error d c'' =>
          rw [bind_of_error hmore]
          exact .later hready hitem (hmore ▸ hrest)
        | ok as c'' =>
          rw [bind_of_ok hmore]
          exact .item hready hitem (hmore ▸ hrest)

theorem repeatsTo_many (h : Moves (fun _ => 1) item) (hc : c.Ended) :
    RepeatsTo ready item c (many ready item c) :=
  repeatsTo_manyUpTo h _ c hc (Nat.lt_succ_self _)

theorem roundsTo_roundsUpTo (h : ∀ s, Moves Round.cost (round s)) (n : Nat) :
    ∀ (s : σ) (c : Cursor), c.Ended → c.rest.length < n →
      RoundsTo round s c (roundsUpTo round n s c) := by
  induction n with
  | zero => exact fun _ _ _ hn => absurd hn (Nat.not_lt_zero _)
  | succ n ih =>
    intro s c hc hn
    unfold roundsUpTo
    cases hround : round s c with
    | error d c' =>
      rw [bind_of_error hround]
      exact .fail hround
    | ok r c' =>
      obtain ⟨hc', hless⟩ := h s c hc r c' hround
      rw [bind_of_ok hround]
      cases r with
      | done t => exact .done hround
      | again t =>
        have hless : c'.rest.length + 1 ≤ c.rest.length := hless
        exact .again hround (ih t c' hc' (by omega))

theorem roundsTo_rounds (h : ∀ s, Moves Round.cost (round s)) (s : σ) (hc : c.Ended) :
    RoundsTo round s c (rounds round s c) :=
  roundsTo_roundsUpTo h _ s c hc (Nat.lt_succ_self _)

/-- No second item is looked for. -/
theorem repeatsTo_of_halt (h : ready c = false ∨ ∃ d, item c = .error d c) :
    RepeatsTo ready item c (many ready item c) := by
  unfold many manyUpTo
  rw [test_bind]
  cases hready : ready c with
  | false => exact .stop hready
  | true =>
    obtain ⟨d, hitem⟩ := h.resolve_left (by simp [hready])
    rw [if_pos rfl, bind_of_error hitem]
    exact .fail hready hitem

/-- There is no second round. -/
theorem roundsTo_of_halt {s : σ}
    (h : (∃ t, round s c = .ok (.done t) c) ∨ ∃ d, round s c = .error d c) :
    RoundsTo round s c (rounds round s c) := by
  unfold rounds roundsUpTo
  rcases h with ⟨t, hround⟩ | ⟨d, hround⟩
  · rw [bind_of_ok hround]
    exact .done hround
  · rw [bind_of_error hround]
    exact .fail hround

end

/-! ## The loops of the grammar -/

section

variable (o : ParseOptions) (primary : Primary) (budget : Nat)

/-- The items that the grammar reads in a row, each with what the cursor is ready for then. -/
inductive Repeated : {α : Type} → (Cursor → Bool) → Parse α → Prop
  | argument : Repeated Cursor.atArgument (operand o primary budget)
  | field (opened : Span) :
    Repeated (fun c => !c.atPunctuation .rbrace) (recordField o primary budget opened)
  | parameter : Repeated Cursor.atIdent (identifier .parameterList)
  | access : Repeated Cursor.atAccess (do
      let _ ← skip
      identifier .afterDot)
  | binding : Repeated (·.atPunctuation .semicolon) (do
      let _ ← skip
      binding o primary budget)

/-- The rounds that the grammar goes through. -/
inductive Repeating : {σ : Type} → (σ → Parse (Round σ)) → Prop
  | argument : Repeating (argumentRound o primary budget)
  | pipe : Repeating (inlineRound o primary)
  | stageLine : Repeating (stageLine o primary)
  | patternField (opened : Span) : Repeating (patternRound opened)
  | binding : Repeating (blockBinding o primary budget)
  | branch : Repeating (clauseRound (TokenKind.isKeyword .elif_) (branch o primary budget))
  | clause : Repeating (clauseRound (TokenKind.isPunctuation .bar)
      fun inBlock => (·, inBlock) <$> matchClause o primary budget)
  | handler : Repeating (clauseRound (TokenKind.isKeyword .catch_)
      fun inBlock => (·, inBlock) <$> catchClause o primary budget)

end

section

variable {o : ParseOptions} {primary : Primary} {budget : Nat} {α σ : Type} {ready : Cursor → Bool}
  {item : Parse α} {round : σ → Parse (Round σ)} {c : Cursor}

theorem Repeated.moves (h : Repeated o primary budget ready item)
    (hp : ∀ b, Moves (fun _ => 1) (primary b)) : Moves (fun _ => 1) item := by
  cases h with
  | argument => exact moves_operand hp budget
  | field opened => exact moves_recordField hp budget opened
  | parameter => exact moves_identifier _
  | access => exact .after .skip fun _ => moves_identifier _
  | binding => exact .after .skip fun _ => moves_binding hp budget

theorem Repeating.moves (h : Repeating o primary budget round)
    (hp : ∀ b, Moves (fun _ => 1) (primary b)) (s : σ) : Moves Round.cost (round s) := by
  cases h with
  | argument => exact moves_argumentRound hp budget s
  | pipe => exact moves_pipeRound hp s
  | stageLine => exact moves_stageLine hp s
  | patternField opened => exact moves_patternRound opened s
  | binding => exact moves_blockBinding hp budget s
  | branch => exact moves_clauseRound _ (moves_branch hp budget) s
  | clause => exact moves_clauseRound _ (Moves.map_pair (moves_matchClause hp budget)) s
  | handler => exact moves_clauseRound _ (Moves.map_pair (moves_catchClause hp budget)) s

/-! At an end marker there is nothing to read, also if none is left in the list. -/

theorem atNewline_of_eof (h : c.kind = .eof) : c.atNewline = false := by
  rw [Cursor.atNewline, h]
  rfl

theorem atPunctuation_of_eof (h : c.kind = .eof) (p : Punctuation) : c.atPunctuation p = false := by
  rw [Cursor.atPunctuation, h]
  rfl

/-- What is still open cannot be closed. -/
theorem stillOpen_of_eof (h : c.kind = .eof) (form : Form) (opened : Span) (expected : List Expected) :
    ∃ d, stillOpen form opened expected c = .error d c := by
  unfold stillOpen
  rw [h]
  exact ⟨_, rfl⟩

theorem Repeated.halts (h : Repeated o primary budget ready item) (hc : c.kind = .eof) :
    ready c = false ∨ ∃ d, item c = .error d c := by
  cases h with
  | argument => exact .inl (by rw [Cursor.atArgument, hc])
  | field opened =>
    obtain ⟨d, hopen⟩ := stillOpen_of_eof hc .recordLiteral opened recordExpected
    exact .inr ⟨d, bind_of_error hopen⟩
  | parameter => exact .inl (by rw [Cursor.atIdent, hc]; rfl)
  | access => exact .inl (by rw [Cursor.atAccess, atPunctuation_of_eof hc]; rfl)
  | binding => exact .inl (atPunctuation_of_eof hc _)

theorem pushStage_of_eof (o : ParseOptions) (primary : Primary) (h : c.kind = .eof) (s : Stages) :
    ∃ d, pushStage o primary s c = .error d c := by
  have hname : c.atIdent = false := by
    rw [Cursor.atIdent, h]
    rfl
  have hstage : ∀ b, ∃ d, stage o primary b c = .error d c := fun b =>
    ⟨_, by rw [stage, test_bind, hname]; rfl⟩
  unfold pushStage
  cases o.resolvePipelines with
  | false =>
    obtain ⟨d, hd⟩ := hstage s.budget
    exact ⟨d, bind_of_error hd⟩
  | true =>
    cases s.budget with
    | zero => exact ⟨_, rfl⟩
    | succ b =>
      obtain ⟨d, hd⟩ := hstage b
      exact ⟨d, bind_of_error hd⟩

theorem binding_of_eof (o : ParseOptions) (primary : Primary) (budget : Nat) (h : c.kind = .eof) :
    ∃ d, binding o primary budget c = .error d c := by
  have hnone : c.atDefinition = false := by
    unfold Cursor.atDefinition Cursor.namesThen
    cases hrest : c.rest with
    | nil => rfl
    | cons t ts =>
      have ht : t.kind.isIdent = false := by
        rw [← kind_of_rest hrest, h]
        rfl
      simp [ht]
  exact ⟨_, by rw [binding, test_bind, hnone]; rfl⟩

theorem clauseRound_of_eof {clause : Bool → Parse (α × Bool)} {mark : TokenKind → Bool}
    (hmark : mark .eof = false) (h : c.kind = .eof) (s : List α × Bool) :
    clauseRound mark clause s c = .ok (.done s) c := by
  have hline : c.atNewline = false := atNewline_of_eof h
  have hahead : clauseAhead s.2 mark c = .ok none c := by
    unfold clauseAhead Cursor.atBlock
    rw [h, hmark, hline]
    cases s.2 <;> rfl
  exact bind_of_ok hahead

theorem Repeating.halts (h : Repeating o primary budget round) (hc : c.kind = .eof) (s : σ) :
    (∃ t, round s c = .ok (.done t) c) ∨ ∃ d, round s c = .error d c := by
  cases h with
  | argument =>
    exact .inl ⟨_, argumentRound_done (Cursor.stopsStages_of_isCloser (by rw [hc]; rfl)).chain⟩
  | pipe => exact .inl ⟨s, accept_bind_of_false (atPunctuation_of_eof hc .pipe)⟩
  | stageLine =>
    obtain ⟨d, hpush⟩ := pushStage_of_eof o primary hc s
    exact .inr ⟨d, bind_of_error hpush⟩
  | patternField opened =>
    obtain ⟨d, hopen⟩ := stillOpen_of_eof hc .recordPattern opened recordPatternExpected
    refine .inr ⟨d, ?_⟩
    rw [patternRound, test_bind, atPunctuation_of_eof hc]
    exact bind_of_error (bind_of_error hopen)
  | binding =>
    obtain ⟨d, hbinding⟩ := binding_of_eof o primary budget hc
    exact .inr ⟨d, bind_of_error hbinding⟩
  | branch | clause | handler => exact .inl ⟨s, clauseRound_of_eof rfl hc s⟩

end

/-! ## The recursion of the grammar -/

section

variable {α β : Type} {R : α → β → Prop}

/-- Two runs with related results that stop at the same cursor. -/
inductive Matches (R : α → β → Prop) :
    EStateM.Result Diagnostic Cursor α → EStateM.Result Diagnostic Cursor β → Prop
  | ok {a : α} {b : β} {c : Cursor} (value : R a b) : Matches R (.ok a c) (.ok b c)
  | error {d : Diagnostic} {c : Cursor} : Matches R (.error d c) (.error d c)

def Matching (R : α → β → Prop) (x : Parse α) (y : Parse β) : Prop := ∀ c, Matches R (x c) (y c)

theorem Matching.bind {γ δ : Type} {S : γ → δ → Prop} {x : Parse α} {y : Parse β}
    {f : α → Parse γ} {g : β → Parse δ} (hx : Matching R x y)
    (hf : ∀ a b, R a b → Matching S (f a) (g b)) : Matching S (x >>= f) (y >>= g) := by
  intro c
  have hout := hx c
  generalize hxc : x c = r at hout
  generalize hyc : y c = r' at hout
  cases hout with
  | ok value =>
    rw [bind_of_ok hxc, bind_of_ok hyc]
    exact hf _ _ value _
  | error =>
    rw [bind_of_error hxc, bind_of_error hyc]
    exact .error

/-- The grammar beside itself, with at most `most` levels of nesting left. -/
def matching (o : ParseOptions) (most : Nat) : Coupling o o where
  left := id
  right := id
  holes := (· = ·)
  budgets b b' := b = b' ∧ b ≤ most
  agree := Matching
  resolve := .inl rfl
  merge := Coupling.merge_id
  succ {b _} h := ⟨b, h.1.symm, rfl, by omega⟩
  ret h := fun _ => .ok h
  bind := Matching.bind
  peek := fun _ => .ok (.refl fun _ _ => rfl)
  look _ := fun _ => .ok rfl
  skip := fun _ => .ok rfl
  openBlock {p} _ := by
    intro c
    unfold openBlock
    split <;> exact .ok rfl
  fail {_ _ _ d d'} h := by
    intro c
    have heq : d c = d' c := (h c c (.refl fun _ _ => rfl)).eq_of_id fun _ _ h => h
    show Matches _ (.error (d c) c) (.error (d' c) c)
    rw [heq]
    exact .error
  deep h hy := by
    intro c
    rw [hy h.1.symm]
    exact .error
  bounded _ h := fun c => h _ c

theorem eq_of_matching {o : ParseOptions} (most : Nat) {x y : Parse Expr}
    (h : Matching ((matching o most).same Expr.relocate) x y) : x = y := by
  funext c
  have hout := h c
  generalize x c = r at hout
  generalize y c = r' at hout
  cases hout with
  | @ok e e' c1 value =>
    obtain rfl : e = e' := by
      rw [← e.relocate_id, ← e'.relocate_id]
      exact value
    rfl
  | error => rfl

theorem matching_of_eq {o : ParseOptions} {most : Nat} {x y : Parse Expr} (h : x = y) :
    Matching ((matching o most).same Expr.relocate) x y := by
  subst h
  intro c
  cases x c with
  | ok e c1 => exact .ok rfl
  | error d c1 => exact .error

theorem hole_eq_of_le (o : ParseOptions) {p p' : Primary} {most : Nat}
    (hm : ∀ b, Moves (fun _ => 1) (p b)) (hp : ∀ b ≤ most, p b = p' b) (ts : List Token) (s : Span) :
    hole o p most ts s = hole o p' most ts s := by
  have hinner : expression o p most = expression o p' most :=
    eq_of_matching most (Coupling.expression (C := matching o most) hm
      (fun {b _} h => by cases h.1; exact matching_of_eq (hp b h.2)) ⟨rfl, Nat.le_refl most⟩)
  unfold hole interpolation
  rw [hinner]

/-- Levels of recursion that the budget does not reach change nothing. -/
theorem primary_eq_of_le (o : ParseOptions) : ∀ {levels levels' b : Nat}, b ≤ levels → b ≤ levels' →
    primary o levels b = primary o levels' b := by
  intro levels
  induction levels with
  | zero =>
    intro levels' b hb _
    obtain rfl : b = 0 := Nat.le_zero.mp hb
    cases levels' <;> rfl
  | succ levels ih =>
    intro levels' b hb hb'
    cases b with
    | zero => cases levels' <;> rfl
    | succ b =>
      obtain ⟨n, rfl⟩ : ∃ n, levels' = n + 1 := ⟨levels' - 1, by omega⟩
      have hp : ∀ k ≤ b, primary o levels k = primary o n k := fun k hk => ih (by omega) (by omega)
      refine eq_of_matching b (Coupling.primaryInside (C := matching o b)
        (moves_primary o levels) (fun {k _} h => by cases h.1; exact matching_of_eq (hp k h.2))
        ⟨rfl, Nat.le_refl b⟩ fun hts hs => ?_)
      cases hts
      cases hs
      exact matching_of_eq (hole_eq_of_le o (moves_primary o levels) hp _ _)

end

/-! ## Places without bounds -/

/-- The names that a look ahead goes over end before or with the token list. -/
theorem namesThen_eq {c : Cursor} (hfinal : c.final.kind = .eof) {p : TokenKind → Bool}
    (hp : p .eof = false) (n : Nat) :
    ∃ k, (∀ i < k, (c.kindAt (n + i)).isIdent = true) ∧ (c.kindAt (n + k)).isIdent = false ∧
      c.namesThen p n = (decide (0 < k) && p (c.kindAt (n + k))) := by
  set names := (c.rest.drop n).takeWhile fun t => t.kind.isIdent with hnames
  set after := (c.rest.drop n).dropWhile fun t => t.kind.isIdent with hafter
  have hsplit : c.rest.drop n = names ++ after := List.takeWhile_append_dropWhile.symm
  have hkind : ∀ i, c.kindAt (n + i) = ((names ++ after)[i]?.getD c.final).kind := by
    intro i
    rw [← hsplit, List.getElem?_drop]
    rfl
  have hlast : c.kindAt (n + names.length) = (after.head?.getD c.final).kind := by
    rw [hkind, List.getElem?_append_right (Nat.le_refl _), Nat.sub_self, List.head?_eq_getElem?]
  have hstop := List.head?_dropWhile_not (fun t : Token => t.kind.isIdent) (c.rest.drop n)
  rw [← hafter] at hstop
  refine ⟨names.length, fun i hi => ?_, ?_, ?_⟩
  · rw [hkind, List.getElem?_append_left hi, List.getElem?_eq_getElem hi]
    exact List.mem_takeWhile_imp (p := fun t : Token => t.kind.isIdent) (List.getElem_mem hi)
  · rw [hlast]
    cases hhead : after.head? with
    | none => rw [Option.getD_none, hfinal]; rfl
    | some t => rw [hhead] at hstop; simpa using hstop
  · rw [hlast]
    show (!names.isEmpty && (after.head?.map fun t => p t.kind) == some true) = _
    have hempty : (!names.isEmpty) = decide (0 < names.length) := by
      cases names <;> rfl
    rw [hempty]
    cases after.head? with
    | none => rw [Option.map_none, Option.getD_none, hfinal, hp]; rfl
    | some t => rw [Option.map_some, Option.getD_some]; cases p t.kind <;> rfl

/-- From `c` on the bounds play no part: loops, looks ahead and the recursion of the grammar come to an
end by themselves. -/
structure BoundFree (o : ParseOptions) (c : Cursor) : Prop where
  items : ∀ {α : Type} {ready : Cursor → Bool} {item : Parse α} (levels budget : Nat),
    Repeated o (primary o levels) budget ready item → RepeatsTo ready item c (many ready item c)
  rounds : ∀ {σ : Type} {round : σ → Parse (Round σ)} (levels budget : Nat),
    Repeating o (primary o levels) budget round → ∀ s, RoundsTo round s c (rounds round s c)
  names : ∀ (p : TokenKind → Bool) (n : Nat), p .eof = false →
    ∃ k, (∀ i < k, (c.kindAt (n + i)).isIdent = true) ∧ (c.kindAt (n + k)).isIdent = false ∧
      c.namesThen p n = (decide (0 < k) && p (c.kindAt (n + k)))
  nesting : ∀ {levels b : Nat}, b ≤ levels → primary o levels b c = primary o b b c

theorem boundFree (o : ParseOptions) {c : Cursor} (hc : c.kind = .eof ∨ c.Ended)
    (hfinal : c.final.kind = .eof) : BoundFree o c where
  items levels budget h := by
    rcases hc with hc | hc
    · exact repeatsTo_of_halt (h.halts hc)
    · exact repeatsTo_many (h.moves (moves_primary o levels)) hc
  rounds levels budget h s := by
    rcases hc with hc | hc
    · exact roundsTo_of_halt (h.halts hc s)
    · exact roundsTo_rounds (h.moves (moves_primary o levels)) s hc
  names _ n hp := namesThen_eq hfinal hp n
  nesting h := by rw [primary_eq_of_le o h (Nat.le_refl _)]

end PipeLang.Parse
