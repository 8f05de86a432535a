import PipeLang.Parse.Fragment
import PipeLang.Proofs.Format.ReadConstruct
import PipeLang.Proofs.Parse.Adjacency
import PipeLang.Proofs.Parse.CarriedConstruct
import PipeLang.Proofs.Parse.Limit
import PipeLang.Proofs.Parse.Stages
import PipeLang.Proofs.Tree.Nodes

/-! The clauses of `match` and `try` in an indented block, one a line. A clause ends at the end of its
line, whatever constructs and pipelines it ends in, so each one is read as it would be read alone. -/

namespace PipeLang

/-! ## Constructs made of clauses -/

/-- A construct that has a subject and clauses, each starting with a mark. -/
structure Claused (κ : Type) where
  keyword : Keyword
  mark : TokenKind → Bool
  place : Place
  missing : Cursor → Diagnostic
  span : κ → Span
  build : Span → Expr → List κ → Expr
  parts : κ → List Expr
  resolve : κ → κ
  marked : Parse.ClauseMark mark
  stops : ∀ k, mark k = true → k.isStageEnd = true
  /-- The parts of the construct are its subject and those of its clauses. -/
  children : ∀ s subject found, (build s subject found).children = subject :: found.flatMap parts
  keyless : ∀ s subject found, (build s subject found).ownRepeatedKeys = []
  resolved : ∀ s subject found,
    (build s subject found).resolve = build s subject.resolve (found.map resolve)
  injective : ∀ {s t subject other found others}, build s subject found = build t other others →
    subject = other ∧ found = others

def matchForm : Claused Clause where
  keyword := .match_
  mark := TokenKind.isPunctuation .bar
  place := .afterClauses
  missing c := (c.unexpected .inMatch [.punctuation .bar]).withExample (Keyword.examples .match_)
  span := Clause.span
  build := .matchOn
  parts c := c.guard.toList ++ [c.result]
  resolve := Clause.resolve
  marked := .bar
  stops k hk := by rw [TokenKind.isPunctuation_iff.mp hk]; rfl
  children _ _ _ := rfl
  keyless _ _ _ := rfl
  resolved _ _ _ := by rw [Expr.resolve, resolveClauses_eq_map]
  injective h := by cases h; exact ⟨rfl, rfl⟩

def tryForm : Claused Catch where
  keyword := .try_
  mark := TokenKind.isKeyword .catch_
  place := .afterCatches
  missing c := (c.unexpected .inTry [.keyword .catch_]).withExample (Keyword.examples .try_)
  span := Catch.span
  build := .tryCatch
  parts c := [c.handler]
  resolve := Catch.resolve
  marked := .keyword (by decide)
  stops k hk := by rw [TokenKind.isKeyword_iff.mp hk]; rfl
  children _ _ found := by rw [Expr.children, List.map_eq_flatMap]
  keyless _ _ _ := rfl
  resolved _ _ _ := by rw [Expr.resolve, resolveCatches_eq_map]
  injective h := by cases h; exact ⟨rfl, rfl⟩

namespace Claused

open Parse

variable {κ : Type} (f : Claused κ)

def rule (head : Parse Expr) (clause : Parse κ) : Parse Expr := do
  let start ← skip
  let subject ← head
  let (found, inBlock) ← clauses f.mark (fun inBlock => (·, inBlock) <$> clause) false
  match found.getLast? with
  | some last =>
    closeBlockIf inBlock f.place
    pure (f.build (start.merge (f.span last)) subject found)
  | none => fail f.missing

theorem rule_match (o : ParseOptions) (p : Primary) (b : Nat) :
    matchForm.rule (expression o p b) (matchClause o p b) = matchOn o p b := by
  unfold rule matchOn
  refine bind_congr fun start => bind_congr fun subject => bind_congr fun found => ?_
  obtain ⟨found, inBlock⟩ := found
  dsimp only
  cases found.getLast? with
  | none => rfl
  | some last => rfl

theorem rule_try (o : ParseOptions) (p : Primary) (b : Nat) :
    tryForm.rule (result o p b) (catchClause o p b) = Parse.tryCatch o p b := by
  unfold rule Parse.tryCatch
  refine bind_congr fun start => bind_congr fun value => bind_congr fun found => ?_
  obtain ⟨found, inBlock⟩ := found
  dsimp only
  cases found.getLast? with
  | none => rfl
  | some last => rfl

end Claused

/-! ## Clauses on lines of their own -/

/-- Tokens without line structure and without an end marker. -/
def Unbroken (ts : List Token) : Prop := ∀ t ∈ ts, t.kind.isLayout = false ∧ t.kind.isEof = false

instance (ts : List Token) : Decidable (Unbroken ts) := by
  unfold Unbroken
  infer_instance

/-- A clause that starts with a mark, and the end of its line. -/
structure ClauseLine (mark : TokenKind → Bool) where
  first : Token
  others : List Token
  stop : Token
  marked : mark first.kind = true
  line : Unbroken (first :: others)
  ended : stop.kind = .newline

def ClauseLine.tokens {mark : TokenKind → Bool} (l : ClauseLine mark) : List Token :=
  l.first :: l.others

/-- The tokens around an indented block, and the end marker. -/
structure BlockFrame where
  newline : Token
  indent : Token
  dedent : Token
  last : Token
  newline_kind : newline.kind = .newline
  indent_kind : indent.kind = .indent
  dedent_kind : dedent.kind = .dedent
  last_kind : last.kind = .eof

section

variable {mark : TokenKind → Bool}

/-- Clauses one a line, the end of their block and the end of the text. -/
def BlockFrame.lines (b : BlockFrame) : List (ClauseLine mark) → List Token
  | [] => [b.dedent, b.last]
  | l :: rest => l.tokens ++ l.stop :: b.lines rest

def BlockFrame.tokens (b : BlockFrame) (ls : List (ClauseLine mark)) : List Token :=
  b.newline :: b.indent :: b.lines ls

variable (b : BlockFrame)

theorem BlockFrame.lines_cons (ls : List (ClauseLine mark)) :
    ∃ t ts, b.lines ls = t :: ts ∧ (t.kind = .dedent ∨ mark t.kind = true) := by
  cases ls with
  | nil => exact ⟨b.dedent, [b.last], rfl, .inl b.dedent_kind⟩
  | cons l rest => exact ⟨l.first, _, rfl, .inr l.marked⟩

theorem BlockFrame.lines_last (ls : List (ClauseLine mark)) :
    (b.lines ls).getLast? = some b.last := by
  induction ls with
  | nil => rfl
  | cons l rest ih =>
    rw [BlockFrame.lines, List.getLast?_append_of_ne_nil _ (List.cons_ne_nil _ _), List.getLast?_cons,
      ih]
    rfl

/-- No block opens after the line of a clause. -/
theorem ClauseLine.follow (hmark : Parse.ClauseMark mark) (l : ClauseLine mark)
    (ls : List (ClauseLine mark)) : LineFollow (l.stop :: b.lines ls) where
  toStageFollow := .of_newline l.ended ⟨b.last, b.lines_last ls, b.last_kind⟩
  line _ hd := (Parse.kind_of_rest hd).trans l.ended
  level d hd := by
    obtain ⟨t, ts, hlines, hk⟩ := b.lines_cons ls
    rw [hlines] at hd
    have hforward : d.forward.rest = t :: ts := by rw [Cursor.forward, hd]
    rw [Cursor.kindAt_one hd, Parse.kind_of_rest hforward]
    rcases hk with hk | hk
    · rw [hk]
      rfl
    · cases hi : t.kind.isIndent with
      | false => rfl
      | true =>
        have hlayout : t.kind.isLayout = true := by
          cases ht : t.kind <;> rw [ht] at hi <;> first | rfl | cases hi
        rw [hmark.closed.1 t.kind hlayout] at hk
        cases hk

end

namespace Parse

variable {κ : Type} {o : ParseOptions}

/-! ## The loop over the clauses -/

/-- A round with a clause that leaves the block of the construct as it is. -/
def steadyRound (mark : TokenKind → Bool) (clause : Parse κ) (s : List κ × Bool) :
    Parse (Round (List κ × Bool)) := do
  match ← clauseAhead s.2 mark with
  | some inBlock =>
    let a ← clause
    pure (.again (a :: s.1, inBlock))
  | none => pure (.done s)

theorem clauseRound_eq_steadyRound (mark : TokenKind → Bool) (clause : Parse κ) :
    clauseRound mark (fun inBlock => (·, inBlock) <$> clause) = steadyRound mark clause := by
  funext s
  refine bind_congr fun ahead => ?_
  cases ahead with
  | none => rfl
  | some inBlock =>
    dsimp only
    rw [map_eq_pure_bind, bind_assoc]
    rfl

theorem clauses_eq (mark : TokenKind → Bool) (clause : Parse κ) :
    clauses mark (fun inBlock => (·, inBlock) <$> clause) false = (do
      let s ← rounds (steadyRound mark clause) ([], false)
      pure (s.1.reverse, s.2)) := by
  rw [← clauseRound_eq_steadyRound]
  rfl

section

variable {mark : TokenKind → Bool} {clause : Parse κ} (hm : Moves (fun _ => 1) clause)
  {found : List κ} {inBlock : Bool} {c : Cursor} (hc : c.Ended)

include hm in
theorem moves_steadyRound (s : List κ × Bool) : Moves Round.cost (steadyRound mark clause s) := by
  rw [← clauseRound_eq_steadyRound]
  exact moves_clauseRound mark (Moves.map_pair hm) s

include hm hc

theorem rounds_of_none (h : clauseAhead inBlock mark c = .ok none c) :
    rounds (steadyRound mark clause) (found, inBlock) c = .ok (found, inBlock) c := by
  rw [rounds_eq (moves_steadyRound hm) _ hc]
  have hround : steadyRound mark clause (found, inBlock) c = .ok (.done (found, inBlock)) c :=
    bind_of_ok h
  rw [bind_of_ok hround]
  rfl

theorem rounds_of_some {block : Bool} {c1 c2 : Cursor} {a : κ}
    (h : clauseAhead inBlock mark c = .ok (some block) c1) (ha : clause c1 = .ok a c2) :
    rounds (steadyRound mark clause) (found, inBlock) c =
      rounds (steadyRound mark clause) (a :: found, block) c2 := by
  rw [rounds_eq (moves_steadyRound hm) _ hc]
  have hround : steadyRound mark clause (found, inBlock) c = .ok (.again (a :: found, block)) c2 :=
    (bind_of_ok h).trans (bind_of_ok ha)
  rw [bind_of_ok hround]

end

/-- The clause is read in front of the end of its line, where no block opens after it. -/
def ReadsLine {mark : TokenKind → Bool} (clause : Parse κ) (l : ClauseLine mark) (a : κ) : Prop :=
  ∀ X, LineFollow (l.stop :: X) → ∀ d : Cursor, d.rest = l.tokens ++ l.stop :: X →
    ∃ d', clause d = .ok a d' ∧ d'.rest = l.stop :: X

section

variable {mark : TokenKind → Bool} (hmark : ClauseMark mark) {clause : Parse κ}
  (hm : Moves (fun _ => 1) clause) (b : BlockFrame)

include hmark hm

omit hm in
/-- Inside the block a clause is looked for on the next line. -/
theorem clauseAhead_line {stop : Token} (hstop : stop.kind = .newline) (ls : List (ClauseLine mark))
    {d : Cursor} (hd : d.rest = stop :: b.lines ls) :
    clauseAhead true mark d = match ls with
      | [] => .ok none d
      | _ :: _ => .ok (some true) d.next := by
  have hk : d.kind = .newline := (kind_of_rest hd).trans hstop
  have hno : mark d.kind = false := by rw [hk, hmark.closed.1 _ rfl]
  have hline : d.atNewline = true := by rw [Cursor.atNewline, hk]; rfl
  have hforward : d.forward.rest = b.lines ls := by rw [Cursor.forward, hd]
  unfold clauseAhead
  rw [hno, hline, Cursor.kindAt_one hd]
  cases ls with
  | nil => rw [kind_of_rest hforward, b.dedent_kind, hmark.closed.1 _ rfl]; rfl
  | cons l ls => rw [kind_of_rest hforward, l.marked]; rfl

/-- From the end of one line the loop goes on to the clauses on the lines after it. -/
theorem rounds_of_lines {ls : List (ClauseLine mark)} {as : List κ}
    (h : List.Forall₂ (ReadsLine clause) ls as) :
    ∀ (found : List κ) {stop : Token} {d : Cursor}, stop.kind = .newline →
      d.rest = stop :: b.lines ls → ∃ d' t, rounds (steadyRound mark clause) (found, true) d =
        .ok (as.reverse ++ found, true) d' ∧ t.kind = .newline ∧ d'.rest = [t, b.dedent, b.last] := by
  have hended : ∀ {stop : Token} {ls : List (ClauseLine mark)} {d : Cursor},
      d.rest = stop :: b.lines ls → d.Ended := fun {stop ls d} hd =>
    ⟨b.last, by rw [hd, List.getLast?_cons, b.lines_last]; rfl, b.last_kind⟩
  induction h with
  | nil =>
    intro found stop d hstop hd
    exact ⟨d, stop, rounds_of_none hm (hended hd) (clauseAhead_line hmark b hstop [] hd), hstop, hd⟩
  | @cons l a ls as hl _ ih =>
    intro found stop d hstop hd
    have hnext : d.next.rest = l.tokens ++ l.stop :: b.lines ls :=
      next_rest hd (by rw [hstop]; simp)
    obtain ⟨d1, hrun, hd1⟩ := hl _ (l.follow b hmark ls) d.next hnext
    obtain ⟨d2, t, hrest, ht, hd2⟩ := ih (a :: found) l.ended hd1
    refine ⟨d2, t, ?_, ht, hd2⟩
    rw [rounds_of_some hm (hended hd) (clauseAhead_line hmark b hstop (l :: ls) hd) hrun, hrest,
      List.reverse_cons, List.append_assoc]
    rfl

/-- The clauses in a block. -/
theorem clauses_of_block {ls : List (ClauseLine mark)} {as : List κ}
    (h : List.Forall₂ (ReadsLine clause) ls as) (hne : ls ≠ []) {d : Cursor}
    (hd : d.rest = b.tokens ls) :
    ∃ d' t, clauses mark (fun inBlock => (·, inBlock) <$> clause) false d = .ok (as, true) d' ∧
      t.kind = .newline ∧ d'.rest = [t, b.dedent, b.last] := by
  cases h with
  | nil => exact absurd rfl hne
  | @cons l a ls as hl hmore =>
    have hk : d.kind = .newline := (kind_of_rest hd).trans b.newline_kind
    have hforward : d.forward.rest = b.indent :: b.lines (l :: ls) := by rw [Cursor.forward, hd]; rfl
    have hlines : d.forward.forward.rest = l.tokens ++ l.stop :: b.lines ls := by
      rw [Cursor.forward, hforward]
      rfl
    have hblock : d.atBlock mark = true := by
      have hone : d.kindAt 1 = .indent := by
        rw [Cursor.kindAt_one hd, kind_of_rest hforward, b.indent_kind]
      have htwo : d.kindAt 2 = l.first.kind := by
        unfold Cursor.kindAt
        rw [Cursor.peekAt_succ hd, Cursor.peekAt_one hforward]
        exact kind_of_rest hlines
      unfold Cursor.atBlock Cursor.atNewline
      rw [hk, hone, htwo, l.marked]
      rfl
    have hahead : clauseAhead false mark d = .ok (some true) d.forward.forward := by
      unfold clauseAhead
      rw [hk, hmark.closed.1 _ rfl, hblock]
      rfl
    have hended : d.Ended := ⟨b.last, by
      rw [hd, BlockFrame.tokens, List.getLast?_cons, List.getLast?_cons, b.lines_last]
      rfl, b.last_kind⟩
    obtain ⟨d1, hrun, hd1⟩ := hl _ (l.follow b hmark ls) _ hlines
    obtain ⟨d2, t, hrest, ht, hd2⟩ := rounds_of_lines hmark hm b hmore [a] l.ended hd1
    refine ⟨d2, t, ?_, ht, hd2⟩
    rw [clauses_eq, bind_of_ok ((rounds_of_some hm hended hahead hrun).trans hrest)]
    simp

end

section

variable {mark : TokenKind → Bool} {clause : Parse κ}

/-- No clause that was found is lost. -/
theorem length_le_of_rounds {found : List κ} {inBlock : Bool} {s : List κ × Bool} {c c' : Cursor}
    (h : rounds (steadyRound mark clause) (found, inBlock) c = .ok s c') :
    found.length ≤ s.1.length := by
  have hround : ∀ s : List κ × Bool, found.length ≤ s.1.length →
      Yields (fun _ => True) (Yields.Rounds (fun s => found.length ≤ s.1.length)
        fun s : List κ × Bool => found.length ≤ s.1.length) (steadyRound mark clause s) := by
    intro s hs
    refine .bind (Q := fun _ => True) (fun _ _ _ _ _ => ⟨trivial, trivial⟩) fun ahead _ => ?_
    cases ahead with
    | none => exact .pure hs
    | some block =>
      exact .bind (Q := fun _ => True) (fun _ _ _ _ _ => ⟨trivial, trivial⟩) fun a _ =>
        .pure (Nat.le_succ_of_le hs)
  exact (Yields.rounds hround (fun _ h => h) (Nat.le_refl _) c trivial s c' h).1

/-- Where no clause comes the cursor stays. -/
theorem clauseAhead_stays {inBlock : Bool} {c c' : Cursor}
    (h : clauseAhead inBlock mark c = .ok none c') : c = c' := by
  unfold clauseAhead at h
  split_ifs at h <;> cases h
  all_goals rfl

/-- A loop that finds one clause is over after it. -/
theorem clause_of_clauses (hm : Moves (fun _ => 1) clause) {a : κ} {inBlock : Bool}
    {c c' : Cursor} (hc : c.Ended) (hk : mark c.kind = true)
    (h : clauses mark (fun inBlock => (·, inBlock) <$> clause) false c = .ok ([a], inBlock) c') :
    clause c = .ok a c' ∧ inBlock = false := by
  rw [clauses_eq] at h
  obtain ⟨⟨found, block⟩, c3, hrounds, h⟩ := bind_eq_ok.mp h
  injection h with hvalue hcursor
  obtain ⟨hfound, rfl⟩ := Prod.mk.inj hvalue
  obtain rfl : found = [a] := by simpa using hfound
  subst hcursor
  have hahead : clauseAhead false mark c = .ok (some false) c := if_pos hk
  cases hclause : clause c with
  | error d c1 =>
    rw [rounds_eq (moves_steadyRound hm) _ hc] at hrounds
    have hround : steadyRound mark clause ([], false) c = .error d c1 :=
      (bind_of_ok hahead).trans (bind_of_error hclause)
    rw [bind_of_error hround] at hrounds
    cases hrounds
  | ok a0 c1 =>
    rw [rounds_of_some hm hc hahead hclause] at hrounds
    have hc1 := (hm c hc a0 c1 hclause).1
    cases hnext : clauseAhead false mark c1 with
    | error d c2 =>
      unfold clauseAhead at hnext
      split_ifs at hnext
    | ok ahead c2 =>
      cases ahead with
      | none =>
        obtain rfl := clauseAhead_stays hnext
        rw [rounds_of_none hm hc1 hnext] at hrounds
        cases hrounds
        exact ⟨rfl, rfl⟩
      | some inBlock =>
        -- a second clause would be there as well
        have hc2 := (moves_clauseAhead false mark c1 hc1 _ c2 hnext).1
        rw [rounds_eq (moves_steadyRound hm) _ hc1] at hrounds
        obtain ⟨r, c3, hround, hrounds⟩ := bind_eq_ok.mp hrounds
        unfold steadyRound at hround
        rw [bind_of_ok hnext] at hround
        obtain ⟨a1, c4, _, hround⟩ := bind_eq_ok.mp hround
        cases hround
        have := length_le_of_rounds hrounds
        simp at this

end

/-- A block is closed after the line of its last clause. -/
theorem closeBlock_of_rest (place : Place) {line dedent : Token} {after : List Token} {d : Cursor}
    (hline : line.kind = .newline) (hdedent : dedent.kind = .dedent)
    (hd : d.rest = line :: dedent :: after) :
    ∃ d', closeBlock place d = .ok () d' ∧ d'.rest = after := by
  have hat : d.atNewline = true := by
    rw [Cursor.atNewline, kind_of_rest hd, hline]
    rfl
  have hnext : d.next.rest = dedent :: after := next_rest hd (by rw [hline]; simp)
  have hclosed : d.next.atDedent = true := by
    rw [Cursor.atDedent, kind_of_rest hnext, hdedent]
    rfl
  refine ⟨d.next.next, ?_, next_rest hnext (by rw [hdedent]; simp)⟩
  unfold closeBlock
  rw [accept_bind_of_true hat, test_bind, hclosed]
  rfl

/-! ## Whole fragments -/

theorem parseFragment_eq_ok {kind : FragmentKind} {ts : List Token} {found : Fragment} :
    parseFragment o kind ts = .ok found ↔ ∃ raw c,
      fragment o kind ((Cursor.ofTokens ts).skipWhile TokenKind.isNewline) = .ok raw c ∧
        (c.skipWhile TokenKind.isNewline).kind = .eof ∧ c.errors = [] ∧ raw.finish o = .ok found := by
  have hskip : ∀ c, skipNewlines c = .ok () (c.skipWhile TokenKind.isNewline) := fun _ => rfl
  cases hrun : fragment o kind ((Cursor.ofTokens ts).skipWhile TokenKind.isNewline) with
  | error d c =>
    have hwhole : wholeFragment o kind (.ofTokens ts) = .error d c :=
      (bind_of_ok (hskip _)).trans (bind_of_error hrun)
    unfold parseFragment
    rw [hwhole]
    simp
  | ok raw c =>
    have hwhole : wholeFragment o kind (.ofTokens ts) = (do
        if ← test Cursor.atEnd then pure raw
        else unexpected .afterFragment [.endOfInput] : Parse Fragment)
          (c.skipWhile TokenKind.isNewline) :=
      (bind_of_ok (hskip _)).trans ((bind_of_ok hrun).trans (bind_of_ok (hskip c)))
    have herrors : (c.skipWhile TokenKind.isNewline).errors = c.errors := rfl
    unfold parseFragment
    rw [hwhole, test_bind]
    by_cases hend : (c.skipWhile TokenKind.isNewline).kind = .eof
    · rw [show (c.skipWhile TokenKind.isNewline).atEnd = true from TokenKind.isEof_iff.mpr hend]
      simp only [if_true, pure_run, herrors]
      cases herr : c.errors <;> simp [herr, hend]
    · rw [show (c.skipWhile TokenKind.isNewline).atEnd = false from
        Bool.eq_false_iff.mpr fun h => hend (TokenKind.isEof_iff.mp h)]
      simp [unexpected, hend]

/-- The run of a fragment is over at the end of the common tokens. -/
theorem rest_of_outside {e : Token} {v ts r : List Token} {c d : Cursor} (h : c.Outside e v ts r d)
    (hline : Unbroken ts) (hend : (c.skipWhile TokenKind.isNewline).kind = .eof) : d.rest = v := by
  cases r with
  | nil => exact h.back
  | cons t r =>
    have htokens := h.opens.tokens
    rw [h.front, ← List.append_assoc] at htokens
    obtain ⟨hlayout, heof⟩ := hline t (by rw [← List.append_cancel_right htokens]; simp)
    have hline : t.kind.isNewline = false := by
      cases hk : t.kind <;> rw [hk] at hlayout <;> first | rfl | cases hlayout
    rw [Cursor.skipWhile_of_false h.front hline, h.kind.1] at hend
    rw [hend] at heof
    cases heof

/-- A whole expression of one line without constructs outside brackets. -/
structure IsSubject (o : ParseOptions) (ts : List Token) : Prop where
  line : Unbroken ts
  constructs : ConstructsEnclosed ts
  reads : ∃ e tree, e.kind = .eof ∧ parseFragment o .expression (ts ++ [e]) = .ok (.expression tree)

theorem IsSubject.run {ts : List Token} (h : IsSubject o ts) :
    (∃ t us, ts = t :: us ∧ t.kind.isNewline = false) ∧
      ∃ subject, ∀ v, SeedFollow v → ∀ d : Cursor, d.rest = ts ++ v →
        ∃ d', expression o (rootPrimary o) o.maxDepth d = .ok subject d' ∧ d'.rest = v := by
  obtain ⟨e, tree, he, hparse⟩ := h.reads
  obtain ⟨raw, c, hrun, hend, -, -⟩ := parseFragment_eq_ok.mp hparse
  have hended : (Cursor.ofTokens (ts ++ [e])).Ended := ⟨e, List.getLast?_concat, he⟩
  have hnewline : ∀ t ∈ ts, t.kind.isNewline = false := by
    intro t ht
    have hlayout := (h.line t ht).1
    cases hk : t.kind <;> rw [hk] at hlayout <;> first | rfl | cases hlayout
  have hstart : (Cursor.ofTokens (ts ++ [e])).skipWhile TokenKind.isNewline = .ofTokens (ts ++ [e]) := by
    cases ts with
    | nil => exact Cursor.skipWhile_of_false (show _ = [e] from rfl) (by rw [he]; rfl)
    | cons t ts => exact Cursor.skipWhile_of_false (t := t) rfl (hnewline t List.mem_cons_self)
  rw [hstart] at hrun
  obtain ⟨subject, c1, hsubject, hraw⟩ := bind_eq_ok.mp hrun
  cases hraw
  constructor
  · cases ts with
    | nil =>
      -- an expression takes a token at least
      obtain ⟨hc, hless⟩ :=
        moves_expression (moves_primary o o.maxDepth) o.maxDepth _ hended subject c hsubject
      have hlength : c.rest.length + 1 ≤ 1 := hless
      exact absurd (List.eq_nil_of_length_eq_zero (by omega)) hc.rest_ne_nil
    | cons t us => exact ⟨t, us, rfl, hnewline t List.mem_cons_self⟩
  · refine ⟨subject, fun v hv d hd => ?_⟩
    have hled : ∀ b c, LedFrom e v ts c (primary o o.maxDepth b) :=
      led_primary he hv.follow (fun n _ b => constructsLed_of_enclosed he h.constructs n b)
        o.maxDepth
    obtain ⟨d', r', hd', h'⟩ := led_expression he hv hled o.maxDepth _ ts d
      ⟨rfl, hd, fun t ht => (h.line t ht).1, fun t _ => hv.apart t⟩ ⟨rfl, hended, rfl⟩ subject c hsubject
    exact ⟨d', hd', rest_of_outside h' h.line hend⟩

end Parse

open Parse

/-- The repeated keys of an expression are its own and those of its parts. -/
theorem Expr.keyErrors_parts (e : Expr) :
    e.keyErrors = e.ownRepeatedKeys ++ e.children.flatMap keyErrors := by
  rw [keyErrors_eq, nodes_eq, List.flatMap_cons, List.flatMap_assoc]
  exact congrArg _ (congrArg (List.flatMap · e.children) (funext fun x => x.keyErrors_eq.symm))

theorem Parse.ClauseMark.plain {p : TokenKind → Bool} (h : ClauseMark p) :
    p (.punctuation .pipe) = false ∧ ∀ name, p (.ident name) = false := by
  cases h <;> exact ⟨rfl, fun _ => rfl⟩

namespace Claused

variable {κ : Type} (f : Claused κ) {o : ParseOptions} {kind : FragmentKind} {head : Parse Expr}
  {clause : Parse κ}

/-- After the keyword and the subject, the line alone is read as a construct with this one clause. -/
def ReadAlone (o : ParseOptions) (kind : FragmentKind) (kw : Token) (S : List Token)
    (l : ClauseLine f.mark) (x : κ) : Prop :=
  ∃ e s subject, e.kind = .eof ∧ parseFragment o kind (kw :: (S ++ (l.tokens ++ [e]))) =
    .ok (.expression (f.build s subject [x]))

/-- A clause may follow a subject, on its line or in a block. -/
theorem seed_of_mark {first : Token} {more : List Token} (hk : f.mark first.kind = true)
    (hlast : ∃ t, (first :: more).getLast? = some t ∧ t.kind = .eof) :
    SeedFollow (first :: more) where
  first := ⟨first, more, rfl, f.stops _ hk⟩
  last := hlast
  pipe d hd := by
    unfold Cursor.atPunctuation
    rw [kind_of_rest hd]
    cases hp : first.kind.isPunctuation .pipe with
    | false => rfl
    | true =>
      rw [TokenKind.isPunctuation_iff.mp hp, f.marked.plain.1] at hk
      cases hk
  block d hd := by
    have hline : first.kind.isNewline = false := by
      cases hn : first.kind <;> first | rfl | (rw [hn, f.marked.closed.1 _ rfl] at hk; cases hk)
    unfold Cursor.atBlock Cursor.atNewline
    rw [kind_of_rest hd, hline]
    rfl

theorem seed_of_block (b : BlockFrame) {ls : List (ClauseLine f.mark)} (hne : ls ≠ []) :
    SeedFollow (b.tokens ls) := by
  obtain ⟨l, rest, rfl⟩ := List.exists_cons_of_ne_nil hne
  refine ⟨.of_newline b.newline_kind ⟨b.last, ?_, b.last_kind⟩, fun d hd => ?_, fun d hd => ?_⟩
  · rw [List.getLast?_cons, b.lines_last]
    rfl
  · unfold Cursor.atPunctuation
    rw [kind_of_rest hd, b.newline_kind]
    rfl
  · have hforward : d.forward.rest = b.indent :: b.lines (l :: rest) := by
      rw [Cursor.forward, hd]
      rfl
    have htwo : d.kindAt 2 = l.first.kind := by
      unfold Cursor.kindAt
      rw [Cursor.peekAt_succ hd, Cursor.peekAt_one hforward]
      have hfirst : d.forward.forward.rest = l.first :: (l.others ++ l.stop :: b.lines rest) := by
        rw [Cursor.forward, hforward]
        rfl
      exact kind_of_rest hfirst
    have hident : l.first.kind.isIdent = false := by
      have hk := l.marked
      cases hi : l.first.kind <;> first | rfl | (rw [hi, f.marked.plain.2] at hk; cases hk)
    unfold Cursor.atBlock
    rw [htwo, hident, Bool.and_false]

/-- The finished construct has the clauses that were read, with their pipelines rewired if that is asked
for, and no key is given twice in them. -/
theorem finish_eq_ok {s : Span} {subject tree : Expr} {found : List κ} :
    (f.build s subject found).finish o = .ok tree ↔
      (subject.keyErrors = [] ∧ ∀ a ∈ found, ∀ part ∈ f.parts a, part.keyErrors = []) ∧
        tree = f.build s (if o.resolvePipelines then subject.resolve else subject)
          (found.map fun a => if o.resolvePipelines then f.resolve a else a) := by
  have hkeys : (f.build s subject found).keyErrors = [] ↔
      subject.keyErrors = [] ∧ ∀ a ∈ found, ∀ part ∈ f.parts a, part.keyErrors = [] := by
    rw [Expr.keyErrors_parts, f.keyless, f.children, List.nil_append, List.flatMap_cons,
      List.append_eq_nil_iff, List.flatMap_eq_nil_iff]
    refine and_congr_right fun _ => ?_
    simp only [List.mem_flatMap, forall_exists_index, and_imp]
    exact ⟨fun h a ha part hpart => h part a ha hpart, fun h part a ha hpart => h a ha part hpart⟩
  have htree : (if o.resolvePipelines then (f.build s subject found).resolve
      else f.build s subject found) =
        f.build s (if o.resolvePipelines then subject.resolve else subject)
          (found.map fun a => if o.resolvePipelines then f.resolve a else a) := by
    cases o.resolvePipelines with
    | true => exact f.resolved s subject found
    | false => simp
  unfold Expr.finish
  rw [htree, ← hkeys]
  cases (f.build s subject found).keyErrors with
  | nil => exact ⟨fun h => ⟨rfl, (Except.ok.inj h).symm⟩, fun h => congrArg Except.ok h.2.symm⟩
  | cons d ds => simp

section

variable (hkind : fragment o kind = headed f.keyword (f.rule head clause)) {S : List Token}
  (hS : Unbroken S) {subject : Expr}
  (hhead : ∀ v, SeedFollow v → ∀ d : Cursor, d.rest = S ++ v →
    ∃ d', head d = .ok subject d' ∧ d'.rest = v)
  (hm : Moves (fun _ => 1) clause) {kw : Token} (hkw : kw.kind = .keyword f.keyword)

include hhead hkw

/-- The subject is read after the keyword, and then the clauses. -/
theorem rule_of_subject {v : List Token} (hv : SeedFollow v) {d : Cursor} (hd : d.rest = kw :: (S ++ v)) :
    ∃ d', head d.next = .ok subject d' ∧ d'.rest = v ∧ f.rule head clause d = (do
      let (found, inBlock) ← clauses f.mark (fun inBlock => (·, inBlock) <$> clause) false
      match found.getLast? with
      | some last =>
        closeBlockIf inBlock f.place
        pure (f.build (kw.span.merge (f.span last)) subject found)
      | none => fail f.missing : Parse Expr) d' := by
  have hnext : d.next.rest = S ++ v := next_rest hd (by rw [hkw]; simp)
  obtain ⟨d', hrun, hd'⟩ := hhead v hv d.next hnext
  refine ⟨d', hrun, hd', ?_⟩
  have hpeek : d.peek = kw := by
    unfold Cursor.peek
    rw [hd]
  unfold rule
  rw [skip_bind, hpeek, bind_of_ok hrun]

omit hhead in
include hkind in
/-- Nothing but the rule of the construct is there to read a fragment that starts with its keyword. -/
theorem fragment_eq_ok {ts : List Token} {raw : Fragment} {c : Cursor} :
    fragment o kind ((Cursor.ofTokens (kw :: ts)).skipWhile TokenKind.isNewline) = .ok raw c ↔
      ∃ e, raw = .expression e ∧ f.rule head clause (.ofTokens (kw :: ts)) = .ok e c := by
  have hstart : (Cursor.ofTokens (kw :: ts)).skipWhile TokenKind.isNewline = .ofTokens (kw :: ts) :=
    Cursor.skipWhile_of_false (t := kw) rfl (by rw [hkw]; rfl)
  have hhere : (Cursor.ofTokens (kw :: ts)).atKeyword f.keyword = true :=
    TokenKind.isKeyword_iff.mpr hkw
  rw [hstart, hkind, headed, test_bind, hhere, if_pos rfl]
  constructor
  · intro h
    obtain ⟨e, c', he, hraw⟩ := bind_eq_ok.mp h
    cases hraw
    exact ⟨e, rfl, he⟩
  · rintro ⟨e, rfl, he⟩
    exact bind_of_ok he

include hkind hm

variable (hled : ∀ {e : Token} {v ts : List Token} {c : Cursor}, e.kind = .eof → LineFollow v →
  f.mark c.kind = true → LedFrom e v ts c clause) (hbalanced : Balanced head)

include hled hS hbalanced

/-- A clause that is read alone is read in front of the end of its line. -/
theorem reads_of_alone {l : ClauseLine f.mark} {x : κ} (h : f.ReadAlone o kind kw S l x) :
    ∃ a, ReadsLine clause l a ∧ x = (if o.resolvePipelines then f.resolve a else a) ∧
      subject.keyErrors = [] ∧ ∀ part ∈ f.parts a, part.keyErrors = [] := by
  obtain ⟨e, s, other, he, h⟩ := h
  obtain ⟨raw, c, hrun, hend, -, hfinish⟩ := parseFragment_eq_ok.mp h
  obtain ⟨tree, rfl, hrule⟩ := (f.fragment_eq_ok hkind hkw).mp hrun
  generalize hc0 : Cursor.ofTokens (kw :: (S ++ (l.tokens ++ [e]))) = c0 at hrule
  have hrest : c0.rest = kw :: (S ++ (l.tokens ++ [e])) := by rw [← hc0]; rfl
  have hv : SeedFollow (l.tokens ++ [e]) :=
    f.seed_of_mark l.marked ⟨e, List.getLast?_concat (l := l.tokens), he⟩
  obtain ⟨c1, hsubject, hc1, hbody⟩ := f.rule_of_subject hhead hkw hv hrest
  rw [hbody] at hrule
  obtain ⟨⟨found, inBlock⟩, c2, hclauses, hrule⟩ := bind_eq_ok.mp hrule
  dsimp only at hrule
  cases hlast : found.getLast? with
  | none =>
    rw [hlast] at hrule
    cases hrule
  | some last =>
    rw [hlast] at hrule
    obtain ⟨_, c3, hclose, hrule⟩ := bind_eq_ok.mp hrule
    cases hrule
    have hfinish : (f.build (kw.span.merge (f.span last)) subject found).finish o =
        .ok (f.build s other [x]) := by
      cases hf : (f.build (kw.span.merge (f.span last)) subject found).finish o with
      | error d =>
        rw [Fragment.finish, hf] at hfinish
        cases hfinish
      | ok tree =>
        rw [Fragment.finish, hf] at hfinish
        cases hfinish
        rfl
    obtain ⟨⟨hkeys, hparts⟩, htree⟩ := f.finish_eq_ok.mp hfinish
    obtain ⟨-, hfound⟩ := f.injective htree
    obtain ⟨a, rfl, hx⟩ := List.map_eq_singleton_iff.mp hfound.symm
    have hended : c1.Ended := ⟨e, by rw [hc1, List.getLast?_concat], he⟩
    have hmark : f.mark c1.kind = true := by
      have hfirst : c1.rest = l.first :: (l.others ++ [e]) := hc1
      rw [kind_of_rest hfirst]
      exact l.marked
    obtain ⟨hclause, rfl⟩ := clause_of_clauses hm hended hmark hclauses
    cases hclose
    refine ⟨a, fun X hX d hd => ?_, hx.symm, hkeys, hparts a List.mem_cons_self⟩
    have hstart : c0.Opens (kw :: (S ++ l.tokens) ++ [e]) [] := by
      subst hc0
      refine ⟨by simp [Cursor.ofTokens], ⟨e, ?_, he⟩, rfl⟩
      rw [hrest, ← List.append_assoc, ← List.cons_append, List.getLast?_concat]
    have hnext : c0.next.Opens (kw :: (S ++ l.tokens) ++ [e]) [] :=
      hstart.next (bracketsAfter_of_not_bracket (by rw [kind_of_rest hrest, hkw]; rfl) [])
    have hopens := hbalanced _ [] _ hnext subject c1 hsubject
    have hahead : c1.Ahead e (l.stop :: X) l.tokens d :=
      ⟨hc1, hd, fun t ht => (l.line t ht).1, fun t _ => hX.apart t⟩
    obtain ⟨d', r', hd', h'⟩ := hled he hX hmark _ d hahead hopens a c hclause
    refine ⟨d', hd', rest_of_outside h' ?_ hend⟩
    have hkwline : kw.kind.isLayout = false ∧ kw.kind.isEof = false := by rw [hkw]; exact ⟨rfl, rfl⟩
    exact List.forall_mem_cons.mpr ⟨hkwline, List.forall_mem_append.mpr ⟨hS, l.line⟩⟩

/-- Clauses that are read alone are read in a block. -/
theorem block_of_alone (hquiet : ∀ c e c', f.rule head clause c = .ok e c' → c'.errors = c.errors)
    (b : BlockFrame) {ls : List (ClauseLine f.mark)} {found : List κ} (hne : ls ≠ [])
    (halone : List.Forall₂ (f.ReadAlone o kind kw S) ls found) :
    ∃ s subject, parseFragment o kind (kw :: (S ++ b.tokens ls)) =
      .ok (.expression (f.build s subject found)) := by
  have hreads : ∃ as, List.Forall₂ (ReadsLine clause) ls as ∧
      found = as.map (fun a => if o.resolvePipelines then f.resolve a else a) ∧
        (ls ≠ [] → subject.keyErrors = []) ∧ ∀ a ∈ as, ∀ part ∈ f.parts a, part.keyErrors = [] := by
    clear hne
    induction halone with
    | nil => exact ⟨[], .nil, rfl, fun h => absurd rfl h, by simp⟩
    | @cons l x ls found h _ ih =>
      obtain ⟨a, ha, rfl, hkeys, hparts⟩ :=
        f.reads_of_alone hkind hS hhead hm hkw hled hbalanced h
      obtain ⟨as, has, rfl, -, hmore⟩ := ih
      exact ⟨a :: as, .cons ha has, rfl, fun _ => hkeys, List.forall_mem_cons.mpr ⟨hparts, hmore⟩⟩
  obtain ⟨as, has, rfl, hkeys, hparts⟩ := hreads
  generalize hd0 : Cursor.ofTokens (kw :: (S ++ b.tokens ls)) = d0
  have hrest : d0.rest = kw :: (S ++ b.tokens ls) := by rw [← hd0]; rfl
  obtain ⟨d1, -, hd1, hbody⟩ := f.rule_of_subject hhead hkw (f.seed_of_block b hne) hrest
  obtain ⟨d2, t, hclauses, ht, hd2⟩ := clauses_of_block f.marked hm b has hne hd1
  obtain ⟨d3, hclose, hd3⟩ := closeBlock_of_rest f.place ht b.dedent_kind hd2
  have hsome : as ≠ [] := by
    rintro rfl
    cases has
    exact hne rfl
  have hlast := List.getLast?_eq_some_getLast hsome
  generalize as.getLast hsome = last at hlast
  have hrun : f.rule head clause d0 =
      .ok (f.build (kw.span.merge (f.span last)) subject as) d3 := by
    rw [hbody, bind_of_ok hclauses]
    dsimp only
    rw [hlast]
    exact bind_of_ok hclose
  refine ⟨kw.span.merge (f.span last), if o.resolvePipelines then subject.resolve else subject,
    parseFragment_eq_ok.mpr ⟨_, d3, (f.fragment_eq_ok hkind hkw).mpr ⟨_, rfl, by rw [hd0, hrun]⟩,
      ?_, ?_, ?_⟩⟩
  · rw [Cursor.skipWhile_of_false hd3 (by rw [b.last_kind]; rfl), kind_of_rest hd3, b.last_kind]
  · rw [hquiet _ _ _ hrun, ← hd0]
    rfl
  · exact congrArg (Fragment.expression <$> ·)
      (f.finish_eq_ok.mpr ⟨⟨hkeys hne, hparts⟩, rfl⟩)

end

end Claused

theorem Parse.Limited.errors_eq {α β : Type} {R : α → β → Prop} {x : Parse α} {y : Parse β}
    (h : Limited R x y) {a : α} {c c' : Cursor} (hx : x c = .ok a c') : c'.errors = c.errors := by
  have hout := h c
  rw [hx] at hout
  generalize y c = r at hout
  cases hout with
  | ok _ quiet => exact quiet

/-- A subject on the line of its keyword is read without a block. -/
theorem Parse.IsSubject.run_result {o : ParseOptions} {ts : List Token} (h : IsSubject o ts) :
    ∃ subject, ∀ v, SeedFollow v → ∀ d : Cursor, d.rest = ts ++ v →
      ∃ d', result o (rootPrimary o) o.maxDepth d = .ok subject d' ∧ d'.rest = v := by
  obtain ⟨⟨t, us, rfl, hline⟩, subject, hrun⟩ := h.run
  refine ⟨subject, fun v hv d hd => ?_⟩
  obtain ⟨d', hd', hrest⟩ := hrun v hv d hd
  have hblock : ∀ p, openBlock p d = .ok false d := by
    intro p
    unfold openBlock Cursor.atBlock Cursor.atNewline
    rw [kind_of_rest hd, hline]
    rfl
  refine ⟨d', ?_, hrest⟩
  unfold result body
  exact (bind_of_ok (hblock _)).trans hd'

/-- The clauses in an indented block, one a line, are independent: each is the clause that its line is
read as alone, whatever constructs and pipelines the line ends in. -/
theorem block_clauses_independent {o : ParseOptions} (hstrict : o.mode = .strict) {S : List Token}
    (hS : IsSubject o S) (b : BlockFrame) :
    (∀ kw : Token, kw.kind = .keyword .match_ →
      ∀ (ls : List (ClauseLine (TokenKind.isPunctuation .bar))) (found : List Clause), ls ≠ [] →
        List.Forall₂ (matchForm.ReadAlone o .matchOn kw S) ls found →
          ∃ s subject, parseFragment o .matchOn (kw :: (S ++ b.tokens ls)) =
            .ok (.expression (.matchOn s subject found))) ∧
      ∀ kw : Token, kw.kind = .keyword .try_ →
        ∀ (ls : List (ClauseLine (TokenKind.isKeyword .catch_))) (found : List Catch), ls ≠ [] →
          List.Forall₂ (tryForm.ReadAlone o .tryCatch kw S) ls found →
            ∃ s value, parseFragment o .tryCatch (kw :: (S ++ b.tokens ls)) =
              .ok (.expression (.tryCatch s value found)) := by
  have hmoves := moves_primary o o.maxDepth
  have hbalanced := balanced_primary o o.maxDepth
  have hlimited : ∀ {b b' : Nat}, b ≤ b' → Limited ((limited id).same Expr.relocate)
      (rootPrimary o b) (rootPrimary o b') :=
    fun h => limited_primary id hstrict hstrict _ (Nat.le_refl _) h
  constructor
  · intro kw hkw ls found hne halone
    obtain ⟨-, subject, hsubject⟩ := hS.run
    have hrule := Claused.rule_match o (rootPrimary o) o.maxDepth
    have hkind : fragment o .matchOn = headed matchForm.keyword (matchForm.rule
        (expression o (rootPrimary o) o.maxDepth) (matchClause o (rootPrimary o) o.maxDepth)) := by
      rw [hrule]
      rfl
    refine matchForm.block_of_alone hkind hS.line hsubject (moves_matchClause hmoves _) hkw ?_
      (balanced_expression hbalanced _) ?_ b hne halone
    · exact fun he hv hk => led_matchClause he hv (led_primary_of_line he hv _) _
        (TokenKind.isPunctuation_iff.mp hk)
    · rw [hrule]
      exact fun c e c' => (Coupling.matchOn (C := limited id) hmoves hlimited
        (Nat.le_refl o.maxDepth)).errors_eq
  · intro kw hkw ls found hne halone
    obtain ⟨value, hvalue⟩ := hS.run_result
    have hrule := Claused.rule_try o (rootPrimary o) o.maxDepth
    have hkind : fragment o .tryCatch = headed tryForm.keyword (tryForm.rule
        (result o (rootPrimary o) o.maxDepth) (catchClause o (rootPrimary o) o.maxDepth)) := by
      rw [hrule]
      rfl
    refine tryForm.block_of_alone hkind hS.line hvalue (moves_catchClause hmoves _) hkw ?_
      (balanced_result hbalanced _) ?_ b hne halone
    · exact fun he hv hk => led_catchClause he hv (led_primary_of_line he hv _) _
        (TokenKind.isKeyword_iff.mp hk)
    · rw [hrule]
      exact fun c e c' => (Coupling.tryCatch (C := limited id) hmoves hlimited
        (Nat.le_refl o.maxDepth)).errors_eq

theorem matchForm_readAlone {o : ParseOptions} {kw : Token} {S : List Token}
    {l : ClauseLine matchForm.mark}
    (h : (match parseFragment o .matchOn (kw :: (S ++ (l.tokens ++ [.last]))) with
      | .ok (.expression (.matchOn _ _ [_])) => true
      | _ => false) = true) : ∃ x, matchForm.ReadAlone o .matchOn kw S l x := by
  split at h
  next hparse => exact ⟨_, .last, _, _, rfl, hparse⟩
  next => cases h

theorem tryForm_readAlone {o : ParseOptions} {kw : Token} {S : List Token}
    {l : ClauseLine tryForm.mark}
    (h : (match parseFragment o .tryCatch (kw :: (S ++ (l.tokens ++ [.last]))) with
      | .ok (.expression (.tryCatch _ _ [_])) => true
      | _ => false) = true) : ∃ x, tryForm.ReadAlone o .tryCatch kw S l x := by
  split at h
  next hparse => exact ⟨_, .last, _, _, rfl, hparse⟩
  next => cases h

/-- Clauses that end in a `match`, in a pipeline and in a `try`. -/
theorem block_clauses_independent_nested :
    let token (k : TokenKind) : Token := ⟨k, .origin⟩
    let name (s : String) : Token := token (.ident s)
    let bar := token (.punctuation .bar)
    let arrow := token (.punctuation .arrow)
    let line := token .newline
    let onMatch := token (.keyword .match_)
    let onTry := token (.keyword .try_)
    let onCatch := token (.keyword .catch_)
    let S := [name "x"]
    let b : BlockFrame := ⟨line, token .indent, token .dedent, .last, rfl, rfl, rfl, rfl⟩
    let first : ClauseLine (TokenKind.isPunctuation .bar) :=
      ⟨bar, [name "a", arrow, onMatch, name "y", bar, name "b", arrow, name "c"], line, rfl,
        by decide +kernel, rfl⟩
    let second : ClauseLine (TokenKind.isPunctuation .bar) :=
      ⟨bar, [name "d", arrow, name "z", token (.punctuation .pipe), name "f"], line, rfl,
        by decide +kernel, rfl⟩
    let caught : ClauseLine (TokenKind.isKeyword .catch_) :=
      ⟨onCatch, [name "T", arrow, onTry, name "y", onCatch, name "e", arrow, name "c"], line, rfl,
        by decide +kernel, rfl⟩
    let other : ClauseLine (TokenKind.isKeyword .catch_) :=
      ⟨onCatch, [name "e", arrow, name "d"], line, rfl, by decide +kernel, rfl⟩
    IsSubject {} S ∧
      (∃ found, List.Forall₂ (matchForm.ReadAlone {} .matchOn onMatch S) [first, second] found ∧
        ∃ s subject, parseFragment {} .matchOn (onMatch :: (S ++ b.tokens [first, second])) =
          .ok (.expression (.matchOn s subject found))) ∧
      ∃ found, List.Forall₂ (tryForm.ReadAlone {} .tryCatch onTry S) [caught, other] found ∧
        ∃ s value, parseFragment {} .tryCatch (onTry :: (S ++ b.tokens [caught, other])) =
          .ok (.expression (.tryCatch s value found)) := by
  intro token name bar arrow line onMatch onTry onCatch S b first second caught other
  have hS : IsSubject {} S :=
    { line := by decide +kernel, constructs := by decide +kernel, reads := ⟨.last, _, rfl, rfl⟩ }
  obtain ⟨c, hc⟩ : ∃ x, matchForm.ReadAlone {} .matchOn onMatch S first x :=
    matchForm_readAlone (by decide +kernel)
  obtain ⟨c', hc'⟩ : ∃ x, matchForm.ReadAlone {} .matchOn onMatch S second x :=
    matchForm_readAlone (by decide +kernel)
  obtain ⟨d, hd⟩ : ∃ x, tryForm.ReadAlone {} .tryCatch onTry S caught x :=
    tryForm_readAlone (by decide +kernel)
  obtain ⟨d', hd'⟩ : ∃ x, tryForm.ReadAlone {} .tryCatch onTry S other x :=
    tryForm_readAlone (by decide +kernel)
  have h := block_clauses_independent (o := {}) rfl hS b
  have hclauses := List.Forall₂.cons hc (.cons hc' .nil)
  have hcatches := List.Forall₂.cons hd (.cons hd' .nil)
  exact ⟨hS, ⟨_, hclauses, h.1 onMatch rfl _ _ (List.cons_ne_nil _ _) hclauses⟩,
    _, hcatches, h.2 onTry rfl _ _ (List.cons_ne_nil _ _) hcatches⟩

/-- A line that starts with more of the subject, `y | a -> b` after `match x`, is one clause when it is
read alone, and no clause in a block. -/
theorem clauses_of_unmarked_line :
    let token (k : TokenKind) : Token := ⟨k, .origin⟩
    let name (s : String) : Token := token (.ident s)
    let onMatch := token (.keyword .match_)
    let S := [name "x"]
    let line := [name "y", token (.punctuation .bar), name "a", token (.punctuation .arrow), name "b"]
    IsSubject {} S ∧ Unbroken line ∧
      (∃ s subject clause, parseFragment {} .matchOn (onMatch :: (S ++ (line ++ [.last]))) =
        .ok (.expression (.matchOn s subject [clause]))) ∧
      (parseFragment {} .matchOn (onMatch :: (S ++ token .newline :: token .indent ::
        (line ++ [token .newline, token .dedent, .last])))).isOk = false := by
  intro token name onMatch S line
  have hS : IsSubject {} S :=
    { line := by decide +kernel, constructs := by decide +kernel, reads := ⟨.last, _, rfl, rfl⟩ }
  exact ⟨hS, by decide +kernel, ⟨_, _, _, rfl⟩, by decide +kernel⟩

end PipeLang
