import PipeLang.Proofs.Scan.Placeless
import PipeLang.Proofs.Scan.Reads

/-! Lines that show no token: blanks, one block comment, a comment up to the end. At the start of a line
the scanner passes over them and is at the start of a line again, with the same tokens and blocks as
before. -/

namespace PipeLang.Scan

/-- The inside of a block comment on one line. A star with a slash after it would end the comment and a
slash with a star after it would open a further one, and so would a slash at the end. -/
inductive Remark : List Char → Prop
  | nil : Remark []
  | char {c : Char} {cs : List Char} (plain : c ≠ '/' ∧ c ≠ '*' ∧ c ≠ '\n') (rest : Remark cs) :
    Remark (c :: cs)
  | slash {d : Char} {cs : List Char} (next : d ≠ '*') (rest : Remark (d :: cs)) :
    Remark ('/' :: d :: cs)
  | star {cs : List Char} (next : cs.head? ≠ some '/') (rest : Remark cs) : Remark ('*' :: cs)
  | nested {cs ds : List Char} (inner : Remark cs) (rest : Remark ds) :
    Remark ('/' :: '*' :: (cs ++ '*' :: '/' :: ds))

/-- Blanks, with a block comment between them or not, and with a comment up to the end of the line after
them or not. -/
inductive SkippedLine : List Char → Prop
  | blank {bs : List Char} (blanks : ∀ b ∈ bs, b = ' ' ∨ b = '\t') : SkippedLine bs
  | note {bs cs : List Char} (blanks : ∀ b ∈ bs, b = ' ' ∨ b = '\t') (line : ∀ c ∈ cs, c ≠ '\n') :
    SkippedLine (bs ++ '#' :: cs)
  | remark {bs cs ds : List Char} (blanks : ∀ b ∈ bs, b = ' ' ∨ b = '\t') (inside : Remark cs)
    (after : ∀ b ∈ ds, b = ' ' ∨ b = '\t') :
    SkippedLine (bs ++ '/' :: '*' :: (cs ++ '*' :: '/' :: ds))
  | remarkNote {bs cs ds es : List Char} (blanks : ∀ b ∈ bs, b = ' ' ∨ b = '\t')
    (inside : Remark cs) (after : ∀ b ∈ ds, b = ' ' ∨ b = '\t') (line : ∀ c ∈ es, c ≠ '\n') :
    SkippedLine (bs ++ '/' :: '*' :: (cs ++ '*' :: '/' :: (ds ++ '#' :: es)))

namespace State

variable (inner : Option Inner) {s : State}

/-- The state further on, in another mode, with nothing else changed. -/
def passed (s : State) (cs : List Char) (m : Mode) : State :=
  { s with mode := m, position := s.position.after cs }

theorem passed_passed (cs ds : List Char) (m n : Mode) :
    (s.passed cs m).passed ds n = s.passed (cs ++ ds) n := by
  simp [passed, Position.after_append]

theorem run_margin {m : Margin} (hs : s.mode = .margin m) {bs : List Char}
    (hb : ∀ b ∈ bs, b = ' ' ∨ b = '\t') :
    s.run inner bs = s.passed bs (.margin { m with blanks := bs.reverse ++ m.blanks }) := by
  induction bs generalizing s m with
  | nil =>
    cases s
    cases hs
    rfl
  | cons b bs ih =>
    have hstep : s.step inner b = s.passed [b] (.margin { m with blanks := b :: m.blanks }) := by
      refine step_of_join ?_
      have hmode : (s.past b).mode = .margin m := hs
      unfold join
      rw [hmode]
      exact if_pos (hb b List.mem_cons_self)
    rw [run_cons, hstep, ih rfl fun c hc => hb c (List.mem_cons_of_mem _ hc), passed_passed]
    simp

section

variable {p : Position} {depth : Nat} {last : Option Char} {back : Option Margin}

theorem step_remark (hs : s.mode = .remark p depth last back) (c : Char) :
    s.step inner c = (s.past c).remark p depth last back c := by
  refine step_of_join ?_
  have hmode : (s.past c).mode = .remark p depth last back := hs
  unfold join
  rw [hmode]

/-- A character that neither opens a comment nor ends one. -/
theorem step_inside (hs : s.mode = .remark p depth last back) {c : Char}
    (hopen : last = some '/' → c ≠ '*') (hclose : last = some '*' → c ≠ '/') :
    s.step inner c =
      s.passed [c] (.remark p depth (if c = '/' ∨ c = '*' then some c else none) back) := by
  rw [step_remark inner hs]
  unfold remark
  split
  · exact absurd rfl (hopen rfl)
  · exact absurd rfl (hclose rfl)
  · rfl

/-- What the character before `cs` must not be, `cs` being read inside a block comment. -/
def Clear (last : Option Char) (cs : List Char) : Prop :=
  (last = some '/' → cs ≠ [] ∧ cs.head? ≠ some '*') ∧ (last = some '*' → cs.head? ≠ some '/')

theorem clear_none (cs : List Char) : Clear none cs := ⟨by simp, by simp⟩

/-- A character that `Clear` lets through. -/
theorem step_clear (hs : s.mode = .remark p depth last back) {c : Char} {cs : List Char}
    (h : Clear last (c :: cs)) :
    s.step inner c =
      s.passed [c] (.remark p depth (if c = '/' ∨ c = '*' then some c else none) back) := by
  refine step_inside inner hs (fun hl hc => ?_) fun hl hc => ?_
  · exact (h.1 hl).2 (congrArg some hc)
  · exact h.2 hl (congrArg some hc)

/-- The star of a comment's end. -/
theorem step_star (hs : s.mode = .remark p depth last back) (hl : last ≠ some '/') :
    s.step inner '*' = s.passed ['*'] (.remark p depth (some '*') back) :=
  step_inside inner hs (fun h => absurd h hl) (by simp)

/-- The inside of a block comment is read without a change of depth. -/
theorem run_remark {cs : List Char} (hcs : Remark cs) : ∀ {s : State} {depth : Nat}
    {last : Option Char}, s.mode = .remark p (depth + 1) last back → Clear last cs →
      ∃ last', last' ≠ some '/' ∧
        s.run inner cs = s.passed cs (.remark p (depth + 1) last' back) := by
  induction hcs with
  | nil =>
    intro s depth last hs hclear
    refine ⟨last, fun hl => (hclear.1 hl).1 rfl, ?_⟩
    cases s
    cases hs
    rfl
  | @char c cs plain rest ih =>
    intro s depth last hs hclear
    have hstep := step_clear inner hs hclear
    rw [if_neg (by simp [plain.1, plain.2.1])] at hstep
    obtain ⟨last', hl, hrun⟩ := ih (s := s.passed [c] _) rfl (clear_none cs)
    exact ⟨last', hl, by rw [run_cons, hstep, hrun, passed_passed]; rfl⟩
  | @slash d cs next rest ih =>
    intro s depth last hs hclear
    have hstep := step_clear inner hs hclear
    rw [if_pos (.inl rfl)] at hstep
    obtain ⟨last', hl, hrun⟩ := ih (s := s.passed ['/'] (.remark p (depth + 1) (some '/') back)) rfl
      ⟨fun _ => ⟨by simp, by simpa using next⟩, by simp⟩
    exact ⟨last', hl, by rw [run_cons, hstep, hrun, passed_passed]; rfl⟩
  | @star cs next rest ih =>
    intro s depth last hs hclear
    have hstep := step_clear inner hs hclear
    rw [if_pos (.inr rfl)] at hstep
    obtain ⟨last', hl, hrun⟩ := ih (s := s.passed ['*'] (.remark p (depth + 1) (some '*') back)) rfl
      ⟨by simp, fun _ => next⟩
    exact ⟨last', hl, by rw [run_cons, hstep, hrun, passed_passed]; rfl⟩
  | @nested cs ds inside rest ihInside ihRest =>
    intro s depth last hs hclear
    have hslash := step_clear inner hs hclear
    rw [if_pos (.inl rfl)] at hslash
    have hopen : (s.passed ['/'] (.remark p (depth + 1) (some '/') back)).step inner '*' =
        s.passed ['/', '*'] (.remark p (depth + 2) none back) := by
      rw [step_remark inner rfl]
      rfl
    obtain ⟨last', hl, hrun⟩ :=
      ihInside (s := s.passed ['/', '*'] (.remark p (depth + 2) none back)) rfl (clear_none cs)
    have hstar := step_star inner
      (s := (s.passed ['/', '*'] (.remark p (depth + 2) none back)).passed cs
        (.remark p (depth + 2) last' back)) rfl hl
    have hclose : ∀ t : State, t.mode = .remark p (depth + 2) (some '*') back →
        t.step inner '/' = t.passed ['/'] (.remark p (depth + 1) none back) :=
      fun t ht => step_remark inner ht '/'
    obtain ⟨last'', hl', hrest⟩ := ihRest (s := ((s.passed ('/' :: '*' :: (cs ++ ['*', '/']))
      (.remark p (depth + 1) none back)))) rfl (clear_none ds)
    refine ⟨last'', hl', ?_⟩
    rw [run_cons, hslash, run_cons, hopen, run_append, hrun, run_cons, hstar, run_cons,
      hclose _ rfl, passed_passed, passed_passed, passed_passed]
    simp only [List.cons_append, List.nil_append]
    rw [hrest, passed_passed]
    simp

end

/-- A block comment at the start of a line leads back to the margin. -/
theorem run_marginRemark {m : Margin} (hs : s.mode = .margin m) {cs : List Char} (hcs : Remark cs) :
    s.run inner ('/' :: '*' :: (cs ++ ['*', '/'])) =
      s.passed ('/' :: '*' :: (cs ++ ['*', '/'])) (.marginRemark m) := by
  have hslash : s.step inner '/' = s.passed ['/'] (.marginSlash m s.position) := by
    refine step_of_join ?_
    have hmode : (s.past '/').mode = .margin m := hs
    unfold join
    rw [hmode]
    rfl
  have hopen : (s.passed ['/'] (.marginSlash m s.position)).step inner '*' =
      s.passed ['/', '*'] (.remark s.position 1 none (some m)) := rfl
  obtain ⟨last, hl, hrun⟩ := run_remark inner hcs
    (s := s.passed ['/', '*'] (.remark s.position 1 none (some m))) rfl (clear_none cs)
  have hclose : ∀ t : State, t.mode = .remark s.position 1 (some '*') (some m) →
      t.step inner '/' = t.passed ['/'] (.marginRemark m) :=
    fun t ht => step_remark inner ht '/'
  rw [run_cons, hslash, run_cons, hopen, run_append, hrun, run_cons, step_star inner rfl hl, run_cons,
    run_nil, hclose _ rfl, passed_passed, passed_passed, passed_passed]
  simp

theorem run_afterRemark {m : Margin} (hs : s.mode = .marginRemark m) {bs : List Char}
    (hb : ∀ b ∈ bs, b = ' ' ∨ b = '\t') : s.run inner bs = s.passed bs (.marginRemark m) := by
  induction bs generalizing s with
  | nil =>
    cases s
    cases hs
    rfl
  | cons b bs ih =>
    have hstep : s.step inner b = s.passed [b] (.marginRemark m) := by
      refine step_of_join ?_
      have hmode : (s.past b).mode = .marginRemark m := hs
      unfold join
      rw [hmode]
      refine (if_pos (hb b List.mem_cons_self)).trans (congrArg some ?_)
      cases s
      cases hs
      rfl
    rw [run_cons, hstep, ih rfl fun c hc => hb c (List.mem_cons_of_mem _ hc), passed_passed]
    rfl

theorem run_note (hs : s.mode = .note true) {cs : List Char} (hc : ∀ c ∈ cs, c ≠ '\n') :
    s.run inner cs = s.passed cs (.note true) := by
  induction cs generalizing s with
  | nil =>
    cases s
    cases hs
    rfl
  | cons c cs ih =>
    have hstep : s.step inner c = s.passed [c] (.note true) := by
      refine step_of_join ?_
      have hmode : (s.past c).mode = .note true := hs
      unfold join
      rw [hmode]
      refine (if_pos (hc c List.mem_cons_self)).trans (congrArg some ?_)
      cases s
      cases hs
      rfl
    rw [run_cons, hstep, ih rfl fun d hd => hc d (List.mem_cons_of_mem _ hd), passed_passed]
    rfl

/-- The next line begins. -/
theorem step_lineFeed (hs : s.mode.atLineStart = true) :
    s.step inner '\n' = s.passed ['\n'] (.margin ⟨s.position.after ['\n'], []⟩) := by
  refine step_of_join ?_
  have hmode : (s.past '\n').mode = s.mode := rfl
  unfold join
  rw [hmode]
  cases hm : s.mode with
  | margin m => rfl
  | marginRemark m => rfl
  | note alone =>
    rw [hm] at hs
    obtain rfl : alone = true := hs
    rfl
  | _ =>
    rw [hm] at hs
    cases hs

theorem step_hash {m : Margin} (hs : s.mode = .margin m ∨ s.mode = .marginRemark m) :
    s.step inner '#' = s.passed ['#'] (.note true) := by
  refine step_of_join ?_
  have hmode : (s.past '#').mode = s.mode := rfl
  unfold join
  rw [hmode]
  rcases hs with hs | hs
  · rw [hs]
    rfl
  · rw [hs]
    rfl

/-- Where a line starts, a line that shows no token changes the mode alone, and shows none still. -/
theorem run_skipped {m : Margin} (hs : s.mode = .margin m) {cs : List Char}
    (h : SkippedLine cs) : ∃ n : Mode, n.atLineStart = true ∧ s.run inner cs = s.passed cs n := by
  cases h with
  | blank blanks => exact ⟨_, rfl, run_margin inner hs blanks⟩
  | @note bs cs blanks line =>
    refine ⟨.note true, rfl, ?_⟩
    rw [run_append, run_margin inner hs blanks, run_cons, step_hash inner (.inl rfl), run_note inner rfl line,
      passed_passed, passed_passed]
    simp
  | @remark bs cs ds blanks inside after =>
    have hsplit : bs ++ '/' :: '*' :: (cs ++ '*' :: '/' :: ds) =
        bs ++ (('/' :: '*' :: (cs ++ ['*', '/'])) ++ ds) := by simp
    refine ⟨.marginRemark ⟨m.start, bs.reverse ++ m.blanks⟩, rfl, ?_⟩
    rw [hsplit, run_append, run_margin inner hs blanks, run_append, run_marginRemark inner rfl inside,
      run_afterRemark inner rfl after, passed_passed, passed_passed]
  | @remarkNote bs cs ds es blanks inside after line =>
    have hsplit : bs ++ '/' :: '*' :: (cs ++ '*' :: '/' :: (ds ++ '#' :: es)) =
        bs ++ (('/' :: '*' :: (cs ++ ['*', '/'])) ++ (ds ++ '#' :: es)) := by simp
    refine ⟨.note true, rfl, ?_⟩
    rw [hsplit, run_append, run_margin inner hs blanks, run_append, run_marginRemark inner rfl inside,
      run_append, run_afterRemark inner rfl after, run_cons, step_hash inner (.inr rfl), run_note inner rfl line,
      passed_passed, passed_passed, passed_passed, passed_passed]
    simp

end State

/-- The text ends where a line starts: it is empty, or its last character ended a line outside of brackets,
strings and comments. -/
def AtLine (cs : List Char) : Prop := (scan cs).mode = .margin ⟨(scan cs).position, []⟩

/-- A line that shows no token can be put in where a line starts, and the text has the same tokens. -/
theorem lex_skipped {before after : String} {line : List Char} (hbefore : AtLine before.toList)
    (hline : SkippedLine line) {tokens : List Token} (h : lex (before ++ after) = .ok tokens) :
    ∃ more, lex (before ++ String.ofList line ++ "\n" ++ after) = .ok more ∧
      SameKinds tokens more := by
  obtain ⟨mode, hmode, hrun⟩ := State.run_skipped (inner? nestingLimit) hbefore hline
  have hskip : scan (before ++ String.ofList line ++ "\n").toList =
      (scan before.toList).passed (line ++ ['\n'])
        (.margin ⟨(scan before.toList).position.after (line ++ ['\n']), []⟩) := by
    rw [String.toList_append, String.toList_append, String.toList_ofList, List.append_assoc,
      scan_append, State.run_append, hrun]
    refine (State.step_lineFeed (inner? nestingLimit) hmode).trans ?_
    rw [State.passed_passed]
    congr 3
    exact (Position.after_append _ _ _).symm
  have hsame : (scan before.toList).Alike .any (scan (before ++ String.ofList line ++ "\n").toList) := by
    rw [hskip]
    refine ⟨?_, trivial, rfl, rfl, (SameKinds.refl _).forall₂, Iff.rfl⟩
    rw [hbefore]
    exact .margin ⟨trivial, rfl⟩
  have hfinish := (hsame.run (inner_alike .any nestingLimit) after.toList).finish
  unfold lex at h ⊢
  rw [String.toList_append, scan_append] at h ⊢
  dsimp only at h ⊢
  split at h
  · next hnone =>
    obtain rfl := Except.ok.inj h
    rw [if_pos (List.isEmpty_iff.mpr (hfinish.errors.mp (List.isEmpty_iff.mp hnone)))]
    exact ⟨_, rfl, .of_forall₂ (List.rel_reverse hfinish.tokens)⟩
  · cases h

/-- Between two statements. -/
theorem lex_skipped_between : ∃ tokens more, AtLine "x\n".toList ∧
    SkippedLine "  /* a */ # b".toList ∧ lex ("x\n" ++ "y\n") = .ok tokens ∧
      lex ("x\n" ++ String.ofList "  /* a */ # b".toList ++ "\n" ++ "y\n") = .ok more ∧
      SameKinds tokens more := by
  have hremark : Remark [' ', 'a', ' '] :=
    .char (by decide) (.char (by decide) (.char (by decide) .nil))
  have hblanks : ∀ b ∈ [' ', ' '], b = ' ' ∨ b = '\t' := by simp
  have hafter : ∀ b ∈ [' '], b = ' ' ∨ b = '\t' := by simp
  have hnote : ∀ c ∈ [' ', 'b'], c ≠ '\n' := by simp
  have hline : SkippedLine "  /* a */ # b".toList := .remarkNote hblanks hremark hafter hnote
  have hread : (lex ("x\n" ++ "y\n")).isOk = true := by decide +kernel
  cases h : lex ("x\n" ++ "y\n") with
  | error errors =>
    rw [h] at hread
    cases hread
  | ok tokens =>
    have hbefore : AtLine "x\n".toList := rfl
    obtain ⟨more, hmore, hsame⟩ := lex_skipped hbefore hline h
    exact ⟨tokens, more, hbefore, hline, rfl, hmore, hsame⟩

/-- A line of two block comments is not skipped: it is a line of its own and ends with a token. -/
theorem lex_two_remarks :
    (lex "x\n").toOption.map List.length = some 3 ∧
      (lex "/* a */ /* b */\nx\n").toOption.map List.length = some 4 := by
  decide +kernel

end PipeLang.Scan
