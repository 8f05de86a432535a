import PipeLang.Proofs.Scan.Appended
import PipeLang.Proofs.Scan.Placeless
import PipeLang.Proofs.Scan.Within

/-! Indentation as blocks. Lines that are indented by a unit repeated as often as they are deep give one token
for each level that opens or closes, and between these what each line gives on its own. While the lines are
read, the open frames are the margins of the levels around the line, and no others. -/

namespace PipeLang

theorem SameKinds.replicate (n : Nat) {t u : Token} (h : t.kind = u.kind) (ht : t.kind.isText = false) :
    SameKinds (List.replicate n t) (List.replicate n u) := by
  induction n with
  | zero => exact .nil
  | succ n ih => exact .cons (h ▸ .plain ht) ih

namespace Scan

/-! ## Margins of levels -/

/-- What a level may add to the margin of the one around it. -/
def IndentUnit (u : List Char) : Prop :=
  (∃ n, 2 ≤ n ∧ u = List.replicate n ' ') ∨ ∃ n, 1 ≤ n ∧ u = List.replicate n '\t'

def marginOf (u : List Char) (level : Nat) : List Char := (List.replicate level u).flatten

/-- The margins of a level and of the levels around it, innermost first. -/
def marginsOf (u : List Char) : Nat → List (List Char)
  | 0 => [[]]
  | level + 1 => marginOf u (level + 1) :: marginsOf u level

theorem marginOf_succ (u : List Char) (level : Nat) : marginOf u (level + 1) = marginOf u level ++ u := by
  rw [marginOf, List.replicate_succ', List.flatten_append, List.flatten_singleton, marginOf]

theorem length_marginOf (u : List Char) (level : Nat) : (marginOf u level).length = level * u.length := by
  rw [marginOf, List.length_flatten, List.map_replicate, List.sum_replicate, smul_eq_mul]

theorem headD_marginsOf (u : List Char) (level : Nat) : (marginsOf u level).headD [] = marginOf u level := by
  cases level <;> rfl

namespace IndentUnit

variable {u : List Char} (hu : IndentUnit u)

include hu

theorem pos : 0 < u.length := by
  rcases hu with ⟨n, hn, rfl⟩ | ⟨n, hn, rfl⟩ <;> rw [List.length_replicate] <;> omega

theorem blank {level : Nat} : ∀ b ∈ marginOf u level, b = ' ' ∨ b = '\t' := by
  intro b hb
  obtain ⟨v, hv, hb⟩ := List.mem_flatten.mp hb
  rw [List.eq_of_mem_replicate hv] at hb
  rcases hu with ⟨n, -, rfl⟩ | ⟨n, -, rfl⟩
  · exact .inl (List.eq_of_mem_replicate hb)
  · exact .inr (List.eq_of_mem_replicate hb)

theorem not_mixed {level : Nat} : ¬ (' ' ∈ marginOf u level ∧ '\t' ∈ marginOf u level) := by
  rintro ⟨hspace, htab⟩
  obtain ⟨v, hv, hspace⟩ := List.mem_flatten.mp hspace
  obtain ⟨w, hw, htab⟩ := List.mem_flatten.mp htab
  rw [List.eq_of_mem_replicate hv] at hspace
  rw [List.eq_of_mem_replicate hw] at htab
  rcases hu with ⟨n, -, rfl⟩ | ⟨n, -, rfl⟩
  · exact absurd (List.eq_of_mem_replicate htab) (by decide)
  · exact absurd (List.eq_of_mem_replicate hspace) (by decide)

theorem opensBlock : opensBlock u = true := by
  rcases hu with ⟨n, hn, rfl⟩ | ⟨n, hn, rfl⟩
  · simp [Scan.opensBlock, hn]
  · obtain ⟨k, rfl⟩ : ∃ k, n = k + 1 := ⟨n - 1, by omega⟩
    simp [Scan.opensBlock, List.replicate_succ]

/-- Levels with the same margin are the same. -/
theorem eq_of_marginOf_eq {k l : Nat} (h : marginOf u k = marginOf u l) : k = l := by
  have hlength := congrArg List.length h
  rw [length_marginOf, length_marginOf] at hlength
  exact Nat.eq_of_mul_eq_mul_right hu.pos hlength

theorem marginOf_not_prefix {k l : Nat} (h : l < k) : ¬ marginOf u k <+: marginOf u l := by
  intro hp
  have hlength := hp.length_le
  rw [length_marginOf, length_marginOf] at hlength
  exact absurd (Nat.le_of_mul_le_mul_right hlength hu.pos) (by omega)

/-- The margins inside those of a level are other ones, one for each level. -/
theorem marginsOf_eq_append {k l : Nat} (h : l ≤ k) : ∃ inner, marginsOf u k = inner ++ marginsOf u l ∧
    inner.length = k - l ∧ marginOf u l ∉ inner := by
  induction k with
  | zero =>
    obtain rfl := Nat.le_zero.mp h
    exact ⟨[], rfl, rfl, List.not_mem_nil⟩
  | succ k ih =>
    rcases Nat.lt_or_eq_of_le h with hlt | rfl
    · obtain ⟨inner, happend, hlength, hnot⟩ := ih (Nat.le_of_lt_succ hlt)
      refine ⟨marginOf u (k + 1) :: inner, congrArg (_ :: ·) happend, ?_, ?_⟩
      · rw [List.length_cons, hlength]
        omega
      · rw [List.mem_cons, not_or]
        exact ⟨fun he => absurd (hu.eq_of_marginOf_eq he) (by omega), hnot⟩
    · exact ⟨[], rfl, by simp, List.not_mem_nil⟩

end IndentUnit

/-- The tokens before a line of level `l`, after one of level `k`. -/
def levelMarks (k l : Nat) : List Token :=
  if k < l then [⟨.indent, .origin⟩] else List.replicate (k - l) ⟨.dedent, .origin⟩

namespace State

variable {u : List Char} {s t : State}

/-- A line of level `l` begins where the blocks of level `k` are open. -/
theorem settleMargin_level (hu : IndentUnit u) {k l : Nat} (hs : s.frames = marginsOf u k) (hl : l ≤ k + 1)
    (p : Position) : ∃ marks, SameKinds (levelMarks k l) marks ∧
      s.settleMargin p (marginOf u l) = { s with frames := marginsOf u l, tokens := marks ++ s.tokens } := by
  unfold settleMargin
  dsimp only
  rw [hs, headD_marginsOf]
  rcases Nat.lt_trichotomy l k with hlt | rfl | hgt
  · -- the blocks between the two levels close
    obtain ⟨inner, happend, hlength, hnot⟩ := hu.marginsOf_eq_append hlt.le
    have hpass : ∀ m ∈ inner, (m != marginOf u l) = true := fun m hm => by
      rw [bne_iff_ne]
      rintro rfl
      exact hnot hm
    have hstop : marginsOf u l = marginOf u l :: (marginsOf u l).tail := by
      cases l <;> rfl
    have htake : (marginsOf u k).takeWhile (· != marginOf u l) = inner := by
      rw [happend, List.takeWhile_append_of_pos hpass, hstop]
      simp
    have hdrop : (marginsOf u k).dropWhile (· != marginOf u l) = marginsOf u l := by
      rw [happend, List.dropWhile_append_of_pos hpass]
      conv_lhs => rw [hstop]
      rw [List.dropWhile_cons_of_neg (by simp), ← hstop]
    have hmem : marginOf u l ∈ marginsOf u k := by
      rw [happend, hstop]
      exact List.mem_append_right _ List.mem_cons_self
    rw [if_neg fun he => absurd (hu.eq_of_marginOf_eq he) (by omega), if_neg hu.not_mixed,
      if_neg (hu.marginOf_not_prefix hlt), if_pos hmem]
    unfold closeTo
    dsimp only
    rw [hs, htake, hdrop, List.map_const', hlength]
    refine ⟨_, ?_, rfl⟩
    rw [levelMarks, if_neg (by omega)]
    exact .replicate _ rfl rfl
  · rw [if_pos rfl]
    refine ⟨[], ?_, ?_⟩
    · rw [levelMarks, if_neg (lt_irrefl _), Nat.sub_self]
      exact .nil
    · cases s
      cases hs
      rfl
  · obtain rfl : l = k + 1 := by omega
    have hgrows : marginOf u k <+: marginOf u (k + 1) := ⟨u, (marginOf_succ u k).symm⟩
    have hadded : (marginOf u (k + 1)).drop (marginOf u k).length = u := by
      rw [marginOf_succ, List.drop_left]
    rw [if_neg fun he => absurd (hu.eq_of_marginOf_eq he) (by omega), if_neg hu.not_mixed, if_pos hgrows,
      hadded, if_pos hu.opensBlock]
    refine ⟨[_], ?_, rfl⟩
    rw [levelMarks, if_pos (Nat.lt_succ_self k)]
    exact .cons (.plain rfl) .nil

/-! ## Lines that are still to end -/

/-- The lines that have ended, and the one that has shown a token. -/
def linesDue (s : State) : Nat :=
  s.tokens.countP (·.kind.isNewline) + if s.mode.atMargin then 0 else 1

variable {inner : Option Inner} {c : Char}

theorem Effect.linesDue_le (h : Effect inner c s t) : s.linesDue ≤ t.linesDue := by
  have hready : ∀ {m : Mode}, m = .ready → m.atMargin = false := by
    rintro _ rfl
    rfl
  have hcount := h.tokens_suffix.sublist.countP_le (p := fun x : Token => x.kind.isNewline)
  unfold linesDue
  cases h with
  | pass tokens brackets frames margin =>
    rw [tokens]
    cases ht : t.mode.atMargin with
    | true => simp [margin ht]
    | false => split <;> simp
  | token tokens kind brackets frames ready => simp only [hready ready]; split <;> simp <;> omega
  | line char tokens kind closed brackets frames margin =>
    rw [tokens, List.countP_cons, kind]
    simp only [TokenKind.isNewline, if_true]
    split <;> omega
  | indent margin tokens kind brackets frames grows ready => simp only [hready ready]; split <;> simp <;> omega
  | dedent margin outer tokens brackets frames ready => simp only [hready ready]; split <;> simp <;> omega

theorem Effects.linesDue_le (h : Effects inner c s t) : s.linesDue ≤ t.linesDue :=
  h.keep (P := fun u => s.linesDue ≤ u.linesDue) (fun _ _ he hs => hs.trans he.linesDue_le) le_rfl

theorem linesDue_le_run {cs : List Char} (h : (s.run inner cs).errors = []) :
    s.linesDue ≤ (s.run inner cs).linesDue :=
  run_keeps (P := fun u => s.linesDue ≤ u.linesDue) (fun _ _ _ _ he hs => hs.trans he.linesDue_le) h le_rfl

theorem linesDue_of_atMargin (hs : s.mode.atMargin = true) :
    s.linesDue = s.tokens.countP (·.kind.isNewline) := by
  rw [linesDue, if_pos hs, Nat.add_zero]

theorem linesDue_of_ready (hs : s.mode = .ready) :
    s.linesDue = s.tokens.countP (·.kind.isNewline) + 1 := by
  rw [linesDue, hs]
  rfl

theorem errors_of_step_none (hj : (s.past c).join inner s.position c = none)
    (h : (s.step inner c).errors = []) : s.settle.errors = [] := by
  rw [step_of_none hj] at h
  have hsuffix := errors_suffix_start (s.settle.past c) s.settle.position c
  rw [h] at hsuffix
  exact List.suffix_nil.mp hsuffix

theorem settle_linesDue_le_step (hj : (s.past c).join inner s.position c = none)
    (h : (s.step inner c).errors = []) : s.settle.linesDue ≤ (s.step inner c).linesDue := by
  rw [step_of_none hj] at h ⊢
  have hpast : Effect inner c s.settle (s.settle.past c) := effect_past c
  exact Effects.linesDue_le (.head hpast (.single (effect_start h)))

/-- The line that shows its first token is due. -/
theorem linesDue_lt_step (hs : s.mode.atMargin = true) (hj : (s.past c).join inner s.position c = none)
    (h : (s.step inner c).errors = []) : s.linesDue < (s.step inner c).linesDue := by
  have hsettle : Effects inner c s s.settle := effects_settle (errors_of_step_none hj h)
  have hcount := hsettle.tokens_suffix.sublist.countP_le (p := fun x : Token => x.kind.isNewline)
  have hdue := settle_linesDue_le_step hj h
  rw [linesDue_of_ready s.settle_ready] at hdue
  rw [linesDue_of_atMargin hs]
  omega

variable {frames : List (List Char)} {under : List Token}

/-- A text of one line is read in the blocks as it is read alone: up to the end of the line no margin
matters, and after that none is left. -/
theorem within_run (h : (s.within frames [] under).Alike .any t) {cs : List Char} {levels : Nat}
    (herrors : (s.run (inner? levels) cs).errors = []) (hopen : 1 ≤ s.linesDue)
    (hlines : (s.run (inner? levels) cs).linesDue ≤ 1) :
    ((s.run (inner? levels) cs).within frames [] under).Alike .any (t.run (inner? levels) cs) := by
  induction cs generalizing s t with
  | nil => exact h
  | cons c cs ih =>
    have hstep := errors_of_run_cons herrors
    rw [run_cons] at herrors hlines
    have hdue : s.linesDue ≤ (s.step (inner? levels) c).linesDue := (effects_step hstep).linesDue_le
    have hmargin : (s.past c).join (inner? levels) s.position c = none → s.mode.atMargin = false := by
      intro hj
      by_contra hm
      have hnext := linesDue_lt_step (Bool.eq_true_of_not_eq_false hm) hj hstep
      have hrest := linesDue_le_run herrors
      omega
    have hboth := h.step (inner_alike .any levels) c
    rw [within_step frames [] under hmargin (.inl rfl)] at hboth
    exact ih hboth herrors (hopen.trans hdue) hlines

/-- The same from the first token of the text on, which settles the margin of its line. -/
theorem within_run_first (h : (s.settle.within frames [] under).Alike .any t.settle) {levels : Nat}
    {cs : List Char} (hmargin : s.mode.atMargin = true)
    (hs : (s.past c).join (inner? levels) s.position c = none)
    (ht : (t.past c).join (inner? levels) t.position c = none)
    (herrors : (s.run (inner? levels) (c :: cs)).errors = [])
    (hlines : (s.run (inner? levels) (c :: cs)).linesDue ≤ 1) :
    ((s.run (inner? levels) (c :: cs)).within frames [] under).Alike .any (t.run (inner? levels) (c :: cs)) := by
  have hstep := errors_of_run_cons herrors
  have hdue := linesDue_lt_step hmargin hs hstep
  have hopen : 1 ≤ (s.step (inner? levels) c).linesDue := by omega
  rw [run_cons] at herrors hlines ⊢
  refine within_run ?_ herrors hopen hlines
  rw [step_of_none hs, step_of_none ht, ← within_start frames [] under (.inl rfl), ← within_past]
  exact .start trivial (h.past c) c

/-! ## One line -/

/-- Before a line, where the blocks of a level are open and the tokens are those of `lines`. -/
structure AtLevel (u : List Char) (level : Nat) (lines : List Token) (s : State) : Prop where
  mode : ∃ p, s.mode = .margin ⟨p, []⟩
  frames : s.frames = marginsOf u level
  brackets : s.brackets = []
  tokens : SameKinds lines.reverse s.tokens
  errors : s.errors = []

/-- A character that neither is a blank nor begins a comment on its own. -/
def Visible (c : Char) : Prop := c ≠ ' ' ∧ c ≠ '\t' ∧ c ≠ '\r' ∧ c ≠ '\n' ∧ c ≠ '#'

instance (c : Char) : Decidable (Visible c) := inferInstanceAs (Decidable (_ ∧ _))

theorem join_margin_visible (inner : Option Inner) {m : Margin} (hs : s.mode = .margin m) (hc : Visible c) :
    (s.past c).join inner s.position c =
      if c = '/' then some ((s.past c).become (.marginSlash m s.position)) else none := by
  obtain ⟨hspace, htab, hreturn, hfeed, hnote⟩ := hc
  have hmode : (s.past c).mode = .margin m := hs
  unfold join
  rw [hmode]
  simp [margin, hspace, htab, hreturn, hfeed, hnote]

/-- Nothing but blanks and the beginning of a comment has been read, on a line of level 0. -/
structure Fresh (s : State) : Prop where
  frames : s.frames = [[]]
  brackets : s.brackets = []
  tokens : s.tokens = []
  errors : s.errors = []

/-- A line of level `l` shows its first token, after lines in a block of level `k`. -/
theorem settled_level {u : List Char} (hu : IndentUnit u) {k l : Nat} (hl : l ≤ k + 1) {lines : List Token}
    (hs : s.Fresh) (hframes : t.frames = marginsOf u k) (hbrackets : t.brackets = [])
    (htokens : SameKinds lines.reverse t.tokens) (herrors : t.errors = []) {m n : Margin}
    (hm : m.blanks = []) (hn : n.blanks.reverse = marginOf u l) :
    ((s.leaveMargin m).within (marginsOf u l) [] (lines ++ levelMarks k l).reverse).Alike .any
      (t.leaveMargin n) := by
  have hsame : s.leaveMargin m = s.become .ready := by
    unfold leaveMargin
    rw [hm, List.reverse_nil, settleMargin, if_pos (by rw [hs.frames]; rfl)]
  obtain ⟨marks, hmarks, hsettle⟩ := settleMargin_level hu hframes hl n.start
  have hreverse : (levelMarks k l).reverse = levelMarks k l := by
    unfold levelMarks
    split
    · rfl
    · exact List.reverse_replicate
  rw [hsame, leaveMargin, hn, hsettle]
  refine ⟨.ready, trivial, rfl, ?_, ?_, ?_⟩
  · simp [within, become, hs.brackets, hbrackets]
  · change List.Forall₂ _ (s.tokens ++ _) (marks ++ t.tokens)
    refine SameKinds.forall₂ ?_
    rw [hs.tokens, List.nil_append, List.reverse_append, hreverse]
    exact hmarks.append htokens
  · simp [within, become, hs.errors, herrors]

/-- From the start of a line on, the text of the line is read in its blocks. -/
theorem within_line {u : List Char} (hu : IndentUnit u) {k l : Nat} (hl : l ≤ k + 1) {lines : List Token}
    (ht : t.AtLevel u k lines) {c : Char} {cs : List Char} (hc : Visible c)
    (hremark : ¬ ['/', '*'] <+: c :: cs) {levels : Nat}
    (herrors : (initial.run (inner? levels) (c :: (cs ++ ['\n']))).errors = [])
    (hlines : (initial.run (inner? levels) (c :: (cs ++ ['\n']))).linesDue ≤ 1) :
    ((initial.run (inner? levels) (c :: (cs ++ ['\n']))).within (marginsOf u l) []
      (lines ++ levelMarks k l).reverse).Alike .any
        (t.run (inner? levels) (marginOf u l ++ c :: (cs ++ ['\n']))) := by
  obtain ⟨⟨p, hmode⟩, hframes, hbrackets, htokens, hnone⟩ := ht
  rw [run_append, run_margin _ hmode hu.blank, List.append_nil]
  set m : Margin := ⟨p, (marginOf u l).reverse⟩
  set t' := t.passed (marginOf u l) (.margin m)
  have hm : m.blanks.reverse = marginOf u l := List.reverse_reverse _
  have hs := join_margin_visible (inner? levels) (s := initial) rfl hc
  have ht' := join_margin_visible (inner? levels) (s := t') rfl hc
  have hfresh : initial.Fresh := ⟨rfl, rfl, rfl, rfl⟩
  by_cases hslash : c = '/'
  · -- the character after the slash is the one that settles the margin
    subst hslash
    rw [if_pos rfl] at hs ht'
    obtain ⟨d, ds, hd⟩ : ∃ d ds, cs ++ ['\n'] = d :: ds := List.exists_cons_of_ne_nil (by simp)
    have hstar : d ≠ '*' := by
      rintro rfl
      cases cs with
      | nil => cases hd
      | cons e es =>
        obtain ⟨rfl, -⟩ := List.cons_eq_cons.mp hd
        exact hremark ⟨es, rfl⟩
    rw [hd, run_cons, step_of_join hs] at herrors hlines
    rw [hd, run_cons _ initial, run_cons _ t', step_of_join hs, step_of_join ht']
    refine within_run_first ?_ rfl (if_neg hstar) (if_neg hstar) herrors hlines
    have hsettled := settled_level hu hl (s := (initial.past '/').become (.marginSlash ⟨.origin, []⟩ .origin))
      (t := (t'.past '/').become (.marginSlash m t'.position)) ⟨rfl, rfl, rfl, rfl⟩ hframes hbrackets
      htokens hnone (m := ⟨.origin, []⟩) rfl hm
    exact .emit trivial hsettled rfl
  · rw [if_neg hslash] at hs ht'
    exact within_run_first (settled_level (t := t') hu hl hfresh hframes hbrackets htokens hnone rfl hm) rfl
      hs ht' herrors hlines

theorem tokens_of_closing {blocks : List (List Char)} (hframes : s.frames = blocks ++ [[]]) (hb : [] ∉ blocks)
    {ts : List Token} {n last : Token} (hn : n.kind = .newline)
    (h : s.closeAll.emitEof.tokenList = ts ++ [n, last]) : s.tokens = n :: ts.reverse := by
  have htokens : s.closeAll.emitEof.tokens = last :: n :: ts.reverse := by
    rw [tokenList, List.reverse_eq_iff] at h
    simpa using h
  have hclose := (List.cons_eq_cons.mp htokens).2
  have hclose : s.closeAll.tokens = n :: ts.reverse := hclose
  rw [closeAll_tokens hframes hb] at hclose
  cases hlength : s.frames.length - 1 with
  | zero =>
    rw [hlength] at hclose
    exact hclose
  | succ k =>
    rw [hlength, List.replicate_succ, List.cons_append] at hclose
    rw [← (List.cons_eq_cons.mp hclose).1] at hn
    cases hn

/-- A line feed is part of comments alone, and of what stands before the first token of a line. -/
theorem join_lineFeed (inner : Option Inner) (hs : s.mode.atLineStart = false)
    (hremark : s.settle.errors = []) : (s.past '\n').join inner s.position '\n' = none := by
  have hmode : (s.past '\n').mode = s.mode := rfl
  unfold join
  rw [hmode]
  cases hm : s.mode with
  | margin m => rw [hm] at hs; cases hs
  | marginRemark m => rw [hm] at hs; cases hs
  | note alone =>
    rw [hm] at hs
    obtain rfl : alone = false := hs
    rfl
  | remark opened depth last back =>
    unfold settle at hremark
    rw [hm] at hremark
    cases hremark
  | _ => rfl

end State

open State

/-- The end of a text that is one line settles what is pending and ends the line. -/
theorem settle_line {text : String} {ts : List Token} {n last : Token} (h : lex text = .ok (ts ++ [n, last]))
    (hn : n.kind = .newline) (hclosed : openBrackets [] ts = some [])
    (hstart : (scan text.toList).mode.atLineStart = false) :
    (scan text.toList).settle.errors = [] ∧ (scan text.toList).settle.brackets = [] ∧
      (scan text.toList).settle.tokens = ts.reverse := by
  obtain ⟨hfinish, htokens⟩ := lex_eq_ok.mp h
  have horderly := orderly_scan (scan_errors h)
  generalize scan text.toList = s at *
  unfold finish at hfinish htokens
  rw [hstart] at hfinish htokens
  have heffects : Effects (inner? nestingLimit) '\n' s s.settle := effects_settle hfinish
  have hsettle : s.settle.Orderly := heffects.keep (fun _ _ he h => h.effect he) horderly
  obtain ⟨blocks, hframes, hb⟩ := hsettle.frames
  have hline := tokens_of_closing (s := s.settle.emit s.settle.position .newline) hframes hb hn htokens
  obtain ⟨-, hline⟩ := List.cons_eq_cons.mp hline
  have hopens := hsettle.bracketed.opens
  rw [hline, List.reverse_reverse, hclosed] at hopens
  exact ⟨hfinish, List.map_eq_nil_iff.mp (Option.some.inj hopens).symm, hline⟩

/-- A line feed ends the line of a text that is one line. -/
theorem scan_line {text : String} {ts : List Token} {n last : Token} (h : lex text = .ok (ts ++ [n, last]))
    (hn : n.kind = .newline) (hclosed : openBrackets [] ts = some []) :
    (∃ p, (scan (text.toList ++ ['\n'])).mode = .margin ⟨p, []⟩) ∧
    (scan (text.toList ++ ['\n'])).brackets = [] ∧ (scan (text.toList ++ ['\n'])).errors = [] ∧
    ∃ n', n'.kind = .newline ∧ (scan (text.toList ++ ['\n'])).tokens = n' :: ts.reverse := by
  have hscan := scan_errors h
  rw [scan_append, run_cons, run_nil]
  cases hstart : (scan text.toList).mode.atLineStart with
  | true =>
    have horderly := orderly_scan hscan
    obtain ⟨-, htokens⟩ := lex_eq_ok.mp h
    generalize scan text.toList = s at *
    unfold finish at htokens
    rw [hstart] at htokens
    obtain ⟨blocks, hframes, hb⟩ := horderly.frames
    have hline := tokens_of_closing hframes hb hn htokens
    rw [step_lineFeed _ hstart]
    exact ⟨⟨_, rfl⟩, (horderly.margin (atMargin_of_atLineStart hstart)).1, hscan, n, hn, hline⟩
  | false =>
    obtain ⟨hsettle, hbrackets, hline⟩ := settle_line h hn hclosed hstart
    generalize scan text.toList = s at *
    rw [step_of_none (join_lineFeed _ hstart hsettle)]
    have hend : (s.settle.past '\n').start s.settle.position '\n' =
        ((s.settle.past '\n').emit s.settle.position .newline).become
          (.margin ⟨s.settle.position.advance '\n', []⟩) := by
      have hopen : (s.settle.past '\n').brackets.isEmpty = true := by
        rw [show (s.settle.past '\n').brackets = s.settle.brackets from rfl, hbrackets]
        rfl
      exact if_pos hopen
    rw [hend]
    exact ⟨⟨_, rfl⟩, hbrackets, hsettle, _, rfl, congrArg (_ :: ·) hline⟩

/-! ## Whole texts -/

/-- A line with the tokens that its text gives on its own. -/
structure BlockLine where
  level : Nat
  text : String
  tokens : List Token

namespace BlockLine

/-- The text begins with a token and is a line of its own, with all its brackets closed. -/
structure Stands (line : BlockLine) : Prop where
  first : ∃ c cs, line.text.toList = c :: cs ∧ Visible c ∧ ¬ ['/', '*'] <+: c :: cs
  read : ∃ newline eof, lex line.text = .ok (line.tokens ++ [newline, eof]) ∧ newline.kind = .newline ∧
    eof.kind = .eof
  no_layout : ∀ t ∈ line.tokens, t.kind.isLayout = false
  closed : openBrackets [] line.tokens = some []

def written (u : List Char) (line : BlockLine) : List Char :=
  marginOf u line.level ++ (line.text.toList ++ ['\n'])

end BlockLine

/-- What lines after one of level `k` give: the marks of the levels that open and close, the tokens of each
line and its end, and after the last line the ends of all blocks and of the text. -/
def blockTokens (k : Nat) : List BlockLine → List Token
  | [] => List.replicate k ⟨.dedent, .origin⟩ ++ [⟨.eof, .origin⟩]
  | line :: rest =>
    levelMarks k line.level ++ line.tokens ++ ⟨.newline, .origin⟩ :: blockTokens line.level rest

variable {u : List Char}

namespace State

/-- One line of a level leads to the next one. -/
theorem AtLevel.line (hu : IndentUnit u) {k : Nat} {lines : List Token} {s : State}
    (hs : s.AtLevel u k lines) {line : BlockLine} (hline : line.Stands) (hl : line.level ≤ k + 1) :
    (s.run (inner? nestingLimit) (line.written u)).AtLevel u line.level
      (lines ++ levelMarks k line.level ++ line.tokens ++ [⟨.newline, .origin⟩]) := by
  obtain ⟨c, cs, htext, hvisible, hremark⟩ := hline.first
  obtain ⟨newline, eof, hread, hnewline, -⟩ := hline.read
  obtain ⟨⟨p, hmode⟩, hbrackets, herrors, n, hn, htokens⟩ := scan_line hread hnewline hline.closed
  have hdue : (scan (line.text.toList ++ ['\n'])).linesDue ≤ 1 := by
    have hnone : line.tokens.reverse.countP (·.kind.isNewline) = 0 := by
      rw [List.countP_eq_zero]
      intro t ht hk
      have hlayout := hline.no_layout t (List.mem_reverse.mp ht)
      cases hkind : t.kind with
      | newline => rw [hkind] at hlayout; cases hlayout
      | _ => rw [hkind] at hk; cases hk
    rw [linesDue_of_atMargin (by rw [hmode]; rfl), htokens, List.countP_cons, hnone]
    split <;> omega
  have hwhole : line.text.toList ++ ['\n'] = c :: (cs ++ ['\n']) := by rw [htext]; rfl
  rw [hwhole] at herrors hdue
  have hsame := within_line hu hl hs hvisible hremark herrors hdue
  rw [← hwhole, show initial.run _ _ = scan _ from rfl] at hsame
  unfold BlockLine.written
  generalize s.run (inner? nestingLimit) _ = t at hsame ⊢
  obtain ⟨hmodes, -, hframes, hopen, hkinds, hnone⟩ := hsame
  refine ⟨?_, hframes.symm, ?_, ?_, ?_⟩
  · rw [within_mode, hmode] at hmodes
    generalize t.mode = mode at hmodes ⊢
    cases hmodes with
    | @margin _ m same => exact ⟨m.start, by rw [show m = ⟨m.start, m.blanks⟩ from rfl, ← same.blanks]⟩
  · rw [within, hbrackets] at hopen
    exact List.map_eq_nil_iff.mp hopen.symm
  · rw [within, htokens] at hkinds
    dsimp only at hkinds
    generalize t.tokens = tokens at hkinds ⊢
    cases hkinds with
    | cons same rest =>
      have hkind := same.kind
      rw [hn] at hkind
      simpa using SameKinds.cons (t := ⟨.newline, .origin⟩) hkind (.of_forall₂ rest)
  · exact hnone.mp (hwhole ▸ herrors)

/-- The text ends after a line of level `k`. -/
theorem AtLevel.finish (hu : IndentUnit u) {k : Nat} {lines : List Token} {s : State}
    (hs : s.AtLevel u k lines) :
    s.finish.errors = [] ∧ SameKinds (lines ++ blockTokens k []) s.finish.tokenList := by
  obtain ⟨⟨p, hmode⟩, hframes, hbrackets, htokens, hnone⟩ := hs
  obtain ⟨inner, happend, hlength, hnot⟩ := hu.marginsOf_eq_append (Nat.zero_le k)
  have hfinish : s.finish = s.closeAll.emitEof := by
    unfold State.finish
    rw [hmode]
    rfl
  have hclose : s.closeAll.tokens = List.replicate k ⟨.dedent, s.position.to s.position⟩ ++ s.tokens := by
    rw [closeAll_tokens (hframes.trans happend) hnot, hframes, happend, List.length_append, hlength]
    rfl
  rw [hfinish]
  refine ⟨hnone, ?_⟩
  have heof : s.closeAll.emitEof.tokenList =
      s.tokens.reverse ++ (List.replicate k ⟨.dedent, s.position.to s.position⟩ ++
        [⟨.eof, s.position.to s.position⟩]) := by
    show (_ :: s.closeAll.tokens).reverse = _
    rw [hclose]
    simp [closeAll, closeTo]
  rw [heof]
  have hlines := htokens.reverse
  rw [List.reverse_reverse] at hlines
  refine hlines.append (SameKinds.append ?_ ?_)
  · exact .replicate k rfl rfl
  · exact .cons (.plain rfl) .nil

/-- By induction on the lines: each is read where the one before it has left the level. -/
theorem AtLevel.run (hu : IndentUnit u) {k : Nat} {lines : List BlockLine}
    (hsteps : (k :: lines.map BlockLine.level).IsChain fun k l => l ≤ k + 1)
    (hlines : ∀ line ∈ lines, line.Stands) {before : List Token} {s : State} (hs : s.AtLevel u k before) :
    let t := s.run (inner? nestingLimit) (lines.flatMap (BlockLine.written u))
    t.finish.errors = [] ∧ SameKinds (before ++ blockTokens k lines) t.finish.tokenList := by
  induction lines generalizing k before s with
  | nil => exact hs.finish hu
  | cons line rest ih =>
    rw [List.map_cons, List.isChain_cons_cons] at hsteps
    have hline := hs.line hu (hlines line List.mem_cons_self) hsteps.1
    rw [List.flatMap_cons, run_append]
    simpa [blockTokens] using ih hsteps.2 (fun l hl => hlines l (List.mem_cons_of_mem _ hl)) hline

end State

/-- Lines that are indented by their levels, each level a unit deeper than the one around it, are read as
blocks: a level that opens gives one token, as does each one that closes, and between them stand the tokens
that the lines give on their own. -/
theorem lex_blocks (hu : IndentUnit u) {lines : List BlockLine}
    (hfirst : ∀ line ∈ lines.head?, line.level = 0)
    (hsteps : (lines.map BlockLine.level).IsChain fun k l => l ≤ k + 1)
    (hlines : ∀ line ∈ lines, line.Stands) :
    ∃ tokens, lex (String.ofList (lines.flatMap (BlockLine.written u))) = .ok tokens ∧
      SameKinds (blockTokens 0 lines) tokens := by
  have hchain : (0 :: lines.map BlockLine.level).IsChain fun k l => l ≤ k + 1 := by
    cases lines with
    | nil => exact .singleton _
    | cons line rest => exact .cons_cons (by rw [hfirst line rfl]; omega) hsteps
  have hstart : State.initial.AtLevel u 0 [] := ⟨⟨_, rfl⟩, rfl, rfl, .nil, rfl⟩
  obtain ⟨herrors, hkinds⟩ := hstart.run hu hchain hlines
  refine ⟨_, lex_eq_ok.mpr ⟨?_, rfl⟩, ?_⟩
  · rw [String.toList_ofList]
    exact herrors
  · rw [String.toList_ofList]
    exact hkinds

/-- Two blocks that end together, one of them with a bracket over two lines. -/
theorem lex_blocks_tabs :
    let lines : List BlockLine := [
      ⟨0, "a", [⟨.ident "a", ⟨0, 1, 1, 1⟩⟩]⟩,
      ⟨1, "[\n]", [⟨.punctuation .lbracket, ⟨0, 1, 1, 1⟩⟩, ⟨.punctuation .rbracket, ⟨2, 3, 2, 1⟩⟩]⟩,
      ⟨2, "/", [⟨.operator .slash, ⟨0, 1, 1, 1⟩⟩]⟩,
      ⟨0, "b # c", [⟨.ident "b", ⟨0, 1, 1, 1⟩⟩]⟩]
    IndentUnit ['\t'] ∧ (∀ line ∈ lines.head?, line.level = 0) ∧
      ((lines.map BlockLine.level).IsChain fun k l => l ≤ k + 1) ∧ (∀ line ∈ lines, line.Stands) ∧
      ∃ tokens, lex (String.ofList (lines.flatMap (BlockLine.written ['\t']))) = .ok tokens ∧
        SameKinds (blockTokens 0 lines) tokens := by
  intro lines
  have hunit : IndentUnit ['\t'] := .inr ⟨1, le_rfl, rfl⟩
  have hfirst : ∀ line ∈ lines.head?, line.level = 0 := fun line hline => by
    obtain rfl := Option.some.inj hline
    rfl
  have hsteps : (lines.map BlockLine.level).IsChain fun k l => l ≤ k + 1 := by decide
  have hlines : ∀ line ∈ lines, line.Stands := by
    simp only [lines, List.forall_mem_cons]
    have hplain : ∀ {text : String} {c : Char} {cs : List Char}, text.toList = c :: cs → Visible c →
        cs.head? ≠ some '*' → ∃ c cs, text.toList = c :: cs ∧ Visible c ∧ ¬ ['/', '*'] <+: c :: cs := by
      rintro text c cs htext hc hstar
      refine ⟨c, cs, htext, hc, ?_⟩
      rintro ⟨rest, hrest⟩
      obtain ⟨-, rfl⟩ := List.cons_eq_cons.mp hrest
      exact hstar rfl
    refine ⟨⟨hplain rfl (by decide) (by decide), ⟨_, _, rfl, rfl, rfl⟩, by simp [TokenKind.isLayout], rfl⟩,
      ⟨hplain rfl (by decide) (by decide), ⟨_, _, rfl, rfl, rfl⟩, by simp [TokenKind.isLayout], rfl⟩,
      ⟨hplain rfl (by decide) (by decide), ⟨_, _, rfl, rfl, rfl⟩, by simp [TokenKind.isLayout], rfl⟩,
      ⟨hplain rfl (by decide) (by decide), ⟨_, _, rfl, rfl, rfl⟩, by simp [TokenKind.isLayout], rfl⟩,
      fun _ h => by cases h⟩
  exact ⟨hunit, hfirst, hsteps, hlines, lex_blocks hunit hfirst hsteps hlines⟩

end Scan

end PipeLang
