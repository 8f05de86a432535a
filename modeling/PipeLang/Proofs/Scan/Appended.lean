import PipeLang.Proofs.Scan.Lossless
import PipeLang.Proofs.Scan.Regular
import PipeLang.Proofs.Scan.Shift
import PipeLang.Proofs.Scan.SkippedLine

/-! A text put after another one, where a line starts. The blocks that are open there end before the first
token of the second text, and from that token on the scanner does what it does with the second text alone,
further on. -/

namespace PipeLang.Scan

namespace State

variable {inner : Option Inner} {c : Char} {s t : State}

/-- No token is taken back. -/
theorem Effect.tokens_suffix (h : Effect inner c s t) : s.tokens <:+ t.tokens := by
  cases h with
  | pass tokens => rw [tokens]
  | token tokens => rw [tokens]; exact List.suffix_cons _ _
  | line _ tokens => rw [tokens]; exact List.suffix_cons _ _
  | indent _ tokens => rw [tokens]; exact List.suffix_cons _ _
  | dedent _ _ tokens => rw [tokens]; exact List.suffix_append _ _

theorem Effects.tokens_suffix (h : Effects inner c s t) : s.tokens <:+ t.tokens :=
  h.keep (P := fun u => s.tokens <:+ u.tokens) (fun _ _ he hs => hs.trans he.tokens_suffix) List.suffix_rfl

theorem tokens_suffix_closing (s : State) : s.tokens <:+ s.closeAll.emitEof.tokens :=
  (List.suffix_append _ _).trans (List.suffix_cons _ _)

theorem tokens_suffix_finish (h : s.finish.errors = []) : s.tokens <:+ s.finish.tokens := by
  unfold finish at h ⊢
  split at h
  · next hstart =>
    rw [if_pos hstart]
    exact tokens_suffix_closing s
  · next hstart =>
    rw [if_neg hstart]
    have hsettle : Effects none '\n' s s.settle := effects_settle h
    exact hsettle.tokens_suffix.trans ((List.suffix_cons _ _).trans
      (tokens_suffix_closing (s.settle.emit s.settle.position .newline)))

/-- The first token of a text is that of a block. -/
def Indented (s : State) : Prop := ∃ u, s.tokens.getLast? = some u ∧ u.kind = .indent

theorem Indented.suffix (h : s.Indented) (hs : s.tokens <:+ t.tokens) : t.Indented := by
  obtain ⟨u, hlast, hu⟩ := h
  obtain ⟨more, hmore⟩ := hs
  refine ⟨u, ?_, hu⟩
  rw [← hmore, List.getLast?_append, hlast]
  rfl

variable {d : Shift} {frames blocks : List (List Char)} {lines : List Token}

theorem closeTo_nil (hf : s.frames = blocks ++ [[]]) (hb : [] ∉ blocks) (p : Position) :
    s.closeTo [] p = { s with
      frames := [[]]
      tokens := List.replicate (s.frames.length - 1) ⟨.dedent, p.to p⟩ ++ s.tokens } := by
  have hdrop : s.frames.dropWhile (· != []) = [[]] := by
    rw [hf, List.dropWhile_append_of_pos fun b hmem => by
      rw [bne_iff_ne]
      rintro rfl
      exact hb hmem]
    rfl
  have htokens := closeAll_tokens (s := { s with position := p }) hf hb
  unfold closeTo
  dsimp only
  rw [hdrop]
  exact congrArg (fun ts => { s with frames := [[]], tokens := ts }) htokens

/-- A line without a margin closes all blocks. -/
theorem settleMargin_nil (hf : s.frames = blocks ++ [[]]) (hb : [] ∉ blocks) (p : Position) :
    s.settleMargin p [] = s.closeTo [] p := by
  unfold settleMargin
  dsimp only
  by_cases htop : [] = s.frames.headD []
  · cases blocks with
    | nil =>
      rw [if_pos htop, closeTo_nil hf hb]
      obtain ⟨mode, position, frames, brackets, tokens, errors⟩ := s
      obtain rfl : frames = [[]] := hf
      rfl
    | cons b outer =>
      rw [hf] at htop
      exact absurd (htop ▸ List.mem_cons_self) hb
  · have hnot : ¬ s.frames.headD [] <+: [] := fun h => htop (List.prefix_nil.mp h).symm
    rw [if_neg htop, if_neg (by simp), if_neg hnot, if_pos (by simp [hf])]
    rfl

/-- The state as it is inside the blocks with the margins `frames`. -/
def inBlocks (frames : List (List Char)) (s : State) : State := { s with frames }

/-- The line after `s` shows its first token: it has no margin, or it opens a block. -/
theorem leaveMargin_rejoins (lines : List Token) (hframes : frames = blocks ++ [[]]) (hb : [] ∉ blocks)
    (houter : s.frames = [[]]) (hnone : s.tokens = []) {m : Margin}
    (h : (s.leaveMargin m).errors = []) :
    (∃ p : Position, ((s.shift d lines).inBlocks frames).leaveMargin (m.shift d) =
      (s.leaveMargin m).shift d (List.replicate (frames.length - 1) ⟨.dedent, p.to p⟩ ++ lines)) ∨
    (s.leaveMargin m).Indented := by
  unfold leaveMargin at h ⊢
  rw [show (m.shift d).blanks = m.blanks from rfl, show (m.shift d).start = m.start.shift d from rfl]
  by_cases hm : m.blanks.reverse = []
  · left
    have hs : s.settleMargin m.start [] = s := by
      unfold settleMargin
      rw [houter]
      rfl
    rw [hm, hs, settleMargin_nil (s := (s.shift d lines).inBlocks frames) hframes hb,
      closeTo_nil (s := (s.shift d lines).inBlocks frames) hframes hb]
    refine ⟨m.start.shift d, ?_⟩
    simp [houter, hnone, inBlocks, shift, become, Mode.shift]
  · right
    unfold settleMargin at h ⊢
    simp only [houter, List.headD_cons, hm, if_false, List.nil_prefix, if_true] at h ⊢
    split at h
    · cases h
    next hmixed =>
    rw [if_neg hmixed]
    split at h
    · next hopens =>
      rw [if_pos hopens]
      exact ⟨_, by rw [become, hnone]; rfl, rfl⟩
    · cases h

theorem shift_atMargin (m : Mode) : (m.shift d).atMargin = m.atMargin := by
  cases m with
  | remark opened depth last back => cases back <;> rfl
  | _ => rfl

/-- Up to the first token of a line the open blocks are left as they are, and nothing depends on them. -/
theorem join_atMargin (inner : Option Inner) (frames : List (List Char)) (hs : s.mode.atMargin = true)
    (p : Position) (c : Char) :
    (s.inBlocks frames).join inner p c = (s.join inner p c).map (inBlocks frames) ∧
      ∀ t ∈ s.join inner p c,
        t.mode.atMargin = true ∧ t.frames = s.frames ∧ t.tokens = s.tokens := by
  unfold join
  rw [show (s.inBlocks frames).mode = s.mode from rfl]
  cases hm : s.mode with
  | margin m =>
    simp only [margin]
    repeat' split
    all_goals simp [inBlocks, become, Mode.atMargin]
  | marginSlash m slash =>
    simp only
    split <;> simp [inBlocks, become, Mode.atMargin]
  | marginRemark m =>
    simp only
    repeat' split
    all_goals simp [inBlocks, become, Mode.atMargin, hm]
  | note alone =>
    rw [hm] at hs
    obtain rfl : alone = true := hs
    simp only [if_true]
    split <;> simp [inBlocks, become, Mode.atMargin, hm]
  | remark opened depth last back =>
    cases back with
    | none => rw [hm] at hs; cases hs
    | some m =>
      simp only [remark]
      repeat' split
      all_goals simp [inBlocks, become, Mode.atMargin]
  | _ => rw [hm] at hs; cases hs

/-- A comment that is alone on its line takes every character. -/
theorem join_note (hs : s.mode = .note true) (p : Position) : s.join inner p c ≠ none := by
  unfold join
  rw [hs]
  simp only [if_true]
  split <;> simp

/-- `s` reads a text on its own, and `t` reads it where the tokens `lines`, latest first, come before it
and blocks with the margins `frames` are open. They end with its first token, unless that opens another. -/
inductive Rejoins (d : Shift) (frames : List (List Char)) (lines : List Token) : State → State → Prop
  | margin {s : State} (margin : s.mode.atMargin = true) (outer : s.frames = [[]])
    (none : s.tokens = []) : Rejoins d frames lines s ((s.shift d lines).inBlocks frames)
  | line (s : State) (p : Position) : Rejoins d frames lines s
    (s.shift d (List.replicate (frames.length - 1) ⟨.dedent, p.to p⟩ ++ lines))
  | indented {s t : State} (first : s.Indented) : Rejoins d frames lines s t

section

variable (hframes : frames = blocks ++ [[]]) (hb : [] ∉ blocks)
include hframes hb

/-- The first token of the text, or its end, settles what comes before it. -/
theorem settle_rejoins (hmargin : s.mode.atMargin = true) (hnote : s.mode ≠ .note true)
    (houter : s.frames = [[]]) (hnone : s.tokens = []) (h : s.settle.errors = []) :
    (∃ p : Position, ((s.shift d lines).inBlocks frames).settle =
      s.settle.shift d (List.replicate (frames.length - 1) ⟨.dedent, p.to p⟩ ++ lines)) ∨
    s.settle.Indented := by
  unfold settle at h ⊢
  rw [show ((s.shift d lines).inBlocks frames).mode = s.mode.shift d from rfl]
  cases hm : s.mode with
  | margin m =>
    rw [hm] at h
    exact leaveMargin_rejoins lines hframes hb houter hnone h
  | marginRemark m =>
    rw [hm] at h
    exact leaveMargin_rejoins lines hframes hb houter hnone h
  | marginSlash m slash =>
    rw [hm] at h
    rcases leaveMargin_rejoins (d := d) lines hframes hb houter hnone h with
      ⟨p, hp⟩ | hi
    · refine .inl ⟨p, ?_⟩
      simp only [Mode.shift]
      rw [hp]
      rfl
    · exact .inr (hi.suffix (List.suffix_cons _ _))
  | note alone =>
    rw [hm] at hmargin hnote
    obtain rfl : alone = true := hmargin
    exact absurd rfl hnote
  | remark opened depth last back => rw [hm] at h; cases h
  | _ => rw [hm] at hmargin; cases hmargin

theorem Rejoins.step (hinner : Inner.Shifts d inner) (h : Rejoins d frames lines s t)
    (herrors : (s.step inner c).errors = []) :
    Rejoins d frames lines (s.step inner c) (t.step inner c) := by
  cases h with
  | line p =>
    rw [shift_step _ _ hinner]
    exact .line _ p
  | indented first => exact .indented (first.suffix (effects_step herrors).tokens_suffix)
  | margin hmargin houter hnone =>
    have hpast : ((s.shift d lines).inBlocks frames).past c =
        ((s.past c).shift d lines).inBlocks frames := by
      rw [← shift_past]
      rfl
    have hkeep := (join_atMargin (s := s.past c) inner frames hmargin s.position c).2
    have hjoin := (join_atMargin (s := (s.past c).shift d lines) inner frames
      ((shift_atMargin _).trans hmargin) (s.position.shift d) c).1
    rw [shift_join lines _ _ hinner] at hjoin
    unfold State.step at herrors ⊢
    rw [hpast, show ((s.shift d lines).inBlocks frames).position = s.position.shift d from rfl, hjoin]
    cases hj : (s.past c).join inner s.position c with
    | some u =>
      obtain ⟨hm, hf, ht⟩ := hkeep u hj
      exact .margin hm (hf.trans houter) (ht.trans hnone)
    | none =>
      rw [hj] at herrors
      have hquiet : s.settle.errors = [] := by
        have hsuffix := errors_suffix_start (s.settle.past c) s.settle.position c
        rw [show (State.start _ _ _).errors = [] from herrors] at hsuffix
        exact List.suffix_nil.mp hsuffix
      have hnote : s.mode ≠ .note true := fun hm => join_note (s := s.past c) hm _ hj
      dsimp only [Option.map_none]
      rcases settle_rejoins hframes hb hmargin hnote houter hnone hquiet with ⟨p, hp⟩ | hi
      · rw [hp, shift_past, shift_position, shift_start]
        exact .line _ p
      · refine .indented (hi.suffix ?_)
        have heffect : Effect inner c (s.settle.past c) _ := effect_start herrors
        exact heffect.tokens_suffix

theorem Rejoins.run (hinner : Inner.Shifts d inner) (h : Rejoins d frames lines s t) {cs : List Char}
    (herrors : (s.run inner cs).errors = []) :
    Rejoins d frames lines (s.run inner cs) (t.run inner cs) := by
  induction cs generalizing s t with
  | nil => exact h
  | cons c cs ih =>
    have hstep := errors_of_run_cons (c := c) herrors
    exact ih (h.step hframes hb hinner hstep) herrors

/-- The text ends, with its blocks and, if it has shown no token, those around it. -/
theorem Rejoins.finish (h : Rejoins d frames lines s t) (herrors : s.finish.errors = [])
    (hfirst : ¬ s.finish.Indented) : t.finish.errors = [] ∧ ∃ p : Position, t.finish.tokens =
      s.finish.tokens.map (Token.relocate (Span.shift d)) ++
        (List.replicate (frames.length - 1) ⟨.dedent, p.to p⟩ ++ lines) := by
  have hshift : ∀ (u : State) (p : Position), u.errors = [] →
      (u.shift d (List.replicate (frames.length - 1) ⟨.dedent, p.to p⟩ ++ lines)).errors = [] :=
    fun u p hu => by rw [shift, hu]; rfl
  cases h with
  | line p =>
    rw [shift_finish]
    exact ⟨hshift _ p herrors, p, rfl⟩
  | indented first => exact absurd (first.suffix (tokens_suffix_finish herrors)) hfirst
  | margin hmargin houter hnone =>
    have hline : ((s.shift d lines).inBlocks frames).mode.atLineStart = s.mode.atLineStart :=
      shift_atLineStart lines s
    unfold State.finish at herrors hfirst ⊢
    rw [hline]
    cases hstart : s.mode.atLineStart with
    | true =>
      rw [hstart] at herrors
      refine ⟨?_, s.position.shift d, ?_⟩
      · exact hshift s s.position herrors
      · simp only [if_true]
        unfold closeAll
        rw [closeTo_nil (s := (s.shift d lines).inBlocks frames) hframes hb,
          closeTo_nil (show s.frames = [] ++ [[]] from houter) List.not_mem_nil]
        simp [houter, hnone, inBlocks, shift, emitEof, emit, Token.relocate, TokenKind.relocate]
    | false =>
      rw [hstart] at herrors hfirst
      have hnote : s.mode ≠ .note true := fun hm => by rw [hm] at hstart; cases hstart
      rcases settle_rejoins hframes hb hmargin hnote houter hnone herrors with ⟨p, hp⟩ | hi
      · simp only [Bool.false_eq_true, if_false]
        have hemit : ∀ u : State, ∀ under,
            ((u.shift d under).emit (u.shift d under).position .newline).closeAll.emitEof =
              ((u.emit u.position .newline).closeAll.emitEof).shift d under := fun u under =>
          shift_closeAll_emitEof under (u.emit u.position .newline)
        rw [hp, hemit]
        exact ⟨hshift _ p herrors, p, rfl⟩
      · refine absurd (hi.suffix ?_) hfirst
        rw [if_neg Bool.false_ne_true]
        exact (List.suffix_cons _ _).trans
          (tokens_suffix_closing (s.settle.emit s.settle.position .newline))

end

/-- A line feed ends a line, unless a bracket or a comment is open. -/
theorem step_newline (inner : Option Inner) (s : State) :
    (s.step inner '\n').mode = .margin ⟨(s.step inner '\n').position, []⟩ ∨
      ((s.step inner '\n').mode = .ready ∧ (s.step inner '\n').brackets ≠ []) ∨
      ∃ p depth last back, (s.step inner '\n').mode = .remark p depth last back := by
  cases hj : (s.past '\n').join inner s.position '\n' with
  | none =>
    rw [step_of_none hj]
    show (State.endLine _ _).mode = .margin ⟨(State.endLine _ _).position, []⟩ ∨
      ((State.endLine _ _).mode = .ready ∧ (State.endLine _ _).brackets ≠ []) ∨ _
    unfold endLine
    split
    · exact .inl rfl
    · next hb => exact .inr (.inl ⟨rfl, fun he => hb (List.isEmpty_iff.mpr he)⟩)
  | some t =>
    have hmode : (s.past '\n').mode = s.mode := rfl
    cases hm : s.mode with
    | remark opened depth last back =>
      rw [step_inside inner hm (fun _ => by decide) fun _ => by decide]
      exact .inr (.inr ⟨_, _, _, _, rfl⟩)
    | margin m =>
      rw [step_lineFeed inner (by rw [hm]; rfl)]
      exact .inl rfl
    | marginRemark m =>
      rw [step_lineFeed inner (by rw [hm]; rfl)]
      exact .inl rfl
    | note alone =>
      cases alone with
      | true =>
        rw [step_lineFeed inner (by rw [hm]; rfl)]
        exact .inl rfl
      | false =>
        unfold join at hj
        rw [hmode, hm] at hj
        cases hj
    | _ =>
      unfold join at hj
      rw [hmode, hm] at hj
      cases hj

end State

theorem scan_errors {source : String} {tokens : List Token} (h : lex source = .ok tokens) :
    (scan source.toList).errors = [] :=
  State.errors_of_finish (lex_eq_ok.mp h).1

theorem orderly_scan {cs : List Char} (h : (scan cs).errors = []) : (scan cs).Orderly :=
  State.run_keeps (fun _ _ _ _ he h => h.effect he) h State.orderly_initial

/-- Where a line starts, the text before it has shown its tokens and is in its blocks. -/
theorem scan_atLine {cs : List Char} (h : AtLine cs) (hlast : cs.getLast? = some '\n')
    (herrors : (scan cs).errors = []) :
    scan cs = (State.initial.shift ⟨String.utf8Len cs, cs.count '\n'⟩ (scan cs).tokens).inBlocks
      (scan cs).frames := by
  have hposition : (scan cs).position = .after .origin cs := by
    obtain ⟨done, w, hsplit, hpending⟩ :=
      State.located_run (innerTiles nestingLimit) State.located_initial herrors
    rw [show State.run _ _ _ = scan cs from rfl] at hpending
    rw [hpending.position, ← hsplit, List.nil_append, List.nil_append]
  have hbrackets := ((orderly_scan herrors).margin (by rw [h]; rfl)).1
  have hplace : (scan cs).position =
      Position.origin.shift ⟨String.utf8Len cs, cs.count '\n'⟩ := by
    obtain ⟨init, rfl⟩ := List.getLast?_eq_some_iff.mp hlast
    rw [hposition, Position.after_origin]
    simp [Position.shift, Position.origin, Nat.add_comm]
  unfold AtLine at h
  generalize scan cs = s at *
  obtain ⟨mode, position, frames, brackets, tokens, errors⟩ := s
  simp only at h hplace hbrackets herrors
  subst h hplace hbrackets herrors
  rfl

/-- A line feed at the end of a text ends a line, if all brackets are closed. -/
theorem atLine_of_lex {source : String} {tokens : List Token} (h : lex source = .ok tokens)
    (hlast : source.toList.getLast? = some '\n') (hclosed : openBrackets [] tokens = some []) :
    AtLine source.toList := by
  obtain ⟨hfinish, htokens⟩ := lex_eq_ok.mp h
  have hbracketed := (orderly_scan (scan_errors h)).bracketed
  have hscan : scan source.toList =
      (scan source.toList.dropLast).step (inner? nestingLimit) '\n' := by
    rw [← List.dropLast_append_getLast? '\n' hlast, scan_append]
    simp
  have hstep := State.step_newline (inner? nestingLimit) (scan source.toList.dropLast)
  rw [← hscan] at hstep
  unfold AtLine
  generalize scan source.toList = s at *
  rcases hstep with hmode | ⟨hmode, hopen⟩ | ⟨p, depth, last, back, hmode⟩
  · exact hmode
  · -- the brackets that are open stay so up to the end
    refine absurd (List.map_eq_nil_iff (f := Prod.fst).mp ?_) hopen
    have hready : s.finish = (s.emit s.position .newline).closeAll.emitEof := by
      unfold State.finish
      rw [hmode, State.settle_of_ready hmode]
      rfl
    obtain ⟨ts, hts, hmarks⟩ := State.tokenList_closing (s.emit s.position .newline)
    rw [← htokens, hready, hts, State.tokenList_emit, List.append_assoc, openBrackets_append,
      State.tokenList, hbracketed.opens, Option.bind_some, openBrackets_of_layout ?_] at hclosed
    · exact Option.some.inj hclosed
    · intro t ht
      rcases List.mem_append.mp ht with ht | ht
      · rw [List.mem_singleton.mp ht]
        exact .inl rfl
      · rcases (hmarks t ht).1 with hk | hk | hk <;> rw [hk]
        · exact .inl rfl
        · exact .inl rfl
        · exact .inr rfl
  · unfold State.finish State.settle at hfinish
    rw [hmode] at hfinish
    cases hfinish

/-- The tokens of whole lines, and then the ends of `n` blocks and of the text at one place. -/
structure ByLines (ts lines : List Token) (n : Nat) (p : Position) : Prop where
  split : ts = lines ++ List.replicate n ⟨.dedent, p.to p⟩ ++ [⟨.eof, p.to p⟩]
  last : ∀ t ∈ lines.getLast?, t.kind = .newline

theorem byLines_closing {s : State} {blocks : List (List Char)} (hf : s.frames = blocks ++ [[]])
    (hb : [] ∉ blocks) (hline : ∀ u ∈ s.tokens.head?, u.kind = .newline) :
    ByLines s.closeAll.emitEof.tokenList s.tokenList (s.frames.length - 1) s.position := by
  refine ⟨?_, fun t ht => hline t ?_⟩
  · have heof : s.closeAll.emitEof.tokens = ⟨.eof, s.position.to s.position⟩ :: s.closeAll.tokens := rfl
    rw [State.tokenList, heof, State.closeAll_tokens hf hb]
    simp [State.tokenList]
  · rwa [State.tokenList, List.getLast?_reverse] at ht

/-- Every text is read line by line. -/
theorem byLines_of_lex {source : String} {ts : List Token} (h : lex source = .ok ts) :
    ∃ lines n p, ByLines ts lines n p := by
  obtain ⟨hfinish, rfl⟩ := lex_eq_ok.mp h
  have horderly := orderly_scan (scan_errors h)
  unfold State.finish at hfinish ⊢
  cases hstart : (scan source.toList).mode.atLineStart with
  | true =>
    obtain ⟨blocks, hf, hb⟩ := horderly.frames
    exact ⟨_, _, _, byLines_closing hf hb (horderly.margin (State.atMargin_of_atLineStart hstart)).2⟩
  | false =>
    rw [hstart] at hfinish
    have heffects : State.Effects (inner? nestingLimit) '\n' _ _ := State.effects_settle hfinish
    obtain ⟨blocks, hf, hb⟩ := (heffects.keep (fun _ _ he h => State.Orderly.effect he h) horderly).frames
    refine ⟨_, _, _, byLines_closing (s := (scan source.toList).settle.emit _ .newline) hf hb ?_⟩
    intro u hu
    cases hu
    rfl

/-- What is open at the end of the first text closes there, or else before the first token of the second. -/
theorem lex_joined {a b : String} {ts us : List Token} (ha : lex a = .ok ts)
    (hlast : a.toList.getLast? = some '\n') (hclosed : openBrackets [] ts = some [])
    (hb : lex b = .ok us) (hfirst : ∀ u ∈ us.head?, u.kind ≠ .indent) :
    ∃ (lines : List Token) (n : Nat) (p q : Position), ByLines ts lines n p ∧
      p.offset = a.utf8ByteSize ∧ lex (a ++ b) = .ok (lines ++ List.replicate n ⟨.dedent, q.to q⟩ ++
        us.map (Token.relocate (Span.shift ⟨a.utf8ByteSize, a.toList.count '\n'⟩))) := by
  have hline := atLine_of_lex ha hlast hclosed
  obtain ⟨-, hats⟩ := lex_eq_ok.mp ha
  obtain ⟨hberrors, hbus⟩ := lex_eq_ok.mp hb
  have horderly := orderly_scan (scan_errors ha)
  obtain ⟨blocks, hframes, hblocks⟩ := horderly.frames
  have hfinish : (scan a.toList).finish = (scan a.toList).closeAll.emitEof := by
    unfold State.finish
    rw [hline]
    rfl
  have hindented : ¬ (scan b.toList).finish.Indented := by
    rintro ⟨u, hu, hkind⟩
    rw [← hbus] at hfirst
    exact hfirst u (by rwa [State.tokenList, List.head?_reverse]) hkind
  have hscan := scan_atLine hline hlast (scan_errors ha)
  have hbytes : String.utf8Len a.toList = a.utf8ByteSize := by
    rw [← String.utf8ByteSize_ofList, String.ofList_toList]
  rw [hbytes] at hscan
  have hstart : State.Rejoins ⟨a.utf8ByteSize, a.toList.count '\n'⟩ (scan a.toList).frames
      (scan a.toList).tokens .initial (scan a.toList) := by
    rw [hscan]
    exact .margin rfl rfl rfl
  have hrun : State.Rejoins _ _ _ (scan b.toList) _ :=
    hstart.run hframes hblocks (inner_shifts _ nestingLimit) (scan_errors hb)
  obtain ⟨herrors, q, htokens⟩ := hrun.finish hframes hblocks hberrors hindented
  refine ⟨(scan a.toList).tokenList, (scan a.toList).frames.length - 1, (scan a.toList).position, q,
    ?_, ?_, ?_⟩
  · rw [← hats, hfinish]
    exact byLines_closing hframes hblocks (horderly.margin (by rw [hline]; rfl)).2
  · rw [hscan]
    exact Nat.zero_add _
  · rw [lex_eq_ok, String.toList_append, scan_append]
    refine ⟨herrors, ?_⟩
    rw [State.tokenList, htokens, ← hbus]
    simp [State.tokenList]

/-- A text is read line by line: `a` ends with a line feed that ends a line, and `b` does not begin with a
block. What is open at the end of `a` closes before the first token of `b`. -/
theorem lex_append {a b : String} {ts us : List Token} (ha : lex a = .ok ts)
    (hlast : a.toList.getLast? = some '\n') (hclosed : openBrackets [] ts = some [])
    (hb : lex b = .ok us) (hfirst : ∀ u ∈ us.head?, u.kind ≠ .indent) :
    ∃ (lines : List Token) (n : Nat) (p q : Position) (last : Token),
      ts = lines ++ List.replicate n ⟨.dedent, p.to p⟩ ++ [last] ∧ last.kind = .eof ∧
      lex (a ++ b) = .ok (lines ++ List.replicate n ⟨.dedent, q.to q⟩ ++
        us.map (Token.relocate (Span.shift ⟨a.utf8ByteSize, a.toList.count '\n'⟩))) := by
  obtain ⟨lines, n, p, q, hts, -, hjoined⟩ := lex_joined ha hlast hclosed hb hfirst
  exact ⟨lines, n, p, q, _, hts.split, rfl, hjoined⟩

/-- A block is open at the end of the first text, and the second one begins with a comment. -/
theorem lex_append_block :
    let a := "a\n  b [\n 1]\n"
    let b := "# c\nf \"\x7by\x7d\"\n"
    ∃ (ts us lines : List Token) (n : Nat) (p q : Position) (last : Token),
      lex a = .ok ts ∧ lex b = .ok us ∧ ts.length = 10 ∧ us.length = 4 ∧
      ts = lines ++ List.replicate n ⟨.dedent, p.to p⟩ ++ [last] ∧ last.kind = .eof ∧
      lex (a ++ b) = .ok (lines ++ List.replicate n ⟨.dedent, q.to q⟩ ++
        us.map (Token.relocate (Span.shift ⟨a.utf8ByteSize, a.toList.count '\n'⟩))) := by
  intro a b
  have ha : (lex a).toOption.map (fun ts => (openBrackets [] ts, ts.length)) = some (some [], 10) := by
    decide +kernel
  have hb : (lex b).toOption.map (fun us => (us.head?.map (·.kind.isIndent), us.length)) =
      some (some false, 4) := by
    decide +kernel
  cases hats : lex a with
  | error errors => rw [hats] at ha; cases ha
  | ok ts =>
    cases hbus : lex b with
    | error errors => rw [hbus] at hb; cases hb
    | ok us =>
      rw [hats] at ha
      rw [hbus] at hb
      obtain ⟨hclosed, halength⟩ := Prod.mk.inj (Option.some.inj ha)
      obtain ⟨hhead, hblength⟩ := Prod.mk.inj (Option.some.inj hb)
      have hfirst : ∀ u ∈ us.head?, u.kind ≠ .indent := fun u hu hk => by
        rw [Option.mem_def.mp hu, Option.map_some, hk] at hhead
        cases hhead
      obtain ⟨lines, n, p, q, last, h⟩ :=
        lex_append hats (by decide +kernel) hclosed hbus hfirst
      exact ⟨ts, us, lines, n, p, q, last, rfl, rfl, halength, hblength, h⟩

end PipeLang.Scan
