import PipeLang.Proofs.Scan.Pending

/-! The scanner loses no character of a text that it reads without errors. Every step keeps what the mode
says about the pending text, so every run does, and at the end the tokens account for the whole text. -/

namespace PipeLang.Scan

/-- A reader of interpolations whose tokens account for the text that it reads. -/
def InnerTiles (inner : Option Inner) : Prop :=
  ∀ scan ∈ inner, ∀ before cs, (scan (.after .origin before) cs).2 = [] →
    Tiles before cs (scan (.after .origin before) cs).1

namespace State

section

variable {inner : Option Inner} {before done w : List Char} {s t : State} {p : Position} {c : Char}

section

variable (hr : Reaches before done s.tokenList)
  (hs : s.position = .after .origin (before ++ (done ++ (w ++ [c]))))
  (hp : p = .after .origin (before ++ (done ++ w)))

include hr hs

/-- What is pending is blank or a comment, and a new line starts after it. -/
theorem located_margin (hw : Reaches (before ++ done) (w ++ [c]) []) :
    (s.become (.margin ⟨s.position, []⟩)).Located before (done ++ (w ++ [c])) :=
  located_skip hr hs hw ⟨⟨hs, fun _ hb => absurd hb List.not_mem_nil⟩, rfl⟩

/-- What is pending is blank or a comment, and a comment up to the end of the line starts after it. -/
theorem located_note (alone : Bool) (hw : Reaches (before ++ done) w []) (hc : c = '#') :
    (s.become (.note alone)).Located before (done ++ (w ++ [c])) := by
  subst hc
  rw [← List.append_assoc done] at hs ⊢
  exact located_become (hr.skip hw) hs ⟨[], rfl, List.not_mem_nil⟩

include hp

theorem Margin.At.join {m : Margin} (hm : m.At (before ++ done)) (hw : w = m.blanks.reverse)
    (hj : s.margin m p c = some t) : t.Located before (done ++ (w ++ [c])) := by
  have hblanks : ∀ b ∈ w, b = ' ' ∨ b = '\t' ∨ b = '\r' ∨ b = '\n' :=
    fun b hb => (hm.blanks b (List.mem_reverse.mp (hw ▸ hb))).imp_right .inl
  unfold State.margin at hj
  split at hj
  · next hc =>
    cases hj
    refine located_become hr hs ⟨⟨hm.start, fun b hb => ?_⟩, by rw [hw, List.reverse_cons]⟩
    exact (List.mem_cons.mp hb).elim (fun hb => hb ▸ hc) (hm.blanks b)
  split at hj
  · next hc =>
    cases hj
    refine located_margin hr hs (.blanks fun b hb => ?_)
    rcases List.mem_append.mp hb with hb | hb
    · exact hblanks b hb
    · rw [List.mem_singleton.mp hb]
      exact .inr (.inr hc.symm)
  split at hj
  · next hc =>
    cases hj
    exact located_note hr hs true (.blanks hblanks) hc
  split at hj
  · next hc =>
    cases hj
    subst hc
    exact located_become hr hs ⟨hm, by rw [hw], by rw [hp, ← hw, List.append_assoc]⟩
  · cases hj

end

/-- A character inside a block comment. -/
theorem located_remark {opened : Position} {depth : Nat} {last : Option Char}
    {back : Option Margin} (hr : Reaches before done s.tokenList)
    (hs : s.position = .after .origin (before ++ (done ++ (w ++ [c]))))
    (hw : (Mode.remark opened depth last back).Pends (before ++ done) w) :
    (s.remark opened depth last back c).Located before (done ++ (w ++ [c])) := by
  obtain ⟨hback, raw, rfl, hin⟩ := hw
  unfold State.remark
  split
  · exact located_become hr hs ⟨hback, raw ++ ['*'], by simp, hin.opens⟩
  · split
    · exact located_become hr hs ⟨hback, raw ++ ['/'], by simp, hin.closes⟩
    · next hdepth =>
      obtain rfl : depth = 1 := by
        have := hin.1
        match depth, hdepth with
        | 1, _ => rfl
        | depth + 2, hdepth => exact absurd rfl (hdepth depth)
      have hcomment : Reaches (before ++ done ++ back.elim [] (·.blanks.reverse))
          ('/' :: '*' :: (raw ++ ['/'])) [] := .comment hin.stop
      cases back with
      | none =>
        refine located_skip hr hs ?_ rfl
        simpa using hcomment
      | some m =>
        refine located_become hr hs ⟨hback m rfl, _, ?_, hcomment⟩
        simp
  · next hopen hclose =>
    refine located_become hr hs ⟨hback, raw ++ [c], by simp, hin.char ?_ ?_⟩
    · rintro ⟨rfl, rfl⟩
      exact hopen rfl rfl
    · rintro ⟨rfl, rfl⟩
      exact hclose rfl rfl

/-- A character between the quotes of a string. -/
theorem located_quote {q : Quoted} {raw : List Char} (hr : Reaches before done s.tokenList)
    (hs : s.position = .after .origin (before ++ (done ++ ('"' :: raw ++ [c]))))
    (hq : q.Reads (before ++ done) raw) (hc : c ≠ '\n') (he : (s.quote q p c).errors = []) :
    (s.quote q p c).Located before (done ++ ('"' :: raw ++ [c])) := by
  unfold State.quote at he ⊢
  split at he
  · next hquote =>
    subst hquote
    rw [if_pos rfl]
    exact located_emit hr hs hq.start (hq.flush.spells q.literal_flush)
  next hquote =>
  rw [if_neg hquote]
  split at he
  · next hescape =>
    subst hescape
    rw [if_pos rfl]
    exact located_become hr hs ⟨raw, rfl, hq⟩
  next hescape =>
  rw [if_neg hescape]
  split at he
  · next hbrace =>
    subst hbrace
    rw [if_pos rfl]
    refine located_become hr hs ⟨raw, rfl, hq.flush, q.literal_flush, ?_, [], 0, rfl⟩
    rw [hs]
    simp
  next hbrace =>
  rw [if_neg hbrace]
  split at he
  · cases he
  next hclose =>
  rw [if_neg hclose]
  have hwritten : Unescapes [c] [c] := .plain ⟨hquote, hescape, hbrace, hclose, hc⟩ .nil
  exact located_become hr hs ⟨raw ++ [c], rfl, hq.more hwritten⟩

/-- A character of an interpolation. The one that closes it is a brace, and what stands before the brace
is accounted for by the tokens that it is read into. -/
theorem located_burrow (hi : InnerTiles inner) {q : Quoted} {h : Hole} {raw : List Char}
    (hr : Reaches before done s.tokenList)
    (hs : s.position = .after .origin
      (before ++ (done ++ ('"' :: raw ++ '\x7b' :: h.body.reverse ++ [c]))))
    (hh : h.Reads (before ++ done) raw q) (he : (s.burrow inner q h c).errors = []) :
    (s.burrow inner q h c).Located before
      (done ++ ('"' :: raw ++ '\x7b' :: h.body.reverse ++ [c])) := by
  unfold State.burrow at he ⊢
  split at he
  · next hnext =>
    obtain ⟨_, rfl⟩ : Enclosing.next c h.enclosing = [] ∧ c = '\x7d' := by
      refine (hh.enclosing.next c).resolve_right ?_
      rw [hnext]
      rintro ⟨inside, n, hnil⟩
      simp at hnil
    unfold closeHole at he ⊢
    dsimp only at he ⊢
    split at he
    · cases he
    next hblank =>
    rw [if_neg hblank]
    cases inner with
    | none => cases he
    | some scan =>
      have herrors : (scan h.start h.body.reverse).2 = [] :=
        List.reverse_eq_nil_iff.mp (List.append_eq_nil_iff.mp he).1
      rw [hh.start] at herrors
      have hread := hh.quoted.hole hh.literal (hi scan rfl _ _ herrors)
      refine ⟨done, _, rfl, hs, hr, raw ++ '\x7b' :: h.body.reverse ++ ['\x7d'], by simp, ?_⟩
      rw [hh.start, ← Position.after_append, Position.to_after]
      exact hread
  · next up hup =>
    have hbraced : Braced (Enclosing.next c h.enclosing) :=
      (hh.enclosing.next c).resolve_left fun hnil => hup hnil.1
    have hdeeper : (⟨h.brace, h.start, c :: h.body, Enclosing.next c h.enclosing⟩ : Hole).Reads
        (before ++ done) raw q := ⟨hh.quoted, hh.literal, hh.start, hbraced⟩
    dsimp only
    split
    · exact located_become hr hs ⟨raw, by simp, hdeeper⟩
    · exact located_become hr hs ⟨raw, by simp, hdeeper⟩

/-- A character that joins what is pending. -/
theorem located_join (hi : InnerTiles inner) (hr : Reaches before done s.tokenList)
    (hs : s.position = .after .origin (before ++ (done ++ (w ++ [c]))))
    (hp : p = .after .origin (before ++ (done ++ w))) (hw : s.mode.Pends (before ++ done) w)
    (hj : s.join inner p c = some t) (he : t.errors = []) :
    t.Located before (done ++ (w ++ [c])) := by
  unfold State.join at hj
  cases hmode : s.mode with
  | ready => rw [hmode] at hj; cases hj
  | margin m =>
    rw [hmode] at hj hw
    exact Margin.At.join hr hs hp hw.1 hw.2 hj
  | marginSlash m mark =>
    rw [hmode] at hj hw
    obtain ⟨hat, rfl, rfl⟩ := hw
    dsimp only at hj
    split at hj
    · next hc =>
      cases hj
      subst hc
      exact located_become hr hs ⟨fun _ hm => Option.some.inj hm ▸ hat, [], by simp, .empty⟩
    · cases hj
  | marginRemark m =>
    have hw' := hw
    rw [hmode] at hj hw
    obtain ⟨hat, gap, rfl, hgap⟩ := hw
    have hall : Reaches (before ++ done) (m.blanks.reverse ++ gap) [] :=
      Reaches.skip (.blanks fun b hb => (hat.blanks b (List.mem_reverse.mp hb)).imp_right .inl) hgap
    dsimp only at hj
    split at hj
    · next hc =>
      cases hj
      refine ⟨done, _, rfl, hs, hr, ?_⟩
      rw [hmode]
      exact ⟨hat, gap ++ [c], by simp, hgap.skip (.blank (hc.imp_right .inl))⟩
    split at hj
    · next hc =>
      cases hj
      exact located_margin hr hs (hall.skip (.blank (.inr (.inr hc.symm))))
    split at hj
    · next hc =>
      cases hj
      exact located_note hr hs true hall hc
    · cases hj
  | note alone =>
    rw [hmode] at hj hw
    obtain ⟨text, rfl, hline⟩ := hw
    dsimp only at hj
    split at hj
    · next hc =>
      cases hj
      refine ⟨done, _, rfl, hs, hr, ?_⟩
      rw [hmode]
      exact ⟨text ++ [c], rfl, by simp [hline, Ne.symm hc]⟩
    next hc =>
    obtain rfl : c = '\n' := not_not.mp hc
    split at hj
    · cases hj
      exact located_margin hr hs (.note hline (.blank (.inr (.inr (.inr rfl)))))
    · cases hj
  | remark opened depth last back =>
    rw [hmode] at hj hw
    cases hj
    exact located_remark hr hs hw
  | slash q =>
    rw [hmode] at hj hw
    obtain ⟨hq, rfl⟩ := hw
    dsimp only at hj
    split at hj
    · next hc =>
      cases hj
      subst hc
      exact located_become hr hs ⟨nofun, [], rfl, .empty⟩
    · cases hj
  | minus q =>
    rw [hmode] at hj hw
    obtain ⟨hq, rfl⟩ := hw
    dsimp only at hj
    split at hj <;> cases hj
    next hc => exact located_emit hr hs hq (hc ▸ .punctuation .arrow)
  | bang q =>
    rw [hmode] at hj hw
    obtain ⟨hq, rfl⟩ := hw
    dsimp only at hj
    split at hj <;> cases hj
    next hc => exact located_emit hr hs hq (hc ▸ .operator .notEq)
  | less q =>
    rw [hmode] at hj hw
    obtain ⟨hq, rfl⟩ := hw
    dsimp only at hj
    split at hj <;> cases hj
    next hc => exact located_emit hr hs hq (hc ▸ .operator .ltEq)
  | greater q =>
    rw [hmode] at hj hw
    obtain ⟨hq, rfl⟩ := hw
    dsimp only at hj
    split at hj <;> cases hj
    next hc => exact located_emit hr hs hq (hc ▸ .operator .gtEq)
  | bar q =>
    rw [hmode] at hj hw
    obtain ⟨hq, rfl⟩ := hw
    dsimp only at hj
    split at hj <;> cases hj
    next hc => exact located_emit hr hs hq (hc ▸ .punctuation .pipe)
  | word q letters =>
    rw [hmode] at hj hw
    obtain ⟨hq, rfl⟩ := hw
    rw [← List.reverse_cons] at hs ⊢
    dsimp only at hj
    split at hj
    · cases hj
      exact located_become hr hs ⟨hq, rfl⟩
    split at hj
    · cases hj
      exact located_emit hr hs hq spells_word
    · cases hj
  | digits q whole =>
    rw [hmode] at hj hw
    obtain ⟨hq, rfl, hdigits⟩ := hw
    dsimp only at hj
    split at hj
    · next hc =>
      cases hj
      have hmore := Digits.append hdigits hc
      rw [← List.reverse_cons] at hs hmore ⊢
      exact located_become hr hs ⟨hq, rfl, hmore⟩
    split at hj
    · next hc =>
      cases hj
      subst hc
      exact located_become hr hs ⟨hq, rfl, by rw [hp, List.append_assoc], hdigits⟩
    split at hj <;> cases hj
    exact located_become hr hs trivial
  | point q whole dot =>
    rw [hmode] at hj hw
    obtain ⟨hq, rfl, -, hdigits⟩ := hw
    dsimp only at hj
    split at hj <;> cases hj
    next hc =>
    rw [List.append_assoc] at hs ⊢
    exact located_become hr hs ⟨hq, rfl, hdigits, .single hc⟩
  | fraction q whole places =>
    rw [hmode] at hj hw
    obtain ⟨hq, rfl, hwhole, hplaces⟩ := hw
    dsimp only at hj
    split at hj
    · next hc =>
      cases hj
      have hmore := Digits.append hplaces hc
      rw [← List.reverse_cons] at hmore
      exact located_become hr hs ⟨hq, by simp, hwhole, hmore⟩
    split at hj
    · next hc =>
      cases hj
      subst hc
      exact located_become hr hs ⟨hq, rfl, by rw [hp, List.append_assoc], hwhole, hplaces⟩
    split at hj <;> cases hj
    exact located_become hr hs trivial
  | text q =>
    rw [hmode] at hj hw
    obtain ⟨raw, rfl, hq⟩ := hw
    dsimp only at hj
    split at hj
    · cases hj
    next hc =>
    cases hj
    exact located_quote hr hs hq hc he
  | escape q =>
    rw [hmode] at hj hw
    obtain ⟨raw, rfl, hq⟩ := hw
    dsimp only at hj
    split at hj
    · cases hj
    next hc =>
    cases hj
    cases hknown : unescape? c with
    | some d =>
      have hwritten : Unescapes ['\\', c] [d] := .escape hknown .nil
      exact located_become hr hs ⟨raw ++ ['\\', c], by simp, hq.more hwritten⟩
    | none =>
      have hwritten : Unescapes ['\\', c] ['\\', c] := .kept hknown hc .nil
      exact located_become hr hs ⟨raw ++ ['\\', c], by simp, hq.more hwritten⟩
  | hole q h =>
    rw [hmode] at hj hw
    obtain ⟨raw, rfl, hh⟩ := hw
    dsimp only at hj
    split at hj <;> cases hj
    exact located_burrow hi hr hs hh he
  | holeEscape q h =>
    rw [hmode] at hj hw
    obtain ⟨raw, rfl, hh⟩ := hw
    dsimp only at hj
    split at hj <;> cases hj
    exact located_become hr hs
      ⟨raw, by simp, hh.quoted, hh.literal, hh.start, hh.enclosing⟩
  | underscore q =>
    rw [hmode] at hj
    dsimp only at hj
    split at hj <;> cases hj
    exact located_become hr hs trivial
  | _ =>
    rw [hmode] at hj
    dsimp only at hj
    repeat' split at hj
    all_goals
      cases hj
    all_goals first
      | exact located_become hr hs trivial
      | cases he

/-- The end of a line in a comment that comes after tokens. -/
theorem located_endNote {alone : Bool} (h : s.Pending before done w) (hmode : s.mode = .note alone)
    (hp : p = .after .origin (before ++ (done ++ w)))
    (hs : t.position = .after .origin (before ++ (done ++ (w ++ ['\n']))))
    (htokens : t.tokenList = s.tokenList) :
    (t.endLine p).Located before (done ++ (w ++ ['\n'])) := by
  have hw := h.mode
  rw [hmode] at hw
  obtain ⟨text, rfl, hline⟩ := hw
  obtain ⟨hposition, ⟨ts, hemitted, hts⟩, hend⟩ := reaches_endLine
    (b := before ++ done ++ '#' :: text) (by simpa using hs) (by simpa using hp)
  refine ⟨_, [], (List.append_nil _).symm, ?_, ?_, ?_⟩
  · rwa [hposition, List.append_nil]
  · rw [hemitted, htokens]
    exact h.reaches.append (.note hline hts)
  · simpa using hend

theorem past_place {text : List Char} (h : s.position = .after .origin (before ++ text)) (c : Char) :
    (s.past c).position = .after .origin (before ++ (text ++ [c])) := by
  show s.position.advance c = _
  rw [h, ← List.append_assoc, Position.after_append _ (before ++ text) [c]]
  rfl

theorem located_step (hi : InnerTiles inner) {text : List Char} (h : s.Located before text)
    (he : (s.step inner c).errors = []) : (s.step inner c).Located before (text ++ [c]) := by
  obtain ⟨done, w, rfl, hpending⟩ := h
  have hs := past_place hpending.position c
  rw [List.append_assoc] at hs ⊢
  unfold step at he ⊢
  cases hj : (s.past c).join inner s.position c with
  | some t =>
    rw [hj] at he
    have hreaches : Reaches before done (s.past c).tokenList := hpending.reaches
    exact located_join hi hreaches hs hpending.position hpending.mode hj he
  | none =>
    rw [hj] at he
    dsimp only at he ⊢
    have hsettle : s.settle.errors = [] := by
      have hsuffix := errors_suffix_start (s.settle.past c) s.settle.position c
      rw [he] at hsuffix
      exact List.suffix_nil.mp hsuffix
    by_cases hnote : ∃ alone, s.mode = .note alone
    · obtain ⟨alone, hmode⟩ := hnote
      -- only a line feed is no part of the comment
      obtain rfl : c = '\n' := by
        unfold join at hj
        rw [show (s.past c).mode = .note alone from hmode] at hj
        dsimp only at hj
        split at hj
        · cases hj
        · next hc => exact not_not.mp hc
      have hready : s.settle = s.become .ready := by
        unfold settle
        rw [hmode]
      rw [hready] at he ⊢
      exact located_endNote hpending hmode hpending.position hs rfl
    · obtain ⟨⟨read, rest, hread, hsettled⟩, hready⟩ :=
        hpending.settle (fun alone hmode => hnote ⟨alone, hmode⟩) hsettle
      have hrest := hsettled.mode
      rw [hready] at hrest
      obtain rfl : rest = [] := hrest
      rw [List.append_nil] at hread
      subst hread
      have hposition := hsettled.position
      rw [List.append_nil] at hposition
      rw [← List.append_assoc]
      have hreaches : Reaches before (done ++ w) (s.settle.past c).tokenList := hsettled.reaches
      exact located_start hreaches (past_place hposition c) hposition he

theorem located_run (hi : InnerTiles inner) {text cs : List Char} (h : s.Located before text)
    (he : (s.run inner cs).errors = []) : (s.run inner cs).Located before (text ++ cs) := by
  induction cs generalizing s text with
  | nil => rwa [List.append_nil]
  | cons c cs ih =>
    have hstep := errors_of_run_cons (c := c) he
    have hrest := ih (located_step hi h hstep) he
    rwa [List.append_assoc] at hrest

/-! ## The end of a text -/

/-- Marks without text where the text ends, `p` being the place. -/
def Marks (p : Position) (ts : List Token) : Prop :=
  ∀ t ∈ ts, (t.kind = .newline ∨ t.kind = .dedent ∨ t.kind = .eof) ∧ t.span = p.to p

theorem Marks.tiles {text : List Char} {ts : List Token} (h : Marks (.after .origin text) ts) :
    Tiles text [] ts := by
  have hreaches : Reaches text [] ts := reaches_marks fun t ht => by
    obtain ⟨hkind, hspan⟩ := h t ht
    refine ⟨?_, hspan.trans (to_self text)⟩
    rcases hkind with hk | hk | hk <;> rw [hk]
    · exact .lastLine
    · exact .dedent
    · exact .eof
  simpa using hreaches [] [] .nil

theorem marks_eof (s : State) : Marks s.position [⟨.eof, s.position.to s.position⟩] :=
  List.forall_mem_singleton.mpr ⟨.inr (.inr rfl), rfl⟩

theorem tokenList_closing (s : State) :
    ∃ ts, s.closeAll.emitEof.tokenList = s.tokenList ++ ts ∧ Marks s.position ts := by
  obtain ⟨ts, htokens, hts⟩ := tokenList_closeTo s [] s.position
  refine ⟨ts ++ [⟨.eof, s.position.to s.position⟩], ?_, fun t ht => ?_⟩
  · rw [← List.append_assoc, ← htokens]
    exact tokenList_emit s.closeAll s.closeAll.position .eof
  · rcases List.mem_append.mp ht with ht | ht
    · rw [hts t ht]
      exact ⟨.inr (.inl rfl), rfl⟩
    · exact marks_eof s t ht

/-- At the end of the text nothing may be pending but blanks and a comment. -/
theorem Located.tiles {text : List Char} {ts : List Token} (h : s.Located before text)
    (hmode : s.mode = .ready ∨ s.mode.atLineStart = true ∨ ∃ alone, s.mode = .note alone)
    (hts : Marks s.position ts) : Tiles before text (s.tokenList ++ ts) := by
  obtain ⟨done, w, rfl, hs, hr, hw⟩ := h
  rw [hs, ← List.append_assoc] at hts
  have hlast := hts.tiles
  have hskip : Reaches (before ++ done) w [] → Tiles before (done ++ w) (s.tokenList ++ ts) := by
    intro hgap
    have hall := hr.skip hgap [] ts (by rwa [← List.append_assoc])
    rwa [List.append_nil] at hall
  cases hm : s.mode with
  | ready =>
    rw [hm] at hw
    obtain rfl : w = [] := hw
    exact hskip .nil
  | margin m =>
    rw [hm] at hw
    obtain ⟨hat, rfl⟩ := hw
    exact hskip (.blanks fun b hb => (hat.blanks b (List.mem_reverse.mp hb)).imp_right .inl)
  | marginRemark m =>
    rw [hm] at hw
    obtain ⟨hat, gap, rfl, hgap⟩ := hw
    refine hskip (Reaches.skip (.blanks fun b hb => ?_) hgap)
    exact (hat.blanks b (List.mem_reverse.mp hb)).imp_right .inl
  | note alone =>
    rw [hm] at hw
    obtain ⟨text, rfl, hline⟩ := hw
    have hnote : Tiles (before ++ done) ('#' :: text ++ []) ts := .note hline nofun hlast
    rw [List.append_nil] at hnote
    exact hr _ _ hnote
  | _ =>
    rw [hm] at hmode
    rcases hmode with hmode | hmode | ⟨alone, hmode⟩ <;> cases hmode

/-- The text ends, and with it what is pending. -/
theorem Located.settle {text : List Char} (h : s.Located before text) (he : s.settle.errors = []) :
    s.settle.position = s.position ∧
      ∀ ts, Marks s.position ts → Tiles before text (s.settle.tokenList ++ ts) := by
  by_cases hnote : ∃ alone, s.mode = .note alone
  · have hready : s.settle = s.become .ready := by
      obtain ⟨alone, hmode⟩ := hnote
      unfold State.settle
      rw [hmode]
    rw [hready]
    exact ⟨rfl, fun ts hts => h.tiles (.inr (.inr hnote)) hts⟩
  · obtain ⟨done, w, rfl, hpending⟩ := h
    obtain ⟨hsettled, hready⟩ :=
      hpending.settle (fun alone hmode => hnote ⟨alone, hmode⟩) he
    have hposition : s.settle.position = s.position := by
      obtain ⟨_, _, hsplit, hplace, _⟩ := hsettled
      rw [hplace, hpending.position, hsplit]
    refine ⟨hposition, fun ts hts => hsettled.tiles (.inl hready) ?_⟩
    rwa [hposition]

theorem Located.finishInside {text : List Char} (h : s.Located before text)
    (he : s.finishInside.errors = []) : Tiles before text s.finishInside.tokenList := by
  obtain ⟨hposition, htiles⟩ := h.settle he
  rw [show s.finishInside.tokenList = _ from tokenList_emit s.settle s.settle.position .eof,
    hposition]
  exact htiles _ (marks_eof s)

theorem Located.finish {text : List Char} (h : s.Located before text) (he : s.finish.errors = []) :
    Tiles before text s.finish.tokenList := by
  unfold State.finish at he ⊢
  cases hstart : s.mode.atLineStart with
  | true =>
    obtain ⟨ts, htokens, hts⟩ := tokenList_closing s
    rw [if_pos rfl, htokens]
    exact h.tiles (.inr (.inl hstart)) hts
  | false =>
    rw [hstart] at he
    obtain ⟨hposition, htiles⟩ := h.settle he
    obtain ⟨ts, htokens, hts⟩ :=
      tokenList_closing (s.settle.emit s.settle.position .newline)
    dsimp only
    rw [if_neg Bool.false_ne_true, htokens, tokenList_emit, List.append_assoc]
    refine htiles _ fun t ht => ?_
    rcases List.mem_append.mp ht with ht | ht
    · rw [List.mem_singleton.mp ht, hposition]
      exact ⟨.inl rfl, rfl⟩
    · rw [← hposition]
      exact hts t ht

end

end State

/-- By induction on the levels of interpolation that are left. -/
theorem innerTiles (levels : Nat) : InnerTiles (inner? levels) := by
  induction levels with
  | zero => exact nofun
  | succ levels ih =>
    intro scan hscan before cs he
    cases hscan
    rw [readInside_eq] at he ⊢
    dsimp only at he ⊢
    have hfinish : ((State.inside (.after .origin before)).run (inner? levels) cs).finishInside.errors =
        [] := List.reverse_eq_nil_iff.mp he
    have hlocated := State.located_run ih (State.located_inside before)
      (State.errors_of_finishInside hfinish)
    exact hlocated.finishInside hfinish

theorem tiles_scan {cs : List Char} (h : (scan cs).finish.errors = []) :
    Tiles [] cs (scan cs).finish.tokenList :=
  (State.located_run (innerTiles nestingLimit) State.located_initial (State.errors_of_finish h)).finish h

/-- The tokens of a text that is read without errors account for all of it, those of its interpolations
for the text between their braces, and so on. They stand in order and within the text. -/
theorem tiles_of_lex {source : String} {tokens : List Token} (h : lex source = .ok tokens) :
    Tiles [] source.toList tokens ∧ ∀ us, Embedded us tokens →
      (∃ before text after, before ++ text ++ after = source.toList ∧ Tiles before text us) ∧
      us.IsChain (fun t u => t.span.stop ≤ u.span.start) ∧
      ∀ t ∈ us, t.span.start ≤ t.span.stop ∧ t.span.stop ≤ source.utf8ByteSize := by
  obtain ⟨herrors, rfl⟩ := lex_eq_ok.mp h
  have htiles := tiles_scan herrors
  refine ⟨htiles, fun us hembedded => ?_⟩
  obtain ⟨before, text, after, hsplit, hus⟩ := htiles.embedded hembedded
  rw [List.nil_append] at hsplit
  exact ⟨⟨before, text, after, hsplit.symm, hus⟩, hus.chain.2, hus.within hsplit⟩

/-- A comment of two levels, a character of two bytes and one interpolation inside another. -/
theorem tiles_of_lex_nested :
    let source := "/* /* \u00e9 */ */ f 1.5\n  |> g \"\u00e9\x7bh \"\x7bx\x7d\"\x7d\" # \u00e9\n"
    ∃ tokens, lex source = .ok tokens ∧ tokens.length = 10 ∧ Tiles [] source.toList tokens := by
  intro source
  have hlength : ((lex source).toOption.map List.length) = some 10 := by decide +kernel
  cases hlex : lex source with
  | error errors =>
    rw [hlex] at hlength
    cases hlength
  | ok tokens =>
    rw [hlex] at hlength
    exact ⟨tokens, rfl, Option.some.inj hlength, (tiles_of_lex hlex).1⟩

end PipeLang.Scan
