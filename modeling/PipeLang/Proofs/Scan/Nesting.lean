import PipeLang.Proofs.Scan.Burrow
import PipeLang.Proofs.Scan.Spaced

/-! The text of an interpolation is gone over twice: once by the scanner of the string, which looks for the
closing brace and counts braces and quotes, and once by the scanner that reads its tokens. Step by step
they agree on what encloses the next character, as long as the text has no comments and no errors. -/

namespace PipeLang.Scan

/-- What encloses the next character of an interpolation, and whether a backslash before it keeps it from meaning
anything. -/
structure Nesting where
  enclosing : List Enclosing
  escaped : Bool

namespace Nesting

/-- Only between quotes a backslash means anything. -/
def after (n : Nesting) (c : Char) : Nesting :=
  if n.escaped then ⟨n.enclosing, false⟩
  else ⟨Enclosing.next c n.enclosing, c = '\\' && n.enclosing.head? = some .quote⟩

def afterAll (n : Nesting) (cs : List Char) : Nesting := cs.foldl after n

/-- The mode in which the scanner of the string is. -/
def mode (n : Nesting) (q : Quoted) (h : Hole) : Mode :=
  if n.escaped then .holeEscape q { h with enclosing := n.enclosing }
  else .hole q { h with enclosing := n.enclosing }

/-- Outside strings a character that is no brace and no quote changes nothing. -/
theorem after_brace {n : Nat} {up : List Enclosing} {c : Char} (hc : c ≠ '"' ∧ c ≠ '\x7b' ∧ c ≠ '\x7d') :
    (Nesting.mk (.brace n :: up) false).after c = ⟨.brace n :: up, false⟩ := by
  simp [after, Enclosing.next, hc]

theorem after_quote {up : List Enclosing} {c : Char} (hc : c ≠ '"' ∧ c ≠ '\\' ∧ c ≠ '\x7b') :
    (Nesting.mk (.quote :: up) false).after c = ⟨.quote :: up, false⟩ := by
  simp [after, Enclosing.next, hc]

/-- What is further out makes no difference. -/
theorem next_append {es up : List Enclosing} (hes : es ≠ []) (c : Char) :
    Enclosing.next c (es ++ up) = Enclosing.next c es ++ up := by
  obtain ⟨top, es, rfl⟩ := List.exists_cons_of_ne_nil hes
  rw [List.cons_append]
  cases top with
  | quote =>
    simp only [Enclosing.next]
    split_ifs <;> rfl
  | brace n =>
    cases n <;> simp only [Enclosing.next] <;> split_ifs <;> rfl

end Nesting

/-! ## The scanner of the string -/

namespace State

variable {inner : Option Inner} {s t : State} {c : Char} {q : Quoted} {h : Hole} {n : Nesting}

theorem step_skip (hs : s.mode = n.mode q h) (hc : c ≠ '\n') (hn : (n.after c).enclosing ≠ []) :
    s.step inner c = { s with
      mode := (n.after c).mode q { h with body := c :: h.body }
      position := s.position.advance c } := by
  obtain ⟨up, escaped⟩ := n
  cases escaped with
  | true =>
    rw [step_holeEscape hs hc]
    rfl
  | false =>
    rw [step_hole hs hc]
    unfold burrow
    dsimp only
    cases hnext : Enclosing.next c up with
    | nil => exact absurd hnext hn
    | cons top rest =>
      dsimp only
      unfold Nesting.after Nesting.mode
      by_cases hescape : c = '\\' ∧ up.head? = some .quote
      · rw [if_pos hescape]
        simp [hescape, past, become, ← hnext]
      · rw [if_neg hescape]
        simp [hescape, past, become, hnext]

/-- As long as something encloses the next character, the text is passed over. -/
theorem run_skip {cs : List Char} (hs : s.mode = n.mode q h) (hline : '\n' ∉ cs)
    (hn : ∀ ds, ds <+: cs → (n.afterAll ds).enclosing ≠ []) :
    s.run inner cs = { s with
      mode := (n.afterAll cs).mode q { h with body := cs.reverse ++ h.body }
      position := s.position.after cs } := by
  induction cs using List.reverseRecOn with
  | nil =>
    cases s
    cases hs
    rfl
  | append_singleton cs c ih =>
    have hmore : n.afterAll (cs ++ [c]) = (n.afterAll cs).after c := by
      simp [Nesting.afterAll]
    rw [run_append, ih (fun hmem => hline (List.mem_append_left _ hmem))
        fun ds hds => hn ds (hds.trans (List.prefix_append _ _)),
      run_cons, run_nil, step_skip (n := n.afterAll cs) rfl]
    · simp [hmore, Position.after_append]
    · exact fun heq => hline (heq ▸ List.mem_append_right _ List.mem_cons_self)
    · rw [← hmore]
      exact hn _ List.prefix_rfl

end State

/-! ## The scanner of the tokens -/

/-- A string is being read. -/
def Mode.inText : Mode → Bool
  | .text _ | .escape _ | .hole .. | .holeEscape .. => true
  | _ => false

/-- What encloses the next character of a text that `up` encloses, with so many braces open in it. -/
def Mode.nesting (braces : Nat) (up : List Enclosing) : Mode → Nesting
  | .text _ => ⟨.quote :: .brace braces :: up, false⟩
  | .escape _ => ⟨.quote :: .brace braces :: up, true⟩
  | .hole _ h => ⟨h.enclosing ++ .quote :: .brace braces :: up, false⟩
  | .holeEscape _ h => ⟨h.enclosing ++ .quote :: .brace braces :: up, true⟩
  | _ => ⟨.brace braces :: up, false⟩

theorem Mode.nesting_of_not_inText {m : Mode} (h : m.inText = false) (braces : Nat) (up : List Enclosing) :
    m.nesting braces up = ⟨.brace braces :: up, false⟩ := by
  cases m <;> first | rfl | cases h

theorem Mode.nesting_ne_nil (m : Mode) (braces : Nat) (up : List Enclosing) :
    (m.nesting braces up).enclosing ≠ [] := by
  cases m <;> simp [Mode.nesting]

namespace State

variable {inner : Option Inner} {s t : State} {c : Char} {q : Quoted} {h b : Hole} {up : List Enclosing}

def braces (s : State) : Nat := (s.brackets.map Prod.fst).count .lbrace

def nesting (s : State) (up : List Enclosing) : Nesting := s.mode.nesting s.braces up

theorem nesting_of_not_inText (hm : s.mode.inText = false) : s.nesting up = ⟨.brace s.braces :: up, false⟩ :=
  Mode.nesting_of_not_inText hm _ _

/-- A character outside strings that neither opens nor closes anything there. -/
theorem nesting_of_plain (hs : s.mode.inText = false) (ht : t.mode.inText = false) (hb : t.brackets = s.brackets)
    (hc : c ≠ '"' ∧ c ≠ '\x7b' ∧ c ≠ '\x7d') : t.nesting up = (s.nesting up).after c := by
  rw [nesting_of_not_inText hs, nesting_of_not_inText ht, Nesting.after_brace hc, braces, hb]
  rfl

theorem plain_of_isAlphanum (hc : c.isAlphanum = true) : c ≠ '"' ∧ c ≠ '\x7b' ∧ c ≠ '\x7d' := by
  refine ⟨?_, ?_, ?_⟩ <;> rintro rfl <;> exact absurd hc (by decide)

theorem nesting_closeBracket (hs : s.mode.inText = false) {p : Position} {b : Punctuation} (hc : closing? c = some b)
    (herrors : (s.closeBracket p b).errors = []) : (s.closeBracket p b).nesting up = (s.nesting up).after c := by
  rw [nesting_of_not_inText hs]
  unfold closeBracket at herrors ⊢
  cases hbrackets : s.brackets with
  | nil =>
    rw [hbrackets] at herrors
    cases herrors
  | cons first outer =>
    obtain ⟨o, span⟩ := first
    rw [hbrackets] at herrors
    dsimp only at herrors ⊢
    by_cases hmatch : o.closing? = some b
    · rw [if_pos hmatch]
      unfold closing? at hc
      split at hc <;> cases hc <;> cases o <;> cases hmatch <;>
        simp [nesting, braces, hbrackets, Nesting.after, Enclosing.next, emit, Mode.nesting]
    · rw [if_neg hmatch] at herrors
      cases herrors

/-- A character of a token, or of none, where nothing is pending. -/
theorem nesting_start (hs : s.mode.inText = false) (hc : c ≠ '\n') {p : Position}
    (herrors : (s.start p c).errors = []) : (s.start p c).nesting up = (s.nesting up).after c := by
  unfold start at herrors ⊢
  by_cases hblank : c = ' ' ∨ c = '\t' ∨ c = '\r'
  · rw [if_pos hblank]
    exact nesting_of_plain hs rfl rfl (by rcases hblank with rfl | rfl | rfl <;> decide)
  rw [if_neg hblank, if_neg hc] at herrors ⊢
  cases hsymbol : symbol? c with
  | some kind =>
    refine nesting_of_plain hs rfl rfl ⟨?_, ?_, ?_⟩ <;> rintro rfl <;> cases hsymbol
  | none =>
    cases hopening : opening? c with
    | some b =>
      rw [nesting_of_not_inText hs]
      unfold opening? at hopening
      split at hopening <;> cases hopening <;>
        simp [nesting, braces, openBracket, Nesting.after, Enclosing.next, emit, Mode.nesting]
    | none =>
      cases hclosing : closing? c with
      | some b =>
        rw [hsymbol, hopening, hclosing] at herrors
        exact nesting_closeBracket hs hclosing herrors
      | none =>
        cases hpending : pending? p c with
        | some mode =>
          unfold pending? at hpending
          split at hpending
          case h_9 =>
            cases hpending
            rw [nesting_of_not_inText hs]
            rfl
          case h_10 =>
            split at hpending
            · next hdigit =>
              cases hpending
              exact nesting_of_plain hs rfl rfl (plain_of_isAlphanum (by simp [Char.isAlphanum, hdigit]))
            split at hpending
            · next halpha =>
              cases hpending
              exact nesting_of_plain hs rfl rfl (plain_of_isAlphanum (by simp [Char.isAlphanum, halpha]))
            · cases hpending
          all_goals
            cases hpending
            exact nesting_of_plain hs rfl rfl (by decide)
        | none =>
          rw [hsymbol, hopening, hclosing, hpending] at herrors
          cases herrors

/-! Within a string the two read the same characters, and the string is a level of its own. -/

theorem nesting_quote (hs : s.mode = .text q) {p : Position} (herrors : (s.quote q p c).errors = []) :
    (s.quote q p c).nesting up = (s.nesting up).after c := by
  have hnesting : s.nesting up = ⟨.quote :: .brace s.braces :: up, false⟩ := by
    unfold nesting
    rw [hs]
    rfl
  rw [hnesting]
  unfold quote at herrors ⊢
  by_cases hquote : c = '"'
  · rw [if_pos hquote, hquote]
    rfl
  rw [if_neg hquote] at herrors ⊢
  by_cases hescape : c = '\\'
  · rw [if_pos hescape, hescape]
    rfl
  rw [if_neg hescape] at herrors ⊢
  by_cases hopen : c = '\x7b'
  · rw [if_pos hopen, hopen]
    rfl
  rw [if_neg hopen] at herrors ⊢
  by_cases hclose : c = '\x7d'
  · rw [if_pos hclose] at herrors
    cases herrors
  · rw [if_neg hclose, Nesting.after_quote ⟨hquote, hescape, hopen⟩]
    rfl

theorem nesting_closeHole (herrors : (s.closeHole inner q h).errors = []) :
    (s.closeHole inner q h).nesting up = ⟨.quote :: .brace s.braces :: up, false⟩ := by
  unfold closeHole at herrors ⊢
  dsimp only at herrors ⊢
  split at herrors
  · cases herrors
  next hblank =>
  rw [if_neg hblank]
  cases inner with
  | none => cases herrors
  | some scan => rfl

theorem nesting_burrow (hs : s.mode = .hole q h) (hh : Braced h.enclosing)
    (herrors : (s.burrow inner q h c).errors = []) :
    (s.burrow inner q h c).nesting up = (s.nesting up).after c := by
  have hne : h.enclosing ≠ [] := by
    obtain ⟨inside, n, hinside⟩ := hh
    simp [hinside]
  have hnesting : s.nesting up = ⟨h.enclosing ++ .quote :: .brace s.braces :: up, false⟩ := by
    unfold nesting
    rw [hs]
    rfl
  have hhead : (h.enclosing ++ .quote :: .brace s.braces :: up).head? = h.enclosing.head? := by
    rw [List.head?_append_of_ne_nil _ hne]
  have hafter : (s.nesting up).after c = ⟨Enclosing.next c h.enclosing ++ .quote :: .brace s.braces :: up,
      c = '\\' && h.enclosing.head? = some .quote⟩ := by
    rw [hnesting]
    unfold Nesting.after
    rw [if_neg Bool.false_ne_true, Nesting.next_append hne, hhead]
  rw [hafter]
  unfold burrow at herrors ⊢
  cases hnext : Enclosing.next c h.enclosing with
  | nil =>
    rw [hnext] at herrors
    have hbrace : c = '\x7d' := (hh.next c).elim And.right fun ⟨inside, n, hinside⟩ => by
      simp [hnext] at hinside
    rw [nesting_closeHole herrors, hbrace]
    rfl
  | cons top rest =>
    dsimp only
    by_cases hescape : c = '\\' ∧ h.enclosing.head? = some .quote
    · rw [if_pos hescape]
      simp [nesting, Mode.nesting, become, hescape, braces]
    · rw [if_neg hescape]
      simp only [nesting, Mode.nesting, become, braces, Nesting.mk.injEq, true_and]
      simpa using hescape

/-! One step, and a whole text. -/

/-- Nothing but tokens outside strings is read. -/
structure Bare (s : State) : Prop where
  text : s.mode.inText = false
  margin : s.mode.atMargin = false
  comment : s.mode.isComment = false

/-- Braces and quotes are no part of other tokens. -/
theorem Bare.join_of_enclosing {p : Position} (hs : s.Bare) (hc : c = '"' ∨ c = '\x7b' ∨ c = '\x7d') :
    s.join inner p c = none := by
  obtain ⟨htext, hmargin, hcomment⟩ := hs
  unfold join
  cases hm : s.mode with
  | margin | marginSlash | marginRemark => rw [hm] at hmargin; cases hmargin
  | note | remark => rw [hm] at hcomment; cases hcomment
  | text | escape | hole | holeEscape => rw [hm] at htext; cases htext
  | _ => rcases hc with rfl | rfl | rfl <;> rfl

/-- A character that joins a pending token opens no string and no bracket. -/
theorem Bare.of_join {p : Position} (hs : s.Bare) (hj : s.join inner p c = some t) :
    t.mode.inText = false ∧ t.brackets = s.brackets := by
  obtain ⟨htext, hmargin, hcomment⟩ := hs
  unfold join at hj
  cases hm : s.mode with
  | margin | marginSlash | marginRemark => rw [hm] at hmargin; cases hmargin
  | note | remark => rw [hm] at hcomment; cases hcomment
  | text | escape | hole | holeEscape => rw [hm] at htext; cases htext
  | ready => rw [hm] at hj; cases hj
  | _ =>
    simp only [hm] at hj
    repeat' split at hj
    all_goals
      cases hj
    all_goals exact ⟨rfl, rfl⟩

theorem brackets_settle (hs : s.mode.atMargin = false) : s.settle.brackets = s.brackets := by
  unfold settle
  cases hm : s.mode with
  | margin | marginSlash | marginRemark => rw [hm] at hs; cases hs
  | _ => rfl

theorem nesting_step_token (hs : s.Bare) (hc : c ≠ '\n') (herrors : (s.step inner c).errors = []) :
    (s.step inner c).nesting up = (s.nesting up).after c := by
  cases hj : (s.past c).join inner s.position c with
  | some t =>
    have hbare : (s.past c).Bare := ⟨hs.text, hs.margin, hs.comment⟩
    obtain ⟨htext, hbrackets⟩ := hbare.of_join hj
    rw [step_of_join hj]
    refine nesting_of_plain hs.text htext hbrackets ⟨?_, ?_, ?_⟩ <;> rintro rfl
    · rw [hbare.join_of_enclosing (.inl rfl)] at hj
      cases hj
    · rw [hbare.join_of_enclosing (.inr (.inl rfl))] at hj
      cases hj
    · rw [hbare.join_of_enclosing (.inr (.inr rfl))] at hj
      cases hj
  | none =>
    rw [step_of_none hj] at herrors ⊢
    have hready : (s.settle.past c).mode.inText = false := by
      show s.settle.mode.inText = false
      rw [settle_ready]
      rfl
    rw [nesting_start hready hc herrors, nesting_of_not_inText hready, nesting_of_not_inText hs.text]
    show (Nesting.mk (.brace s.settle.braces :: up) false).after c = _
    rw [braces, brackets_settle hs.margin]
    rfl

/-- What the scanner of the tokens makes of a character and what the scanner of the string does agree. -/
theorem nesting_step (hmargin : s.mode.atMargin = false) (hcomment : s.mode.isComment = false)
    (hbraced : ∀ q h, s.mode = .hole q h → Braced h.enclosing) (hc : c ≠ '\n')
    (herrors : (s.step inner c).errors = []) :
    (s.step inner c).nesting up = (s.nesting up).after c := by
  cases hm : s.mode with
  | text q =>
    rw [step_text hm hc] at herrors ⊢
    exact nesting_quote (s := s.past c) hm herrors
  | escape q =>
    obtain ⟨q', hjoin⟩ : ∃ q', (s.past c).join inner s.position c = some ((s.past c).become (.text q')) := by
      have hmode : (s.past c).mode = .escape q := hm
      unfold join
      rw [hmode]
      exact ⟨_, if_neg hc⟩
    rw [step_of_join hjoin, nesting, nesting, hm]
    rfl
  | hole q h =>
    rw [step_hole hm hc] at herrors ⊢
    exact nesting_burrow (s := s.past c) hm (hbraced q h hm) herrors
  | holeEscape q h =>
    rw [step_holeEscape hm hc, nesting, nesting, hm]
    rfl
  | _ => exact nesting_step_token ⟨by rw [hm]; rfl, hmargin, hcomment⟩ hc herrors

/-- The braces of a string's interpolation are nested, whatever of it has been read. -/
theorem braced_of_located {before text : List Char} (h : s.Located before text) (hm : s.mode = .hole q b) :
    Braced b.enclosing := by
  obtain ⟨done, w, -, hpending⟩ := h
  have hmode := hpending.mode
  rw [hm] at hmode
  obtain ⟨raw, -, hreads⟩ := hmode
  exact hreads.enclosing

/-- By induction on the text from its end: the last step is that of a state without errors. -/
theorem nesting_run {levels : Nat} {cs : List Char} (hline : '\n' ∉ cs)
    (hplain : ∀ ds, ds <+: cs → ((inside .origin).run (inner? levels) ds).mode.isComment = false)
    (herrors : ((inside .origin).run (inner? levels) cs).errors = []) :
    ((inside .origin).run (inner? levels) cs).nesting up = (Nesting.mk (.brace 0 :: up) false).afterAll cs := by
  induction cs using List.reverseRecOn with
  | nil => rfl
  | append_singleton cs c ih =>
    have hmore : (Nesting.mk (.brace 0 :: up) false).afterAll (cs ++ [c]) =
        ((Nesting.mk (.brace 0 :: up) false).afterAll cs).after c := by
      simp [Nesting.afterAll]
    rw [run_append, run_cons, run_nil] at herrors ⊢
    have hbefore : ((inside .origin).run (inner? levels) cs).errors = [] :=
      List.suffix_nil.mp (herrors ▸ errors_suffix_step _ _ c)
    have hlines : '\n' ∉ cs := fun hmem => hline (List.mem_append_left _ hmem)
    have hinline : ((inside .origin).run (inner? levels) cs).Inline := inline_run hlines hbefore
    have hlocated : ((inside .origin).run (inner? levels) cs).Located [] ([] ++ cs) :=
      located_run (innerTiles levels) (located_inside []) hbefore
    rw [hmore, ← ih hlines (fun ds hds => hplain ds (hds.trans (List.prefix_append _ _))) hbefore]
    exact nesting_step hinline.margin (hplain cs (List.prefix_append _ _))
      (fun q h hm => braced_of_located hlocated hm)
      (fun heq => hline (heq ▸ List.mem_append_right _ List.mem_cons_self)) herrors

theorem not_inText_of_settle (h : s.settle.errors = []) : s.mode.inText = false := by
  unfold settle at h
  cases hm : s.mode with
  | text | escape | hole | holeEscape => rw [hm] at h; cases h
  | _ => rfl

end State

/-- One line with something on it that has no comments outside its strings and is read between braces without
errors, with all its brackets closed. -/
structure Embedded (text : String) (ts : List Token) : Prop where
  visible : text.toList.all isBlank = false
  line : '\n' ∉ text.toList
  plain : ∀ cs, cs <+: text.toList →
    ((State.inside .origin).run (inner? (nestingLimit - 1)) cs).mode.isComment = false
  read : readInside (nestingLimit - 1) .origin text.toList = (ts, [])
  closed : openBrackets [] ts = some []

namespace Embedded

variable {text : String} {ts : List Token}

/-- At its end nothing but its last token is pending. -/
theorem settled (h : Embedded text ts) :
    let t := (State.inside .origin).run (inner? (nestingLimit - 1)) text.toList
    t.errors = [] ∧ t.mode.inText = false ∧ t.brackets = [] := by
  intro t
  have hread := h.read
  rw [readInside_eq] at hread
  obtain ⟨htokens, herrors⟩ := Prod.mk.inj hread
  change t.settle.emitEof.tokenList = ts at htokens
  have hsettle : t.settle.errors = [] := List.reverse_eq_nil_iff.mp herrors
  have hnone : t.errors = [] := State.errors_of_finishInside hsettle
  have hinline : t.Inline := State.inline_run h.line hnone
  have hsettled : t.settle.Inline := hinline.settle hsettle
  refine ⟨hnone, State.not_inText_of_settle hsettle, ?_⟩
  have hclosed := h.closed
  rw [← htokens, State.emitEof, State.tokenList, State.emit, List.reverse_cons, openBrackets_append,
    hsettled.bracketed.opens, State.brackets_settle hinline.margin] at hclosed
  exact List.map_eq_nil_iff.mp (Option.some.inj hclosed)

/-- The brace that closes the interpolation is the first one after the text. -/
theorem burrows (h : Embedded text ts) : State.Burrows (.brace 0) text.toList := by
  obtain ⟨hnone, htext, hbrackets⟩ := h.settled
  intro inner s q hole up hs hup
  obtain ⟨brace, start, body, enclosing⟩ := hole
  cases hup
  have hn : s.mode = (Nesting.mk (.brace 0 :: up) false).mode q ⟨brace, start, body, .brace 0 :: up⟩ := hs
  have hprefix : ∀ ds, ds <+: text.toList →
      ((State.inside .origin).run (inner? (nestingLimit - 1)) ds).nesting up =
        (Nesting.mk (.brace 0 :: up) false).afterAll ds := by
    rintro ds ⟨rest, hrest⟩
    refine State.nesting_run (fun hmem => h.line (hrest ▸ List.mem_append_left _ hmem))
      (fun es hes => h.plain es (hes.trans ⟨rest, hrest⟩)) ?_
    rw [← hrest, State.run_append] at hnone
    exact List.suffix_nil.mp (hnone ▸ State.errors_suffix_run _ _ rest)
  rw [State.run_skip hn h.line fun ds hds => by rw [← hprefix ds hds]; exact Mode.nesting_ne_nil _ _ _,
    ← hprefix _ List.prefix_rfl, State.nesting_of_not_inText htext, State.braces, hbrackets]
  rfl

end Embedded

end PipeLang.Scan
