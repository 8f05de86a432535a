import PipeLang.Proofs.Parse.Alike
import PipeLang.Proofs.Scan.Errors

/-! What one step of the scanner does to the tokens, brackets and blocks, as long as it meets no error. A
step is a few effects in a row, and what every effect keeps, every run keeps. -/

namespace PipeLang

namespace Punctuation

def isOpening (p : Punctuation) : Bool := p.closing?.isSome

def isClosing (p : Punctuation) : Bool := p = rparen || p = rbracket || p = rbrace

theorem isClosing_of_closing? {o p : Punctuation} (h : o.closing? = some p) :
    p.isClosing = true ∧ p.isOpening = false := by
  cases o <;> cases h <;> exact ⟨rfl, rfl⟩

end Punctuation

/-- The open brackets after a token, innermost first. A closing bracket takes the one that it matches. -/
def bracketsAfter (bs : List Punctuation) : TokenKind → Option (List Punctuation)
  | .punctuation p =>
    if p.isOpening then some (p :: bs)
    else if p.isClosing then
      match bs with
      | o :: outer => if o.closing? = some p then some outer else none
      | [] => none
    else some bs
  | _ => some bs

namespace Scan

/-- Nothing but blanks and comments has been read of the line. -/
def Mode.atMargin : Mode → Bool
  | .margin _ | .marginSlash .. | .marginRemark _ | .remark _ _ _ (some _) => true
  | .note alone => alone
  | _ => false

/-- The interpolations of the string that is being read. -/
def Mode.interpolations : Mode → List (List Token)
  | .text q | .escape q | .hole q _ | .holeEscape q _ => q.parts.filterMap StringPart.hole?
  | _ => []

/-- The text of the interpolation that is being read. -/
def Mode.body : Mode → List Char
  | .hole _ h | .holeEscape _ h => h.body
  | _ => []

/-- What the reader of interpolations makes of a text on one line in which it finds no error. -/
def ReadBy (inner : Option Inner) (ts : List Token) : Prop :=
  ∃ scan p cs, inner = some scan ∧ '\n' ∉ cs ∧ scan p cs = (ts, [])

namespace State

/-- A part of the step that reads `c`. -/
inductive Effect (inner : Option Inner) (c : Char) (s : State) : State → Prop
  | pass {t : State} (tokens : t.tokens = s.tokens) (brackets : t.brackets = s.brackets)
    (frames : t.frames = s.frames) (margin : t.mode.atMargin = true → s.mode.atMargin = true)
    (interpolations : ∀ ts ∈ t.mode.interpolations,
      ts ∈ s.mode.interpolations ∨ ('\n' ∉ s.mode.body → ReadBy inner ts))
    (body : '\n' ∉ s.mode.body → '\n' ∉ t.mode.body) : Effect inner c s t
  | token {t : State} {u : Token} (tokens : t.tokens = u :: s.tokens)
    (kind : u.kind.isLayout = false ∧ u.kind ≠ .eof)
    (brackets : bracketsAfter (s.brackets.map Prod.fst) u.kind = some (t.brackets.map Prod.fst))
    (frames : t.frames = s.frames) (ready : t.mode = .ready)
    (interpolations : ∀ ts ∈ u.kind.interpolations, ts ∈ s.mode.interpolations) :
    Effect inner c s t
  | line {t : State} {u : Token} {m : Margin} (char : c = '\n') (tokens : t.tokens = u :: s.tokens)
    (kind : u.kind = .newline) (closed : s.brackets = []) (brackets : t.brackets = s.brackets)
    (frames : t.frames = s.frames) (margin : t.mode = .margin m) : Effect inner c s t
  | indent {t : State} {u : Token} {m : List Char} (margin : s.mode.atMargin = true)
    (tokens : t.tokens = u :: s.tokens) (kind : u.kind = .indent)
    (brackets : t.brackets = s.brackets) (frames : t.frames = m :: s.frames)
    (grows : s.frames.headD [] <+: m ∧ m ≠ s.frames.headD []) (ready : t.mode = .ready) :
    Effect inner c s t
  | dedent {t : State} {m : List Char} {span : Span} (margin : s.mode.atMargin = true)
    (outer : m ∈ s.frames)
    (tokens : t.tokens = (s.frames.takeWhile (· != m)).map (fun _ => ⟨.dedent, span⟩) ++ s.tokens)
    (brackets : t.brackets = s.brackets) (frames : t.frames = s.frames.dropWhile (· != m))
    (ready : t.mode = .ready) : Effect inner c s t

/-- The effects of the step that reads `c`, one after the other. -/
abbrev Effects (inner : Option Inner) (c : Char) : State → State → Prop :=
  Relation.ReflTransGen (Effect inner c)

section

variable {inner : Option Inner} {c : Char} {s : State}

theorem effect_past (d : Char) : Effect inner c s (s.past d) :=
  .pass rfl rfl rfl id (fun _ h => .inl h) id

/-- A mode that holds no part of a string. -/
theorem effect_become {m : Mode} (margin : m.atMargin = true → s.mode.atMargin = true)
    (interpolations : m.interpolations = []) (body : m.body = []) :
    Effect inner c s (s.become m) :=
  .pass rfl rfl rfl margin
    (fun ts h => by rw [show (s.become m).mode = m from rfl, interpolations] at h; cases h)
    fun _ => by rw [show (s.become m).mode = m from rfl, body]; exact List.not_mem_nil

/-- A token that is neither a bracket nor a string. -/
theorem effect_emit (p : Position) {k : TokenKind} (kind : k.isLayout = false ∧ k ≠ .eof)
    (brackets : ∀ bs, bracketsAfter bs k = some bs) (text : k.isText = false) :
    Effect inner c s (s.emit p k) :=
  .token rfl kind (brackets _) rfl rfl fun ts h => by cases k <;> cases text <;> cases h

theorem effect_operator (p : Position) (op : Operator) :
    Effect inner c s (s.emit p (.operator op)) :=
  effect_emit p ⟨rfl, nofun⟩ (fun _ => rfl) rfl

theorem effect_punctuation (p : Position) {q : Punctuation}
    (plain : q.isOpening = false ∧ q.isClosing = false) :
    Effect inner c s (s.emit p (.punctuation q)) :=
  effect_emit p ⟨rfl, nofun⟩ (fun bs => by simp [bracketsAfter, plain.1, plain.2]) rfl

theorem effect_number (p : Position) (whole places : List Char) :
    Effect inner c s (s.emitNumber p whole places) :=
  effect_emit p ⟨rfl, nofun⟩ (fun _ => rfl) rfl

theorem effect_word (p : Position) (text : List Char) : Effect inner c s (s.emitWord p text) := by
  unfold emitWord
  dsimp only
  split <;> exact effect_emit p ⟨rfl, nofun⟩ (fun _ => rfl) rfl

theorem holes_flush (q : Quoted) :
    q.flush.parts.filterMap StringPart.hole? = q.parts.filterMap StringPart.hole? := by
  unfold Quoted.flush
  split
  · rfl
  · exact List.filterMap_cons_none rfl

theorem effect_text {q : Quoted} (hq : s.mode.interpolations = q.parts.filterMap StringPart.hole?) :
    Effect inner c s (s.emitText q) := by
  refine .token rfl ⟨rfl, nofun⟩ rfl rfl rfl fun ts h => ?_
  have h : ts ∈ (q.flush.parts.reverse).filterMap StringPart.hole? := h
  rw [List.filterMap_reverse, List.mem_reverse, holes_flush] at h
  rwa [hq]

theorem effect_openBracket (p : Position) {b : Punctuation} (hb : b.isOpening = true) :
    Effect inner c s (s.openBracket p b) :=
  .token rfl ⟨rfl, nofun⟩ (by simp [bracketsAfter, hb, openBracket, emit]) rfl rfl
    fun _ h => by cases h

theorem effect_closeBracket {p : Position} {b : Punctuation}
    (h : (s.closeBracket p b).errors = []) : Effect inner c s (s.closeBracket p b) := by
  unfold closeBracket at h ⊢
  cases hs : s.brackets with
  | nil =>
    rw [hs] at h
    cases h
  | cons o outer =>
    obtain ⟨o, span⟩ := o
    rw [hs] at h
    dsimp only at h ⊢
    split at h
    · next ho =>
      rw [if_pos ho]
      obtain ⟨hclosing, hopening⟩ := Punctuation.isClosing_of_closing? ho
      refine .token rfl ⟨rfl, by simp⟩ ?_ rfl rfl fun _ h => by cases h
      simp [bracketsAfter, hclosing, hopening, hs, ho, emit]
    · cases h

theorem effect_endLine (p : Position) : Effect inner '\n' s (s.endLine p) := by
  unfold endLine
  split
  · next hb => exact .line rfl rfl rfl (List.isEmpty_iff.mp hb) rfl rfl rfl
  · exact effect_become nofun rfl rfl

/-- The margin of a line opens a block, closes some, or does neither. -/
theorem effect_leaveMargin {m : Margin} (hs : s.mode.atMargin = true)
    (h : (s.leaveMargin m).errors = []) : Effect inner c s (s.leaveMargin m) := by
  unfold leaveMargin settleMargin at h ⊢
  dsimp only at h ⊢
  split at h
  · next hsame =>
    rw [if_pos hsame]
    exact effect_become (fun _ => hs) rfl rfl
  next hsame =>
  rw [if_neg hsame]
  split at h
  · cases h
  next hmixed =>
  rw [if_neg hmixed]
  split at h
  · next hgrows =>
    rw [if_pos hgrows]
    split at h
    · next hopens =>
      rw [if_pos hopens]
      exact .indent hs rfl rfl rfl rfl ⟨hgrows, hsame⟩ rfl
    · cases h
  next hgrows =>
  rw [if_neg hgrows]
  split at h
  · next houter =>
    rw [if_pos houter]
    exact .dedent hs houter rfl rfl rfl rfl
  · cases h

theorem effects_settle (h : s.settle.errors = []) : Effects inner c s s.settle := by
  unfold settle at h ⊢
  cases hs : s.mode with
  | ready => exact .refl
  | margin m =>
    rw [hs] at h
    exact .single (effect_leaveMargin (by rw [hs]; rfl) h)
  | marginRemark m =>
    rw [hs] at h
    exact .single (effect_leaveMargin (by rw [hs]; rfl) h)
  | marginSlash m slash =>
    rw [hs] at h
    exact .tail (.single (effect_leaveMargin (by rw [hs]; rfl) h)) (effect_operator slash _)
  | note alone => exact .single (effect_become nofun rfl rfl)
  | slash p => exact .single (effect_operator p _)
  | minus p => exact .single (effect_operator p _)
  | less p => exact .single (effect_operator p _)
  | greater p => exact .single (effect_operator p _)
  | bar p => exact .single (effect_punctuation p ⟨rfl, rfl⟩)
  | underscore p => exact .single (effect_punctuation p ⟨rfl, rfl⟩)
  | word p text => exact .single (effect_word p text)
  | digits p whole => exact .single (effect_number p whole [])
  | fraction p whole places => exact .single (effect_number p whole places)
  | point p whole dot =>
    refine .tail (.single (?_ : Effect inner c s
      { { s with position := dot }.emitNumber p whole [] with position := s.position })) ?_
    · exact .token rfl ⟨rfl, nofun⟩ rfl rfl rfl fun _ h => by cases h
    · exact effect_punctuation dot ⟨rfl, rfl⟩
  | secondPoint p whole places dot =>
    refine .tail (.single (?_ : Effect inner c s
      { { s with position := dot }.emitNumber p whole places with position := s.position })) ?_
    · exact .token rfl ⟨rfl, nofun⟩ rfl rfl rfl fun _ h => by cases h
    · exact effect_punctuation dot ⟨rfl, rfl⟩
  | _ =>
    rw [hs] at h
    cases h

theorem not_atMargin_of_pending {p : Position} {m : Mode} (h : pending? p c = some m) :
    m.atMargin = false ∧ m.interpolations = [] ∧ m.body = [] := by
  unfold pending? at h
  split at h
  case h_10 =>
    split at h
    · cases h; exact ⟨rfl, rfl, rfl⟩
    · split at h
      · cases h; exact ⟨rfl, rfl, rfl⟩
      · cases h
  all_goals (cases h; exact ⟨rfl, rfl, rfl⟩)

theorem effect_symbol (p : Position) {k : TokenKind} (h : symbol? c = some k) :
    Effect inner c s (s.emit p k) := by
  unfold symbol? at h
  split at h
  all_goals first
    | cases h; exact effect_operator p _
    | cases h; exact effect_punctuation p ⟨rfl, rfl⟩
    | cases h

theorem isOpening_of_opening? {b : Punctuation} (h : opening? c = some b) : b.isOpening = true := by
  unfold opening? at h
  split at h <;> cases h <;> rfl

theorem effect_start {p : Position} (h : (s.start p c).errors = []) :
    Effect inner c s (s.start p c) := by
  unfold start at h ⊢
  split at h
  · next hb =>
    rw [if_pos hb]
    exact effect_become nofun rfl rfl
  next hb =>
  rw [if_neg hb]
  split at h
  · next hl =>
    subst hl
    exact effect_endLine p
  next hl =>
  rw [if_neg hl]
  cases hsymbol : symbol? c with
  | some kind => exact effect_symbol p hsymbol
  | none =>
    cases hopening : opening? c with
    | some b => exact effect_openBracket p (isOpening_of_opening? hopening)
    | none =>
      cases hclosing : closing? c with
      | some b =>
        rw [hsymbol, hopening, hclosing] at h
        exact effect_closeBracket h
      | none =>
        cases hpending : pending? p c with
        | some mode =>
          obtain ⟨hm, hi, hbody⟩ := not_atMargin_of_pending hpending
          exact effect_become (fun h => by rw [hm] at h; cases h) hi hbody
        | none =>
          rw [hsymbol, hopening, hclosing, hpending] at h
          cases h

/-- The interpolation that closes joins the others of its string. -/
theorem effect_closeHole {q : Quoted} {b : Hole} (hs : s.mode = .hole q b)
    (h : (s.closeHole inner q b).errors = []) : Effect inner c s (s.closeHole inner q b) := by
  unfold closeHole at h ⊢
  dsimp only at h ⊢
  split at h
  · cases h
  next hblank =>
  rw [if_neg hblank]
  cases inner with
  | none => cases h
  | some scan =>
    have herrors : (scan b.start b.body.reverse).2 = [] :=
      List.reverse_eq_nil_iff.mp (List.append_eq_nil_iff.mp h).1
    refine .pass rfl rfl rfl (fun h => by cases h) (fun ts hts => ?_) fun _ => List.not_mem_nil
    rw [hs]
    rcases List.mem_cons.mp hts with rfl | hts
    · refine .inr fun hbody => ⟨scan, b.start, b.body.reverse, rfl, ?_, ?_⟩
      · rwa [List.mem_reverse]
      · rw [← herrors]
    · exact .inl hts

/-- The text of an interpolation grows by a character that is no line feed. -/
theorem effect_dig {q : Quoted} {b b' : Hole} {m : Mode}
    (hs : s.mode = .hole q b ∨ s.mode = .holeEscape q b) (hc : c ≠ '\n')
    (hb : b'.body = c :: b.body) (hm : m = .hole q b' ∨ m = .holeEscape q b') :
    Effect inner c s (s.become m) := by
  have hsame : m.interpolations = s.mode.interpolations ∧ m.body = c :: s.mode.body := by
    rcases hs with hs | hs <;> rcases hm with rfl | rfl <;> rw [hs] <;> exact ⟨rfl, hb⟩
  refine .pass rfl rfl rfl (fun h => ?_) (fun ts h => .inl (hsame.1 ▸ h)) fun h => ?_
  · rcases hm with rfl | rfl <;> cases h
  · show '\n' ∉ m.body
    rw [hsame.2]
    exact fun hn => (List.mem_cons.mp hn).elim (fun he => hc he.symm) h

theorem effect_burrow {q : Quoted} {b : Hole} (hs : s.mode = .hole q b) (hc : c ≠ '\n')
    (h : (s.burrow inner q b c).errors = []) : Effect inner c s (s.burrow inner q b c) := by
  unfold burrow at h ⊢
  split at h
  · exact effect_closeHole hs h
  · split
    · exact effect_dig (.inl hs) hc rfl (.inr rfl)
    · exact effect_dig (.inl hs) hc rfl (.inl rfl)

/-- The string goes on with the same interpolations. -/
theorem effect_quoted {q r : Quoted} {m : Mode}
    (hs : s.mode.interpolations = q.parts.filterMap StringPart.hole?) (hm : m.atMargin = false)
    (hr : m.interpolations = r.parts.filterMap StringPart.hole?)
    (hqr : r.parts.filterMap StringPart.hole? = q.parts.filterMap StringPart.hole?)
    (hbody : m.body = []) : Effect inner c s (s.become m) := by
  refine .pass rfl rfl rfl (fun h => ?_) (fun ts h => .inl ?_) fun _ => ?_
  · rw [show (s.become m).mode = m from rfl, hm] at h
    cases h
  · rwa [show (s.become m).mode = m from rfl, hr, hqr, ← hs] at h
  · rw [show (s.become m).mode = m from rfl, hbody]
    exact List.not_mem_nil

theorem effect_quote {q : Quoted} {p : Position}
    (hs : s.mode.interpolations = q.parts.filterMap StringPart.hole?)
    (h : (s.quote q p c).errors = []) : Effect inner c s (s.quote q p c) := by
  unfold quote at h ⊢
  split at h
  · next hc => rw [if_pos hc]; exact effect_text hs
  next hc =>
  rw [if_neg hc]
  split at h
  · next hc => rw [if_pos hc]; exact effect_quoted (r := q) hs rfl rfl rfl rfl
  next hc =>
  rw [if_neg hc]
  split at h
  · next hc =>
    rw [if_pos hc]
    exact effect_quoted (r := q.flush) hs rfl rfl (holes_flush q) rfl
  next hc =>
  rw [if_neg hc]
  split at h
  · cases h
  next hc =>
  rw [if_neg hc]
  exact effect_quoted (r := q) hs rfl rfl rfl rfl

theorem effect_remark {opened : Position} {depth : Nat} {last : Option Char} {back : Option Margin}
    (hs : s.mode = .remark opened depth last back) (d : Char) :
    Effect inner c s (s.remark opened depth last back d) := by
  have hback : ∀ {m : Mode}, (m.atMargin = true → back.isSome = true) → m.interpolations = [] →
      m.body = [] → Effect inner c s (s.become m) := by
    intro m hm hi hb
    refine effect_become (fun h => ?_) hi hb
    obtain ⟨b, rfl⟩ := Option.isSome_iff_exists.mp (hm h)
    rw [hs]
    rfl
  have hsome : ∀ p n l, (Mode.remark p n l back).atMargin = true → back.isSome = true := by
    intro p n l h
    cases back with
    | none => cases h
    | some m => rfl
  unfold remark
  split
  · exact hback (hsome _ _ _) rfl rfl
  · split
    · exact hback (hsome _ _ _) rfl rfl
    · split
      · exact hback (fun _ => rfl) rfl rfl
      · exact hback nofun rfl rfl
  · exact hback (hsome _ _ _) rfl rfl

theorem effect_join {t : State} {p : Position} (hj : s.join inner p c = some t)
    (h : t.errors = []) : Effect inner c s t := by
  unfold join at hj
  cases hs : s.mode with
  | remark opened depth last back =>
    simp only [hs] at hj
    cases hj
    exact effect_remark hs c
  | text q =>
    simp only [hs] at hj
    split at hj
    · cases hj
    · cases hj
      exact effect_quote (by rw [hs]; rfl) h
  | escape q =>
    simp only [hs] at hj
    split at hj
    · cases hj
    · cases hj
      exact effect_quoted (q := q) (r := q) (by rw [hs]; rfl) rfl rfl rfl rfl
  | hole q b =>
    simp only [hs] at hj
    split at hj
    · cases hj
    · next hc =>
      cases hj
      exact effect_burrow hs hc h
  | holeEscape q b =>
    simp only [hs] at hj
    split at hj
    · cases hj
    · next hc =>
      cases hj
      exact effect_dig (.inr hs) hc rfl (.inl rfl)
  | margin m =>
    simp only [hs, margin] at hj
    repeat' split at hj
    all_goals
      cases hj
    all_goals exact effect_become (fun _ => by rw [hs]; rfl) rfl rfl
  | word start text =>
    simp only [hs] at hj
    repeat' split at hj
    · cases hj; exact effect_become nofun rfl rfl
    · cases hj; exact effect_word start _
    · cases hj
  | marginSlash m slash =>
    simp only [hs] at hj
    split at hj <;> cases hj
    exact effect_become (fun _ => by rw [hs]; rfl) rfl rfl
  | marginRemark m =>
    simp only [hs] at hj
    repeat' split at hj
    all_goals cases hj
    · exact .pass rfl rfl rfl id (fun _ h => .inl h) id
    all_goals exact effect_become (fun _ => by rw [hs]; rfl) rfl rfl
  | note alone =>
    simp only [hs] at hj
    repeat' split at hj
    all_goals cases hj
    · exact .pass rfl rfl rfl id (fun _ h => .inl h) id
    · next ha => exact effect_become (fun _ => by rw [hs]; exact ha) rfl rfl
  | minus start =>
    simp only [hs] at hj
    split at hj <;> cases hj
    exact effect_punctuation start ⟨rfl, rfl⟩
  | bar start =>
    simp only [hs] at hj
    split at hj <;> cases hj
    exact effect_punctuation start ⟨rfl, rfl⟩
  | bang start =>
    simp only [hs] at hj
    split at hj <;> cases hj
    exact effect_operator start _
  | less start =>
    simp only [hs] at hj
    split at hj <;> cases hj
    exact effect_operator start _
  | greater start =>
    simp only [hs] at hj
    split at hj <;> cases hj
    exact effect_operator start _
  | _ =>
    simp only [hs] at hj
    repeat' split at hj
    all_goals
      cases hj
    all_goals first
      | exact effect_become nofun rfl rfl
      | cases h

/-- A step without an error is a row of effects. -/
theorem effects_step (h : (s.step inner c).errors = []) : Effects inner c s (s.step inner c) := by
  unfold step at h ⊢
  cases hj : (s.past c).join inner s.position c with
  | some t =>
    rw [hj] at h
    exact .head (effect_past c) (.single (effect_join hj h))
  | none =>
    rw [hj] at h
    have hsettle : s.settle.errors = [] := by
      have hsuffix := errors_suffix_start (s.settle.past c) s.settle.position c
      rw [show (State.start _ _ _).errors = [] from h] at hsuffix
      exact List.suffix_nil.mp hsuffix
    exact ((effects_settle hsettle).tail (effect_past c)).tail (effect_start h)

theorem Effects.keep {P : State → Prop} (hP : ∀ s t, Effect inner c s t → P s → P t) {t : State}
    (h : Effects inner c s t) (hs : P s) : P t := by
  induction h with
  | refl => exact hs
  | tail _ heffect ih => exact hP _ _ heffect ih

/-- What every effect keeps, every run without errors keeps. -/
theorem run_keeps {P : State → Prop} {cs : List Char}
    (hP : ∀ c ∈ cs, ∀ s t, Effect inner c s t → P s → P t) (h : (s.run inner cs).errors = [])
    (hs : P s) : P (s.run inner cs) := by
  induction cs generalizing s with
  | nil => exact hs
  | cons c cs ih =>
    have hstep := errors_of_run_cons (c := c) h
    exact ih (fun d hd => hP d (List.mem_cons_of_mem c hd)) h
      ((effects_step hstep).keep (hP c List.mem_cons_self) hs)

end

end State

end Scan

end PipeLang
