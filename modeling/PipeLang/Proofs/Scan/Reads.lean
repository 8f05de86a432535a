import PipeLang.Proofs.Number.ReadBack
import PipeLang.Proofs.Scan.Formed

/-! How the text of a single token is read. A token may be pending after its last character; a character
that cannot join it, a blank or a closing bracket for one, settles it first. -/

namespace PipeLang

theorem isStem_dropMark {cs : List Char} (h : isWord cs = true) : IsStem (dropMark cs) := by
  unfold isWord at h
  cases hd : dropMark cs with
  | nil => rw [hd] at h; cases h
  | cons c rest =>
    rw [hd] at h
    obtain ⟨hc, hrest⟩ := Bool.and_eq_true_iff.mp h
    exact ⟨c, rest, rfl, hc, List.all_eq_true.mp hrest⟩

theorem isWord_cases {cs : List Char} (h : isWord cs = true) :
    IsStem cs ∨ ∃ stem m, cs = stem ++ [m] ∧ IsStem stem ∧ isMark m = true := by
  have hstem := isStem_dropMark h
  unfold dropMark at hstem
  cases hlast : cs.getLast? with
  | none =>
    rw [hlast] at hstem
    exact .inl hstem
  | some m =>
    rw [hlast] at hstem
    dsimp only at hstem
    by_cases hm : isMark m = true
    · rw [if_pos hm] at hstem
      refine .inr ⟨cs.dropLast, m, ?_, hstem, hm⟩
      exact (List.dropLast_append_getLast? m hlast).symm
    · rw [if_neg hm] at hstem
      exact .inl hstem

namespace Scan

/-- A character that ends a pending token. -/
def isBreak (c : Char) : Bool :=
  c == ' ' || c == ')' || c == ']' || c == '\x7d' || c == ':' || c == ';' || c == '\n'

theorem eq_of_isBreak {c : Char} (h : isBreak c = true) :
    c = ' ' ∨ c = ')' ∨ c = ']' ∨ c = '\x7d' ∨ c = ':' ∨ c = ';' ∨ c = '\n' := by
  simp only [isBreak, Bool.or_eq_true, beq_iff_eq] at h
  tauto

/-- Nothing is pending, or a token is that a break would end. -/
def Mode.isToken : Mode → Bool
  | ready | slash _ | minus _ | less _ | greater _ | bar _ | underscore _ | word .. | digits ..
  | fraction .. => true
  | _ => false

theorem Mode.atLineStart_of_isToken {m : Mode} (h : m.isToken = true) : m.atLineStart = false := by
  cases m <;> first | rfl | cases h

namespace State

variable {inner : Option Inner} {s : State} {c : Char}

theorem step_of_join {t : State} (h : (s.past c).join inner s.position c = some t) :
    s.step inner c = t := by
  rw [step, h]

theorem step_of_none (h : (s.past c).join inner s.position c = none) :
    s.step inner c = (s.settle.past c).start s.settle.position c := by
  rw [step, h]

theorem settle_of_ready (h : s.mode = .ready) : s.settle = s := by
  unfold settle
  rw [h]

theorem step_of_ready (h : s.mode = .ready) : s.step inner c = (s.past c).start s.position c := by
  have hnone : (s.past c).join inner s.position c = none := by
    have hmode : (s.past c).mode = .ready := h
    unfold join
    rw [hmode]
  rw [step_of_none hnone, settle_of_ready h]

theorem settle_ready (s : State) : s.settle.mode = .ready := by
  unfold settle
  cases hm : s.mode with
  | ready => exact hm
  | _ => rfl

theorem join_of_isBreak (h : s.mode.isToken = true) (hc : isBreak c = true) (p : Position) :
    (s.past c).join inner p c = none := by
  have hmode : (s.past c).mode = s.mode := rfl
  unfold join
  rw [hmode]
  cases hm : s.mode with
  | ready => rfl
  | slash p => rcases eq_of_isBreak hc with rfl | rfl | rfl | rfl | rfl | rfl | rfl <;> rfl
  | minus p => rcases eq_of_isBreak hc with rfl | rfl | rfl | rfl | rfl | rfl | rfl <;> rfl
  | less p => rcases eq_of_isBreak hc with rfl | rfl | rfl | rfl | rfl | rfl | rfl <;> rfl
  | greater p => rcases eq_of_isBreak hc with rfl | rfl | rfl | rfl | rfl | rfl | rfl <;> rfl
  | bar p => rcases eq_of_isBreak hc with rfl | rfl | rfl | rfl | rfl | rfl | rfl <;> rfl
  | underscore p => rcases eq_of_isBreak hc with rfl | rfl | rfl | rfl | rfl | rfl | rfl <;> rfl
  | word p text => rcases eq_of_isBreak hc with rfl | rfl | rfl | rfl | rfl | rfl | rfl <;> rfl
  | digits p whole => rcases eq_of_isBreak hc with rfl | rfl | rfl | rfl | rfl | rfl | rfl <;> rfl
  | fraction p whole places =>
    rcases eq_of_isBreak hc with rfl | rfl | rfl | rfl | rfl | rfl | rfl <;> rfl
  | _ => rw [hm] at h; cases h

/-- A break settles what is pending and is then read afresh. -/
theorem step_of_isBreak (h : s.mode.isToken = true) (hc : isBreak c = true) :
    s.step inner c = s.settle.step inner c := by
  rw [step_of_none (join_of_isBreak h hc s.position), step_of_ready s.settle_ready]

/-- The state after `cs` has been read, with nothing pending and `ts` as its tokens. -/
def read (s : State) (cs : List Char) (ts : List Token) : State :=
  { s with
    mode := .ready
    position := s.position.after cs
    tokens := ts.reverse ++ s.tokens }

@[simp] theorem read_mode (cs : List Char) (ts : List Token) : (s.read cs ts).mode = .ready := rfl

@[simp] theorem read_position (cs : List Char) (ts : List Token) :
    (s.read cs ts).position = s.position.after cs := rfl

@[simp] theorem read_frames (cs : List Char) (ts : List Token) :
    (s.read cs ts).frames = s.frames := rfl

@[simp] theorem read_brackets (cs : List Char) (ts : List Token) :
    (s.read cs ts).brackets = s.brackets := rfl

@[simp] theorem read_errors (cs : List Char) (ts : List Token) :
    (s.read cs ts).errors = s.errors := rfl

theorem read_read (cs ds : List Char) (ts us : List Token) :
    (s.read cs ts).read ds us = s.read (cs ++ ds) (ts ++ us) := by
  simp [read, Position.after_append]

theorem read_nil (h : s.mode = .ready) : s.read [] [] = s := by
  cases s
  cases h
  rfl

/-- Reading `cs` where nothing is pending gives the token `kind`, which a break ends if nothing else
does. -/
def ReadsToken (inner : Option Inner) (cs : List Char) (kind : TokenKind) : Prop :=
  ∀ s : State, s.mode = .ready → (s.run inner cs).mode.isToken = true ∧
    (s.run inner cs).settle =
      s.read cs [⟨kind, s.position.to (s.position.after cs)⟩]

/-- A token of one character. -/
theorem readsToken_of_symbol {kind : TokenKind} (h : symbol? c = some kind) :
    ReadsToken inner [c] kind := by
  intro s hs
  have hstart : (s.past c).start s.position c = (s.past c).emit s.position kind := by
    have hc : c ≠ ' ' ∧ c ≠ '\t' ∧ c ≠ '\r' ∧ c ≠ '\n' := by
      refine ⟨?_, ?_, ?_, ?_⟩ <;> rintro rfl <;> cases h
    unfold start
    rw [if_neg (by simp [hc]), if_neg hc.2.2.2, h]
  have hrun : s.run inner [c] =
      s.read [c] [⟨kind, s.position.to (s.position.after [c])⟩] := by
    rw [run_cons, run_nil, step_of_ready hs, hstart]
    rfl
  rw [hrun]
  exact ⟨rfl, settle_of_ready rfl⟩

/-- A token of one character that is pending until a break. -/
theorem readsToken_of_pending {kind : TokenKind} (mode : Position → Mode)
    (hstart : ∀ (s : State) p, s.start p c = s.become (mode p))
    (hmode : ∀ p, (mode p).isToken = true)
    (hsettle : ∀ (s : State) p, s.mode = mode p → s.settle = s.emit p kind) :
    ReadsToken inner [c] kind := by
  intro s hs
  have hrun : s.run inner [c] = (s.past c).become (mode s.position) := by
    rw [run_cons, run_nil, step_of_ready hs, hstart]
  rw [hrun, hsettle _ s.position rfl]
  exact ⟨hmode s.position, rfl⟩

/-- A token of two characters, the first of which leaves open what it is. -/
theorem readsToken_of_pair {kind : TokenKind} {d : Char} (mode : Position → Mode)
    (hstart : ∀ (s : State) p, s.start p c = s.become (mode p))
    (hjoin : ∀ (s : State) p q, s.mode = mode p → s.join inner q d = some (s.emit p kind)) :
    ReadsToken inner [c, d] kind := by
  intro s hs
  have hrun : s.run inner [c, d] =
      s.read [c, d] [⟨kind, s.position.to (s.position.after [c, d])⟩] := by
    rw [run_cons, run_cons, run_nil, step_of_ready hs, hstart]
    exact step_of_join (hjoin _ s.position _ rfl)
  rw [hrun]
  exact ⟨rfl, settle_of_ready rfl⟩

/-- The operators that are no words. -/
theorem readsToken_of_operator {op : Operator} (h : op.isWord = false) :
    ReadsToken inner op.spelling.toList (.operator op) := by
  cases op with
  | plus => exact readsToken_of_symbol rfl
  | star => exact readsToken_of_symbol rfl
  | percent => exact readsToken_of_symbol rfl
  | eq => exact readsToken_of_symbol rfl
  | minus =>
    exact readsToken_of_pending .minus (fun _ _ => rfl) (fun _ => rfl)
      fun s p h => by unfold settle; rw [h]
  | slash =>
    exact readsToken_of_pending .slash (fun _ _ => rfl) (fun _ => rfl)
      fun s p h => by unfold settle; rw [h]
  | lt =>
    exact readsToken_of_pending .less (fun _ _ => rfl) (fun _ => rfl)
      fun s p h => by unfold settle; rw [h]
  | gt =>
    exact readsToken_of_pending .greater (fun _ _ => rfl) (fun _ => rfl)
      fun s p h => by unfold settle; rw [h]
  | notEq =>
    exact readsToken_of_pair .bang (fun _ _ => rfl)
      fun s p q h => by unfold join; rw [h]; rfl
  | ltEq =>
    exact readsToken_of_pair .less (fun _ _ => rfl)
      fun s p q h => by unfold join; rw [h]; rfl
  | gtEq =>
    exact readsToken_of_pair .greater (fun _ _ => rfl)
      fun s p q h => by unfold join; rw [h]; rfl
  | and => cases h
  | or => cases h

/-- The marks that are no brackets. -/
theorem readsToken_of_punctuation {p : Punctuation} (hp : p.category ≠ .delimiter) :
    ReadsToken inner p.spelling.toList (.punctuation p) := by
  cases p with
  | comma => exact readsToken_of_symbol rfl
  | colon => exact readsToken_of_symbol rfl
  | semicolon => exact readsToken_of_symbol rfl
  | dot => exact readsToken_of_symbol rfl
  | arrow =>
    exact readsToken_of_pair .minus (fun _ _ => rfl)
      fun s p q h => by unfold join; rw [h]; rfl
  | pipe =>
    exact readsToken_of_pair .bar (fun _ _ => rfl)
      fun s p q h => by unfold join; rw [h]; rfl
  | bar =>
    exact readsToken_of_pending .bar (fun _ _ => rfl) (fun _ => rfl)
      fun s p h => by unfold settle; rw [h]
  | underscore =>
    exact readsToken_of_pending .underscore (fun _ _ => rfl) (fun _ => rfl)
      fun s p h => by unfold settle; rw [h]
  | _ => exact absurd rfl hp

/-! Words. -/

theorem isDigit_of_isAlpha (h : c.isAlpha = true) : c.isDigit = false := by
  cases hd : c.isDigit with
  | false => rfl
  | true =>
    exfalso
    simp only [Char.isAlpha, Char.isUpper, Char.isLower, Char.isDigit, Bool.or_eq_true,
      Bool.and_eq_true, decide_eq_true_eq] at h hd
    have h1 := hd.1
    have h2 := hd.2
    rcases h with h | h
    · exact absurd (UInt32.le_trans h.1 h2) (by decide)
    · exact absurd (UInt32.le_trans h.1 h2) (by decide)

/-- A letter or a digit where nothing is pending. -/
theorem start_of_isAlphanum (h : c.isAlphanum = true) (p : Position) :
    s.start p c = s.become (if c.isDigit then .digits p [c] else .word p [c]) := by
  have hne : ∀ d : Char, d.isAlphanum = false → c ≠ d := by
    rintro d hd rfl
    rw [hd] at h
    cases h
  have hsymbol : symbol? c = none := by
    unfold symbol?
    split <;> first | rfl | exact absurd rfl (hne _ (by decide))
  have hopening : opening? c = none := by
    unfold opening?
    split <;> first | rfl | exact absurd rfl (hne _ (by decide))
  have hclosing : closing? c = none := by
    unfold closing?
    split <;> first | rfl | exact absurd rfl (hne _ (by decide))
  have hpending : pending? p c = some (if c.isDigit then .digits p [c] else .word p [c]) := by
    unfold pending?
    split
    iterate 9 exact absurd rfl (hne _ (by decide))
    cases hd : c.isDigit with
    | true => rfl
    | false =>
      have ha : c.isAlpha = true := by simpa [Char.isAlphanum, hd] using h
      rw [if_neg Bool.false_ne_true, if_pos ha]
      rfl
  have hblank : c ≠ ' ' ∧ c ≠ '\t' ∧ c ≠ '\r' := ⟨hne _ (by decide), hne _ (by decide), hne _ (by decide)⟩
  unfold start
  rw [if_neg (by simp [hblank]), if_neg (hne _ (by decide)), hsymbol, hopening, hclosing, hpending]

theorem step_word {p : Position} {text : List Char} (h : s.mode = .word p text)
    (hc : continuesWord c = true) : s.step inner c = (s.past c).become (.word p (c :: text)) := by
  refine step_of_join ?_
  have hmode : (s.past c).mode = .word p text := h
  unfold join
  rw [hmode]
  exact if_pos hc

theorem step_mark {p : Position} {text : List Char} (h : s.mode = .word p text)
    (hc : isMark c = true) : s.step inner c = (s.past c).emitWord p (c :: text) := by
  refine step_of_join ?_
  have hmode : (s.past c).mode = .word p text := h
  have hnot : continuesWord c = false := by
    cases hw : continuesWord c with
    | false => rfl
    | true => rw [not_isMark_of_continuesWord hw] at hc; cases hc
  unfold join
  rw [hmode]
  dsimp only
  rw [hnot, if_neg Bool.false_ne_true, if_pos hc]

theorem run_word {p : Position} {text cs : List Char} (h : s.mode = .word p text)
    (hcs : ∀ c ∈ cs, continuesWord c = true) :
    s.run inner cs =
      { s with mode := .word p (cs.reverse ++ text), position := s.position.after cs } := by
  induction cs generalizing s text with
  | nil =>
    cases s
    cases h
    rfl
  | cons c cs ih =>
    have hstep : s.step inner c = (s.past c).become (.word p (c :: text)) :=
      step_word h (hcs c List.mem_cons_self)
    rw [run_cons, hstep, ih rfl fun d hd => hcs d (List.mem_cons_of_mem c hd)]
    simp [past, become]

theorem readsToken_of_isWord {cs : List Char} (h : isWord cs = true) :
    ReadsToken inner cs (wordKind (String.ofList cs)) := by
  have stem : ∀ {ds : List Char}, IsStem ds → ∀ s : State, s.mode = .ready → s.run inner ds =
      { s with mode := .word s.position ds.reverse, position := s.position.after ds } := by
    rintro ds ⟨d, rest, rfl, hd, hrest⟩ s hs
    have halpha : d.isAlphanum = true := by simp [Char.isAlphanum, hd]
    rw [run_cons, step_of_ready hs, start_of_isAlphanum halpha, isDigit_of_isAlpha hd,
      if_neg Bool.false_ne_true, run_word rfl hrest]
    simp [past, become]
  intro s hs
  rcases isWord_cases h with hstem | ⟨ds, m, rfl, hstem, hm⟩
  · rw [stem hstem s hs]
    refine ⟨rfl, ?_⟩
    show State.emitWord _ _ _ = _
    unfold emitWord
    rw [List.reverse_reverse]
    rfl
  · have hjoin : s.run inner (ds ++ [m]) =
        s.read (ds ++ [m]) [⟨wordKind (String.ofList (ds ++ [m])),
          s.position.to (s.position.after (ds ++ [m]))⟩] := by
      rw [run_append, stem hstem s hs, run_cons, run_nil, step_mark rfl hm, emitWord,
        List.reverse_cons, List.reverse_reverse, read, Position.after_append]
      rfl
    rw [hjoin]
    exact ⟨rfl, settle_of_ready rfl⟩

/-! Numbers, and the dot of a field access after a token. -/

theorem step_digits {p : Position} {whole : List Char} (h : s.mode = .digits p whole)
    (hc : c.isDigit = true) : s.step inner c = (s.past c).become (.digits p (c :: whole)) := by
  refine step_of_join ?_
  have hmode : (s.past c).mode = .digits p whole := h
  unfold join
  rw [hmode]
  exact if_pos hc

theorem run_digits {p : Position} {whole cs : List Char} (h : s.mode = .digits p whole)
    (hcs : ∀ c ∈ cs, c.isDigit = true) :
    s.run inner cs =
      { s with mode := .digits p (cs.reverse ++ whole), position := s.position.after cs } := by
  induction cs generalizing s whole with
  | nil =>
    cases s
    cases h
    rfl
  | cons c cs ih =>
    have hstep : s.step inner c = (s.past c).become (.digits p (c :: whole)) :=
      step_digits h (hcs c List.mem_cons_self)
    rw [run_cons, hstep, ih rfl fun d hd => hcs d (List.mem_cons_of_mem c hd)]
    simp [past, become]

theorem step_fraction {p : Position} {whole places : List Char}
    (h : s.mode = .fraction p whole places) (hc : c.isDigit = true) :
    s.step inner c = (s.past c).become (.fraction p whole (c :: places)) := by
  refine step_of_join ?_
  have hmode : (s.past c).mode = .fraction p whole places := h
  unfold join
  rw [hmode]
  exact if_pos hc

theorem run_fraction {p : Position} {whole places cs : List Char}
    (h : s.mode = .fraction p whole places) (hcs : ∀ c ∈ cs, c.isDigit = true) :
    s.run inner cs =
      { s with
        mode := .fraction p whole (cs.reverse ++ places), position := s.position.after cs } := by
  induction cs generalizing s places with
  | nil =>
    cases s
    cases h
    rfl
  | cons c cs ih =>
    have hstep : s.step inner c = (s.past c).become (.fraction p whole (c :: places)) :=
      step_fraction h (hcs c List.mem_cons_self)
    rw [run_cons, hstep, ih rfl fun d hd => hcs d (List.mem_cons_of_mem c hd)]
    simp [past, become]

/-- A point after digits, and a digit after it. -/
theorem run_point {p : Position} {whole : List Char} (h : s.mode = .digits p whole)
    (hc : c.isDigit = true) : s.run inner ['.', c] =
      { s with mode := .fraction p whole [c], position := s.position.after ['.', c] } := by
  have hdot : s.step inner '.' = (s.past '.').become (.point p whole s.position) := by
    refine step_of_join ?_
    have hmode : (s.past '.').mode = .digits p whole := h
    unfold join
    rw [hmode]
    rfl
  rw [run_cons, run_cons, run_nil, hdot]
  refine step_of_join ?_
  show (if c.isDigit then _ else _) = _
  rw [if_pos hc]
  rfl

theorem readsToken_of_written {text : String} (w : Decimal.Written text) :
    ReadsToken inner text.toList (.number (.ofLiteral w.whole w.fraction)) := by
  intro s hs
  obtain ⟨d, whole, hwhole⟩ := List.exists_cons_of_ne_nil w.whole_ne_nil
  have hdigits := w.isDigit_whole
  rw [hwhole] at hdigits
  have hd := hdigits d List.mem_cons_self
  have halnum : d.isAlphanum = true := by simp [Char.isAlphanum, hd]
  have hrun : s.run inner w.whole =
      { s with mode := .digits s.position w.whole.reverse
               position := s.position.after w.whole } := by
    rw [hwhole, run_cons, step_of_ready hs, start_of_isAlphanum halnum, if_pos hd,
      run_digits rfl fun e he => hdigits e (List.mem_cons_of_mem d he)]
    simp [past, become]
  rw [w.toList_eq]
  cases hf : w.fraction with
  | nil =>
    rw [if_pos rfl, List.append_nil, hrun]
    refine ⟨rfl, ?_⟩
    show State.emitNumber _ _ _ _ = _
    unfold emitNumber
    rw [List.reverse_reverse]
    rfl
  | cons e places =>
    rw [if_neg (List.cons_ne_nil e places)]
    have hplaces := w.isDigit_fraction
    rw [hf] at hplaces
    have hpoint : s.run inner (w.whole ++ '.' :: e :: places) =
        { s with mode := .fraction s.position w.whole.reverse (e :: places).reverse
                 position := s.position.after (w.whole ++ '.' :: e :: places) } := by
      rw [show '.' :: e :: places = ['.', e] ++ places from rfl, run_append, run_append, hrun,
        run_point rfl (hplaces e List.mem_cons_self),
        run_fraction rfl fun x hx => hplaces x (List.mem_cons_of_mem e hx)]
      simp [Position.after_append]
    rw [hpoint]
    refine ⟨rfl, ?_⟩
    show State.emitNumber _ _ _ _ = _
    unfold emitNumber
    rw [List.reverse_reverse, List.reverse_reverse]
    rfl

/-- A dot that no digit follows is no part of what stands before it. -/
theorem run_dot (h : s.mode.isToken = true) (hc : c.isDigit = false) (cs : List Char) :
    s.run inner ('.' :: c :: cs) = s.settle.run inner ('.' :: c :: cs) := by
  have split : (s.past '.').join inner s.position '.' = none →
      s.run inner ('.' :: c :: cs) = s.settle.run inner ('.' :: c :: cs) := by
    intro hnone
    rw [run_cons, run_cons _ s.settle, step_of_none hnone, step_of_ready s.settle_ready]
  have hsettled : s.settle.step inner '.' = (s.settle.past '.').start s.settle.position '.' :=
    step_of_ready s.settle_ready
  cases hm : s.mode with
  | digits p whole =>
    have hdot : s.step inner '.' = (s.past '.').become (.point p whole s.position) := by
      refine step_of_join ?_
      have hmode : (s.past '.').mode = .digits p whole := hm
      unfold join
      rw [hmode]
      rfl
    have hsettle : s.settle = s.emitNumber p whole [] := by
      unfold settle
      rw [hm]
    have hnone : (State.past ((s.past '.').become (.point p whole s.position)) c).join inner
        ((s.past '.').become (.point p whole s.position)).position c = none := by
      show (if c.isDigit then _ else _) = _
      rw [hc]
      rfl
    rw [run_cons, run_cons, run_cons _ s.settle, run_cons, hdot, step_of_none hnone, hsettled,
      hsettle]
    rfl
  | fraction p whole places =>
    have hdot : s.step inner '.' = (s.past '.').become (.secondPoint p whole places s.position) := by
      refine step_of_join ?_
      have hmode : (s.past '.').mode = .fraction p whole places := hm
      unfold join
      rw [hmode]
      rfl
    have hsettle : s.settle = s.emitNumber p whole places := by
      unfold settle
      rw [hm]
    have hnone : (State.past ((s.past '.').become (.secondPoint p whole places s.position)) c).join
        inner ((s.past '.').become (.secondPoint p whole places s.position)).position c = none := by
      show (if c.isDigit then _ else _) = _
      rw [hc]
      rfl
    rw [run_cons, run_cons, run_cons _ s.settle, run_cons, hdot, step_of_none hnone, hsettled,
      hsettle]
    rfl
  | ready =>
    rw [settle_of_ready hm]
  | slash p =>
    refine split ?_
    have hmode : (s.past '.').mode = .slash p := hm
    unfold join
    rw [hmode]
    rfl
  | minus p =>
    refine split ?_
    have hmode : (s.past '.').mode = .minus p := hm
    unfold join
    rw [hmode]
    rfl
  | less p =>
    refine split ?_
    have hmode : (s.past '.').mode = .less p := hm
    unfold join
    rw [hmode]
    rfl
  | greater p =>
    refine split ?_
    have hmode : (s.past '.').mode = .greater p := hm
    unfold join
    rw [hmode]
    rfl
  | bar p =>
    refine split ?_
    have hmode : (s.past '.').mode = .bar p := hm
    unfold join
    rw [hmode]
    rfl
  | underscore p =>
    refine split ?_
    have hmode : (s.past '.').mode = .underscore p := hm
    unfold join
    rw [hmode]
    rfl
  | word p text =>
    refine split ?_
    have hmode : (s.past '.').mode = .word p text := hm
    unfold join
    rw [hmode]
    rfl
  | _ => rw [hm] at h; cases h

end State

end Scan

end PipeLang
