import PipeLang.Proofs.Scan.Errors
import PipeLang.Proofs.Tree.Nodes

/-! The scanner, started further on in a text. It reads the same characters into the same tokens, and every
place in them and in its errors is as much further on as the start was. Columns stay, for the start is that
of a line. -/

namespace PipeLang

section

variable (f : Span → Span)

mutual

def TokenKind.relocate : TokenKind → TokenKind
  | .text parts => .text (relocateParts parts)
  | .keyword k => .keyword k
  | .operator o => .operator o
  | .punctuation p => .punctuation p
  | .ident name => .ident name
  | .number value => .number value
  | .newline => .newline
  | .indent => .indent
  | .dedent => .dedent
  | .eof => .eof

def relocateParts : List StringPart → List StringPart
  | [] => []
  | .literal text :: rest => .literal text :: relocateParts rest
  | .hole ts span :: rest => .hole (relocateTokens ts) (f span) :: relocateParts rest

def relocateTokens : List Token → List Token
  | [] => []
  | ⟨kind, span⟩ :: rest => ⟨kind.relocate, f span⟩ :: relocateTokens rest

end

/-- The token with its span replaced, and the spans in its interpolations. -/
def Token.relocate (t : Token) : Token := ⟨t.kind.relocate f, f t.span⟩

def StringPart.relocate : StringPart → StringPart
  | .literal text => .literal text
  | .hole ts span => .hole (ts.map (Token.relocate f)) (f span)

@[simp] theorem relocateTokens_eq_map (ts : List Token) :
    relocateTokens f ts = ts.map (Token.relocate f) := by
  induction ts with
  | nil => simp [relocateTokens]
  | cons t rest ih => cases t; simp [relocateTokens, Token.relocate, ih]

@[simp] theorem relocateParts_eq_map (parts : List StringPart) :
    relocateParts f parts = parts.map (StringPart.relocate f) := by
  induction parts with
  | nil => simp [relocateParts]
  | cons p rest ih => cases p <;> simp [relocateParts, StringPart.relocate, ih]

@[simp] theorem TokenKind.relocate_text (parts : List StringPart) :
    (TokenKind.text parts).relocate f = .text (parts.map (StringPart.relocate f)) := by
  simp [TokenKind.relocate]

end

/-- How much further on a line starts, in bytes and in lines. -/
structure Shift where
  bytes : Nat
  lines : Nat

def Position.shift (d : Shift) (p : Position) : Position :=
  ⟨p.offset + d.bytes, p.line + d.lines, p.column⟩

def Span.shift (d : Shift) (s : Span) : Span :=
  ⟨s.start + d.bytes, s.stop + d.bytes, s.line + d.lines, s.column⟩

variable (d : Shift)

@[simp] theorem Position.shift_to (p q : Position) :
    (p.shift d).to (q.shift d) = (p.to q).shift d := rfl

@[simp] theorem Position.shift_advance (p : Position) (c : Char) :
    (p.shift d).advance c = (p.advance c).shift d := by
  unfold advance
  split <;> simp [shift] <;> omega

@[simp] theorem Position.shift_after (p : Position) (cs : List Char) :
    (p.shift d).after cs = (p.after cs).shift d := by
  induction cs generalizing p with
  | nil => rfl
  | cons c cs ih => simp [ih]

namespace Scan

def Margin.shift (m : Margin) : Margin := ⟨m.start.shift d, m.blanks⟩

def Quoted.shift (q : Quoted) : Quoted :=
  ⟨q.start.shift d, q.parts.map (StringPart.relocate (Span.shift d)), q.literal⟩

def Hole.shift (h : Hole) : Hole :=
  ⟨h.brace.shift d, h.start.shift d, h.body, h.enclosing⟩

def Mode.shift : Mode → Mode
  | .ready => .ready
  | .margin m => .margin (m.shift d)
  | .marginSlash m p => .marginSlash (m.shift d) (p.shift d)
  | .marginRemark m => .marginRemark (m.shift d)
  | .note alone => .note alone
  | .remark opened depth last back => .remark (opened.shift d) depth last (back.map (Margin.shift d))
  | .slash p => .slash (p.shift d)
  | .minus p => .minus (p.shift d)
  | .bang p => .bang (p.shift d)
  | .less p => .less (p.shift d)
  | .greater p => .greater (p.shift d)
  | .bar p => .bar (p.shift d)
  | .underscore p => .underscore (p.shift d)
  | .word p cs => .word (p.shift d) cs
  | .underscoreWord p cs => .underscoreWord (p.shift d) cs
  | .digits p whole => .digits (p.shift d) whole
  | .point p whole dot => .point (p.shift d) whole (dot.shift d)
  | .fraction p whole places => .fraction (p.shift d) whole places
  | .secondPoint p whole places dot => .secondPoint (p.shift d) whole places (dot.shift d)
  | .repeatedPoint p cs => .repeatedPoint (p.shift d) cs
  | .digitWord p cs => .digitWord (p.shift d) cs
  | .text q => .text (q.shift d)
  | .escape q => .escape (q.shift d)
  | .hole q h => .hole (q.shift d) (h.shift d)
  | .holeEscape q h => .holeEscape (q.shift d) (h.shift d)

/-- The state as it is further on in a text, where the tokens `under` came before. -/
def State.shift (under : List Token) (s : State) : State where
  mode := s.mode.shift d
  position := s.position.shift d
  frames := s.frames
  brackets := s.brackets.map fun b => (b.1, b.2.shift d)
  tokens := s.tokens.map (Token.relocate (Span.shift d)) ++ under
  errors := s.errors.map (Diagnostic.relocate (Span.shift d))

/-- A scanner of interpolations that is indifferent to where they stand. -/
def Inner.Shifts (inner : Option Inner) : Prop :=
  ∀ scan ∈ inner, ∀ p cs, scan (p.shift d) cs =
    ((scan p cs).1.map (Token.relocate (Span.shift d)),
      (scan p cs).2.map (Diagnostic.relocate (Span.shift d)))

variable {d}

@[simp] theorem Quoted.shift_flush (q : Quoted) : (q.shift d).flush = q.flush.shift d := by
  unfold flush
  rw [show (q.shift d).literal = q.literal from rfl]
  split <;> rfl

namespace State

variable (under : List Token) (s : State) (p : Position)

@[simp] theorem shift_position : (s.shift d under).position = s.position.shift d := rfl

@[simp] theorem shift_frames : (s.shift d under).frames = s.frames := rfl

@[simp] theorem shift_past (c : Char) : (s.shift d under).past c = (s.past c).shift d under := by
  simp [past, shift]

@[simp] theorem shift_become (m : Mode) :
    (s.shift d under).become (m.shift d) = (s.become m).shift d under := rfl

@[simp] theorem shift_emit (k : TokenKind) :
    (s.shift d under).emit (p.shift d) (k.relocate (Span.shift d)) = (s.emit p k).shift d under :=
  rfl

@[simp] theorem shift_report (e : Diagnostic) :
    (s.shift d under).report (e.relocate (Span.shift d)) = (s.report e).shift d under := rfl

@[simp] theorem shift_fail (cause : Cause) :
    (s.shift d under).fail (p.shift d) cause = (s.fail p cause).shift d under := rfl

/-- A token of another kind than a string is the same anywhere. -/
theorem shift_emit_same {k : TokenKind} (hk : k.relocate (Span.shift d) = k) :
    (s.shift d under).emit (p.shift d) k = (s.emit p k).shift d under := by
  rw [← shift_emit, hk]

theorem shift_closeBracket (b : Punctuation) :
    (s.shift d under).closeBracket (p.shift d) b = (s.closeBracket p b).shift d under := by
  obtain ⟨mode, position, frames, brackets, tokens, errors⟩ := s
  unfold closeBracket
  cases brackets with
  | nil => rfl
  | cons top outer =>
    by_cases ho : top.1.closing? = some b
    · simp only [shift, List.map_cons, ho, if_true]
      rfl
    · simp only [shift, List.map_cons, ho, if_false]
      rfl

theorem shift_endLine : (s.shift d under).endLine (p.shift d) = (s.endLine p).shift d under := by
  unfold endLine
  have hempty : (s.shift d under).brackets.isEmpty = s.brackets.isEmpty := List.isEmpty_map
  rw [hempty]
  split <;> rfl

theorem shift_emitWord (text : List Char) :
    (s.shift d under).emitWord (p.shift d) text = (s.emitWord p text).shift d under := by
  unfold emitWord
  dsimp only
  split <;> rfl

theorem shift_emitText (q : Quoted) :
    (s.shift d under).emitText (q.shift d) = (s.emitText q).shift d under := by
  unfold emitText
  rw [← shift_emit, Quoted.shift_flush, TokenKind.relocate_text, List.map_reverse]
  rfl

theorem shift_cutText (q : Quoted) :
    (s.shift d under).cutText (q.shift d) = (s.cutText q).shift d under :=
  shift_emitText under (s.fail q.start .unterminatedString) q

theorem shift_closeTo (m : List Char) :
    (s.shift d under).closeTo m (p.shift d) = (s.closeTo m p).shift d under := by
  simp [closeTo, shift, Token.relocate, TokenKind.relocate]

theorem shift_settleMargin (m : List Char) :
    (s.shift d under).settleMargin (p.shift d) m = (s.settleMargin p m).shift d under := by
  unfold settleMargin
  simp only [shift_frames, Position.shift_after, Position.shift_to]
  split
  · rfl
  split
  · rfl
  split
  · split <;> rfl
  split
  · exact shift_closeTo under s _ m
  · rfl

theorem shift_leaveMargin (m : Margin) :
    (s.shift d under).leaveMargin (m.shift d) = (s.leaveMargin m).shift d under := by
  unfold leaveMargin
  rw [show (m.shift d).start = m.start.shift d from rfl, shift_settleMargin]
  rfl

theorem shift_pending? (c : Char) : pending? (p.shift d) c = (pending? p c).map (Mode.shift d) := by
  unfold pending?
  split
  case h_10 => split <;> [rfl; split <;> rfl]
  all_goals rfl

theorem shift_start (c : Char) :
    (s.shift d under).start (p.shift d) c = (s.start p c).shift d under := by
  unfold start
  split
  · rfl
  split
  · exact shift_endLine under s p
  cases hsymbol : symbol? c with
  | some kind =>
    refine shift_emit_same under s p ?_
    unfold symbol? at hsymbol
    split at hsymbol <;> cases hsymbol <;> rfl
  | none =>
    cases opening? c with
    | some b => rfl
    | none =>
      cases closing? c with
      | some b => exact shift_closeBracket under s p b
      | none =>
        rw [shift_pending?]
        cases pending? p c <;> rfl

theorem shift_settle : (s.shift d under).settle = s.settle.shift d under := by
  unfold settle
  rw [show (s.shift d under).mode = s.mode.shift d from rfl]
  cases s.mode with
  | margin m => exact shift_leaveMargin under s m
  | marginRemark m => exact shift_leaveMargin under s m
  | marginSlash m slash =>
    simp only [Mode.shift]
    rw [shift_leaveMargin]
    rfl
  | word p text => exact shift_emitWord under s p text
  | text q => exact shift_cutText under s q
  | escape q => exact shift_cutText under s q
  | hole q h => exact shift_cutText under s q
  | holeEscape q h => exact shift_cutText under s q
  | _ => rfl

variable {inner : Option Inner} (hinner : Inner.Shifts d inner)
include hinner

theorem shift_closeHole (q : Quoted) (h : Hole) :
    (s.shift d under).closeHole inner (q.shift d) (h.shift d) =
      (s.closeHole inner q h).shift d under := by
  unfold closeHole
  dsimp only [Hole.shift]
  by_cases hblank : h.body.reverse.all isBlank = true
  · rw [if_pos hblank, if_pos hblank]
    rfl
  rw [if_neg hblank, if_neg hblank]
  cases inner with
  | none => rfl
  | some scan =>
    have hscan := hinner scan rfl h.start h.body.reverse
    simp only [hscan, Position.shift_after, Position.shift_to]
    simp [shift, Mode.shift, Quoted.shift, StringPart.relocate]

theorem shift_burrow (q : Quoted) (h : Hole) (c : Char) :
    (s.shift d under).burrow inner (q.shift d) (h.shift d) c =
      (s.burrow inner q h c).shift d under := by
  unfold burrow
  rw [show (h.shift d).enclosing = h.enclosing from rfl]
  split
  · exact shift_closeHole under s hinner q h
  · dsimp only
    split <;> rfl

omit hinner

theorem shift_quote (q : Quoted) (c : Char) :
    (s.shift d under).quote (q.shift d) (p.shift d) c = (s.quote q p c).shift d under := by
  unfold quote
  split
  · exact shift_emitText under s q
  split
  · rfl
  split
  · rw [Quoted.shift_flush]
    rfl
  split <;> rfl

theorem shift_remark (depth : Nat) (last : Option Char) (back : Option Margin) (c : Char) :
    (s.shift d under).remark (p.shift d) depth last (back.map (Margin.shift d)) c =
      (s.remark p depth last back c).shift d under := by
  unfold remark
  split
  · rfl
  · split
    · rfl
    · cases back <;> rfl
  · rfl

theorem shift_ite {c : Prop} [Decidable c] {x x' y y' : Option State}
    (hx : x' = x.map (State.shift d under)) (hy : y' = y.map (State.shift d under)) :
    (if c then x' else y') = (if c then x else y).map (State.shift d under) := by
  split
  · exact hx
  · exact hy

theorem shift_margin (m : Margin) (c : Char) :
    (s.shift d under).margin (m.shift d) (p.shift d) c =
      (s.margin m p c).map (State.shift d under) :=
  shift_ite under rfl (shift_ite under rfl (shift_ite under rfl (shift_ite under rfl rfl)))

include hinner

theorem shift_join (c : Char) :
    (s.shift d under).join inner (p.shift d) c = (s.join inner p c).map (State.shift d under) := by
  unfold join
  rw [show (s.shift d under).mode = s.mode.shift d from rfl]
  cases hmode : s.mode with
  | margin m => exact shift_margin under s p m c
  | remark opened depth last back =>
    exact congrArg some (shift_remark under s opened depth last back c)
  | text q => exact shift_ite under rfl (congrArg some (shift_quote under s p q c))
  | hole q h => exact shift_ite under rfl (congrArg some (shift_burrow under s hinner q h c))
  | word start text =>
    exact shift_ite under rfl
      (shift_ite under (congrArg some (shift_emitWord under s start (c :: text))) rfl)
  | marginRemark m =>
    refine shift_ite under ?_ (shift_ite under rfl (shift_ite under rfl rfl))
    rfl
  | note alone => exact shift_ite under rfl (shift_ite under rfl rfl)
  | digits start whole => exact shift_ite under rfl (shift_ite under rfl (shift_ite under rfl rfl))
  | fraction start whole places =>
    exact shift_ite under rfl (shift_ite under rfl (shift_ite under rfl rfl))
  | digitWord start text => exact shift_ite under rfl (shift_ite under rfl rfl)
  | _ => first | rfl | exact shift_ite under rfl rfl

theorem shift_step (c : Char) :
    (s.shift d under).step inner c = (s.step inner c).shift d under := by
  unfold step
  rw [shift_past, shift_position, shift_join under _ _ hinner]
  cases (s.past c).join inner s.position c with
  | some t => rfl
  | none =>
    dsimp only [Option.map_none]
    rw [shift_settle, shift_past, shift_position, shift_start]

theorem shift_run (cs : List Char) :
    (s.shift d under).run inner cs = (s.run inner cs).shift d under := by
  induction cs generalizing s with
  | nil => rfl
  | cons c cs ih => rw [run_cons, run_cons, shift_step under s hinner, ih]

omit hinner

theorem shift_closeAll_emitEof :
    (s.shift d under).closeAll.emitEof = s.closeAll.emitEof.shift d under := by
  unfold closeAll
  rw [shift_position, shift_closeTo]
  rfl

theorem shift_atLineStart : (s.shift d under).mode.atLineStart = s.mode.atLineStart := by
  show (s.mode.shift d).atLineStart = _
  cases s.mode <;> rfl

theorem shift_finish : (s.shift d under).finish = s.finish.shift d under := by
  unfold finish
  rw [shift_atLineStart]
  split
  · exact shift_closeAll_emitEof under s
  · rw [shift_settle]
    exact shift_closeAll_emitEof under (s.settle.emit _ .newline)

theorem shift_finishInside : (s.shift d under).finishInside = s.finishInside.shift d under := by
  unfold finishInside
  rw [shift_settle]
  rfl

end State

/-- What stands in an interpolation is read in the same way wherever it stands. -/
theorem inner_shifts (d : Shift) (levels : Nat) : Inner.Shifts d (inner? levels) := by
  induction levels with
  | zero => exact fun _ h => nomatch h
  | succ levels ih =>
    intro scan hscan p cs
    obtain rfl := Option.some.inj hscan
    rw [readInside_eq, readInside_eq]
    have hinside : State.inside (p.shift d) = (State.inside p).shift d [] := rfl
    rw [hinside, State.shift_run [] _ ih, State.shift_finishInside]
    simp [State.tokenList, State.errorList, State.shift, List.map_reverse]

end Scan

end PipeLang
