import Mathlib
import PipeLang.Scan.Lex

/-! What the scanner reports stays reported: no step takes an error back. So a text without errors was
read without errors up to every place in it. -/

namespace PipeLang.Scan

namespace State

@[simp] theorem past_errors (s : State) (c : Char) : (s.past c).errors = s.errors := rfl

@[simp] theorem become_errors (s : State) (m : Mode) : (s.become m).errors = s.errors := rfl

@[simp] theorem emit_errors (s : State) (p : Position) (k : TokenKind) :
    (s.emit p k).errors = s.errors := rfl

@[simp] theorem report_errors (s : State) (d : Diagnostic) :
    (s.report d).errors = d :: s.errors := rfl

@[simp] theorem fail_errors (s : State) (p : Position) (cause : Cause) :
    (s.fail p cause).errors = { cause, span := p.to s.position } :: s.errors := rfl

@[simp] theorem openBracket_errors (s : State) (p : Position) (b : Punctuation) :
    (s.openBracket p b).errors = s.errors := rfl

@[simp] theorem emitWord_errors (s : State) (p : Position) (text : List Char) :
    (s.emitWord p text).errors = s.errors := rfl

@[simp] theorem emitNumber_errors (s : State) (p : Position) (whole places : List Char) :
    (s.emitNumber p whole places).errors = s.errors := rfl

@[simp] theorem emitText_errors (s : State) (q : Quoted) : (s.emitText q).errors = s.errors := rfl

@[simp] theorem cutText_errors (s : State) (q : Quoted) :
    (s.cutText q).errors =
      { cause := .unterminatedString, span := q.start.to s.position } :: s.errors := rfl

@[simp] theorem closeTo_errors (s : State) (m : List Char) (p : Position) :
    (s.closeTo m p).errors = s.errors := rfl

@[simp] theorem closeAll_errors (s : State) : s.closeAll.errors = s.errors := rfl

@[simp] theorem emitEof_errors (s : State) : s.emitEof.errors = s.errors := rfl

theorem errors_suffix_closeBracket (s : State) (p : Position) (b : Punctuation) :
    s.errors <:+ (s.closeBracket p b).errors := by
  unfold closeBracket
  split
  · exact List.suffix_cons _ _
  · dsimp only
    split
    · exact List.suffix_rfl
    · exact List.suffix_cons _ _

theorem errors_suffix_endLine (s : State) (p : Position) : s.errors <:+ (s.endLine p).errors := by
  unfold endLine
  split <;> exact List.suffix_rfl

theorem errors_suffix_settleMargin (s : State) (p : Position) (m : List Char) :
    s.errors <:+ (s.settleMargin p m).errors := by
  simp only [settleMargin]
  repeat' split
  all_goals simp [List.suffix_rfl]

theorem errors_suffix_leaveMargin (s : State) (m : Margin) :
    s.errors <:+ (s.leaveMargin m).errors :=
  errors_suffix_settleMargin s _ _

theorem errors_suffix_start (s : State) (p : Position) (c : Char) :
    s.errors <:+ (s.start p c).errors := by
  unfold start
  split
  · exact List.suffix_rfl
  split
  · exact errors_suffix_endLine s p
  split
  · exact List.suffix_rfl
  · exact List.suffix_rfl
  · exact errors_suffix_closeBracket s p _
  · exact List.suffix_rfl
  · exact List.suffix_cons _ _

theorem errors_suffix_settle (s : State) : s.errors <:+ s.settle.errors := by
  unfold settle
  split
  case h_2 | h_3 => exact errors_suffix_leaveMargin s _
  case h_4 => exact errors_suffix_leaveMargin s _
  all_goals first | exact List.suffix_rfl | exact List.suffix_cons _ _

theorem errors_suffix_closeHole (inner : Option Inner) (s : State) (q : Quoted) (h : Hole) :
    s.errors <:+ (s.closeHole inner q h).errors := by
  unfold closeHole
  dsimp only
  split
  · exact List.suffix_cons _ _
  split
  · exact List.suffix_cons _ _
  · exact List.suffix_append _ _

theorem errors_suffix_quote (s : State) (q : Quoted) (p : Position) (c : Char) :
    s.errors <:+ (s.quote q p c).errors := by
  unfold quote
  repeat' split
  all_goals first | exact List.suffix_rfl | exact List.suffix_cons _ _

theorem errors_suffix_burrow (inner : Option Inner) (s : State) (q : Quoted) (h : Hole) (c : Char) :
    s.errors <:+ (s.burrow inner q h c).errors := by
  unfold burrow
  split
  · exact errors_suffix_closeHole inner s q h
  · dsimp only
    split <;> exact List.suffix_rfl

theorem errors_suffix_remark (s : State) (p : Position) (depth : Nat) (last : Option Char)
    (back : Option Margin) (c : Char) : s.errors <:+ (s.remark p depth last back c).errors := by
  unfold remark
  repeat' split
  all_goals exact List.suffix_rfl

theorem errors_suffix_margin {s t : State} {m : Margin} {p : Position} {c : Char}
    (h : s.margin m p c = some t) : s.errors <:+ t.errors := by
  unfold margin at h
  repeat' split at h
  all_goals first
    | contradiction
    | (obtain rfl := Option.some.inj h; exact List.suffix_rfl)

theorem errors_suffix_join {inner : Option Inner} {s t : State} {p : Position} {c : Char}
    (h : s.join inner p c = some t) : s.errors <:+ t.errors := by
  unfold join at h
  cases hm : s.mode with
  | margin m => rw [hm] at h; exact errors_suffix_margin h
  | remark opened depth last back =>
    rw [hm] at h
    obtain rfl := Option.some.inj h
    exact errors_suffix_remark ..
  | text q =>
    simp only [hm] at h
    split at h
    · contradiction
    · obtain rfl := Option.some.inj h; exact errors_suffix_quote ..
  | hole q b =>
    simp only [hm] at h
    split at h
    · contradiction
    · obtain rfl := Option.some.inj h; exact errors_suffix_burrow ..
  | _ =>
    simp only [hm] at h
    repeat' split at h
    all_goals first
      | contradiction
      | (obtain rfl := Option.some.inj h
         first | exact List.suffix_rfl | exact List.suffix_cons _ _)

theorem errors_suffix_step (inner : Option Inner) (s : State) (c : Char) :
    s.errors <:+ (s.step inner c).errors := by
  unfold step
  split
  · next t h => exact errors_suffix_join (s := s.past c) h
  · exact (errors_suffix_settle s).trans (errors_suffix_start (s.settle.past c) _ c)

theorem errors_suffix_run (inner : Option Inner) (s : State) (cs : List Char) :
    s.errors <:+ (s.run inner cs).errors := by
  induction cs generalizing s with
  | nil => exact List.suffix_rfl
  | cons c cs ih => exact (errors_suffix_step inner s c).trans (ih _)

/-- A run without errors takes its first step without one. -/
theorem errors_of_run_cons {inner : Option Inner} {s : State} {c : Char} {cs : List Char}
    (h : (s.run inner (c :: cs)).errors = []) : (s.step inner c).errors = [] := by
  have hsuffix := errors_suffix_run inner (s.step inner c) cs
  rw [show ((s.step inner c).run inner cs).errors = [] from h] at hsuffix
  exact List.suffix_nil.mp hsuffix

theorem errors_suffix_finish (s : State) : s.errors <:+ s.finish.errors := by
  unfold finish
  split
  · exact List.suffix_rfl
  · exact errors_suffix_settle s

theorem errors_suffix_finishInside (s : State) : s.errors <:+ s.finishInside.errors :=
  errors_suffix_settle s

theorem errors_of_finish {s : State} (h : s.finish.errors = []) : s.errors = [] :=
  List.suffix_nil.mp (h ▸ errors_suffix_finish s)

theorem errors_of_finishInside {s : State} (h : s.finishInside.errors = []) : s.errors = [] :=
  List.suffix_nil.mp (h ▸ errors_suffix_finishInside s)

end State

theorem lex_eq_ok {source : String} {tokens : List Token} :
    lex source = .ok tokens ↔
      (scan source.toList).finish.errors = [] ∧ (scan source.toList).finish.tokenList = tokens := by
  unfold lex
  dsimp only
  split
  · next h => simp [List.isEmpty_iff.mp h]
  · next h => simp [List.isEmpty_iff.not.mp h]

theorem lex_eq_error {source : String} {ds : List Diagnostic} :
    lex source = .error ds ↔
      (scan source.toList).finish.errors ≠ [] ∧ (scan source.toList).finish.errorList = ds := by
  unfold lex
  dsimp only
  split
  · next h => simp [List.isEmpty_iff.mp h]
  · next h => simp [List.isEmpty_iff.not.mp h]

end PipeLang.Scan
