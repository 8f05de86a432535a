import PipeLang.Proofs.Scan.Frames
import PipeLang.Proofs.Scan.Row

/-! Where the scanner points when it reports an error. Every position that it keeps in mind is one of the
text read so far, so that every span it reports, with those of the labels, is a place in the text. The
text of an interpolation is read from its position in the whole text, and the same holds of its errors. -/

namespace PipeLang

/-- A position between two characters of `text`. -/
def Position.In (text : List Char) (p : Position) : Prop := ∃ a, a <+: text ∧ p = .after .origin a

/-- The span and those of the labels are places in `text`. -/
structure Diagnostic.Placed (text : List Char) (d : Diagnostic) : Prop where
  span : d.span.Placed text
  labels : ∀ l ∈ d.labels, l.1.Placed text

section

variable {text more : List Char}

theorem Position.in_after (text : List Char) : (Position.origin.after text).In text :=
  ⟨text, List.prefix_rfl, rfl⟩

theorem Position.In.mono {p : Position} (h : p.In text) (hmore : text <+: more) : p.In more := by
  obtain ⟨a, ha, rfl⟩ := h
  exact ⟨a, ha.trans hmore, rfl⟩

theorem Position.In.to {p : Position} (h : p.In text) :
    (p.to (.after .origin text)).Placed text := by
  obtain ⟨a, ⟨inner, rfl⟩, rfl⟩ := h
  exact ⟨a, inner, [], List.append_nil _, Position.to_after a inner⟩

theorem Span.Placed.mono {s : Span} (h : s.Placed text) (hmore : text <+: more) : s.Placed more := by
  obtain ⟨before, inner, after, rfl, rfl⟩ := h
  obtain ⟨rest, rfl⟩ := hmore
  exact ⟨before, inner, after ++ rest, by simp, rfl⟩

namespace Diagnostic.Placed

variable {d : Diagnostic}

theorem mono (h : d.Placed text) (hmore : text <+: more) : d.Placed more :=
  ⟨h.span.mono hmore, fun l hl => (h.labels l hl).mono hmore⟩

/-- A report without labels. -/
theorem of_span (hs : d.span.Placed text) (hl : d.labels = []) : d.Placed text :=
  ⟨hs, fun l hmem => by rw [hl] at hmem; cases hmem⟩

theorem withLabel (h : d.Placed text) {s : Span} (hs : s.Placed text) (label : String) :
    (d.withLabel s label).Placed text := by
  refine ⟨h.span, fun l hl => ?_⟩
  rcases List.mem_append.mp hl with hl | hl
  · exact h.labels l hl
  · rw [List.mem_singleton.mp hl]
    exact hs

end Diagnostic.Placed

end

namespace Scan

/-- The positions that a mode keeps in mind for a span. -/
def Mode.marks : Mode → List Position
  | .marginSlash _ p | .remark p _ _ _ | .slash p | .minus p | .bang p | .less p | .greater p | .bar p
  | .underscore p | .word p _ | .underscoreWord p _ | .digits p _ | .point p _ _ | .fraction p _ _
  | .secondPoint p _ _ _ | .repeatedPoint p _ | .digitWord p _ => [p]
  | .text q | .escape q => [q.start]
  | .hole q h | .holeEscape q h => [q.start, h.brace]
  | _ => []

/-- What grows with every character that is read, and where it started. -/
def Mode.growing? : Mode → Option (Position × List Char)
  | .margin m => some (m.start, m.blanks)
  | .hole _ h | .holeEscape _ h => some (h.start, h.body)
  | _ => none

/-- A margin that stands in `text`. -/
def Margin.In (text : List Char) (m : Margin) : Prop :=
  ∃ a, m.start = .after .origin a ∧ a ++ m.blanks.reverse <+: text

/-- The positions in a mode after `text`. -/
structure Mode.Anchored (text : List Char) (mode : Mode) : Prop where
  marks : ∀ p ∈ mode.marks, p.In text
  margin : ∀ m ∈ mode.margin?, m.In text
  growing : ∀ g ∈ mode.growing?, ∃ a, g.1 = .after .origin a ∧ a ++ g.2.reverse = text

theorem Margin.In.mono {text more : List Char} {m : Margin} (h : m.In text) (hmore : text <+: more) :
    m.In more := by
  obtain ⟨a, hstart, ha⟩ := h
  exact ⟨a, hstart, ha.trans hmore⟩

namespace Mode.Anchored

variable {text : List Char} {mode : Mode} {p : Position}

/-- A mode that keeps no margin in mind and no text that grows. -/
theorem of_marks (hmarks : ∀ p ∈ mode.marks, p.In text) (hmargin : mode.margin? = none)
    (hgrowing : mode.growing? = none) : mode.Anchored text := by
  refine ⟨hmarks, fun m hm => ?_, fun g hg => ?_⟩
  · rw [hmargin] at hm
    cases hm
  · rw [hgrowing] at hg
    cases hg

theorem ready : Mode.ready.Anchored text := of_marks (fun _ hp => nomatch hp) rfl rfl

theorem note (alone : Bool) : (Mode.note alone).Anchored text :=
  of_marks (fun _ hp => nomatch hp) rfl rfl

/-- A mode that keeps no more in mind than another one did. -/
theorem keep (h : mode.Anchored text) {more : List Char} {mode' : Mode} (hmore : text <+: more)
    (hmarks : ∀ p ∈ mode'.marks, p ∈ mode.marks) (hmargin : ∀ m ∈ mode'.margin?, m ∈ mode.margin?)
    (hgrowing : mode'.growing? = none) : mode'.Anchored more := by
  refine ⟨fun p hp => (h.marks p (hmarks p hp)).mono hmore,
    fun m hm => (h.margin m (hmargin m hm)).mono hmore, fun g hg => ?_⟩
  rw [hgrowing] at hg
  cases hg

/-- A margin that stands at the end of the text. -/
theorem blanks {m : Margin} {a : List Char} (hstart : m.start = .after .origin a)
    (ha : a ++ m.blanks.reverse = text) : (Mode.margin m).Anchored text := by
  refine ⟨fun _ hp => (nomatch hp), fun m' hm => ?_, fun g hg => ?_⟩
  · cases hm
    exact ⟨a, hstart, ha ▸ List.prefix_rfl⟩
  · cases hg
    exact ⟨a, hstart, ha⟩

theorem line (text : List Char) : (Mode.margin ⟨.after .origin text, []⟩).Anchored text :=
  blanks rfl (List.append_nil text)

/-- An interpolation that stands at the end of the text. -/
theorem hole {q : Quoted} {h : Hole} {a : List Char} (hq : q.start.In text) (hb : h.brace.In text)
    (hstart : h.start = .after .origin a) (ha : a ++ h.body.reverse = text) :
    (Mode.hole q h).Anchored text ∧ (Mode.holeEscape q h).Anchored text := by
  have hmarks : ∀ p ∈ [q.start, h.brace], p.In text := by simp [hq, hb]
  constructor <;> refine ⟨hmarks, fun _ hm => (nomatch hm), fun g hg => ?_⟩ <;> cases hg <;>
    exact ⟨a, hstart, ha⟩

/-- One more character of an interpolation. -/
theorem deeper {q : Quoted} {h : Hole} {a : List Char} {c : Char} (hq : q.start.In (text ++ [c]))
    (hb : h.brace.In (text ++ [c])) (hstart : h.start = .after .origin a)
    (ha : a ++ h.body.reverse = text) (up : List Enclosing) :
    (Mode.hole q { h with body := c :: h.body, enclosing := up }).Anchored (text ++ [c]) ∧
      (Mode.holeEscape q { h with body := c :: h.body, enclosing := up }).Anchored (text ++ [c]) :=
  hole hq hb hstart (by rw [← ha, List.reverse_cons, List.append_assoc])

end Mode.Anchored

/-- The errors in a text that `inner` reads are places in it. -/
def Inner.Points (inner : Option Inner) : Prop :=
  ∀ scan, inner = some scan → ∀ a body, ∀ d ∈ (scan (.after .origin a) body).2, d.Placed (a ++ body)

namespace State

/-- What the scanner keeps in mind besides its mode, after `text`. -/
structure Grounded (text : List Char) (s : State) : Prop where
  position : s.position = .after .origin text
  brackets : ∀ b ∈ s.brackets, b.2.Placed text
  errors : ∀ d ∈ s.errors, d.Placed text

structure Anchored (text : List Char) (s : State) : Prop extends Grounded text s where
  mode : s.mode.Anchored text

variable {inner : Option Inner} {text : List Char} {s t : State}

theorem anchored_initial : initial.Anchored [] :=
  ⟨⟨rfl, fun _ hb => (nomatch hb), fun _ hd => nomatch hd⟩, Mode.Anchored.line []⟩

theorem anchored_inside (text : List Char) : (inside (.after .origin text)).Anchored text :=
  ⟨⟨rfl, fun _ hb => (nomatch hb), fun _ hd => nomatch hd⟩, .ready⟩

namespace Grounded

variable {p : Position}

theorem past (h : s.Grounded text) (c : Char) : (s.past c).Grounded (text ++ [c]) := by
  have hmore : text <+: text ++ [c] := List.prefix_append _ _
  refine ⟨?_, fun b hb => (h.brackets b hb).mono hmore, fun d hd => (h.errors d hd).mono hmore⟩
  rw [State.past, h.position, Position.after_append]
  rfl

theorem become (h : s.Grounded text) {mode : Mode} (hm : mode.Anchored text) :
    (s.become mode).Anchored text :=
  ⟨⟨h.position, h.brackets, h.errors⟩, hm⟩

theorem emit (h : s.Grounded text) (p : Position) (k : TokenKind) : (s.emit p k).Anchored text :=
  ⟨⟨h.position, h.brackets, h.errors⟩, .ready⟩

theorem report (h : s.Grounded text) {d : Diagnostic} (hd : d.Placed text) :
    (s.report d).Grounded text :=
  ⟨h.position, h.brackets, List.forall_mem_cons.mpr ⟨hd, h.errors⟩⟩

theorem span (h : s.Grounded text) (hp : p.In text) : (p.to s.position).Placed text := by
  rw [h.position]
  exact hp.to

theorem fail (h : s.Grounded text) (hp : p.In text) (cause : Cause) : (s.fail p cause).Anchored text :=
  ⟨⟨h.position, h.brackets, List.forall_mem_cons.mpr ⟨.of_span (h.span hp) rfl, h.errors⟩⟩, .ready⟩

theorem openBracket (h : s.Grounded text) (hp : p.In text) (b : Punctuation) :
    (s.openBracket p b).Anchored text :=
  ⟨⟨h.position, List.forall_mem_cons.mpr ⟨h.span hp, h.brackets⟩, h.errors⟩, .ready⟩

theorem closeBracket (h : s.Grounded text) (hp : p.In text) (b : Punctuation) :
    (s.closeBracket p b).Anchored text := by
  unfold State.closeBracket
  split
  · exact (h.fail hp _).emit p _
  · next o span outer hbrackets =>
    obtain ⟨hspan, houter⟩ := List.forall_mem_cons.mp (hbrackets ▸ h.brackets)
    have hclosed : Grounded text { s with brackets := outer } := ⟨h.position, houter, h.errors⟩
    dsimp only
    split
    · exact hclosed.emit p _
    · exact (hclosed.report (.withLabel (.of_span (h.span hp) rfl) hspan _)).emit p _

theorem endLine (h : s.Grounded text) (p : Position) : (s.endLine p).Anchored text := by
  unfold State.endLine
  split
  · refine (h.emit p _).become ?_
    rw [h.position]
    exact .line text
  · exact h.become .ready

/-- A margin is reported where it stands. -/
theorem settleMargin (h : s.Grounded text) {m : Margin} (hm : m.In text) :
    (s.settleMargin m.start m.blanks.reverse).Grounded text := by
  obtain ⟨a, hstart, hbegins⟩ := hm
  have hspan : (m.start.to (m.start.after m.blanks.reverse)).Placed text := by
    rw [hstart, ← Position.after_append, Position.to_after]
    obtain ⟨rest, hrest⟩ := hbegins
    exact ⟨a, _, rest, hrest, rfl⟩
  simp only [State.settleMargin]
  repeat' split
  case _ => exact h
  case _ => exact h.report (.of_span hspan rfl)
  case _ => exact ⟨h.position, h.brackets, h.errors⟩
  case _ => exact h.report (.of_span hspan rfl)
  case _ => exact ⟨h.position, h.brackets, h.errors⟩
  case _ => exact h.report (.of_span hspan rfl)

theorem leaveMargin (h : s.Grounded text) {m : Margin} (hm : m.In text) : (s.leaveMargin m).Anchored text :=
  (h.settleMargin hm).become .ready

theorem cutText (h : s.Grounded text) {q : Quoted} (hq : q.start.In text) : (s.cutText q).Anchored text :=
  (h.fail hq _).emit _ _

theorem marks_of_pending {c : Char} {mode : Mode} (h : pending? p c = some mode) :
    (∀ q ∈ mode.marks, q = p) ∧ mode.margin? = none ∧ mode.growing? = none := by
  unfold pending? at h
  repeat' split at h
  all_goals cases h <;> exact ⟨by simp [Mode.marks], rfl, rfl⟩

theorem start (h : s.Grounded text) (hp : p.In text) (c : Char) : (s.start p c).Anchored text := by
  unfold State.start
  split
  · exact h.become .ready
  split
  · exact h.endLine p
  split
  · exact h.emit p _
  · exact h.openBracket hp _
  · exact h.closeBracket hp _
  · next hpending _ _ _ =>
    obtain ⟨hmarks, hmargin, hgrowing⟩ := marks_of_pending hpending
    exact h.become (.of_marks (fun q hq => hmarks q hq ▸ hp) hmargin hgrowing)
  · exact h.fail hp _

theorem flush_start (q : Quoted) : q.flush.start = q.start := by
  unfold Quoted.flush
  split <;> rfl

theorem reading (h : s.Grounded text) {q : Quoted} (hq : q.start.In text) :
    (s.become (.text q)).Anchored text :=
  h.become (.of_marks (List.forall_mem_singleton.mpr hq) rfl rfl)

theorem quote (h : s.Grounded text) {q : Quoted} (hq : q.start.In text) (hp : p.In text) (c : Char) :
    (s.quote q p c).Anchored text := by
  unfold State.quote
  split
  · exact h.emit _ _
  split
  · exact h.become (.of_marks (List.forall_mem_singleton.mpr hq) rfl rfl)
  split
  · exact h.become (Mode.Anchored.hole (flush_start q ▸ hq) hp h.position (List.append_nil text)).1
  split
  · exact (h.report (.of_span (h.span hp) rfl)).reading hq
  · exact h.reading hq

/-- The errors in an interpolation are those of a text that starts after its brace. -/
theorem closeHole (hinner : Inner.Points inner) (h : s.Grounded text) {q : Quoted} {b : Hole}
    {a : List Char} (hq : q.start.In text) (hb : b.brace.In text) (hstart : b.start = .after .origin a)
    (ha : a ++ b.body.reverse <+: text) : (s.closeHole inner q b).Anchored text := by
  unfold State.closeHole
  dsimp only
  split
  · exact (h.report (.of_span (h.span hb) rfl)).reading hq
  cases inner with
  | none => exact (h.report (.of_span (h.span hb) rfl)).reading hq
  | some scan =>
    refine ⟨⟨h.position, h.brackets, fun d hd => ?_⟩,
      .of_marks (List.forall_mem_singleton.mpr hq) rfl rfl⟩
    rcases List.mem_append.mp hd with hd | hd
    · rw [List.mem_reverse, hstart] at hd
      exact (hinner scan rfl a _ d hd).mono ha
    · exact h.errors d hd

theorem burrow (hinner : Inner.Points inner) (h : s.Grounded (text ++ [c])) {q : Quoted} {b : Hole}
    {a : List Char} (hq : q.start.In (text ++ [c])) (hb : b.brace.In (text ++ [c]))
    (hstart : b.start = .after .origin a) (ha : a ++ b.body.reverse = text) :
    (s.burrow inner q b c).Anchored (text ++ [c]) := by
  unfold State.burrow
  split
  · exact h.closeHole hinner hq hb hstart (ha ▸ List.prefix_append _ _)
  · dsimp only
    split
    · exact h.become (Mode.Anchored.deeper hq hb hstart ha _).2
    · exact h.become (Mode.Anchored.deeper hq hb hstart ha _).1

theorem remark (h : s.Grounded text) {opened : Position} {back : Option Margin} (ho : opened.In text)
    (hback : ∀ m ∈ back, m.In text) (depth : Nat) (last : Option Char) (c : Char) :
    (s.remark opened depth last back c).Anchored text := by
  have hdeep (depth : Nat) (last : Option Char) : (Mode.remark opened depth last back).Anchored text :=
    ⟨List.forall_mem_singleton.mpr ho, hback, fun _ hg => nomatch hg⟩
  unfold State.remark
  split
  · exact h.become (hdeep _ _)
  · split
    · exact h.become (hdeep _ _)
    split
    · exact h.become ⟨fun _ hp => (nomatch hp), hback, fun _ hg => nomatch hg⟩
    · exact h.become .ready
  · exact h.become (hdeep _ _)

end Grounded

namespace Anchored

theorem settle (h : s.Anchored text) : s.settle.Anchored text := by
  have hm := h.mode
  have hg := h.toGrounded
  unfold State.settle
  cases hs : s.mode with
  | ready => exact h
  | margin m | marginRemark m =>
    rw [hs] at hm
    exact hg.leaveMargin (hm.margin m rfl)
  | marginSlash m slash =>
    rw [hs] at hm
    exact (hg.leaveMargin (hm.margin m rfl)).emit slash _
  | note alone => exact hg.become .ready
  | point p whole dot | secondPoint p whole places dot =>
    exact ⟨⟨hg.position, hg.brackets, hg.errors⟩, .ready⟩
  | slash p | minus p | less p | greater p | bar p | underscore p | word p text | digits p whole
  | fraction p whole places => exact hg.emit p _
  | remark p depth last back | bang p | underscoreWord p text | repeatedPoint p text
  | digitWord p text =>
    rw [hs] at hm
    exact hg.fail (hm.marks p List.mem_cons_self) _
  | text q | escape q | hole q b | holeEscape q b =>
    rw [hs] at hm
    exact hg.cutText (hm.marks q.start List.mem_cons_self)

theorem margin (h : s.Anchored text) {m : Margin} (hs : s.mode = .margin m) {c : Char}
    (hj : (s.past c).margin m s.position c = some t) : t.Anchored (text ++ [c]) := by
  have hg := h.toGrounded.past c
  have hm := h.mode
  rw [hs] at hm
  obtain ⟨a, hstart, ha⟩ := hm.growing _ rfl
  unfold State.margin at hj
  split at hj
  · cases hj
    refine hg.become (.blanks hstart ?_)
    rw [← ha, List.reverse_cons, List.append_assoc]
  split at hj
  · cases hj
    refine hg.become ?_
    rw [hg.position]
    exact .line _
  split at hj
  · cases hj
    exact hg.become (.note true)
  split at hj
  · cases hj
    have hposition : s.position.In (text ++ [c]) :=
      h.position ▸ (Position.in_after text).mono (List.prefix_append _ _)
    refine hg.become ⟨List.forall_mem_singleton.mpr hposition, fun m' hm' => ?_, fun _ hx => nomatch hx⟩
    cases hm'
    exact (hm.margin m rfl).mono (List.prefix_append _ _)
  · cases hj

theorem join (hinner : Inner.Points inner) (h : s.Anchored text) {c : Char}
    (hj : (s.past c).join inner s.position c = some t) : t.Anchored (text ++ [c]) := by
  have hmore : text <+: text ++ [c] := List.prefix_append _ _
  have hg := h.toGrounded.past c
  have hm := h.mode
  have hposition : s.position.In (text ++ [c]) := h.position ▸ (Position.in_after text).mono hmore
  have hline : ((s.past c).become (.margin ⟨(s.past c).position, []⟩)).Anchored (text ++ [c]) := by
    rw [hg.position]
    exact hg.become (.line _)
  have hpast : (s.past c).mode = s.mode := rfl
  unfold State.join at hj
  rw [hpast] at hj
  cases hs : s.mode with
  | margin m =>
    simp only [hs] at hj
    exact h.margin hs hj
  | marginSlash m slash =>
    rw [hs] at hm
    simp only [hs] at hj
    split at hj <;> cases hj
    exact hg.become (hm.keep hmore (fun _ => id) (fun _ => id) rfl)
  | marginRemark m =>
    simp only [hs] at hj
    repeat' split at hj
    all_goals cases hj
    · exact ⟨hg, hm.keep hmore (fun _ => id) (fun _ => id) (by rw [hpast, hs]; rfl)⟩
    · exact hline
    · exact hg.become (.note true)
  | note alone =>
    simp only [hs] at hj
    repeat' split at hj
    all_goals cases hj
    · exact ⟨hg, hm.keep hmore (fun _ => id) (fun _ => id) (by rw [hpast, hs]; rfl)⟩
    · exact hline
  | remark opened depth last back =>
    rw [hs] at hm
    simp only [hs] at hj
    cases hj
    exact hg.remark ((hm.marks opened List.mem_cons_self).mono hmore)
      (fun m hback => (hm.margin m hback).mono hmore) depth last c
  | text q =>
    rw [hs] at hm
    simp only [hs] at hj
    split at hj <;> cases hj
    exact hg.quote ((hm.marks q.start List.mem_cons_self).mono hmore) hposition c
  | hole q b | holeEscape q b =>
    rw [hs] at hm
    have hq := hm.marks q.start List.mem_cons_self
    have hb := hm.marks b.brace (List.mem_cons_of_mem _ List.mem_cons_self)
    obtain ⟨a, hstart, ha⟩ := hm.growing _ rfl
    simp only [hs] at hj
    split at hj <;> cases hj
    first
      | exact hg.burrow hinner (hq.mono hmore) (hb.mono hmore) hstart ha
      | exact hg.become (Mode.Anchored.deeper (hq.mono hmore) (hb.mono hmore) hstart ha _).1
  | digitWord p word =>
    rw [hs] at hm
    simp only [hs] at hj
    repeat' split at hj
    all_goals cases hj
    · exact hg.become (hm.keep hmore (fun _ => id) (fun _ => id) rfl)
    · exact hg.fail ((hm.marks p List.mem_cons_self).mono hmore) _
  | _ =>
    rw [hs] at hm
    simp only [hs] at hj
    repeat' split at hj
    all_goals cases hj
    all_goals first
      | exact hg.emit _ _
      | exact hg.become (hm.keep hmore (fun _ => id) (fun _ => id) rfl)

theorem step (hinner : Inner.Points inner) (h : s.Anchored text) (c : Char) :
    (s.step inner c).Anchored (text ++ [c]) := by
  unfold State.step
  split
  · next hj => exact h.join hinner hj
  · -- what was pending ends where `c` starts
    have hsettle := h.settle.toGrounded
    refine (hsettle.past c).start ?_ c
    rw [hsettle.position]
    exact (Position.in_after text).mono (List.prefix_append _ _)

theorem run (hinner : Inner.Points inner) (h : s.Anchored text) (cs : List Char) :
    (s.run inner cs).Anchored (text ++ cs) := by
  induction cs generalizing s text with
  | nil => simpa using h
  | cons c cs ih => simpa using ih (h.step hinner c)

theorem finish (h : s.Anchored text) : s.finish.Anchored text := by
  unfold State.finish
  split
  · exact ⟨⟨h.position, h.brackets, h.errors⟩, .ready⟩
  · exact ⟨⟨h.settle.position, h.settle.brackets, h.settle.errors⟩, .ready⟩

end Anchored

end State

/-- By induction on the interpolations that may still nest. -/
theorem inner_points (levels : Nat) : Inner.Points (inner? levels) := by
  induction levels with
  | zero => exact fun _ hscan => nomatch hscan
  | succ levels ih =>
    intro scan hscan a body d hd
    cases hscan
    rw [readInside_eq] at hd
    exact ((State.anchored_inside a).run ih body).settle.errors d (List.mem_reverse.mp hd)

/-- Every error in a text points into it. -/
theorem placed_of_lex {source : String} {ds : List Diagnostic} (h : lex source = .error ds) :
    ∀ d ∈ ds, d.Placed source.toList := by
  have hscan : (scan source.toList).Anchored source.toList :=
    State.anchored_initial.run (inner_points nestingLimit) source.toList
  obtain ⟨-, rfl⟩ := lex_eq_error.mp h
  exact fun d hd => hscan.finish.errors d (List.mem_reverse.mp hd)

end Scan

end PipeLang
