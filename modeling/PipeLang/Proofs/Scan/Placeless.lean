import PipeLang.Proofs.Parse.Alike
import PipeLang.Scan.Lex

/-! The scanner does not look at positions. Two states whose places correspond, and that differ in nothing
else, stay so whatever is read from them. What the tokens of a text are does not depend on where the text
stands, then, and neither does how they lie to one another. -/

namespace PipeLang

/-- The same tokens at whatever places, in interpolations as well. -/
inductive SameKinds : List Token → List Token → Prop
  | nil : SameKinds [] []
  | cons {t u : Token} {ts us : List Token}
    (kind : TokenKind.Alike (fun _ => .origin) (fun _ => .origin) SameKinds t.kind u.kind)
    (rest : SameKinds ts us) : SameKinds (t :: ts) (u :: us)

namespace SameKinds

theorem append {ts us ts' us' : List Token} (h : SameKinds ts us) (h' : SameKinds ts' us') :
    SameKinds (ts ++ ts') (us ++ us') :=
  match h with
  | .nil => h'
  | .cons kind rest => .cons kind (rest.append h')

theorem reverse {ts us : List Token} (h : SameKinds ts us) :
    SameKinds ts.reverse us.reverse :=
  match h with
  | .nil => .nil
  | .cons kind rest => by
    rw [List.reverse_cons, List.reverse_cons]
    exact rest.reverse.append (.cons kind .nil)

/-- Tokens are the same as themselves; by recursion into their interpolations. -/
theorem refl : ∀ ts, SameKinds ts ts
  | [] => .nil
  | ⟨kind, span⟩ :: ts => by
    refine .cons ?_ (refl ts)
    cases kind with
    | text parts =>
      refine .text (List.forall₂_same.mpr fun part hpart => ?_)
      cases part with
      | literal text => exact .literal text
      | hole us s => exact .hole (refl us) rfl
    | _ => exact .plain rfl
termination_by ts => sizeOf ts
decreasing_by
  · have hsize := List.sizeOf_lt_of_mem hpart
    simp only [StringPart.hole.sizeOf_spec] at hsize
    simp only [List.cons.sizeOf_spec, Token.mk.sizeOf_spec, TokenKind.text.sizeOf_spec]
    omega
  · simp only [List.cons.sizeOf_spec]
    omega

/-- Tokens that are the same one by one. -/
theorem of_forall₂ {ts us : List Token}
    (h : List.Forall₂ (Token.Alike (fun _ => .origin) (fun _ => .origin) SameKinds) ts us) :
    SameKinds ts us := by
  induction h with
  | nil => exact .nil
  | cons h _ ih => exact .cons h.kind ih

theorem forall₂ {ts us : List Token} (h : SameKinds ts us) :
    List.Forall₂ (Token.Alike (fun _ => .origin) (fun _ => .origin) SameKinds) ts us :=
  match h with
  | .nil => .nil
  | .cons kind rest => .cons ⟨kind, rfl⟩ rest.forall₂

end SameKinds

/-! ## Places that correspond -/

namespace Scan

/-- Which positions of two texts correspond, and which spans: those that `left` and `right` send to the same
one. The spans between positions that correspond do so too. -/
structure Places where
  left : Span → Span
  right : Span → Span
  /-- The tokens of interpolations that correspond. -/
  holes : List Token → List Token → Prop
  near : Position → Position → Prop
  advance : ∀ {p q : Position} (c : Char), near p q → near (p.advance c) (q.advance c)
  span : ∀ {p q p' q' : Position}, near p q → near p' q' → left (p.to p') = right (q.to q')
  closed : ∀ {ts us : List Token} {s s' : Span}, List.Forall₂ (Token.Alike left right holes) ts us →
    left s = right s' → holes (ts ++ [⟨.eof, s⟩]) (us ++ [⟨.eof, s'⟩])

namespace Places

/-- All places correspond. -/
def any : Places where
  left _ := .origin
  right _ := .origin
  holes := SameKinds
  near _ _ := True
  advance _ h := h
  span _ _ := rfl
  closed h _ := (SameKinds.of_forall₂ h).append (.cons (.plain rfl) .nil)

variable (P : Places)

abbrev SameTokens (ts us : List Token) : Prop :=
  List.Forall₂ (Token.Alike P.left P.right P.holes) ts us

abbrev SameParts (ps qs : List StringPart) : Prop :=
  List.Forall₂ (StringPart.Alike P.left P.right P.holes) ps qs

variable {P}

theorem near_after {p q : Position} (h : P.near p q) (cs : List Char) :
    P.near (p.after cs) (q.after cs) := by
  induction cs generalizing p q with
  | nil => exact h
  | cons c cs ih => exact ih (P.advance c h)

end Places

structure Quoted.Alike (P : Places) (q r : Quoted) : Prop where
  start : P.near q.start r.start
  parts : P.SameParts q.parts r.parts
  literal : q.literal = r.literal

structure Hole.Alike (P : Places) (h k : Hole) : Prop where
  start : P.near h.start k.start
  body : h.body = k.body
  enclosing : h.enclosing = k.enclosing

structure Margin.Alike (P : Places) (m n : Margin) : Prop where
  start : P.near m.start n.start
  blanks : m.blanks = n.blanks

/-- The same mode at places that correspond. -/
inductive Mode.Alike (P : Places) : Mode → Mode → Prop
  | ready : Mode.Alike P .ready .ready
  | margin {m n : Margin} (margin : m.Alike P n) : Mode.Alike P (.margin m) (.margin n)
  | marginSlash {m n : Margin} {p q : Position} (margin : m.Alike P n) (slash : P.near p q) :
    Mode.Alike P (.marginSlash m p) (.marginSlash n q)
  | marginRemark {m n : Margin} (margin : m.Alike P n) :
    Mode.Alike P (.marginRemark m) (.marginRemark n)
  | note (alone : Bool) : Mode.Alike P (.note alone) (.note alone)
  | remark {p q : Position} (opened : P.near p q) (depth : Nat) (last : Option Char)
    {back back' : Option Margin} (margin : Option.Rel (Margin.Alike P) back back') :
    Mode.Alike P (.remark p depth last back) (.remark q depth last back')
  | slash {p q : Position} (start : P.near p q) : Mode.Alike P (.slash p) (.slash q)
  | minus {p q : Position} (start : P.near p q) : Mode.Alike P (.minus p) (.minus q)
  | bang {p q : Position} (start : P.near p q) : Mode.Alike P (.bang p) (.bang q)
  | less {p q : Position} (start : P.near p q) : Mode.Alike P (.less p) (.less q)
  | greater {p q : Position} (start : P.near p q) : Mode.Alike P (.greater p) (.greater q)
  | bar {p q : Position} (start : P.near p q) : Mode.Alike P (.bar p) (.bar q)
  | underscore {p q : Position} (start : P.near p q) :
    Mode.Alike P (.underscore p) (.underscore q)
  | word {p q : Position} (start : P.near p q) (text : List Char) :
    Mode.Alike P (.word p text) (.word q text)
  | underscoreWord {p q : Position} (start : P.near p q) (text : List Char) :
    Mode.Alike P (.underscoreWord p text) (.underscoreWord q text)
  | digits {p q : Position} (start : P.near p q) (whole : List Char) :
    Mode.Alike P (.digits p whole) (.digits q whole)
  | point {p q : Position} (start : P.near p q) (whole : List Char) {dot dot' : Position}
    (point : P.near dot dot') : Mode.Alike P (.point p whole dot) (.point q whole dot')
  | fraction {p q : Position} (start : P.near p q) (whole places : List Char) :
    Mode.Alike P (.fraction p whole places) (.fraction q whole places)
  | secondPoint {p q : Position} (start : P.near p q) (whole places : List Char)
    {dot dot' : Position} (point : P.near dot dot') :
    Mode.Alike P (.secondPoint p whole places dot) (.secondPoint q whole places dot')
  | repeatedPoint {p q : Position} (start : P.near p q) (text : List Char) :
    Mode.Alike P (.repeatedPoint p text) (.repeatedPoint q text)
  | digitWord {p q : Position} (start : P.near p q) (text : List Char) :
    Mode.Alike P (.digitWord p text) (.digitWord q text)
  | text {q r : Quoted} (quoted : q.Alike P r) : Mode.Alike P (.text q) (.text r)
  | escape {q r : Quoted} (quoted : q.Alike P r) : Mode.Alike P (.escape q) (.escape r)
  | hole {q r : Quoted} {h k : Hole} (quoted : q.Alike P r) (hole : h.Alike P k) :
    Mode.Alike P (.hole q h) (.hole r k)
  | holeEscape {q r : Quoted} {h k : Hole} (quoted : q.Alike P r) (hole : h.Alike P k) :
    Mode.Alike P (.holeEscape q h) (.holeEscape r k)

/-- States that differ in places that correspond only, and in what their errors say, if both have any. -/
structure State.Alike (P : Places) (s t : State) : Prop where
  mode : s.mode.Alike P t.mode
  position : P.near s.position t.position
  frames : s.frames = t.frames
  brackets : s.brackets.map Prod.fst = t.brackets.map Prod.fst
  tokens : P.SameTokens s.tokens t.tokens
  errors : s.errors = [] ↔ t.errors = []

/-- Scanners of interpolations that read tokens that correspond, or both find something wrong. -/
def Inner.Alike (P : Places) (inner inner' : Option Inner) : Prop :=
  Option.Rel (fun scan scan' => ∀ p q, P.near p q → ∀ cs, P.holes (scan p cs).1 (scan' q cs).1 ∧
    ((scan p cs).2 = [] ↔ (scan' q cs).2 = [])) inner inner'

variable {P : Places}

theorem Quoted.Alike.flush {q r : Quoted} (h : q.Alike P r) : q.flush.Alike P r.flush := by
  unfold Quoted.flush
  rw [← h.literal]
  split
  · exact h
  · exact ⟨h.start, .cons (.literal _) h.parts, rfl⟩

namespace State.Alike

variable {s t : State}

theorem become (h : s.Alike P t) {m n : Mode} (hm : m.Alike P n) :
    (s.become m).Alike P (t.become n) :=
  ⟨hm, h.position, h.frames, h.brackets, h.tokens, h.errors⟩

theorem past (h : s.Alike P t) (c : Char) : (s.past c).Alike P (t.past c) :=
  ⟨h.mode, P.advance c h.position, h.frames, h.brackets, h.tokens, h.errors⟩

section

variable {p q : Position} (hp : P.near p q)

include hp

theorem at_ (h : s.Alike P t) :
    State.Alike P { s with position := p } { t with position := q } :=
  ⟨h.mode, hp, h.frames, h.brackets, h.tokens, h.errors⟩

theorem emitAlike (h : s.Alike P t) {k l : TokenKind}
    (hk : TokenKind.Alike P.left P.right P.holes k l) : (s.emit p k).Alike P (t.emit q l) :=
  ⟨.ready, h.position, h.frames, h.brackets, .cons ⟨hk, P.span hp h.position⟩ h.tokens, h.errors⟩

theorem emit (h : s.Alike P t) {k : TokenKind} (hk : k.isText = false) :
    (s.emit p k).Alike P (t.emit q k) :=
  emitAlike hp h (.plain hk)

omit hp in
theorem report (h : s.Alike P t) (d d' : Diagnostic) : (s.report d).Alike P (t.report d') :=
  ⟨h.mode, h.position, h.frames, h.brackets, h.tokens, by simp [State.report]⟩

omit hp in
theorem fail (h : s.Alike P t) (p q : Position) (cause cause' : Cause) :
    (s.fail p cause).Alike P (t.fail q cause') :=
  ⟨.ready, h.position, h.frames, h.brackets, h.tokens, by simp [State.fail]⟩

theorem openBracket (h : s.Alike P t) (b : Punctuation) :
    (s.openBracket p b).Alike P (t.openBracket q b) :=
  ⟨.ready, h.position, h.frames, congrArg (b :: ·) h.brackets,
    .cons ⟨.plain rfl, P.span hp h.position⟩ h.tokens, h.errors⟩

theorem closeBracket (h : s.Alike P t) (b : Punctuation) :
    (s.closeBracket p b).Alike P (t.closeBracket q b) := by
  have hbrackets := h.brackets
  unfold State.closeBracket
  generalize s.brackets = bs at hbrackets ⊢
  generalize t.brackets = bs' at hbrackets ⊢
  cases bs with
  | nil =>
    cases bs' with
    | nil => exact emit hp (h.fail p q _ _) rfl
    | cons x xs => cases hbrackets
  | cons x xs =>
    cases bs' with
    | nil => cases hbrackets
    | cons y ys =>
      obtain ⟨o, span⟩ := x
      obtain ⟨o', span'⟩ := y
      obtain ⟨ho, houter⟩ := List.cons_eq_cons.mp hbrackets
      have houter : State.Alike P { s with brackets := xs } { t with brackets := ys } :=
        ⟨h.mode, h.position, h.frames, houter, h.tokens, h.errors⟩
      obtain rfl : o = o' := ho
      dsimp only
      split
      · exact emit hp houter rfl
      · exact emit hp (houter.report _ _) rfl

theorem endLine (h : s.Alike P t) : (s.endLine p).Alike P (t.endLine q) := by
  have hbrackets : s.brackets.isEmpty = t.brackets.isEmpty := by
    have hmap := congrArg List.isEmpty h.brackets
    rwa [List.isEmpty_map, List.isEmpty_map] at hmap
  unfold State.endLine
  rw [hbrackets]
  split
  · exact (emit hp h rfl).become (.margin ⟨h.position, rfl⟩)
  · exact h.become .ready

theorem emitWord (h : s.Alike P t) (text : List Char) :
    (s.emitWord p text).Alike P (t.emitWord q text) := by
  unfold State.emitWord
  dsimp only
  split <;> exact emit hp h rfl

theorem emitNumber (h : s.Alike P t) (whole places : List Char) :
    (s.emitNumber p whole places).Alike P (t.emitNumber q whole places) :=
  emit hp h rfl

omit hp

theorem emitText (h : s.Alike P t) {q r : Quoted} (hq : q.Alike P r) :
    (s.emitText q).Alike P (t.emitText r) :=
  emitAlike hq.start h (.text (List.rel_reverse hq.flush.parts))

theorem cutText (h : s.Alike P t) {q r : Quoted} (hq : q.Alike P r) :
    (s.cutText q).Alike P (t.cutText r) :=
  (h.fail _ _ _ _).emitText hq

include hp

/-- The same frames and so the same number of blocks that end. -/
theorem closeTo (h : s.Alike P t) (m : List Char) : (s.closeTo m p).Alike P (t.closeTo m q) := by
  unfold State.closeTo
  rw [h.frames]
  refine ⟨h.mode, h.position, rfl, h.brackets, List.rel_append ?_ h.tokens, h.errors⟩
  induction t.frames.takeWhile (· != m) with
  | nil => exact .nil
  | cons frame rest ih => exact .cons ⟨.plain rfl, P.span hp hp⟩ ih

theorem settleMargin (h : s.Alike P t) (m : List Char) :
    (s.settleMargin p m).Alike P (t.settleMargin q m) := by
  have hafter := Places.near_after hp m
  unfold State.settleMargin
  dsimp only
  rw [h.frames]
  split
  · exact h
  split
  · exact h.report _ _
  split
  · split
    · exact ⟨h.mode, h.position, rfl, h.brackets, .cons ⟨.plain rfl, P.span hp hafter⟩ h.tokens, h.errors⟩
    · exact h.report _ _
  split
  · exact closeTo hafter h m
  · exact h.report _ _

omit hp

theorem leaveMargin (h : s.Alike P t) {m n : Margin} (hm : m.Alike P n) :
    (s.leaveMargin m).Alike P (t.leaveMargin n) := by
  unfold State.leaveMargin
  rw [hm.blanks]
  exact (settleMargin hm.start h _).become .ready

theorem isText_of_symbol {c : Char} {k : TokenKind} (h : symbol? c = some k) : k.isText = false := by
  unfold symbol? at h
  split at h
  all_goals cases h
  all_goals rfl

include hp

theorem pending_alike (c : Char) : Option.Rel (Mode.Alike P) (pending? p c) (pending? q c) := by
  unfold pending?
  split
  case h_1 => exact .some (.note false)
  case h_9 => exact .some (.text ⟨hp, .nil, rfl⟩)
  case h_10 =>
    split
    · exact .some (.digits hp [c])
    split
    · exact .some (.word hp [c])
    · exact .none
  all_goals
    refine .some ?_
    constructor
    exact hp

theorem start (h : s.Alike P t) (c : Char) : (s.start p c).Alike P (t.start q c) := by
  unfold State.start
  split
  · exact h.become .ready
  split
  · exact endLine hp h
  cases hsymbol : symbol? c with
  | some kind => exact emit hp h (isText_of_symbol hsymbol)
  | none =>
    cases opening? c with
    | some b => exact openBracket hp h b
    | none =>
      cases closing? c with
      | some b => exact closeBracket hp h b
      | none =>
        have hpending := pending_alike hp c
        generalize pending? p c = m at hpending ⊢
        generalize pending? q c = n at hpending ⊢
        cases hpending with
        | some hm => exact h.become hm
        | none => exact h.fail p q _ _

end

theorem settle (h : s.Alike P t) : s.settle.Alike P t.settle := by
  have hmode := h.mode
  unfold State.settle
  generalize s.mode = m at hmode ⊢
  generalize t.mode = n at hmode ⊢
  cases hmode with
  | ready => exact h
  | margin margin => exact h.leaveMargin margin
  | marginSlash margin slash => exact emit slash (h.leaveMargin margin) rfl
  | marginRemark margin => exact h.leaveMargin margin
  | note alone => exact h.become .ready
  | remark opened depth last margin => exact h.fail _ _ _ _
  | slash start => exact emit start h rfl
  | minus start => exact emit start h rfl
  | bang start => exact h.fail _ _ _ _
  | less start => exact emit start h rfl
  | greater start => exact emit start h rfl
  | bar start => exact emit start h rfl
  | underscore start => exact emit start h rfl
  | word start text => exact emitWord start h text
  | underscoreWord start text => exact h.fail _ _ _ _
  | digits start whole => exact emitNumber start h whole []
  | point start whole point =>
    exact emit point (at_ h.position (emitNumber start (at_ point h) whole [])) rfl
  | fraction start whole places => exact emitNumber start h whole places
  | secondPoint start whole places point =>
    exact emit point (at_ h.position (emitNumber start (at_ point h) whole places)) rfl
  | repeatedPoint start text => exact h.fail _ _ _ _
  | digitWord start text => exact h.fail _ _ _ _
  | text quoted => exact h.cutText quoted
  | escape quoted => exact h.cutText quoted
  | hole quoted hole => exact h.cutText quoted
  | holeEscape quoted hole => exact h.cutText quoted

theorem closeHole (hs : s.Alike P t) {inner inner' : Option Inner}
    (hi : Inner.Alike P inner inner') {q r : Quoted} (hq : q.Alike P r) {h k : Hole}
    (hh : h.Alike P k) : (s.closeHole inner q h).Alike P (t.closeHole inner' r k) := by
  unfold State.closeHole
  rw [hh.body]
  dsimp only
  split
  · exact (hs.report _ _).become (.text hq)
  cases hi with
  | none => exact (hs.report _ _).become (.text hq)
  | @some scan scan' hscan =>
    obtain ⟨htokens, herrors⟩ := hscan h.start k.start hh.start k.body.reverse
    have hspan := P.span hh.start (Places.near_after hh.start k.body.reverse)
    refine ⟨.text ⟨hq.start, .cons (.hole htokens hspan) hq.parts, hq.literal⟩, hs.position, hs.frames,
      hs.brackets, hs.tokens, ?_⟩
    dsimp only
    rw [List.append_eq_nil_iff, List.append_eq_nil_iff, List.reverse_eq_nil_iff,
      List.reverse_eq_nil_iff, herrors, hs.errors]

theorem quote (h : s.Alike P t) {q r : Quoted} (hq : q.Alike P r) (p p' : Position) (c : Char) :
    (s.quote q p c).Alike P (t.quote r p' c) := by
  unfold State.quote
  split
  · exact h.emitText hq
  split
  · exact h.become (.escape hq)
  split
  · exact h.become (.hole hq.flush ⟨h.position, rfl, rfl⟩)
  split
  · exact (h.report _ _).become (.text hq)
  · exact h.become (.text ⟨hq.start, hq.parts, congrArg (c :: ·) hq.literal⟩)

theorem burrow (hs : s.Alike P t) {inner inner' : Option Inner}
    (hi : Inner.Alike P inner inner') {q r : Quoted} (hq : q.Alike P r) {h k : Hole}
    (hh : h.Alike P k) (c : Char) : (s.burrow inner q h c).Alike P (t.burrow inner' r k c) := by
  unfold State.burrow
  rw [hh.enclosing]
  split
  · exact hs.closeHole hi hq hh
  · dsimp only
    split
    · exact hs.become (.holeEscape hq ⟨hh.start, congrArg (c :: ·) hh.body, rfl⟩)
    · exact hs.become (.hole hq ⟨hh.start, congrArg (c :: ·) hh.body, rfl⟩)

theorem remark (h : s.Alike P t) {p q : Position} (hp : P.near p q) (depth : Nat)
    (last : Option Char) {back back' : Option Margin} (hback : Option.Rel (Margin.Alike P) back back')
    (c : Char) : (s.remark p depth last back c).Alike P (t.remark q depth last back' c) := by
  unfold State.remark
  split
  · exact h.become (.remark hp _ _ hback)
  · split
    · exact h.become (.remark hp _ _ hback)
    · cases hback with
      | none => exact h.become .ready
      | some margin => exact h.become (.marginRemark margin)
  · exact h.become (.remark hp _ _ hback)

theorem ite_rel {c : Prop} [Decidable c] {x x' y y' : Option State}
    (hx : Option.Rel (State.Alike P) x x') (hy : Option.Rel (State.Alike P) y y') :
    Option.Rel (State.Alike P) (if c then x else y) (if c then x' else y') := by
  split
  · exact hx
  · exact hy

theorem margin (h : s.Alike P t) {m n : Margin} (hm : m.Alike P n) {p q : Position}
    (hp : P.near p q) (c : Char) :
    Option.Rel (State.Alike P) (s.margin m p c) (t.margin n q c) := by
  unfold State.margin
  refine ite_rel (.some (h.become (.margin ⟨hm.start, congrArg (c :: ·) hm.blanks⟩))) ?_
  refine ite_rel (.some (h.become (.margin ⟨h.position, rfl⟩))) ?_
  refine ite_rel (.some (h.become (.note true))) ?_
  exact ite_rel (.some (h.become (.marginSlash hm hp))) .none

theorem join (hs : s.Alike P t) {inner inner' : Option Inner}
    (hi : Inner.Alike P inner inner') {p q : Position} (hp : P.near p q) (c : Char) :
    Option.Rel (State.Alike P) (s.join inner p c) (t.join inner' q c) := by
  have hmode := hs.mode
  unfold State.join
  generalize s.mode = m at hmode ⊢
  generalize t.mode = n at hmode ⊢
  cases hmode with
  | ready => exact .none
  | margin m => exact hs.margin m hp c
  | marginSlash m slash =>
    exact ite_rel (.some (hs.become (.remark slash 1 none (.some m)))) .none
  | marginRemark m =>
    exact ite_rel (.some hs) (ite_rel (.some (hs.become (.margin ⟨hs.position, rfl⟩)))
      (ite_rel (.some (hs.become (.note true))) .none))
  | note alone =>
    exact ite_rel (.some hs) (ite_rel (.some (hs.become (.margin ⟨hs.position, rfl⟩))) .none)
  | remark opened depth last m => exact .some (hs.remark opened depth last m c)
  | slash a => exact ite_rel (.some (hs.become (.remark a 1 none .none))) .none
  | minus a => exact ite_rel (.some (emit a hs rfl)) .none
  | bang a => exact ite_rel (.some (emit a hs rfl)) .none
  | less a => exact ite_rel (.some (emit a hs rfl)) .none
  | greater a => exact ite_rel (.some (emit a hs rfl)) .none
  | bar a => exact ite_rel (.some (emit a hs rfl)) .none
  | underscore a => exact ite_rel (.some (hs.become (.underscoreWord a _))) .none
  | word a text =>
    exact ite_rel (.some (hs.become (.word a _))) (ite_rel (.some (emitWord a hs _)) .none)
  | underscoreWord a text => exact ite_rel (.some (hs.become (.underscoreWord a _))) .none
  | digits a whole =>
    exact ite_rel (.some (hs.become (.digits a _))) (ite_rel (.some (hs.become (.point a _ hp)))
      (ite_rel (.some (hs.become (.digitWord a _))) .none))
  | point a whole point => exact ite_rel (.some (hs.become (.fraction a _ _))) .none
  | fraction a whole places =>
    exact ite_rel (.some (hs.become (.fraction a _ _)))
      (ite_rel (.some (hs.become (.secondPoint a _ _ hp)))
        (ite_rel (.some (hs.become (.digitWord a _))) .none))
  | secondPoint a whole places point =>
    exact ite_rel (.some (hs.become (.repeatedPoint a _))) .none
  | repeatedPoint a text => exact ite_rel (.some (hs.become (.repeatedPoint a _))) .none
  | digitWord a text =>
    exact ite_rel (.some (hs.become (.digitWord a _))) (ite_rel (.some (hs.fail _ _ _ _)) .none)
  | text quoted => exact ite_rel .none (.some (hs.quote quoted p q c))
  | escape quoted =>
    refine ite_rel .none (.some (hs.become (.text ⟨quoted.start, quoted.parts, ?_⟩)))
    dsimp only
    rw [quoted.literal]
  | hole quoted hole => exact ite_rel .none (.some (hs.burrow hi quoted hole c))
  | holeEscape quoted hole =>
    exact ite_rel .none (.some (hs.become
      (.hole quoted ⟨hole.start, congrArg (c :: ·) hole.body, hole.enclosing⟩)))

variable {inner inner' : Option Inner}

theorem step (h : s.Alike P t) (hi : Inner.Alike P inner inner') (c : Char) :
    (s.step inner c).Alike P (t.step inner' c) := by
  have hjoin := (h.past c).join hi h.position c
  unfold State.step
  generalize (s.past c).join inner s.position c = x at hjoin ⊢
  generalize (t.past c).join inner' t.position c = y at hjoin ⊢
  cases hjoin with
  | some h => exact h
  | none => exact start h.settle.position (h.settle.past c) c

theorem run (h : s.Alike P t) (hi : Inner.Alike P inner inner') (cs : List Char) :
    (s.run inner cs).Alike P (t.run inner' cs) := by
  induction cs generalizing s t with
  | nil => exact h
  | cons c cs ih => exact ih (h.step hi c)

theorem emitEof (h : s.Alike P t) : s.emitEof.Alike P t.emitEof := emit h.position h rfl

theorem closeAll (h : s.Alike P t) : s.closeAll.Alike P t.closeAll := closeTo h.position h []

theorem finish (h : s.Alike P t) : s.finish.Alike P t.finish := by
  have hline : s.mode.atLineStart = t.mode.atLineStart := by
    have hmode := h.mode
    generalize s.mode = m at hmode ⊢
    generalize t.mode = n at hmode ⊢
    cases hmode <;> rfl
  unfold State.finish
  rw [hline]
  split
  · exact h.closeAll.emitEof
  · exact (emit h.settle.position h.settle rfl).closeAll.emitEof

end State.Alike

/-- What stands in an interpolation is read in the same way wherever it stands. -/
theorem inner_alike (P : Places) (levels : Nat) : Inner.Alike P (inner? levels) (inner? levels) := by
  induction levels with
  | zero => exact .none
  | succ levels ih =>
    refine .some fun p q hp cs => ?_
    have hinside : (State.inside p).Alike P (State.inside q) :=
      ⟨.ready, hp, rfl, rfl, .nil, Iff.rfl⟩
    have hsettle := (hinside.run ih cs).settle
    rw [readInside_eq, readInside_eq]
    refine ⟨?_, by
      simpa [State.errorList, State.finishInside, List.reverse_eq_nil_iff] using hsettle.emitEof.errors⟩
    have hclosed := P.closed (List.rel_reverse hsettle.tokens) (P.span hsettle.position hsettle.position)
    simpa [State.tokenList, State.finishInside, State.emitEof, State.emit] using hclosed

end Scan

end PipeLang
