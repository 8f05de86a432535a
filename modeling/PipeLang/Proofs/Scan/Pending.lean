import PipeLang.Proofs.Scan.Formed
import PipeLang.Proofs.Scan.Tiles

/-! What the scanner has read, as far as the tokens account for it, and what is pending. The mode says which
text is pending and where it starts, so that nothing of it is lost when it comes to an end. -/

namespace PipeLang.Scan

/-- The inside of a block comment so far, `last` being its last character when that may begin a mark. -/
def InComment (raw : List Char) (depth : Nat) (last : Option Char) : Prop :=
  0 < depth ∧ ∀ rest, CommentRest depth (last.toList ++ rest) → CommentRest 1 (raw ++ rest)

namespace InComment

variable {raw : List Char} {depth : Nat} {last : Option Char}

theorem empty : InComment [] 1 none := ⟨Nat.one_pos, fun _ h => h⟩

theorem opens (h : InComment raw depth (some '/')) : InComment (raw ++ ['*']) (depth + 1) none :=
  ⟨Nat.succ_pos depth, fun rest hrest => by simpa using h.2 ('*' :: rest) (.opens hrest)⟩

theorem closes (h : InComment raw (depth + 2) (some '*')) :
    InComment (raw ++ ['/']) (depth + 1) none :=
  ⟨Nat.succ_pos depth, fun rest hrest => by simpa using h.2 ('/' :: rest) (.closes hrest)⟩

theorem stop (h : InComment raw 1 (some '*')) : CommentRest 1 (raw ++ ['/']) := h.2 ['/'] .stop

theorem char (h : InComment raw depth last) {c : Char} (hopen : ¬ (last = some '/' ∧ c = '*'))
    (hclose : ¬ (last = some '*' ∧ c = '/')) :
    InComment (raw ++ [c]) depth (if c = '/' ∨ c = '*' then some c else none) := by
  refine ⟨h.1, fun rest hrest => ?_⟩
  have hc : CommentRest depth (c :: rest) := by
    split at hrest
    · exact hrest
    · next hmark =>
      simp only [not_or] at hmark
      exact .char (by simp [Ne.symm hmark.1]) (by simp [Ne.symm hmark.2]) hrest
  have hall : CommentRest depth (last.toList ++ c :: rest) := by
    cases last with
    | none => exact hc
    | some l =>
      refine .char (fun hmark => hopen ?_) (fun hmark => hclose ?_) hc
      · obtain ⟨hl, hmark⟩ := List.cons_prefix_cons.mp hmark
        exact ⟨congrArg some hl.symm, (List.cons_prefix_cons.mp hmark).1.symm⟩
      · obtain ⟨hl, hmark⟩ := List.cons_prefix_cons.mp hmark
        exact ⟨congrArg some hl.symm, (List.cons_prefix_cons.mp hmark).1.symm⟩
  simpa using h.2 (c :: rest) hall

end InComment

/-- A string read so far: `raw` is what stands after its quote, which comes after `before`. -/
structure Quoted.Reads (before raw : List Char) (q : Quoted) : Prop where
  start : q.start = .after .origin before
  parts : ∃ read late, raw = read ++ late ∧ Unescapes late q.literal.reverse ∧
    ∀ cs ps, Quotes (before ++ ['"'] ++ read) cs ps →
      Quotes (before ++ ['"']) (read ++ cs) (q.parts.reverse ++ ps)

namespace Quoted.Reads

variable {before raw : List Char} {q : Quoted}

theorem new (before : List Char) : Quoted.Reads before [] ⟨.after .origin before, [], []⟩ :=
  ⟨rfl, [], [], rfl, .nil, fun _ _ h => by simpa using h⟩

theorem more (h : q.Reads before raw) {written text : List Char} (hw : Unescapes written text) :
    Quoted.Reads before (raw ++ written) { q with literal := text.reverse ++ q.literal } := by
  obtain ⟨hstart, read, late, rfl, hlate, hread⟩ := h
  refine ⟨hstart, read, late ++ written, List.append_assoc .., ?_, hread⟩
  rw [List.reverse_append, List.reverse_reverse]
  exact hlate.append hw

theorem flush (h : q.Reads before raw) : q.flush.Reads before raw := by
  unfold Quoted.flush
  split
  · exact h
  next hliteral =>
  obtain ⟨hstart, read, late, rfl, hlate, hread⟩ := h
  refine ⟨hstart, read ++ late, [], (List.append_nil _).symm, .nil, fun cs ps hrest => ?_⟩
  rw [List.append_assoc, List.reverse_cons, List.append_assoc]
  refine hread _ _ (.literal (fun hnil => hliteral ?_) hlate (by simpa using hrest))
  rw [List.isEmpty_iff]
  exact List.reverse_eq_nil_iff.mp hnil

/-- A string that is read up to its end, with its quotes. -/
theorem spells (h : q.Reads before raw) (hliteral : q.literal = []) :
    Spells before ('"' :: raw ++ ['"']) (.text q.parts.reverse) := by
  obtain ⟨-, read, late, rfl, hlate, hread⟩ := h
  rw [hliteral] at hlate
  obtain rfl := hlate.eq_nil
  have hquotes := hread [] [] .nil
  rw [List.append_nil q.parts.reverse] at hquotes
  exact .text hquotes

theorem hole (h : q.Reads before raw) (hliteral : q.literal = []) {body : List Char}
    {tokens : List Token} (htiles : Tiles (before ++ '"' :: raw ++ ['\x7b']) body tokens) :
    Quoted.Reads before (raw ++ '\x7b' :: body ++ ['\x7d'])
      { q with parts := .hole tokens (.ofText (before ++ '"' :: raw ++ ['\x7b']) body) :: q.parts } := by
  obtain ⟨hstart, read, late, rfl, hlate, hread⟩ := h
  rw [hliteral] at hlate
  obtain rfl := hlate.eq_nil
  rw [List.append_nil] at htiles ⊢
  refine ⟨hstart, read ++ '\x7b' :: body ++ ['\x7d'], [], (List.append_nil _).symm,
    by rw [hliteral]; exact .nil, fun cs ps hrest => ?_⟩
  have hsplit : before ++ ['"'] ++ read = before ++ '"' :: read := by simp
  rw [hsplit] at hread
  have hhole := hread _ _ (.hole htiles (by simpa using hrest))
  simpa using hhole

end Quoted.Reads

/-- A brace encloses all the rest. -/
def Braced (up : List Enclosing) : Prop := ∃ inside n, up = inside ++ [.brace n]

/-- Only a brace ends what a brace encloses. -/
theorem Braced.next {up : List Enclosing} (h : Braced up) (c : Char) :
    (Enclosing.next c up = [] ∧ c = '\x7d') ∨ Braced (Enclosing.next c up) := by
  obtain ⟨inside, n, rfl⟩ := h
  cases inside with
  | nil =>
    rw [List.nil_append, Enclosing.next.eq_def]
    dsimp only
    split
    · exact .inr ⟨[.quote], n, rfl⟩
    split
    · exact .inr ⟨[], n + 1, rfl⟩
    split
    · next hc =>
      cases n with
      | zero => exact .inl ⟨rfl, hc⟩
      | succ n => exact .inr ⟨[], n, rfl⟩
    · exact .inr ⟨[], n, rfl⟩
  | cons top inside =>
    refine .inr ?_
    rw [List.cons_append]
    cases top with
    | quote =>
      rw [Enclosing.next.eq_def]
      dsimp only
      repeat' split
      · exact ⟨inside, n, rfl⟩
      · exact ⟨.brace 0 :: .quote :: inside, n, rfl⟩
      · exact ⟨.quote :: inside, n, rfl⟩
    | brace k =>
      rw [Enclosing.next.eq_def]
      dsimp only
      split
      · exact ⟨.quote :: .brace k :: inside, n, rfl⟩
      split
      · exact ⟨.brace (k + 1) :: inside, n, rfl⟩
      split
      · cases k with
        | zero => exact ⟨inside, n, rfl⟩
        | succ k => exact ⟨.brace k :: inside, n, rfl⟩
      · exact ⟨.brace k :: inside, n, rfl⟩

/-- A margin that starts after `before`. -/
structure Margin.At (before : List Char) (m : Margin) : Prop where
  start : m.start = .after .origin before
  blanks : ∀ b ∈ m.blanks, b = ' ' ∨ b = '\t'

def Digits (ds : List Char) : Prop := ds ≠ [] ∧ ∀ d ∈ ds, d.isDigit = true

theorem Digits.append {ds : List Char} (h : Digits ds) {d : Char} (hd : d.isDigit = true) :
    Digits (ds ++ [d]) :=
  ⟨by simp, fun e he => (List.mem_append.mp he).elim (h.2 e) fun he => List.mem_singleton.mp he ▸ hd⟩

theorem Digits.single {d : Char} (hd : d.isDigit = true) : Digits [d] :=
  ⟨List.cons_ne_nil _ _, List.forall_mem_singleton.mpr hd⟩

/-- An interpolation read so far, of the string that starts after `before`. -/
structure Hole.Reads (before raw : List Char) (q : Quoted) (h : Hole) : Prop where
  quoted : q.Reads before raw
  literal : q.literal = []
  start : h.start = .after .origin (before ++ '"' :: raw ++ ['\x7b'])
  enclosing : Braced h.enclosing

/-- After `before` the text `w` is pending. What can only end in an error may be pending with any text. -/
def Mode.Pends (before w : List Char) : Mode → Prop
  | .ready => w = []
  | .margin m => m.At before ∧ w = m.blanks.reverse
  | .marginSlash m mark => m.At before ∧ w = m.blanks.reverse ++ ['/'] ∧
    mark = .after .origin (before ++ m.blanks.reverse)
  | .marginRemark m => m.At before ∧
    ∃ gap, w = m.blanks.reverse ++ gap ∧ Reaches (before ++ m.blanks.reverse) gap []
  | .note _ => ∃ text, w = '#' :: text ∧ '\n' ∉ text
  | .remark _ depth last back => (∀ m ∈ back, m.At before) ∧ ∃ raw,
    w = back.elim [] (·.blanks.reverse) ++ '/' :: '*' :: raw ∧ InComment raw depth last
  | .slash p => p = .after .origin before ∧ w = ['/']
  | .minus p => p = .after .origin before ∧ w = ['-']
  | .bang p => p = .after .origin before ∧ w = ['!']
  | .less p => p = .after .origin before ∧ w = ['<']
  | .greater p => p = .after .origin before ∧ w = ['>']
  | .bar p => p = .after .origin before ∧ w = ['|']
  | .underscore p => p = .after .origin before ∧ w = ['_']
  | .word p letters => p = .after .origin before ∧ w = letters.reverse
  | .digits p whole => p = .after .origin before ∧ w = whole.reverse ∧ Digits whole.reverse
  | .point p whole dot => p = .after .origin before ∧ w = whole.reverse ++ ['.'] ∧
    dot = .after .origin (before ++ whole.reverse) ∧ Digits whole.reverse
  | .fraction p whole places => p = .after .origin before ∧
    w = whole.reverse ++ '.' :: places.reverse ∧ Digits whole.reverse ∧ Digits places.reverse
  | .secondPoint p whole places dot => p = .after .origin before ∧
    w = whole.reverse ++ '.' :: places.reverse ++ ['.'] ∧
    dot = .after .origin (before ++ (whole.reverse ++ '.' :: places.reverse)) ∧
    Digits whole.reverse ∧ Digits places.reverse
  | .text q => ∃ raw, w = '"' :: raw ∧ q.Reads before raw
  | .escape q => ∃ raw, w = '"' :: raw ++ ['\\'] ∧ q.Reads before raw
  | .hole q h | .holeEscape q h =>
    ∃ raw, w = '"' :: raw ++ '\x7b' :: h.body.reverse ∧ h.Reads before raw q
  | .underscoreWord .. | .repeatedPoint .. | .digitWord .. => True

namespace State

/-- After `before` the text `done ++ w` has been read, and `w` is pending. -/
structure Pending (before done w : List Char) (s : State) : Prop where
  position : s.position = .after .origin (before ++ (done ++ w))
  reaches : Reaches before done s.tokenList
  mode : s.mode.Pends (before ++ done) w

/-- The state after the text `text` has been read, which comes after `before`. -/
def Located (before text : List Char) (s : State) : Prop :=
  ∃ done w, text = done ++ w ∧ s.Pending before done w

theorem located_initial : initial.Located [] [] :=
  ⟨[], [], rfl, rfl, .nil, ⟨rfl, fun _ hb => absurd hb List.not_mem_nil⟩, rfl⟩

theorem located_inside (before : List Char) :
    (inside (.after .origin before)).Located before [] :=
  ⟨[], [], rfl, by rw [List.append_nil, List.append_nil]; rfl, .nil, rfl⟩

section

variable {before done w : List Char} {s t : State} {p : Position} {c : Char}

theorem tokenList_emit (s : State) (p : Position) (k : TokenKind) :
    (s.emit p k).tokenList = s.tokenList ++ [⟨k, p.to s.position⟩] :=
  List.reverse_cons

/-- The pending text turns out to be that of a token. -/
theorem located_emit {k : TokenKind} (hr : Reaches before done s.tokenList)
    (hs : s.position = .after .origin (before ++ (done ++ w)))
    (hp : p = .after .origin (before ++ done)) (hk : Spells (before ++ done) w k) :
    (s.emit p k).Located before (done ++ w) := by
  refine ⟨done ++ w, [], (List.append_nil _).symm, by rwa [List.append_nil], ?_, rfl⟩
  rw [tokenList_emit, hs, hp, ← List.append_assoc, Position.to_after]
  exact hr.append (.token hk)

theorem located_become {m : Mode} (hr : Reaches before done s.tokenList)
    (hs : s.position = .after .origin (before ++ (done ++ w)))
    (hm : m.Pends (before ++ done) w) : (s.become m).Located before (done ++ w) :=
  ⟨done, w, rfl, hs, hr, hm⟩

/-- The pending text turns out to be blank or a comment. -/
theorem located_skip {m : Mode} (hr : Reaches before done s.tokenList)
    (hs : s.position = .after .origin (before ++ (done ++ w)))
    (hw : Reaches (before ++ done) w []) (hm : m.Pends (before ++ (done ++ w)) []) :
    (s.become m).Located before (done ++ w) :=
  ⟨done ++ w, [], (List.append_nil _).symm, by rwa [List.append_nil], hr.skip hw, hm⟩

/-- Tokens without text, where the text ends. -/
theorem reaches_marks {ts : List Token} (h : ∀ t ∈ ts, Spells before [] t.kind ∧
    t.span = .ofText before []) : Reaches before [] ts := by
  induction ts with
  | nil => exact .nil
  | cons t ts ih =>
    obtain ⟨hkind, hspan⟩ := h t List.mem_cons_self
    obtain ⟨kind, span⟩ := t
    obtain rfl : span = .ofText before [] := hspan
    have hfirst : Reaches before [] [⟨kind, .ofText before []⟩] := .token hkind
    have hrest : Reaches (before ++ []) [] ts := by
      rw [List.append_nil]
      exact ih fun u hu => h u (List.mem_cons_of_mem _ hu)
    exact hfirst.append hrest

theorem tokenList_closeTo (s : State) (m : List Char) (p : Position) :
    ∃ ts, (s.closeTo m p).tokenList = s.tokenList ++ ts ∧
      ∀ t ∈ ts, t = ⟨.dedent, p.to p⟩ := by
  refine ⟨_, List.reverse_append, fun t ht => ?_⟩
  obtain ⟨_, _, rfl⟩ := List.mem_map.mp (List.mem_reverse.mp ht)
  rfl

theorem to_self (before : List Char) :
    (Position.origin.after before).to (.after .origin before) = Span.ofText before [] := by
  rw [← Position.to_after, List.append_nil]

theorem leaveMargin_position (s : State) (m : Margin) : (s.leaveMargin m).position = s.position := by
  show (s.settleMargin _ _).position = _
  unfold settleMargin
  dsimp only
  repeat' split
  all_goals rfl

/-- A margin is blank, or opens a block with its blanks, or closes blocks after them. -/
theorem reaches_leaveMargin {m : Margin} (hr : Reaches before done s.tokenList)
    (hm : m.At (before ++ done)) (h : (s.leaveMargin m).errors = []) :
    Reaches before (done ++ m.blanks.reverse) (s.leaveMargin m).tokenList := by
  obtain ⟨hstart, hblanks⟩ := hm
  have hblanks : ∀ b ∈ m.blanks.reverse, b = ' ' ∨ b = '\t' :=
    fun b hb => hblanks b (List.mem_reverse.mp hb)
  have hskip : Reaches (before ++ done) m.blanks.reverse [] :=
    .blanks fun b hb => (hblanks b hb).imp_right .inl
  unfold leaveMargin settleMargin at h ⊢
  dsimp only at h ⊢
  split at h
  · next hsame =>
    rw [if_pos hsame]
    exact hr.skip hskip
  next hsame =>
  rw [if_neg hsame]
  split at h
  · cases h
  next hmixed =>
  rw [if_neg hmixed]
  split at h
  · next hgrows =>
    rw [if_pos hgrows]
    split at h
    · next hopens =>
      rw [if_pos hopens]
      have hne : m.blanks.reverse ≠ [] := fun hnil => by
        rw [hnil] at hgrows hsame
        exact hsame (List.prefix_nil.mp hgrows).symm
      have htoken := hr.append (.token (.indent hne hblanks))
      rw [← Position.to_after, Position.after_append _ (before ++ done), ← hstart] at htoken
      simpa [tokenList, become] using htoken
    · cases h
  next hgrows =>
  rw [if_neg hgrows]
  split at h
  · next houter =>
    rw [if_pos houter]
    have hplace : m.start.after m.blanks.reverse =
        .after .origin (before ++ (done ++ m.blanks.reverse)) := by
      rw [hstart, ← Position.after_append, List.append_assoc]
    obtain ⟨ts, htokens, hts⟩ := tokenList_closeTo s m.blanks.reverse (m.start.after m.blanks.reverse)
    show Reaches before _ (s.closeTo _ _).tokenList
    rw [htokens, ← List.append_nil (done ++ _)]
    refine (hr.skip hskip).append (reaches_marks fun t ht => ?_)
    rw [hts t ht, hplace]
    exact ⟨.dedent, to_self _⟩
  · cases h

theorem spells_word {b letters : List Char} : Spells b letters
    (match Keyword.ofSpelling? (String.ofList letters) with
      | some k => .keyword k
      | none => .ident (String.ofList letters)) := by
  obtain ⟨name, rfl⟩ : ∃ name : String, letters = name.toList :=
    ⟨_, String.toList_ofList.symm⟩
  rw [String.ofList_toList]
  split
  · next k hk =>
    rw [← Keyword.spelling_of_ofSpelling? hk]
    exact .keyword k
  · exact .ident name

theorem spells_number {b ds es : List Char} (h : Digits ds ∧ Digits es) :
    Spells b (ds ++ '.' :: es) (.number (.ofLiteral ds es)) :=
  .places ⟨h.1.1, h.2.1⟩ fun d hd => (List.mem_append.mp hd).elim (h.1.2 d) (h.2.2 d)

/-- A point that no digit follows is a token of its own, after the number. -/
theorem located_emit_dot {k : TokenKind} {q dot : Position} (hr : Reaches before done s.tokenList)
    (hs : s.position = .after .origin (before ++ (done ++ (w ++ ['.']))))
    (hq : q = .after .origin (before ++ done)) (hdot : dot = .after .origin (before ++ done ++ w))
    (hk : Spells (before ++ done) w k) :
    State.Located before (done ++ (w ++ ['.']))
      (State.emit { ({ s with position := dot }.emit q k) with position := s.position } dot
        (.punctuation .dot)) := by
  have hnumber : Reaches before (done ++ w) ({ s with position := dot }.emit q k).tokenList := by
    rw [tokenList_emit]
    show Reaches before (done ++ w) (s.tokenList ++ [⟨k, q.to dot⟩])
    rw [hdot, hq, Position.to_after]
    exact hr.append (.token hk)
  rw [← List.append_assoc done] at hs ⊢
  exact located_emit hnumber hs (by rw [hdot, List.append_assoc]) (.punctuation .dot)

/-- What is pending comes to an end, unless it is a comment that the end of the line ends. -/
theorem Pending.settle (h : s.Pending before done w) (hnote : ∀ alone, s.mode ≠ .note alone)
    (he : s.settle.errors = []) :
    s.settle.Located before (done ++ w) ∧ s.settle.mode = .ready := by
  obtain ⟨hs, hr, hm⟩ := h
  unfold State.settle at he ⊢
  cases hmode : s.mode with
  | ready =>
    rw [hmode] at hm
    exact ⟨⟨done, w, rfl, hs, hr, by rwa [hmode]⟩, hmode⟩
  | margin m =>
    rw [hmode] at hm he
    obtain ⟨hat, rfl⟩ := hm
    refine ⟨⟨_, [], (List.append_nil _).symm, ?_, reaches_leaveMargin hr hat he, rfl⟩, rfl⟩
    rw [List.append_nil]
    exact (leaveMargin_position s m).trans hs
  | marginRemark m =>
    rw [hmode] at hm he
    obtain ⟨hat, gap, rfl, hgap⟩ := hm
    have hleave := reaches_leaveMargin hr hat he
    rw [List.append_assoc] at hgap
    refine ⟨⟨_, [], (List.append_nil _).symm, ?_, ?_, rfl⟩, rfl⟩
    · rw [List.append_nil]
      exact (leaveMargin_position s m).trans hs
    · rw [← List.append_assoc]
      exact hleave.skip hgap
  | marginSlash m mark =>
    rw [hmode] at hm he
    obtain ⟨hat, rfl, rfl⟩ := hm
    have hleave := reaches_leaveMargin hr hat he
    rw [← leaveMargin_position s m, ← List.append_assoc done] at hs
    rw [← List.append_assoc done]
    exact ⟨located_emit hleave hs (by rw [List.append_assoc]) (.operator .slash), rfl⟩
  | note alone => exact absurd hmode (hnote alone)
  | slash p =>
    rw [hmode] at hm
    obtain ⟨hp, rfl⟩ := hm
    exact ⟨located_emit hr hs hp (.operator .slash), rfl⟩
  | minus p =>
    rw [hmode] at hm
    obtain ⟨hp, rfl⟩ := hm
    exact ⟨located_emit hr hs hp (.operator .minus), rfl⟩
  | less p =>
    rw [hmode] at hm
    obtain ⟨hp, rfl⟩ := hm
    exact ⟨located_emit hr hs hp (.operator .lt), rfl⟩
  | greater p =>
    rw [hmode] at hm
    obtain ⟨hp, rfl⟩ := hm
    exact ⟨located_emit hr hs hp (.operator .gt), rfl⟩
  | bar p =>
    rw [hmode] at hm
    obtain ⟨hp, rfl⟩ := hm
    exact ⟨located_emit hr hs hp (.punctuation .bar), rfl⟩
  | underscore p =>
    rw [hmode] at hm
    obtain ⟨hp, rfl⟩ := hm
    exact ⟨located_emit hr hs hp (.punctuation .underscore), rfl⟩
  | word p letters =>
    rw [hmode] at hm
    obtain ⟨hp, rfl⟩ := hm
    exact ⟨located_emit hr hs hp spells_word, rfl⟩
  | digits p whole =>
    rw [hmode] at hm
    obtain ⟨hp, rfl, hdigits⟩ := hm
    exact ⟨located_emit hr hs hp (.whole hdigits.1 hdigits.2), rfl⟩
  | fraction p whole places =>
    rw [hmode] at hm
    obtain ⟨hp, rfl, hdigits⟩ := hm
    exact ⟨located_emit hr hs hp (spells_number hdigits), rfl⟩
  | point p whole dot =>
    rw [hmode] at hm
    obtain ⟨hp, rfl, hdot, hdigits⟩ := hm
    exact ⟨located_emit_dot hr hs hp hdot (.whole hdigits.1 hdigits.2), rfl⟩
  | secondPoint p whole places dot =>
    rw [hmode] at hm
    obtain ⟨hp, rfl, hdot, hdigits⟩ := hm
    exact ⟨located_emit_dot hr hs hp hdot (spells_number hdigits), rfl⟩
  | _ =>
    rw [hmode] at he
    cases he

/-- A line feed is a token, or a blank when brackets are open. -/
theorem reaches_endLine {b : List Char} (hs : s.position = .after .origin (b ++ ['\n']))
    (hp : p = .after .origin b) : (s.endLine p).position = s.position ∧
      (∃ ts, (s.endLine p).tokenList = s.tokenList ++ ts ∧ Reaches b ['\n'] ts) ∧
      (s.endLine p).mode.Pends (b ++ ['\n']) [] := by
  unfold endLine
  split
  · refine ⟨rfl, ⟨_, tokenList_emit s p .newline, ?_⟩, ⟨hs, fun _ hb => absurd hb List.not_mem_nil⟩,
      rfl⟩
    rw [hp, hs, Position.to_after]
    exact .token .newline
  · exact ⟨rfl, ⟨[], (List.append_nil _).symm, .blank (.inr (.inr (.inr rfl)))⟩, rfl⟩

theorem spells_symbol {b : List Char} {k : TokenKind} (h : symbol? c = some k) : Spells b [c] k := by
  unfold symbol? at h
  split at h
  · cases h; exact .operator .plus
  · cases h; exact .operator .star
  · cases h; exact .operator .percent
  · cases h; exact .operator .eq
  · cases h; exact .punctuation .comma
  · cases h; exact .punctuation .colon
  · cases h; exact .punctuation .semicolon
  · cases h; exact .punctuation .dot
  · cases h

theorem spells_opening {b : List Char} {o : Punctuation} (h : opening? c = some o) :
    Spells b [c] (.punctuation o) := by
  unfold opening? at h
  split at h
  · cases h; exact .punctuation .lparen
  · cases h; exact .punctuation .lbracket
  · cases h; exact .punctuation .lbrace
  · cases h

theorem spells_closing {b : List Char} {o : Punctuation} (h : closing? c = some o) :
    Spells b [c] (.punctuation o) := by
  unfold closing? at h
  split at h
  · cases h; exact .punctuation .rparen
  · cases h; exact .punctuation .rbracket
  · cases h; exact .punctuation .rbrace
  · cases h

theorem pends_of_pending {b : List Char} {m : Mode}
    (h : pending? (.after .origin b) c = some m) : m.Pends b [c] := by
  unfold pending? at h
  split at h
  · cases h; exact ⟨[], rfl, List.not_mem_nil⟩
  · cases h; exact ⟨rfl, rfl⟩
  · cases h; exact ⟨rfl, rfl⟩
  · cases h; exact ⟨rfl, rfl⟩
  · cases h; exact ⟨rfl, rfl⟩
  · cases h; exact ⟨rfl, rfl⟩
  · cases h; exact ⟨rfl, rfl⟩
  · cases h; exact ⟨rfl, rfl⟩
  · cases h; exact ⟨[], rfl, .new b⟩
  · split at h
    · next hdigit =>
      cases h
      exact ⟨rfl, rfl, List.cons_ne_nil _ _, List.forall_mem_singleton.mpr hdigit⟩
    · split at h
      · cases h; exact ⟨rfl, rfl⟩
      · cases h

/-- A character that is read with nothing pending. -/
theorem located_start (hr : Reaches before done s.tokenList)
    (hs : s.position = .after .origin (before ++ (done ++ [c])))
    (hp : p = .after .origin (before ++ done)) (he : (s.start p c).errors = []) :
    (s.start p c).Located before (done ++ [c]) := by
  unfold start at he ⊢
  split at he
  · next hb =>
    rw [if_pos hb]
    exact located_skip hr hs (.blank (hb.imp_right (·.imp_right .inl))) rfl
  next hb =>
  rw [if_neg hb]
  split at he
  · next hl =>
    subst hl
    rw [if_pos rfl]
    obtain ⟨hposition, ⟨ts, htokens, hts⟩, hmode⟩ :=
      reaches_endLine (by rw [hs, List.append_assoc]) hp
    refine ⟨_, [], (List.append_nil _).symm, ?_, ?_, ?_⟩
    · rwa [hposition, List.append_nil]
    · rw [htokens]
      exact hr.append hts
    · rwa [List.append_assoc] at hmode
  next hl =>
  rw [if_neg hl]
  cases hsymbol : symbol? c with
  | some kind => exact located_emit hr hs hp (spells_symbol hsymbol)
  | none =>
    cases hopening : opening? c with
    | some b =>
      have hr' : Reaches before done
        { s with brackets := (b, p.to s.position) :: s.brackets }.tokenList := hr
      exact located_emit hr' hs hp (spells_opening hopening)
    | none =>
      cases hclosing : closing? c with
      | some b =>
        rw [hsymbol, hopening, hclosing] at he
        dsimp only at he ⊢
        unfold closeBracket at he ⊢
        cases hbrackets : s.brackets with
        | nil =>
          rw [hbrackets] at he
          cases he
        | cons o outer =>
          rw [hbrackets] at he
          dsimp only at he ⊢
          split at he
          · next ho =>
            rw [if_pos ho]
            have hr' : Reaches before done { s with brackets := outer }.tokenList := hr
            exact located_emit hr' hs hp (spells_closing hclosing)
          · cases he
      | none =>
        cases hpending : pending? p c with
        | some mode =>
          rw [hp] at hpending
          exact located_become hr hs (pends_of_pending hpending)
        | none =>
          rw [hsymbol, hopening, hclosing, hpending] at he
          cases he

end

end State

end PipeLang.Scan
