import PipeLang.Proofs.Parse.Adjacency
import PipeLang.Proofs.Scan.Blocks
import PipeLang.Proofs.Scan.Lossless

/-! Texts of one line side by side between brackets, with a blank after each but the last. Each of them is
read as it is read alone, further on by as much as comes before it, and a gap is left between the tokens of
one and those of the next. -/

namespace PipeLang

/-- The span so many bytes further on, on whatever line. -/
def Span.further (d : Nat) (s : Span) : Span := ⟨s.start + d, s.stop + d, 1, 1⟩

section

variable {d : Nat} {t t' u u' : Token}

theorem Token.sameGap_of_further (ht : t.span.further d = t'.span.further 0)
    (hu : u.span.further d = u'.span.further 0) : t.SameGap u t' u' := by
  simp only [Span.further, Span.mk.injEq] at ht hu
  constructor <;> omega

theorem TokenKind.Alike.sameKind {f g : Span → Span} {holes : List Token → List Token → Prop}
    {k k' : TokenKind} (h : TokenKind.Alike f g holes k k') :
    TokenKind.Alike (fun _ => .origin) (fun _ => .origin) holes k k' := by
  cases h with
  | plain not_text => exact .plain not_text
  | text parts =>
    refine .text (parts.imp fun part part' hpart => ?_)
    cases hpart with
    | literal text => exact .literal text
    | hole tokens _ => exact .hole tokens rfl

/-- With an end marker after them the tokens are alike, wherever they stand. -/
theorem tokensAlike_of_further {ts us : List Token} {s s' : Span} (hs : s.further d = s'.further 0)
    (h : List.Forall₂ (Token.Alike (Span.further d) (Span.further 0)
      (TokensAlike (fun _ => .origin) (fun _ => .origin))) ts us) :
    TokensAlike (fun _ => .origin) (fun _ => .origin) (ts ++ [⟨.eof, s⟩]) (us ++ [⟨.eof, s'⟩]) := by
  induction h with
  | nil => exact .last rfl
  | cons h hmore ih =>
    cases hmore with
    | nil => exact .cons h.kind.sameKind rfl (Token.sameGap_of_further h.span hs) ih
    | cons h' _ => exact .cons h.kind.sameKind rfl (Token.sameGap_of_further h.span h'.span) ih

end

namespace Scan

/-- The second text stands `d` bytes further on. -/
def Places.further (d : Nat) : Places where
  left := Span.further d
  right := Span.further 0
  holes := TokensAlike (fun _ => .origin) (fun _ => .origin)
  near p q := p.offset + d = q.offset
  advance c h := by
    rw [Position.advance_offset, Position.advance_offset]
    omega
  span {p q p' q'} h h' := by
    change p.offset + d = q.offset at h
    change p'.offset + d = q'.offset at h'
    simp only [Position.to, Span.further, h, h', Nat.add_zero]
  closed h hs := tokensAlike_of_further hs h

/-- A comment is being read, or has been on a line that has shown no token. -/
def Mode.isComment : Mode → Bool
  | .note _ | .remark .. | .marginRemark _ => true
  | _ => false

theorem Mode.Alike.isComment {P : Places} {m n : Mode} (h : m.Alike P n) :
    m.isComment = n.isComment := by
  cases h <;> rfl

theorem Mode.Alike.atMargin {P : Places} {m n : Mode} (h : m.Alike P n) : m.atMargin = n.atMargin := by
  cases h with
  | remark opened depth last margin => cases margin <;> rfl
  | _ => rfl

/-- One line that begins with a token and holds no comment. -/
structure Uncommented (text : String) : Prop where
  first : ∃ c cs, text.toList = c :: cs ∧ State.Visible c
  line : '\n' ∉ text.toList
  plain : ∀ cs, cs <+: text.toList → (scan cs).mode.isComment = false

namespace State

variable {P : Places} {s t : State} {c : Char} {levels : Nat}

/-! ## The first token of a line -/

theorem inside_alike {p : Position} (hp : P.near .origin p) :
    (inside .origin).Alike P (inside p) :=
  ⟨.ready, hp, rfl, rfl, .nil, Iff.rfl⟩

/-- At the start of a text a line of level 0 begins, which makes no difference to what is read of it. A slash
does not say yet whether it does. -/
theorem initial_eq_inside (hc : Visible c) {cs : List Char} (hremark : ¬ ['/', '*'] <+: c :: cs)
    (inner : Option Inner) :
    c = '/' ∧ cs = [] ∨ initial.run inner (c :: cs) = (inside .origin).run inner (c :: cs) := by
  have hs := join_margin_visible inner (s := initial) rfl hc
  have hready : ∀ d, (inside .origin).step inner d = ((inside .origin).past d).start .origin d := fun d =>
    step_of_ready rfl
  by_cases hslash : c = '/'
  · subst hslash
    cases cs with
    | nil => exact .inl ⟨rfl, rfl⟩
    | cons d ds =>
      right
      have hstar : d ≠ '*' := by
        rintro rfl
        exact hremark ⟨ds, rfl⟩
      rw [if_pos rfl] at hs
      rw [run_cons, run_cons _ (inside .origin), step_of_join hs, hready, run_cons, run_cons]
      congr 1
      generalize hown : (initial.past '/').become (.marginSlash ⟨.origin, []⟩ initial.position) = own
      generalize hother : ((inside .origin).past '/').start .origin '/' = other
      have hown' : (own.past d).join inner own.position d = none := by
        subst hown
        exact if_neg hstar
      have hother' : (other.past d).join inner other.position d = none := by
        subst hother
        exact if_neg hstar
      have hsettled : own.settle = other.settle := by
        subst hown hother
        rfl
      rw [step_of_none hown', step_of_none hother', hsettled]
  · right
    rw [if_neg hslash] at hs
    rw [run_cons, run_cons _ (inside .origin), step_of_none hs, hready]
    rfl

theorem initial_alike_inside {p : Position} (hp : P.near .origin p) (hc : Visible c) {cs : List Char}
    (hremark : ¬ ['/', '*'] <+: c :: cs) (levels : Nat) : c = '/' ∧ cs = [] ∨
      (initial.run (inner? levels) (c :: cs)).Alike P ((inside p).run (inner? levels) (c :: cs)) := by
  rcases initial_eq_inside hc hremark (inner? levels) with hslash | heq
  · exact .inl hslash
  · right
    rw [heq]
    exact (inside_alike hp).run (inner_alike P levels) _

/-- The same line, read alone and inside another one. -/
theorem settle_alike_inside {p : Position} (hp : P.near .origin p) (hc : Visible c) {cs : List Char}
    (hremark : ¬ ['/', '*'] <+: c :: cs) (hline : '\n' ∉ c :: cs) (herrors : (scan (c :: cs)).errors = []) :
    let t := (inside p).run (inner? nestingLimit) (c :: cs)
    (scan (c :: cs)).settle.Alike P t.settle ∧ (scan (c :: cs)).mode.isComment = t.mode.isComment ∧
      (scan (c :: cs)).mode.atLineStart = false ∧ t.errors = [] := by
  intro t
  rcases initial_alike_inside hp hc hremark nestingLimit with ⟨rfl, rfl⟩ | halike
  · exact ⟨.emit hp ((inside_alike hp).past '/') rfl, rfl, rfl, rfl⟩
  · have hnone : t.errors = [] := halike.errors.mp herrors
    have hinline : t.Inline := inline_run hline hnone
    refine ⟨halike.settle, halike.mode.isComment, ?_, hnone⟩
    rw [Bool.eq_false_iff]
    intro hstart
    have hmargin : t.mode.atMargin = true := by
      rw [← halike.mode.atMargin]
      exact atMargin_of_atLineStart hstart
    rw [hinline.margin] at hmargin
    cases hmargin

/-! ## One text inside brackets -/

/-- A text without a line feed that begins inside a line. -/
theorem within_run_line (frames : List (List Char)) (outer : List (Punctuation × Span))
    (under : List Token) {cs : List Char} (hs : s.Inline) (hline : '\n' ∉ cs)
    (herrors : (s.run (inner? levels) cs).errors = []) :
    (s.within frames outer under).run (inner? levels) cs =
      (s.run (inner? levels) cs).within frames outer under := by
  induction cs generalizing s with
  | nil => rfl
  | cons c cs ih =>
    have hstep := errors_of_run_cons herrors
    have hc : c ≠ '\n' := fun heq => hline (heq ▸ List.mem_cons_self)
    rw [run_cons, run_cons, within_step frames outer under (fun _ => hs.margin) (.inr ⟨hc, hstep⟩)]
    exact ih ((effects_step hstep).keep (fun _ _ he h => h.effect hc he) hs)
      (fun hmem => hline (List.mem_cons_of_mem c hmem)) herrors

/-- A blank or a closing bracket is part of strings and comments alone. -/
theorem join_of_blank_or_closing (hs : s.mode.atMargin = false) (hcomment : s.mode.isComment = false)
    (hsettle : s.settle.errors = []) (hc : c = ' ' ∨ c = ']') (inner : Option Inner) :
    (s.past c).join inner s.position c = none := by
  have hmode : (s.past c).mode = s.mode := rfl
  unfold join
  rw [hmode]
  unfold settle at hsettle
  cases hm : s.mode with
  | margin m => rw [hm] at hs; cases hs
  | marginSlash m slash => rw [hm] at hs; cases hs
  | marginRemark m => rw [hm] at hs; cases hs
  | note alone => rw [hm] at hcomment; cases hcomment
  | remark opened depth last back => rw [hm] at hcomment; cases hcomment
  | text q => rw [hm] at hsettle; cases hsettle
  | escape q => rw [hm] at hsettle; cases hsettle
  | hole q h => rw [hm] at hsettle; cases hsettle
  | holeEscape q h => rw [hm] at hsettle; cases hsettle
  | _ => rcases hc with rfl | rfl <;> rfl

end State

/-- The tokens `us` are the tokens `ts` further on in a line. -/
structure Transposed (ts us : List Token) : Prop where
  same : ∃ d, (Places.further d).SameTokens ts us
  flat : ∀ u ∈ us, u.kind.isLayout = false

/-- They stand between two places, too, and the first of them at the first place. -/
structure Moved (start stop : Nat) (ts us : List Token) : Prop extends Transposed ts us where
  within : ∀ u ∈ us, start ≤ u.span.start ∧ u.span.stop ≤ stop
  first : ∀ u ∈ us.head?, u.span.start = start

theorem head_of_sameTokens {P : Places} {ts us : List Token} (h : P.SameTokens ts us) {u : Token}
    (hu : u ∈ us.head?) : ∃ t ∈ ts.head?, Token.Alike P.left P.right P.holes t u := by
  cases h with
  | nil => cases hu
  | cons htu _ =>
    cases hu
    exact ⟨_, rfl, htu⟩

theorem Places.within_further {d size : Nat} {ts us : List Token} (h : (Places.further d).SameTokens ts us)
    (hts : ∀ t ∈ ts, t.span.stop ≤ size) : ∀ u ∈ us, d ≤ u.span.start ∧ u.span.stop ≤ d + size := by
  induction h with
  | nil => exact fun u hu => absurd hu List.not_mem_nil
  | @cons t u ts us htu _ ih =>
    have hspan : t.span.further d = u.span.further 0 := htu.span
    simp only [Span.further, Span.mk.injEq] at hspan
    have hstop := hts t List.mem_cons_self
    refine List.forall_mem_cons.mpr ⟨by omega, ih fun t ht => hts t (List.mem_cons_of_mem _ ht)⟩

/-- The state at `p`, where the tokens `us` have been read since. -/
def State.reach (s : State) (p : Position) (us : List Token) : State :=
  { s with position := p, tokens := us.reverse ++ s.tokens }

/-- A text with the tokens it gives on its own, with all its brackets closed. -/
structure Item (text : String) (ts : List Token) : Prop extends Uncommented text where
  read : ∃ newline eof, lex text = .ok (ts ++ [newline, eof]) ∧ newline.kind = .newline
  closed : openBrackets [] ts = some []

/-- What the scanner has made of a text with the tokens `ts` that begins at `p`, inside a line. -/
structure Inside (text : String) (ts : List Token) (p : Position) (t : State) : Prop where
  inline : t.Inline
  plain : t.mode.isComment = false
  errors : t.settle.errors = []
  closed : t.settle.brackets = []
  same : (Places.further p.offset).SameTokens ts t.settle.tokens.reverse
  flat : ∀ u ∈ t.settle.tokens, u.kind.isLayout = false
  position : t.settle.position.offset = p.offset + text.utf8ByteSize

namespace Item

variable {text : String} {ts : List Token}

/-- The text starts with that of the first token. -/
theorem spells_head (h : Item text ts) {t : Token} (ht : t ∈ ts.head?) :
    ∃ x cs, text.toList = x ++ cs ∧ t.span = .ofText [] x ∧ Spells [] x t.kind := by
  obtain ⟨newline, eof, hread, -⟩ := h.read
  obtain ⟨more, rfl⟩ := List.head?_eq_some_iff.mp ht
  obtain ⟨c, cs, htext, hc⟩ := h.first
  obtain ⟨herrors, hall⟩ := lex_eq_ok.mp hread
  have htiles := tiles_scan herrors
  rw [hall] at htiles
  have hremark : ¬ ['/', '*'] <+: text.toList := fun hprefix => by cases h.plain _ hprefix
  rw [htext] at htiles hremark ⊢
  generalize hall : c :: cs = all at htiles hremark ⊢
  generalize htokens : t :: more ++ [newline, eof] = tokens at htiles
  cases htiles with
  | nil => cases hall
  | blank hblank _ =>
    cases hall
    obtain ⟨h1, h2, h3, h4, -⟩ := hc
    rcases hblank with rfl | rfl | rfl | rfl <;> contradiction
  | note _ _ _ =>
    cases hall
    exact absurd rfl hc.2.2.2.2
  | comment _ _ => exact absurd ⟨_, rfl⟩ hremark
  | token hspells _ =>
    obtain ⟨rfl, -⟩ := List.cons.inj htokens
    exact ⟨_, _, rfl, rfl, hspells⟩

theorem inside (h : Item text ts) (p : Position) :
    Inside text ts p ((State.inside p).run (inner? nestingLimit) text.toList) := by
  generalize ht : (State.inside p).run (inner? nestingLimit) text.toList = t
  obtain ⟨newline, eof, hread, hnewline⟩ := h.read
  obtain ⟨c, cs, htext, hc⟩ := h.first
  have hremark : ¬ ['/', '*'] <+: c :: cs := fun hprefix => by
    have hplain := h.plain _ (htext ▸ hprefix)
    cases hplain
  have hscan := scan_errors hread
  have hline := h.line
  rw [htext] at hline
  have hnear : (Places.further p.offset).near .origin p := Nat.zero_add _
  obtain ⟨halike, hcomment, hstart, hnone⟩ :=
    State.settle_alike_inside hnear hc hremark hline (by rw [← htext]; exact hscan)
  rw [← htext, ht] at halike hcomment hnone
  rw [← htext] at hstart
  obtain ⟨hsettle, hbrackets, htokens⟩ := settle_line hread hnewline h.closed hstart
  have hlocated : (scan text.toList).Located [] text.toList :=
    State.located_run (innerTiles nestingLimit) State.located_initial hscan
  have hposition : (scan text.toList).settle.position = .after .origin text.toList := by
    rw [(hlocated.settle hsettle).1]
    obtain ⟨done, w, hsplit, hpending⟩ := hlocated
    rw [hpending.position, show text.toList = done ++ w from hsplit]
    rfl
  have hinline : t.Inline := by
    subst ht
    exact State.inline_run h.line hnone
  have hsettled : t.settle.errors = [] := halike.errors.mp hsettle
  have hflat := (hinline.settle hsettled).flat
  refine ⟨hinline, ?_, hsettled, ?_, ?_, fun u hu => (hflat u hu).1, ?_⟩
  · rw [← hcomment]
    exact h.plain _ List.prefix_rfl
  · have hnone := halike.brackets
    rw [hbrackets] at hnone
    exact List.map_eq_nil_iff.mp hnone.symm
  · have hsame := halike.tokens
    rw [htokens] at hsame
    simpa using List.rel_reverse hsame
  · have hsame : _ + _ = _ := halike.position
    rw [← hsame, hposition, Position.after_origin, Nat.add_comm, ← String.utf8ByteSize_ofList,
      String.ofList_toList]

/-- Where a text is read inside brackets, in front of a blank or a closing bracket. -/
theorem run (h : Item text ts) {s : State} (hs : s.mode = .ready) (hquiet : s.errors = []) {c : Char}
    (hc : c = ' ' ∨ c = ']') : ∃ us p, Moved s.position.offset p.offset ts us ∧
      s.run (inner? nestingLimit) (text.toList ++ [c]) = (s.reach p us).step (inner? nestingLimit) c := by
  have hinside := h.inside s.position
  generalize ht : (State.inside s.position).run (inner? nestingLimit) text.toList = t at hinside
  refine ⟨t.settle.tokens.reverse, t.settle.position, ⟨⟨⟨_, hinside.same⟩, fun u hu => ?_⟩, ?_, fun u hu => ?_⟩,
    ?_⟩
  · exact hinside.flat u (List.mem_reverse.mp hu)
  · obtain ⟨newline, eof, hread, -⟩ := h.read
    obtain ⟨herrors, hall⟩ := lex_eq_ok.mp hread
    have hplaces := (tiles_scan herrors).within (List.append_nil text.toList).symm
    rw [hall] at hplaces
    rw [hinside.position]
    exact Places.within_further hinside.same fun t ht => (hplaces t (List.mem_append_left _ ht)).2
  · obtain ⟨v, hv, halike⟩ := head_of_sameTokens hinside.same hu
    obtain ⟨x, cs, -, hspan, -⟩ := h.spells_head hv
    have hmoved : v.span.further s.position.offset = u.span.further 0 := halike.span
    rw [hspan] at hmoved
    simp only [Span.further, Span.ofText, String.utf8Len_nil, Span.mk.injEq] at hmoved
    omega
  · have hwhole : s = (State.inside s.position).within s.frames s.brackets s.tokens := by
      obtain ⟨mode, position, frames, brackets, tokens, errors⟩ := s
      cases hs
      cases hquiet
      rfl
    have hjoin : ((t.within s.frames s.brackets s.tokens).past c).join (inner? nestingLimit)
        (t.within s.frames s.brackets s.tokens).position c = none := by
      rw [State.within_past, State.within_join, State.within_position,
        State.join_of_blank_or_closing hinside.inline.margin hinside.plain hinside.errors hc]
      rfl
    have hread : t.settle.within s.frames s.brackets s.tokens =
        s.reach t.settle.position t.settle.tokens.reverse := by
      unfold State.within State.reach
      rw [hinside.closed, List.reverse_reverse, State.settle_ready, hinside.errors, hs, hquiet]
      rfl
    have hrun : s.run (inner? nestingLimit) text.toList = t.within s.frames s.brackets s.tokens := by
      conv_lhs => rw [hwhole]
      rw [State.within_run_line _ _ _ (State.inline_inside _) h.line
        (State.errors_of_finishInside (ht ▸ hinside.errors)), ht]
    rw [State.run_append, hrun, State.run_cons, State.run_nil, State.step_of_none hjoin,
      State.within_settle _ _ _ hinside.inline.margin, hread]
    exact (State.step_of_ready (s := s.reach _ _) hs).symm

end Item

/-! ## Several texts -/

/-- There is a gap between the tokens of one list and those of the next. -/
def Spaced (items : List (List Token)) : Prop :=
  items.IsChain fun ts us => ∀ t ∈ ts, ∀ u ∈ us, t.span.stop < u.span.start

/-- By induction on the texts: each begins past the blank after the one before it. -/
theorem run_spaced {texts : List String} {tss : List (List Token)} (h : List.Forall₂ Item texts tss)
    (hne : texts ≠ []) {s : State} (hs : s.mode = .ready) (hquiet : s.errors = []) :
    ∃ items p, List.Forall₂ Transposed tss items ∧ Spaced items ∧
      (∀ us ∈ items.head?, (∀ u ∈ us, s.position.offset ≤ u.span.start) ∧
        ∀ u ∈ us.head?, u.span.start = s.position.offset) ∧
      s.run (inner? nestingLimit) ((" ".intercalate texts).toList ++ [']']) =
        (s.reach p items.flatten).step (inner? nestingLimit) ']' := by
  induction h generalizing s with
  | nil => exact absurd rfl hne
  | @cons text ts texts tss htext hmore ih =>
    cases texts with
    | nil =>
      obtain ⟨us, p, hmoved, hrun⟩ := htext.run hs hquiet (.inr rfl)
      cases hmore
      refine ⟨[us], p, .cons hmoved.toTransposed .nil, .singleton _, ?_, ?_⟩
      · rintro _ ⟨⟩
        exact ⟨fun u hu => (hmoved.within u hu).1, hmoved.first⟩
      · rw [String.intercalate_singleton, hrun, List.flatten_singleton]
    | cons next texts =>
      obtain ⟨us, p, hmoved, hrun⟩ := htext.run hs hquiet (.inl rfl)
      have hblank : (s.reach p us).step (inner? nestingLimit) ' ' = s.reach (p.advance ' ') us := by
        rw [State.step_of_ready (s := s.reach p us) hs, State.start, if_pos (.inl rfl)]
        unfold State.reach State.past State.become
        rw [hs]
      obtain ⟨items, q, hitems, hspaced, hfirst, hrest⟩ :=
        ih (List.cons_ne_nil _ _) (s := s.reach (p.advance ' ') us) hs hquiet
      refine ⟨us :: items, q, .cons hmoved.toTransposed hitems, ?_, ?_, ?_⟩
      · refine List.isChain_cons.mpr ⟨fun vs hvs t ht u hu => ?_, hspaced⟩
        have hstop := (hmoved.within t ht).2
        have hstart := (hfirst vs hvs).1 u hu
        have hspace : (s.reach (p.advance ' ') us).position.offset = p.offset + 1 :=
          Position.advance_offset p ' '
        omega
      · rintro _ ⟨⟩
        exact ⟨fun u hu => (hmoved.within u hu).1, hmoved.first⟩
      · have hsplit : (" ".intercalate (text :: next :: texts)).toList ++ [']'] =
            text.toList ++ [' '] ++ ((" ".intercalate (next :: texts)).toList ++ [']']) := by
          rw [String.intercalate_cons_cons]
          simp
        rw [hsplit, State.run_append, hrun, hblank, hrest]
        simp [State.reach]

/-- Texts of one line between brackets, with a blank after each but the last, give the tokens they give on their
own, with a gap between those of one text and those of the next. The first one follows the bracket. -/
theorem lex_spaced {texts : List String} {tss : List (List Token)} (h : List.Forall₂ Item texts tss)
    (hne : texts ≠ []) :
    ∃ items opened closed line last, List.Forall₂ Transposed tss items ∧ Spaced items ∧
      (∀ us ∈ items.head?, ∀ u ∈ us.head?, u.span.start = opened.stop) ∧
      lex ("[" ++ " ".intercalate texts ++ "]") = .ok (⟨.punctuation .lbracket, opened⟩ ::
        (items.flatten ++ [⟨.punctuation .rbracket, closed⟩, ⟨.newline, line⟩, ⟨.eof, last⟩])) := by
  let opened : Span := Position.origin.to (Position.origin.advance '[')
  let s : State := ⟨.ready, Position.origin.advance '[', [[]], [(.lbracket, opened)],
    [⟨.punctuation .lbracket, opened⟩], []⟩
  obtain ⟨items, p, hitems, hspaced, hfirst, hrun⟩ := run_spaced h hne (s := s) rfl rfl
  let q := p.advance ']'
  have hopen : State.initial.step (inner? nestingLimit) '[' = s := rfl
  have hclose : (s.reach p items.flatten).step (inner? nestingLimit) ']' = ⟨.ready, q, [[]], [],
      ⟨.punctuation .rbracket, p.to q⟩ :: (items.flatten.reverse ++ s.tokens), []⟩ :=
    State.step_of_ready (s := s.reach p items.flatten) rfl
  have hscan : scan ("[" ++ " ".intercalate texts ++ "]").toList =
      (s.reach p items.flatten).step (inner? nestingLimit) ']' := by
    have hsplit : ("[" ++ " ".intercalate texts ++ "]").toList =
        '[' :: ((" ".intercalate texts).toList ++ [']']) := by
      rw [String.toList_append, String.toList_append]
      rfl
    rw [hsplit, scan, State.run_cons, hopen, hrun]
  refine ⟨items, opened, p.to q, q.to q, q.to q, hitems, hspaced, fun us hus => (hfirst us hus).2,
    lex_eq_ok.mpr ?_⟩
  rw [hscan, hclose]
  refine ⟨rfl, ?_⟩
  simp [s, State.finish, Mode.atLineStart, State.settle, State.emit, State.emitEof, State.closeAll,
    State.closeTo, State.tokenList]

end Scan

end PipeLang
