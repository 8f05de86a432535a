import PipeLang.Proofs.Scan.Effects
import PipeLang.Proofs.Scan.Formed

/-! The tokens of a text without errors are in order: blocks and brackets close what was opened, a block
opens and closes between lines, lines end outside brackets, and one end marker stands last. An
interpolation is a line of its own. -/

namespace PipeLang

/-- The open brackets after some tokens, innermost first; none if a closing bracket is not the one that
closes the innermost of them. -/
def openBrackets (bs : List Punctuation) : List Token → Option (List Punctuation)
  | [] => some bs
  | t :: ts => (bracketsAfter bs t.kind).bind fun bs => openBrackets bs ts

/-- One end marker, and it is the last token. -/
def EndsOnce (ts : List Token) : Prop :=
  ∃ body last, ts = body ++ [last] ∧ last.kind = .eof ∧ ∀ t ∈ body, t.kind ≠ .eof

theorem EndsOnce.getLast? {ts : List Token} (h : EndsOnce ts) :
    ∃ last, ts.getLast? = some last ∧ last.kind = .eof := by
  obtain ⟨body, last, rfl, heof, -⟩ := h
  exact ⟨last, List.getLast?_concat, heof⟩

/-- The tokens of an interpolation. -/
structure OneLine (ts : List Token) : Prop where
  ended : EndsOnce ts
  flat : ∀ t ∈ ts, t.kind.isLayout = false
  brackets : (openBrackets [] ts).isSome = true

/-- A token whose interpolations are one line each, and so are those in them. -/
inductive Token.Enclosed : Token → Prop
  | mk {t : Token} (lines : ∀ ts ∈ t.kind.interpolations, OneLine ts)
    (inside : ∀ ts ∈ t.kind.interpolations, ∀ u ∈ ts, Enclosed u) : Enclosed t

theorem Token.Enclosed.hole {t : Token} (h : t.Enclosed) {parts : List StringPart}
    (ht : t.kind = .text parts) {us : List Token} {s : Span} (hmem : .hole us s ∈ parts) :
    OneLine us ∧ ∀ u ∈ us, u.Enclosed := by
  have hus : us ∈ t.kind.interpolations := by
    rw [ht]
    exact List.mem_filterMap.mpr ⟨_, hmem, rfl⟩
  obtain ⟨lines, inside⟩ := h
  exact ⟨lines us hus, inside us hus⟩

/-- What a parser may rely on in the tokens of a text. -/
structure Regular (ts : List Token) : Prop where
  ended : EndsOnce ts
  levels : ∀ us, us <+: ts → us.countP (·.kind.isDedent) ≤ us.countP (·.kind.isIndent)
  closed : ts.countP (·.kind.isDedent) = ts.countP (·.kind.isIndent)
  brackets : (openBrackets [] ts).isSome = true
  /-- No layout token stands between a bracket and the one that closes it. -/
  flat : ∀ {before inside after : List Token} {o c : Token} {p q : Punctuation},
    ts = before ++ o :: (inside ++ c :: after) → o.kind = .punctuation p → p.isOpening = true →
    openBrackets [] inside = some [] → c.kind = .punctuation q → q.isClosing = true →
    ∀ t ∈ inside, t.kind.isLayout = false
  indents : ∀ {before after : List Token} {t : Token}, ts = before ++ t :: after →
    t.kind = .indent → before = [] ∨ ∃ u, before.getLast? = some u ∧ u.kind = .newline
  dedents : ∀ {before after : List Token} {t : Token}, ts = before ++ t :: after →
    t.kind = .dedent →
    ∃ u, before.getLast? = some u ∧ (u.kind = .newline ∨ u.kind = .dedent)
  strings : ∀ t ∈ ts, t.Formed Scan.nestingLimit
  interpolations : ∀ t ∈ ts, t.Enclosed

theorem openBrackets_append (bs : List Punctuation) (ts us : List Token) :
    openBrackets bs (ts ++ us) = (openBrackets bs ts).bind fun bs => openBrackets bs us := by
  induction ts generalizing bs with
  | nil => rfl
  | cons t ts ih =>
    rw [List.cons_append, openBrackets, openBrackets, Option.bind_assoc]
    simp only [ih]

/-- Brackets that are open further out make no difference. -/
theorem bracketsAfter_append {bs bs' : List Punctuation} {k : TokenKind}
    (h : bracketsAfter bs k = some bs') (outer : List Punctuation) :
    bracketsAfter (bs ++ outer) k = some (bs' ++ outer) := by
  unfold bracketsAfter at h ⊢
  cases k with
  | punctuation p =>
    dsimp only at h ⊢
    split at h
    · next hp => cases h; rw [if_pos hp]; rfl
    next hp =>
    rw [if_neg hp]
    split at h
    · next hc =>
      rw [if_pos hc]
      cases bs with
      | nil => cases h
      | cons o inner =>
        dsimp only [List.cons_append] at h ⊢
        split at h
        · next ho => cases h; rw [if_pos ho]
        · cases h
    · next hc => cases h; rw [if_neg hc]
  | _ => cases h; rfl

theorem openBrackets_outer {bs bs' : List Punctuation} {ts : List Token}
    (h : openBrackets bs ts = some bs') (outer : List Punctuation) :
    openBrackets (bs ++ outer) ts = some (bs' ++ outer) := by
  induction ts generalizing bs with
  | nil => cases h; rfl
  | cons t ts ih =>
    obtain ⟨mid, hmid, hrest⟩ := Option.bind_eq_some_iff.mp h
    rw [openBrackets, bracketsAfter_append hmid outer]
    exact ih hrest

theorem openBrackets_of_layout {ts : List Token} (h : ∀ t ∈ ts, t.kind.isLayout = true ∨ t.kind = .eof)
    (bs : List Punctuation) : openBrackets bs ts = some bs := by
  induction ts with
  | nil => rfl
  | cons t ts ih =>
    have ht : bracketsAfter bs t.kind = some bs := by
      rcases h t List.mem_cons_self with ht | ht
      · cases hk : t.kind <;> rw [hk] at ht <;> first | rfl | cases ht
      · rw [ht]; rfl
    rw [openBrackets, ht]
    exact ih fun u hu => h u (List.mem_cons_of_mem t hu)

namespace Scan

/-- Tokens, latest first, after which `n` blocks are open. -/
inductive Blocks : List Token → Nat → Prop
  | nil : Blocks [] 0
  | other {t : Token} {ts : List Token} {n : Nat} (rest : Blocks ts n)
    (kind : t.kind ≠ .indent ∧ t.kind ≠ .dedent ∧ t.kind ≠ .eof) : Blocks (t :: ts) n
  | indent {t : Token} {ts : List Token} {n : Nat} (rest : Blocks ts n) (kind : t.kind = .indent)
    (line : ∀ u ∈ ts.head?, u.kind = .newline) : Blocks (t :: ts) (n + 1)
  | dedent {t : Token} {ts : List Token} {n : Nat} (rest : Blocks ts (n + 1))
    (kind : t.kind = .dedent) (line : ∀ u ∈ ts.head?, u.kind = .newline ∨ u.kind = .dedent) :
    Blocks (t :: ts) n

/-- Tokens, latest first, after which the brackets `bs` are open. Lines end outside brackets. -/
inductive Bracketed : List Token → List Punctuation → Prop
  | nil : Bracketed [] []
  | token {t : Token} {ts : List Token} {bs bs' : List Punctuation} (rest : Bracketed ts bs)
    (kind : t.kind.isLayout = false) (after : bracketsAfter bs t.kind = some bs') :
    Bracketed (t :: ts) bs'
  | layout {t : Token} {ts : List Token} (rest : Bracketed ts []) (kind : t.kind.isLayout = true) :
    Bracketed (t :: ts) []

namespace Blocks

variable {ts : List Token} {n : Nat}

theorem suffix {us : List Token} (h : Blocks ts n) (hs : us <:+ ts) : ∃ m, Blocks us m := by
  induction h with
  | nil => exact ⟨0, by rw [List.suffix_nil.mp hs]; exact .nil⟩
  | other rest kind ih =>
    rcases List.suffix_cons_iff.mp hs with rfl | hs
    · exact ⟨_, .other rest kind⟩
    · exact ih hs
  | indent rest kind line ih =>
    rcases List.suffix_cons_iff.mp hs with rfl | hs
    · exact ⟨_, .indent rest kind line⟩
    · exact ih hs
  | dedent rest kind line ih =>
    rcases List.suffix_cons_iff.mp hs with rfl | hs
    · exact ⟨_, .dedent rest kind line⟩
    · exact ih hs

theorem count (h : Blocks ts n) :
    ts.countP (·.kind.isIndent) = ts.countP (·.kind.isDedent) + n := by
  induction h with
  | nil => rfl
  | @other t ts n rest kind ih =>
    have hi : t.kind.isIndent = false := by
      cases hk : t.kind <;> first | rfl | exact absurd hk kind.1
    have hd : t.kind.isDedent = false := by
      cases hk : t.kind <;> first | rfl | exact absurd hk kind.2.1
    rw [List.countP_cons_of_neg (by simp [hi]), List.countP_cons_of_neg (by simp [hd]), ih]
  | indent rest kind line ih =>
    rw [List.countP_cons_of_pos (by simp [kind, TokenKind.isIndent]),
      List.countP_cons_of_neg (by simp [kind, TokenKind.isDedent]), ih]
    omega
  | dedent rest kind line ih =>
    rw [List.countP_cons_of_neg (by simp [kind, TokenKind.isIndent]),
      List.countP_cons_of_pos (by simp [kind, TokenKind.isDedent]), ih]
    omega

theorem not_eof (h : Blocks ts n) : ∀ t ∈ ts, t.kind ≠ .eof := by
  induction h with
  | nil => exact fun t ht => absurd ht List.not_mem_nil
  | other rest kind ih => exact List.forall_mem_cons.mpr ⟨kind.2.2, ih⟩
  | indent rest kind line ih => exact List.forall_mem_cons.mpr ⟨by rw [kind]; exact nofun, ih⟩
  | dedent rest kind line ih => exact List.forall_mem_cons.mpr ⟨by rw [kind]; exact nofun, ih⟩

/-- Blocks that end between two lines. -/
theorem dedents {k : Nat} (h : Blocks ts (n + k))
    (line : k ≠ 0 → ∀ u ∈ ts.head?, u.kind = .newline ∨ u.kind = .dedent) (span : Span) :
    Blocks (List.replicate k ⟨.dedent, span⟩ ++ ts) n := by
  induction k generalizing n with
  | zero => exact h
  | succ k ih =>
    have hline := line (Nat.succ_ne_zero k)
    have hmore : Blocks (List.replicate k ⟨.dedent, span⟩ ++ ts) (n + 1) :=
      ih (by rwa [Nat.add_right_comm]) fun _ => hline
    rw [List.replicate_succ, List.cons_append]
    refine .dedent hmore rfl fun u hu => ?_
    cases k with
    | zero => exact hline u hu
    | succ k =>
      cases hu
      exact .inr rfl

end Blocks

namespace Bracketed

variable {ts : List Token} {bs : List Punctuation}

theorem suffix {us : List Token} (h : Bracketed ts bs) (hs : us <:+ ts) :
    ∃ bs', Bracketed us bs' := by
  induction h with
  | nil => exact ⟨[], by rw [List.suffix_nil.mp hs]; exact .nil⟩
  | token rest kind after ih =>
    rcases List.suffix_cons_iff.mp hs with rfl | hs
    · exact ⟨_, .token rest kind after⟩
    · exact ih hs
  | layout rest kind ih =>
    rcases List.suffix_cons_iff.mp hs with rfl | hs
    · exact ⟨_, .layout rest kind⟩
    · exact ih hs

theorem layouts {us : List Token} (h : Bracketed ts []) (hu : ∀ u ∈ us, u.kind.isLayout = true) :
    Bracketed (us ++ ts) [] := by
  induction us with
  | nil => exact h
  | cons u us ih =>
    exact .layout (ih fun v hv => hu v (List.mem_cons_of_mem u hv)) (hu u List.mem_cons_self)

theorem opens (h : Bracketed ts bs) : openBrackets [] ts.reverse = some bs := by
  induction h with
  | nil => rfl
  | token rest kind after ih =>
    rw [List.reverse_cons, openBrackets_append, ih]
    simp [openBrackets, after]
  | @layout t ts rest kind ih =>
    rw [List.reverse_cons, openBrackets_append, ih]
    exact openBrackets_of_layout (fun u hu => .inl (List.mem_singleton.mp hu ▸ kind)) []

/-- A layout token stands where no bracket is open. -/
theorem opens_before {before after : List Token} {t : Token}
    (h : Bracketed (before ++ t :: after).reverse bs) (ht : t.kind.isLayout = true) :
    openBrackets [] before = some [] := by
  have hsuffix : t :: before.reverse <:+ (before ++ t :: after).reverse := by simp
  obtain ⟨bs', h⟩ := h.suffix hsuffix
  cases h with
  | token rest kind => rw [kind] at ht; cases ht
  | layout rest =>
    have := rest.opens
    rwa [List.reverse_reverse] at this

end Bracketed

namespace State

/-- What every state of a text without errors keeps. -/
structure Orderly (s : State) : Prop where
  frames : ∃ inner, s.frames = inner ++ [[]] ∧ [] ∉ inner
  blocks : Blocks s.tokens (s.frames.length - 1)
  bracketed : Bracketed s.tokens (s.brackets.map Prod.fst)
  margin : s.mode.atMargin = true → s.brackets = [] ∧ ∀ u ∈ s.tokens.head?, u.kind = .newline

theorem orderly_initial : initial.Orderly :=
  ⟨⟨[], rfl, List.not_mem_nil⟩, .nil, .nil, fun _ => ⟨rfl, fun _ h => by cases h⟩⟩

variable {inner : Option Inner} {c : Char} {s t : State}

/-- Closing blocks leaves the margins further out. -/
theorem frames_dropWhile {frames blocks : List (List Char)} {m : List Char}
    (hf : frames = blocks ++ [[]]) (hb : [] ∉ blocks) (hm : m ∈ frames) :
    (∃ inner, frames.dropWhile (· != m) = inner ++ [[]] ∧ [] ∉ inner) ∧
      (frames.dropWhile (· != m)).length - 1 + (frames.takeWhile (· != m)).length =
        frames.length - 1 := by
  obtain ⟨inner, hinner, hsuffix⟩ : ∃ inner, frames.dropWhile (· != m) = inner ++ [[]] ∧
      inner <:+ blocks := by
    subst hf
    clear hb
    induction blocks with
    | nil =>
      have : m = [] := List.mem_singleton.mp hm
      subst this
      exact ⟨[], by simp, List.suffix_rfl⟩
    | cons b blocks ih =>
      by_cases hbm : b = m
      · exact ⟨b :: blocks, by simp [hbm], List.suffix_rfl⟩
      · have hrest : m ∈ blocks ++ [[]] :=
          (List.mem_cons.mp hm).resolve_left fun h => hbm h.symm
        obtain ⟨inner, hi, hs⟩ := ih hrest
        refine ⟨inner, ?_, hs.trans (List.suffix_cons _ _)⟩
        rwa [List.cons_append, List.dropWhile_cons_of_pos (by simpa using hbm)]
  refine ⟨⟨inner, hinner, fun h => hb (hsuffix.mem h)⟩, ?_⟩
  have hlength := congrArg List.length
    (frames.takeWhile_append_dropWhile (p := (· != m)))
  rw [List.length_append] at hlength
  have hpos : 0 < (frames.dropWhile (· != m)).length := by rw [hinner]; simp
  omega

/-- A step keeps blocks and brackets in order. -/
theorem Orderly.effect (he : Effect inner c s t) (h : s.Orderly) : t.Orderly := by
  obtain ⟨hframes, hblocks, hbracketed, hmargin⟩ := h
  cases he with
  | pass tokens brackets frames margin interpolations body =>
    refine ⟨by rwa [frames], by rwa [tokens, frames], by rwa [tokens, brackets], fun hm => ?_⟩
    rw [brackets, tokens]
    exact hmargin (margin hm)
  | @token u tokens kind brackets frames ready interpolations =>
    refine ⟨by rwa [frames], ?_, ?_, fun hm => by rw [ready] at hm; cases hm⟩
    · rw [tokens, frames]
      refine .other hblocks ⟨fun hk => ?_, fun hk => ?_, kind.2⟩ <;>
        exact absurd kind.1 (by rw [hk]; decide)
    · rw [tokens]
      exact .token hbracketed kind.1 brackets
  | line char tokens kind closed brackets frames margin =>
    refine ⟨by rwa [frames], ?_, ?_, fun _ => ⟨brackets.trans closed, fun u hu => ?_⟩⟩
    · rw [tokens, frames]
      exact .other hblocks (by rw [kind]; exact ⟨nofun, nofun, nofun⟩)
    · rw [tokens, brackets, closed]
      rw [closed] at hbracketed
      exact .layout hbracketed (by rw [kind]; rfl)
    · rw [tokens] at hu
      cases hu
      exact kind
  | indent margin tokens kind brackets frames grows ready =>
    obtain ⟨hclosed, hline⟩ := hmargin margin
    obtain ⟨blocks, hf, hb⟩ := hframes
    refine ⟨⟨_ :: blocks, by rw [frames, hf]; rfl, ?_⟩, ?_, ?_, fun hm => by rw [ready] at hm; cases hm⟩
    · refine fun hn => (List.mem_cons.mp hn).elim (fun he => ?_) hb
      -- an empty margin would not differ from the one that it extends
      rw [← he, List.prefix_nil] at grows
      exact grows.2 grows.1.symm
    · rw [tokens, frames, List.length_cons]
      have hpos : 0 < s.frames.length := by rw [hf]; simp
      have := Blocks.indent hblocks kind hline
      rwa [Nat.sub_add_cancel hpos] at this
    · rw [tokens, brackets, hclosed]
      rw [hclosed] at hbracketed
      exact .layout hbracketed (by rw [kind]; rfl)
  | @dedent m span margin outer tokens brackets frames ready =>
    obtain ⟨hclosed, hline⟩ := hmargin margin
    obtain ⟨blocks, hf, hb⟩ := hframes
    obtain ⟨hrest, hlength⟩ := frames_dropWhile hf hb outer
    rw [List.map_const'] at tokens
    refine ⟨by rwa [frames], ?_, ?_, fun hm => by rw [ready] at hm; cases hm⟩
    · rw [tokens, frames]
      rw [← hlength] at hblocks
      exact hblocks.dedents (fun _ u hu => .inl (hline u hu)) span
    · rw [tokens, brackets, hclosed]
      rw [hclosed] at hbracketed
      exact hbracketed.layouts fun u hu => by rw [List.eq_of_mem_replicate hu]; rfl

/-- What every state inside an interpolation keeps. -/
structure Inline (s : State) : Prop where
  bracketed : Bracketed s.tokens (s.brackets.map Prod.fst)
  flat : ∀ u ∈ s.tokens, u.kind.isLayout = false ∧ u.kind ≠ .eof
  margin : s.mode.atMargin = false

theorem inline_inside (p : Position) : (inside p).Inline :=
  ⟨.nil, fun _ h => absurd h List.not_mem_nil, rfl⟩

/-- Without a line feed there are no lines, and so no blocks. -/
theorem Inline.effect (hc : c ≠ '\n') (he : Effect inner c s t) (h : s.Inline) : t.Inline := by
  obtain ⟨hbracketed, hflat, hmargin⟩ := h
  cases he with
  | pass tokens brackets frames margin interpolations body =>
    refine ⟨by rwa [tokens, brackets], by rwa [tokens], ?_⟩
    cases hm : t.mode.atMargin with
    | false => rfl
    | true => rw [margin hm] at hmargin; cases hmargin
  | token tokens kind brackets frames ready interpolations =>
    refine ⟨?_, ?_, by rw [ready]; rfl⟩
    · rw [tokens]
      exact .token hbracketed kind.1 brackets
    · rw [tokens]
      exact List.forall_mem_cons.mpr ⟨kind, hflat⟩
  | line char => exact absurd char hc
  | indent margin => rw [margin] at hmargin; cases hmargin
  | dedent margin => rw [margin] at hmargin; cases hmargin

theorem inline_run {cs : List Char} {p : Position} (hline : '\n' ∉ cs)
    (h : ((inside p).run inner cs).errors = []) : ((inside p).run inner cs).Inline :=
  run_keeps (fun _ hc _ _ he h => h.effect (fun heq => hline (heq ▸ hc)) he) h (inline_inside p)

theorem Inline.settle (hs : s.Inline) (h : s.settle.errors = []) : s.settle.Inline := by
  -- the character of the last effects is free, so it may be one that is no line feed
  have heffects : Effects none ' ' s s.settle := effects_settle h
  exact heffects.keep (fun _ _ he h => h.effect (by decide) he) hs

end State

/-- The tokens of an interpolation that was read without errors. -/
def ReadWell (ts : List Token) : Prop := OneLine ts ∧ ∀ u ∈ ts, u.Enclosed

theorem enclosed_of_no_text {u : Token} (h : u.kind.isText = false) : u.Enclosed := by
  have hnone : u.kind.interpolations = [] := by
    cases hk : u.kind <;> first | rfl | (rw [hk] at h; cases h)
  exact .mk (fun ts hts => by rw [hnone] at hts; cases hts) fun ts hts => by rw [hnone] at hts; cases hts

namespace State

/-- The interpolations read so far, those of the string that is still open included. -/
structure Enclosed (s : State) : Prop where
  tokens : ∀ u ∈ s.tokens, u.Enclosed
  interpolations : ∀ ts ∈ s.mode.interpolations, ReadWell ts
  body : '\n' ∉ s.mode.body

theorem enclosed_initial : initial.Enclosed :=
  ⟨fun _ h => absurd h List.not_mem_nil, fun _ h => absurd h List.not_mem_nil, List.not_mem_nil⟩

theorem enclosed_inside (p : Position) : (inside p).Enclosed :=
  ⟨fun _ h => absurd h List.not_mem_nil, fun _ h => absurd h List.not_mem_nil, List.not_mem_nil⟩

variable {inner : Option Inner} {c : Char} {s t : State}

theorem Enclosed.effect (hinner : ∀ ts, ReadBy inner ts → ReadWell ts) (he : Effect inner c s t)
    (h : s.Enclosed) : t.Enclosed := by
  obtain ⟨htokens, hparts, hbody⟩ := h
  have settled : ∀ us : List Token, t.tokens = us ++ s.tokens → (∀ u ∈ us, u.Enclosed) →
      t.mode.interpolations = [] → t.mode.body = [] → t.Enclosed := by
    intro us heq hus hi hb
    refine ⟨fun u hu => ?_, fun ts hts => absurd (hi ▸ hts) List.not_mem_nil,
      hb ▸ List.not_mem_nil⟩
    rw [heq] at hu
    exact (List.mem_append.mp hu).elim (hus u) (htokens u)
  cases he with
  | pass tokens brackets frames margin interpolations body =>
    refine ⟨by rwa [tokens], fun ts hts => ?_, body hbody⟩
    rcases interpolations ts hts with hts | hread
    · exact hparts ts hts
    · exact hinner ts (hread hbody)
  | @token u tokens kind brackets frames ready interpolations =>
    refine settled [u] tokens (fun v hv => ?_) (by rw [ready]; rfl) (by rw [ready]; rfl)
    obtain rfl := List.mem_singleton.mp hv
    have hread : ∀ ts ∈ v.kind.interpolations, ReadWell ts :=
      fun ts hts => hparts ts (interpolations ts hts)
    exact .mk (fun ts hts => (hread ts hts).1) fun ts hts => (hread ts hts).2
  | @line u m char tokens kind closed brackets frames margin =>
    refine settled [u] tokens (fun v hv => ?_) (by rw [margin]; rfl) (by rw [margin]; rfl)
    obtain rfl := List.mem_singleton.mp hv
    exact enclosed_of_no_text (by rw [kind]; rfl)
  | @indent u m margin tokens kind brackets frames grows ready =>
    refine settled [u] tokens (fun v hv => ?_) (by rw [ready]; rfl) (by rw [ready]; rfl)
    obtain rfl := List.mem_singleton.mp hv
    exact enclosed_of_no_text (by rw [kind]; rfl)
  | dedent margin outer tokens brackets frames ready =>
    refine settled _ tokens (fun v hv => ?_) (by rw [ready]; rfl) (by rw [ready]; rfl)
    obtain ⟨_, _, rfl⟩ := List.mem_map.mp hv
    exact enclosed_of_no_text rfl

end State

/-- By induction on the levels of interpolation that are left. -/
theorem readWell_of_readBy (levels : Nat) : ∀ ts, ReadBy (inner? levels) ts → ReadWell ts := by
  induction levels with
  | zero =>
    rintro ts ⟨scan, p, cs, hscan, _, _⟩
    cases hscan
  | succ levels ih =>
    rintro ts ⟨scan, p, cs, hscan, hline, hread⟩
    cases hscan
    rw [readInside_eq] at hread
    obtain ⟨htokens, herrors⟩ := Prod.mk.inj hread
    change ((State.inside p).run (inner? levels) cs).settle.emitEof.tokenList = ts at htokens
    have hsettle : ((State.inside p).run (inner? levels) cs).settle.errors = [] :=
      List.reverse_eq_nil_iff.mp herrors
    have hrun : ((State.inside p).run (inner? levels) cs).errors = [] :=
      State.errors_of_finishInside hsettle
    have hinline := (State.inline_run hline hrun).settle hsettle
    have henclosed := State.run_keeps (fun _ _ _ _ he h => State.Enclosed.effect ih he h) hrun
      (State.enclosed_inside p)
    have heffects : State.Effects (inner? levels) ' ' _ _ := State.effects_settle hsettle
    replace henclosed := heffects.keep (fun _ _ he h => State.Enclosed.effect ih he h) henclosed
    generalize ((State.inside p).run (inner? levels) cs).settle = s at htokens hinline henclosed
    have hts : ts = s.tokens.reverse ++ [⟨.eof, s.position.to s.position⟩] := by
      rw [← htokens]
      exact List.reverse_cons
    refine ⟨⟨⟨s.tokens.reverse, _, hts, rfl, fun u hu => ?_⟩, fun u hu => ?_, ?_⟩, fun u hu => ?_⟩
    · exact (hinline.flat u (List.mem_reverse.mp hu)).2
    · rw [hts] at hu
      rcases List.mem_append.mp hu with hu | hu
      · exact (hinline.flat u (List.mem_reverse.mp hu)).1
      · rw [List.mem_singleton.mp hu]
        rfl
    · rw [hts, openBrackets_append, hinline.bracketed.opens]
      rfl
    · rw [hts] at hu
      rcases List.mem_append.mp hu with hu | hu
      · exact henclosed.tokens u (List.mem_reverse.mp hu)
      · rw [List.mem_singleton.mp hu]
        exact enclosed_of_no_text rfl

/-! ## The end of a text -/

section

variable {ts fin latest : List Token} {bs : List Punctuation} {e : Token}

/-- The blocks up to a token that is not the end marker. -/
theorem Blocks.upTo {n : Nat} {before after : List Token} {t : Token} (h : Blocks latest n)
    (hts : latest.reverse ++ [e] = before ++ t :: after) (he : e.kind = .eof) (ht : t.kind ≠ .eof) :
    ∃ m, Blocks (t :: before.reverse) m := by
  rcases List.eq_nil_or_concat after with rfl | ⟨after, last, rfl⟩
  · obtain ⟨_, hlast⟩ := List.append_inj' hts rfl
    cases hlast
    exact absurd he ht
  · rw [List.concat_eq_append, ← List.cons_append, ← List.append_assoc] at hts
    obtain ⟨hinit, _⟩ := List.append_inj' hts rfl
    refine h.suffix (n := n) ?_
    rw [← latest.reverse_reverse, hinit]
    simp

/-- A bracket that is closed has no layout token between it and the one that closes it. -/
theorem Bracketed.flat (h : Bracketed latest bs) {us before inside after : List Token}
    {o c : Token} {p q : Punctuation}
    (hus : ∀ u ∈ us, u.kind.isLayout = true ∨ u.kind = .eof)
    (hsplit : latest.reverse ++ us = before ++ o :: (inside ++ c :: after))
    (ho : o.kind = .punctuation p) (hopening : p.isOpening = true)
    (hinside : openBrackets [] inside = some []) (hc : c.kind = .punctuation q) :
    ∀ t ∈ inside, t.kind.isLayout = false := by
  have hnot : c ∉ us := fun hmem => by
    rcases hus c hmem with hk | hk <;> rw [hc] at hk <;> cases hk
  obtain ⟨rest, hrest⟩ : ∃ rest, latest.reverse = before ++ o :: inside ++ c :: rest := by
    rw [← List.cons_append, ← List.append_assoc] at hsplit
    rcases List.append_eq_append_iff.mp hsplit with ⟨mid, _, hmid⟩ | ⟨mid, hmid, htail⟩
    · exact absurd (hmid ▸ List.mem_append_right mid List.mem_cons_self) hnot
    · cases mid with
      | nil => exact absurd (List.mem_of_mem_head? (by rw [← List.nil_append us, ← htail]; rfl)) hnot
      | cons d rest =>
        obtain ⟨rfl, _⟩ := List.cons_eq_cons.mp htail
        exact ⟨rest, hmid⟩
  intro t ht
  cases hlayout : t.kind.isLayout with
  | false => rfl
  | true =>
    obtain ⟨left, right, rfl⟩ := List.append_of_mem ht
    rw [← latest.reverse_reverse, hrest] at h
    -- no bracket is open before the layout token, though one was opened and not closed
    have hsplit : before ++ o :: (left ++ t :: right) ++ c :: rest =
        (before ++ o :: left) ++ t :: (right ++ c :: rest) := by simp
    rw [hsplit] at h
    have hnone := h.opens_before hlayout
    rw [openBrackets_append] at hnone
    obtain ⟨outer, _, hrun⟩ := Option.bind_eq_some_iff.mp hnone
    rw [openBrackets, ho] at hrun
    simp only [bracketsAfter, hopening, if_true, Option.bind_some] at hrun
    rw [openBrackets_append] at hinside
    obtain ⟨deeper, hleft, _⟩ := Option.bind_eq_some_iff.mp hinside
    rw [show p :: outer = [] ++ p :: outer from rfl, openBrackets_outer hleft] at hrun
    cases deeper <;> cases hrun

/-- The tokens of a text: those of its lines, then what ends its last line and its blocks. -/
theorem regular_of_blocks (hblocks : Blocks (fin ++ latest) 0) (hbracketed : Bracketed latest bs)
    (hfin : ∀ u ∈ fin, u.kind.isLayout = true) (he : e.kind = .eof)
    (hts : ts = (fin ++ latest).reverse ++ [e]) (hstrings : ∀ t ∈ ts, t.Formed nestingLimit)
    (henclosed : ∀ t ∈ ts, t.Enclosed) : Regular ts := by
  have hcount := hblocks.count
  have hlast : ([e] : List Token).countP (·.kind.isDedent) = 0 ∧
      ([e] : List Token).countP (·.kind.isIndent) = 0 := by
    simp [he, TokenKind.isDedent, TokenKind.isIndent]
  have hend : ∀ u ∈ fin.reverse ++ [e], u.kind.isLayout = true ∨ u.kind = .eof := by
    intro u hu
    rcases List.mem_append.mp hu with hu | hu
    · exact .inl (hfin u (List.mem_reverse.mp hu))
    · rw [List.mem_singleton.mp hu]
      exact .inr he
  have hparts : ts = latest.reverse ++ (fin.reverse ++ [e]) := by
    rw [hts, List.reverse_append, List.append_assoc]
  have hclosed : ts.countP (·.kind.isDedent) = ts.countP (·.kind.isIndent) := by
    rw [hts, List.countP_append, List.countP_append, List.countP_reverse, List.countP_reverse, hcount,
      hlast.1, hlast.2]
  have hbrackets : openBrackets [] ts = some bs := by
    rw [hparts, openBrackets_append, hbracketed.opens]
    exact openBrackets_of_layout hend bs
  refine ⟨⟨_, e, hts, he, fun u hu => hblocks.not_eof u (List.mem_reverse.mp hu)⟩, ?_, hclosed,
    by rw [hbrackets]; rfl, ?_, ?_, ?_, hstrings, henclosed⟩
  · intro us hus
    rw [hts] at hus
    rcases List.prefix_concat_iff.mp hus with rfl | hus
    · rw [← hts]
      exact Nat.le_of_eq hclosed
    · have hsuffix : us.reverse <:+ fin ++ latest := by
        rw [← (fin ++ latest).reverse_reverse]
        exact List.reverse_suffix.mpr hus
      obtain ⟨m, hm⟩ := hblocks.suffix hsuffix
      have := hm.count
      rw [List.countP_reverse, List.countP_reverse] at this
      omega
  · intro before inside after o c p q hsplit ho hopening hinside hc _
    exact hbracketed.flat hend (hparts ▸ hsplit) ho hopening hinside hc
  · intro before after t hsplit ht
    obtain ⟨m, hm⟩ := hblocks.upTo (hts ▸ hsplit) he (by rw [ht]; exact nofun)
    cases hm with
    | other rest kind => exact absurd ht kind.1
    | dedent rest kind line => rw [kind] at ht; cases ht
    | indent rest kind line =>
      rw [List.head?_reverse] at line
      cases hlast : before.getLast? with
      | none => exact .inl (List.getLast?_eq_none_iff.mp hlast)
      | some u => exact .inr ⟨u, rfl, line u hlast⟩
  · intro before after t hsplit ht
    obtain ⟨m, hm⟩ := hblocks.upTo (hts ▸ hsplit) he (by rw [ht]; exact nofun)
    cases hm with
    | other rest kind => exact absurd ht kind.2.1
    | indent rest kind line => rw [kind] at ht; cases ht
    | dedent rest kind line =>
      rw [List.head?_reverse] at line
      cases hlast : before.getLast? with
      | none =>
        rw [List.getLast?_eq_none_iff.mp hlast] at rest
        cases rest
      | some u => exact ⟨u, rfl, line u hlast⟩

end

namespace State

theorem closeAll_tokens {s : State} {blocks : List (List Char)} (hf : s.frames = blocks ++ [[]])
    (hb : [] ∉ blocks) :
    s.closeAll.tokens =
      List.replicate (s.frames.length - 1) ⟨.dedent, s.position.to s.position⟩ ++ s.tokens := by
  have htake : s.frames.takeWhile (· != []) = blocks := by
    rw [hf, List.takeWhile_append_of_pos fun b hmem => by
      rw [bne_iff_ne]
      rintro rfl
      exact hb hmem]
    simp
  unfold closeAll closeTo
  dsimp only
  rw [htake, List.map_const', hf]
  simp

/-- The end of the last line, if it is not over, then of all blocks, then of the text. -/
theorem regular_closing {s t : State} (h : s.Orderly) (henclosed : s.Enclosed) (more : List Token)
    (hmore : ∀ u ∈ more, u.kind = .newline) (htokens : t.tokens = more ++ s.tokens)
    (hframes : t.frames = s.frames) (hline : ∀ u ∈ t.tokens.head?, u.kind = .newline)
    (hstrings : ∀ u ∈ t.closeAll.emitEof.tokenList, u.Formed nestingLimit) :
    Regular t.closeAll.emitEof.tokenList := by
  obtain ⟨blocks, hf, hb⟩ := h.frames
  have hlines : Blocks t.tokens (t.frames.length - 1) := by
    rw [htokens, hframes]
    clear htokens hline hstrings
    induction more with
    | nil => exact h.blocks
    | cons u more ih =>
      have hu := hmore u List.mem_cons_self
      exact .other (ih fun v hv => hmore v (List.mem_cons_of_mem u hv))
        (by rw [hu]; exact ⟨nofun, nofun, nofun⟩)
  have hclose := closeAll_tokens (hframes.trans hf) hb
  have hfin : ∀ u ∈ List.replicate (t.frames.length - 1)
      (⟨.dedent, t.position.to t.position⟩ : Token) ++ more, u.kind.isLayout = true := by
    intro u hu
    rcases List.mem_append.mp hu with hu | hu
    · rw [List.eq_of_mem_replicate hu]
      rfl
    · rw [hmore u hu]
      rfl
  have hts : t.closeAll.emitEof.tokenList = (List.replicate (t.frames.length - 1)
      (⟨.dedent, t.position.to t.position⟩ : Token) ++ more ++ s.tokens).reverse ++
        [⟨.eof, t.position.to t.position⟩] := by
    rw [List.append_assoc, ← htokens, ← hclose]
    exact List.reverse_cons
  refine regular_of_blocks (e := ⟨.eof, t.position.to t.position⟩) ?_ h.bracketed hfin rfl hts
    hstrings fun u hu => ?_
  · rw [List.append_assoc, ← htokens]
    refine Blocks.dedents ?_ (fun _ u hu => .inl (hline u hu)) _
    rwa [Nat.zero_add]
  · rw [hts] at hu
    rcases List.mem_append.mp hu with hu | hu
    · rcases List.mem_append.mp (List.mem_reverse.mp hu) with hu | hu
      · refine enclosed_of_no_text ?_
        have hlayout := hfin u hu
        cases hk : u.kind <;> rw [hk] at hlayout <;> first | rfl | cases hlayout
      · exact henclosed.tokens u hu
    · rw [List.mem_singleton.mp hu]
      exact enclosed_of_no_text rfl

theorem atMargin_of_atLineStart {m : Mode} (h : m.atLineStart = true) : m.atMargin = true := by
  cases m <;> first | rfl | exact h | cases h

theorem regular_finish {s : State} (h : s.Orderly) (henclosed : s.Enclosed)
    (herrors : s.finish.errors = [])
    (hstrings : ∀ u ∈ s.finish.tokenList, u.Formed nestingLimit) : Regular s.finish.tokenList := by
  unfold finish at herrors hstrings ⊢
  cases hstart : s.mode.atLineStart with
  | true =>
    rw [hstart] at hstrings
    exact regular_closing h henclosed [] (fun _ h => absurd h List.not_mem_nil) rfl rfl
      (h.margin (atMargin_of_atLineStart hstart)).2 hstrings
  | false =>
    rw [hstart] at herrors hstrings
    have heffects : Effects (inner? nestingLimit) '\n' _ _ := effects_settle herrors
    refine regular_closing (heffects.keep (fun _ _ he h => h.effect he) h)
      (heffects.keep (fun _ _ he h => h.effect (readWell_of_readBy nestingLimit) he) henclosed)
      [_] (fun u hu => ?_) rfl rfl (fun u hu => ?_) hstrings
    · rw [List.mem_singleton.mp hu]
    · cases hu
      rfl

end State

theorem regular_scan {source : String} (h : (scan source.toList).finish.errors = []) :
    Regular (scan source.toList).finish.tokenList := by
  have hscan := State.errors_of_finish h
  refine State.regular_finish ?_ ?_ h (formed_of_lex (lex_eq_ok.mpr ⟨h, rfl⟩))
  · exact State.run_keeps (fun _ _ _ _ he h => h.effect he) hscan State.orderly_initial
  · exact State.run_keeps (fun _ _ _ _ he h => h.effect (readWell_of_readBy nestingLimit) he) hscan
      State.enclosed_initial

/-- Every text that is read without errors has its tokens in order. -/
theorem regular_of_lex {source : String} {tokens : List Token} (h : lex source = .ok tokens) :
    Regular tokens := by
  obtain ⟨herrors, rfl⟩ := lex_eq_ok.mp h
  exact regular_scan herrors

/-- Two blocks that end together, a bracket over two lines and one interpolation inside another. -/
theorem regular_of_lex_blocks :
    let source := "a\n  b [\n 1]\n    \"x\x7b\"\x7by\x7d\"\x7d\"\nc\n"
    ∃ tokens, lex source = .ok tokens ∧ tokens.countP (·.kind.isIndent) = 2 ∧ Regular tokens := by
  intro source
  have hcount : ((lex source).toOption.map fun ts => ts.countP (·.kind.isIndent)) = some 2 := by
    decide +kernel
  cases hlex : lex source with
  | error errors =>
    rw [hlex] at hcount
    cases hcount
  | ok tokens =>
    rw [hlex] at hcount
    exact ⟨tokens, rfl, Option.some.inj hcount, regular_of_lex hlex⟩

end Scan

end PipeLang
