import PipeLang.Proofs.Scan.Errors
import PipeLang.Proofs.Tree.Formed

/-! The tokens of a text that is read without errors are well formed: identifiers are names, and a
string holds neither an empty literal nor two literals in a row. What is pending carries the part of
this that the next characters rely on. -/

namespace PipeLang

/-- A word before its question or exclamation mark. -/
def IsStem (cs : List Char) : Prop :=
  ∃ c rest, cs = c :: rest ∧ c.isAlpha = true ∧ ∀ d ∈ rest, continuesWord d = true

theorem not_isMark_of_continuesWord {c : Char} (h : continuesWord c = true) : isMark c = false := by
  cases hm : isMark c with
  | false => rfl
  | true =>
    have hc : c = '?' ∨ c = '!' := by simpa [isMark] using hm
    rcases hc with rfl | rfl <;> exact absurd h (by decide)

theorem continuesWord_of_isAlpha {c : Char} (h : c.isAlpha = true) : continuesWord c = true := by
  simp [continuesWord, Char.isAlphanum, h]

theorem IsStem.append {cs : List Char} (h : IsStem cs) {d : Char} (hd : continuesWord d = true) :
    IsStem (cs ++ [d]) := by
  obtain ⟨c, rest, rfl, hc, hrest⟩ := h
  refine ⟨c, rest ++ [d], rfl, hc, ?_⟩
  intro e he
  rcases List.mem_append.mp he with he | he
  · exact hrest e he
  · rw [List.mem_singleton.mp he]; exact hd

theorem IsStem.isWord {cs : List Char} (h : IsStem cs) : isWord cs = true := by
  obtain ⟨c, rest, rfl, hc, hrest⟩ := h
  have hlast : dropMark (c :: rest) = c :: rest := by
    have hmem := List.getLast_mem (List.cons_ne_nil c rest)
    have hword : continuesWord ((c :: rest).getLast (List.cons_ne_nil c rest)) = true := by
      rcases List.mem_cons.mp hmem with he | he
      · rw [he]; exact continuesWord_of_isAlpha hc
      · exact hrest _ he
    simp only [dropMark, List.getLast?_eq_some_getLast (List.cons_ne_nil c rest),
      not_isMark_of_continuesWord hword, Bool.false_eq_true, if_false]
  rw [PipeLang.isWord, hlast]
  simp only [hc, Bool.true_and, List.all_eq_true]
  exact hrest

theorem IsStem.isWord_append {cs : List Char} (h : IsStem cs) {m : Char} (hm : isMark m = true) :
    PipeLang.isWord (cs ++ [m]) = true := by
  obtain ⟨c, rest, rfl, hc, hrest⟩ := h
  have hdrop : dropMark (c :: rest ++ [m]) = c :: rest := by
    simp only [dropMark, List.getLast?_concat, hm, if_true, List.dropLast_concat]
  rw [PipeLang.isWord, hdrop]
  simp only [hc, Bool.true_and, List.all_eq_true]
  exact hrest

/-- The kind of a word: a reserved one is a keyword, any other a name. -/
def wordKind (name : String) : TokenKind :=
  match Keyword.ofSpelling? name with
  | some k => .keyword k
  | none => .ident name

theorem formed_of_wordKind {n : Nat} {t : Token} {cs : List Char} (h : isWord cs = true)
    (ht : t.kind = wordKind (String.ofList cs)) : t.Formed n := by
  unfold wordKind at ht
  cases hk : Keyword.ofSpelling? (String.ofList cs) with
  | some k =>
    rw [hk] at ht
    exact .plain (by rw [ht]; rfl)
  | none =>
    rw [hk] at ht
    exact .ident ht (by simp [isIdentifier, h, hk])

namespace Scan

/-- The parts of a string read so far, latest first. -/
structure Quoted.Formed (n : Nat) (q : Quoted) : Prop where
  literals : ∀ text, .literal text ∈ q.parts → text ≠ ""
  apart : Apart StringPart.isLiteral q.parts
  room : ∀ tokens span, .hole tokens span ∈ q.parts → 0 < n
  holes : ∀ tokens span, .hole tokens span ∈ q.parts → ∀ u ∈ tokens, Token.Formed (n - 1) u

/-- The latest part is no literal, so that what is read now may become one. -/
def Quoted.Open (q : Quoted) : Prop := ∀ p ∈ q.parts.head?, p.isLiteral = false

theorem Quoted.formed_new (n : Nat) (p : Position) : Quoted.Formed n ⟨p, [], []⟩ :=
  ⟨fun _ h => absurd h List.not_mem_nil, List.isChain_nil, fun _ _ h => absurd h List.not_mem_nil,
    fun _ _ h => absurd h List.not_mem_nil⟩

theorem Quoted.Formed.flush {n : Nat} {q : Quoted} (h : q.Formed n) (ho : q.Open) :
    q.flush.Formed n := by
  unfold Quoted.flush
  split
  · exact h
  · next hne =>
    refine ⟨?_, ?_, ?_, ?_⟩
    · intro text ht
      rcases List.mem_cons.mp ht with ht | ht
      · obtain rfl := StringPart.literal.inj ht
        intro he
        have : q.literal.reverse = [] := by
          rw [← String.toList_ofList (l := q.literal.reverse), he]; rfl
        exact hne (by simpa using this)
      · exact h.literals text ht
    · refine List.isChain_cons.mpr ⟨?_, h.apart⟩
      intro p hp
      simp [ho p hp]
    · intro tokens span hm
      exact h.room tokens span (by simpa using hm)
    · intro tokens span hm
      exact h.holes tokens span (by simpa using hm)

theorem Quoted.literal_flush (q : Quoted) : q.flush.literal = [] := by
  unfold Quoted.flush
  split
  · next h => simpa using h
  · rfl

/-- A string token of parts that were read well. -/
theorem Quoted.Formed.token {n : Nat} {q : Quoted} (h : q.Formed n) {t : Token}
    (ht : t.kind = .text q.parts.reverse) : t.Formed n := by
  refine .text ht ?_ ?_ ?_ ?_
  · intro text hm
    exact h.literals text (List.mem_reverse.mp hm)
  · refine List.isChain_reverse.mpr (h.apart.imp ?_)
    intro a b hab
    rwa [Bool.and_comm] at hab
  · intro tokens span hm
    exact h.room tokens span (List.mem_reverse.mp hm)
  · intro tokens span hm
    exact h.holes tokens span (List.mem_reverse.mp hm)

def Mode.Formed (n : Nat) : Mode → Prop
  | .word _ letters => IsStem letters.reverse
  | .text q | .escape q => q.Formed n ∧ q.Open
  | .hole q _ | .holeEscape q _ => q.Formed n ∧ q.literal = []
  | _ => True

/-- What holds of the state of a text that was read without errors. -/
structure State.Formed (n : Nat) (s : State) : Prop where
  tokens : ∀ t ∈ s.tokens, t.Formed n
  mode : s.mode.Formed n

/-- Readers of interpolations that give well formed tokens, or errors. -/
def InnerFormed (n : Nat) : Option Inner → Prop
  | none => True
  | some scan => 0 < n ∧ ∀ p cs, (scan p cs).2 = [] → ∀ t ∈ (scan p cs).1, Token.Formed (n - 1) t

namespace State

theorem Formed.become {n : Nat} {s : State} (h : s.Formed n) {m : Mode} (hm : m.Formed n) :
    (s.become m).Formed n := ⟨h.tokens, hm⟩

theorem formed_plain_cons {n : Nat} {ts : List Token} {u : Token} (hu : u.kind.isPlain = true)
    (h : ∀ t ∈ ts, t.Formed n) : ∀ t ∈ u :: ts, t.Formed n := by
  intro t ht
  rcases List.mem_cons.mp ht with rfl | ht
  · exact .plain hu
  · exact h t ht

theorem Formed.emit {n : Nat} {s : State} (h : s.Formed n) {p : Position} {k : TokenKind}
    (hk : Token.Formed n ⟨k, p.to s.position⟩) : (s.emit p k).Formed n := by
  refine ⟨?_, trivial⟩
  intro t ht
  rcases List.mem_cons.mp ht with rfl | ht
  · exact hk
  · exact h.tokens t ht

theorem Formed.plain {n : Nat} {s : State} (h : s.Formed n) {p : Position} {k : TokenKind}
    (hk : k.isPlain = true) : (s.emit p k).Formed n :=
  h.emit (.plain hk)

theorem Formed.emitWord {n : Nat} {s : State} (h : s.Formed n) {p : Position} {text : List Char}
    (hw : isWord text.reverse = true) : (s.emitWord p text).Formed n :=
  h.emit (formed_of_wordKind hw rfl)

theorem Formed.emitNumber {n : Nat} {s : State} (h : s.Formed n) (p : Position)
    (whole places : List Char) : (s.emitNumber p whole places).Formed n :=
  h.plain rfl

theorem Formed.emitText {n : Nat} {s : State} (h : s.Formed n) {q : Quoted} (hq : q.Formed n)
    (ho : q.Open) : (s.emitText q).Formed n :=
  h.emit ((hq.flush ho).token rfl)

theorem Formed.closeBracket {n : Nat} {s : State} (h : s.Formed n) (p : Position)
    (b : Punctuation) : (s.closeBracket p b).Formed n := by
  unfold State.closeBracket
  split
  · exact ⟨formed_plain_cons rfl h.tokens, trivial⟩
  · dsimp only
    split <;> exact ⟨formed_plain_cons rfl h.tokens, trivial⟩

theorem Formed.closeTo {n : Nat} {s : State} (h : s.Formed n) (m : List Char) (p : Position) :
    (s.closeTo m p).Formed n := by
  refine ⟨?_, h.mode⟩
  intro t ht
  rcases List.mem_append.mp ht with ht | ht
  · obtain ⟨_, _, rfl⟩ := List.mem_map.mp ht
    exact .plain rfl
  · exact h.tokens t ht

theorem Formed.settleMargin {n : Nat} {s : State} (h : s.Formed n) (p : Position) (m : List Char) :
    (s.settleMargin p m).Formed n := by
  simp only [State.settleMargin]
  repeat' split
  case _ => exact h
  case _ => exact ⟨h.tokens, h.mode⟩
  case _ =>
    exact ⟨formed_plain_cons rfl h.tokens, h.mode⟩
  case _ => exact ⟨h.tokens, h.mode⟩
  case _ => exact h.closeTo _ _
  case _ => exact ⟨h.tokens, h.mode⟩

theorem Formed.leaveMargin {n : Nat} {s : State} (h : s.Formed n) (m : Margin) :
    (s.leaveMargin m).Formed n :=
  (h.settleMargin _ _).become trivial

theorem Formed.endLine {n : Nat} {s : State} (h : s.Formed n) (p : Position) :
    (s.endLine p).Formed n := by
  unfold State.endLine
  split
  · exact (h.plain rfl).become trivial
  · exact h.become trivial

/-- What holds of every state: an error, or everything read so far is well formed. -/
def Sound (n : Nat) (s : State) : Prop := s.errors = [] → s.Formed n

theorem sound_of_errors {n : Nat} {s : State} (h : s.errors ≠ []) : s.Sound n :=
  fun he => absurd he h

theorem isPlain_of_symbol {c : Char} {k : TokenKind} (h : symbol? c = some k) :
    k.isPlain = true := by
  unfold symbol? at h
  split at h
  all_goals first
    | (obtain rfl := Option.some.inj h; rfl)
    | contradiction

theorem formed_of_pending (n : Nat) {p : Position} {c : Char} {m : Mode}
    (h : pending? p c = some m) : m.Formed n := by
  unfold pending? at h
  split at h
  case h_9 =>
    obtain rfl := Option.some.inj h
    exact ⟨Quoted.formed_new n p, fun _ hp => by cases hp⟩
  case h_10 =>
    split at h
    · obtain rfl := Option.some.inj h; trivial
    · split at h
      · next ha =>
        obtain rfl := Option.some.inj h
        exact ⟨c, [], rfl, ha, fun _ hd => absurd hd List.not_mem_nil⟩
      · contradiction
  all_goals (obtain rfl := Option.some.inj h; trivial)

theorem Formed.start {n : Nat} {s : State} (h : s.Formed n) (p : Position) (c : Char) :
    (s.start p c).Sound n := by
  intro he
  unfold State.start at he ⊢
  split at he
  · next hb => rw [if_pos hb]; exact h.become trivial
  next hb =>
  rw [if_neg hb]
  split at he
  · next hl => rw [if_pos hl]; exact h.endLine p
  next hl =>
  rw [if_neg hl]
  rcases hsymbol : symbol? c with _ | kind
  · rcases hopening : opening? c with _ | opening
    · rcases hclosing : closing? c with _ | closing
      · rcases hpending : pending? p c with _ | mode
        · simp only [hsymbol, hopening, hclosing, hpending] at he
          exact absurd he (by simp)
        · exact h.become (formed_of_pending n hpending)
      · exact h.closeBracket p closing
    · exact ⟨(h.plain rfl).tokens, trivial⟩
  · exact h.plain (isPlain_of_symbol hsymbol)

theorem Formed.settle {n : Nat} {s : State} (h : s.Formed n) : s.settle.Sound n := by
  intro he
  have hm := h.mode
  unfold State.settle at he ⊢
  cases hs : s.mode with
  | ready => exact h
  | margin m => exact h.leaveMargin m
  | marginRemark m => exact h.leaveMargin m
  | marginSlash m slash => exact (h.leaveMargin m).plain rfl
  | note alone => exact h.become trivial
  | word p text =>
    rw [hs] at hm
    exact h.emitWord (IsStem.isWord hm)
  | digits p whole => exact h.emitNumber p whole []
  | fraction p whole places => exact h.emitNumber p whole places
  | point p whole dot => exact ⟨formed_plain_cons rfl (formed_plain_cons rfl h.tokens), trivial⟩
  | secondPoint p whole places dot =>
    exact ⟨formed_plain_cons rfl (formed_plain_cons rfl h.tokens), trivial⟩
  | slash p => exact h.plain rfl
  | minus p => exact h.plain rfl
  | less p => exact h.plain rfl
  | greater p => exact h.plain rfl
  | bar p => exact h.plain rfl
  | underscore p => exact h.plain rfl
  | _ => rw [hs] at he; exact absurd he (by simp)

theorem Formed.closeHole {n : Nat} {inner : Option Inner} (hi : InnerFormed n inner) {s : State}
    (h : s.Formed n) {q : Quoted} (hq : q.Formed n) (b : Hole) :
    (s.closeHole inner q b).Sound n := by
  intro he
  unfold State.closeHole at he ⊢
  dsimp only at he ⊢
  split at he
  · exact absurd he (by simp)
  next hb =>
  rw [if_neg hb]
  cases inner with
  | none => exact absurd he (by simp)
  | some scan =>
    have herr : (scan b.start b.body.reverse).2 = [] := by
      have := List.append_eq_nil_iff.mp he
      simpa using this.1
    refine ⟨h.tokens, ⟨?_, ?_, ?_, ?_⟩, ?_⟩
    · intro text ht
      exact hq.literals text (by simpa using ht)
    · refine List.isChain_cons.mpr ⟨?_, hq.apart⟩
      intro p hp
      simp [StringPart.isLiteral]
    · intro tokens span hm
      exact hi.1
    · intro tokens span hm u hu
      rcases List.mem_cons.mp hm with hm | hm
      · obtain ⟨rfl, _⟩ := StringPart.hole.inj hm
        exact hi.2 _ _ herr u hu
      · exact hq.holes tokens span hm u hu
    · intro p hp
      obtain rfl := Option.some.inj hp
      rfl

theorem Formed.join {n : Nat} {inner : Option Inner} (hi : InnerFormed n inner) {s t : State}
    (h : s.Formed n) {p : Position} {c : Char} (hj : s.join inner p c = some t) : t.Sound n := by
  have hm := h.mode
  unfold State.join at hj
  cases hs : s.mode with
  | word start text =>
    rw [hs] at hm
    simp only [hs] at hj
    split at hj
    · next hc =>
      obtain rfl := Option.some.inj hj
      intro _
      refine h.become ?_
      have := IsStem.append hm hc
      simpa [Mode.Formed] using this
    · split at hj
      · next hc =>
        obtain rfl := Option.some.inj hj
        intro _
        refine h.emitWord ?_
        have := IsStem.isWord_append hm hc
        simpa using this
      · contradiction
  | text q =>
    rw [hs] at hm
    simp only [hs] at hj
    split at hj
    · contradiction
    obtain rfl := Option.some.inj hj
    unfold State.quote
    split
    · exact fun _ => h.emitText hm.1 hm.2
    split
    · exact fun _ => h.become hm
    split
    · exact fun _ => h.become ⟨hm.1.flush hm.2, q.literal_flush⟩
    split
    · exact sound_of_errors (by simp)
    · exact fun _ => h.become ⟨⟨hm.1.literals, hm.1.apart, hm.1.room, hm.1.holes⟩, hm.2⟩
  | escape q =>
    rw [hs] at hm
    simp only [hs] at hj
    split at hj
    · contradiction
    obtain rfl := Option.some.inj hj
    exact fun _ => h.become ⟨⟨hm.1.literals, hm.1.apart, hm.1.room, hm.1.holes⟩, hm.2⟩
  | hole q b =>
    rw [hs] at hm
    simp only [hs] at hj
    split at hj
    · contradiction
    obtain rfl := Option.some.inj hj
    unfold State.burrow
    split
    · exact h.closeHole hi hm.1 b
    · dsimp only
      split
      · exact fun _ => h.become hm
      · exact fun _ => h.become hm
  | holeEscape q b =>
    rw [hs] at hm
    simp only [hs] at hj
    split at hj
    · contradiction
    obtain rfl := Option.some.inj hj
    exact fun _ => h.become hm
  | remark opened depth last back =>
    simp only [hs] at hj
    obtain rfl := Option.some.inj hj
    intro _
    unfold State.remark
    repeat' split
    all_goals exact h.become trivial
  | margin m =>
    simp only [hs] at hj
    unfold State.margin at hj
    intro _
    repeat' split at hj
    all_goals first
      | contradiction
      | (obtain rfl := Option.some.inj hj; exact h.become trivial)
  | _ =>
    simp only [hs] at hj
    intro he
    repeat' split at hj
    all_goals first
      | contradiction
      | (obtain rfl := Option.some.inj hj
         first
           | exact h
           | exact h.become trivial
           | exact h.plain rfl
           | exact absurd he (by simp))

/-- A step keeps what was read well formed, as long as no error is met. -/
theorem Sound.step {n : Nat} {inner : Option Inner} (hi : InnerFormed n inner) {s : State}
    (h : s.Sound n) (c : Char) : (s.step inner c).Sound n := by
  intro he
  have before : s.errors = [] := by
    have := errors_suffix_step inner s c
    rw [he] at this
    exact List.suffix_nil.mp this
  have hf := h before
  unfold State.step at he ⊢
  cases hj : (s.past c).join inner s.position c with
  | some t =>
    rw [hj] at he
    exact Formed.join (s := s.past c) hi ⟨hf.tokens, hf.mode⟩ hj he
  | none =>
    rw [hj] at he
    have hsettle : s.settle.errors = [] := by
      have := errors_suffix_start (s.settle.past c) s.settle.position c
      rw [he] at this
      exact List.suffix_nil.mp this
    have hs := hf.settle hsettle
    exact Formed.start (s := s.settle.past c) ⟨hs.tokens, hs.mode⟩ _ _ he

theorem Sound.run {n : Nat} {inner : Option Inner} (hi : InnerFormed n inner) {s : State}
    (h : s.Sound n) (cs : List Char) : (s.run inner cs).Sound n := by
  induction cs generalizing s with
  | nil => exact h
  | cons c cs ih => exact ih (h.step hi c)

theorem Formed.emitEof {n : Nat} {s : State} (h : s.Formed n) : s.emitEof.Formed n :=
  h.plain rfl

end State

theorem innerFormed_readInside (levels : Nat) : InnerFormed levels (inner? levels) := by
  induction levels with
  | zero => trivial
  | succ levels ih =>
    refine ⟨Nat.succ_pos _, ?_⟩
    intro p cs he t ht
    rw [readInside_eq] at he ht
    have hinside : (State.inside p).Sound levels :=
      fun _ => ⟨fun _ hm => absurd hm List.not_mem_nil, trivial⟩
    have herrors : ((State.inside p).run (inner? levels) cs).settle.errors = [] :=
      List.reverse_eq_nil_iff.mp he
    have hrun := hinside.run ih cs
    have hbefore : ((State.inside p).run (inner? levels) cs).errors = [] :=
      State.errors_of_finishInside herrors
    have hformed := ((hrun hbefore).settle herrors).emitEof
    exact hformed.tokens t (List.mem_reverse.mp ht)

/-- The tokens of a text without errors. -/
theorem formed_of_lex {source : String} {tokens : List Token} (h : lex source = .ok tokens) :
    ∀ t ∈ tokens, t.Formed nestingLimit := by
  obtain ⟨herrors, rfl⟩ := lex_eq_ok.mp h
  have hinit : State.initial.Sound nestingLimit :=
    fun _ => ⟨fun _ hm => absurd hm List.not_mem_nil, trivial⟩
  have hscan : (scan source.toList).Formed nestingLimit :=
    hinit.run (innerFormed_readInside nestingLimit) source.toList (State.errors_of_finish herrors)
  have hfinish : (scan source.toList).finish.Formed nestingLimit := by
    unfold State.finish at herrors ⊢
    split
    · exact (hscan.closeTo _ _).emitEof
    · next hstart =>
      rw [if_neg hstart] at herrors
      have hsettle := hscan.settle herrors
      exact ((hsettle.plain rfl).closeTo _ _).emitEof
  intro t ht
  exact hfinish.tokens t (List.mem_reverse.mp ht)

end Scan

end PipeLang
