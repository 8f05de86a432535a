import PipeLang.Proofs.Scan.Errors

/-! What it means that tokens account for a text. Every character stands in the text of one token, in a
blank or in a comment, and a token's span is where its text stands. `Tiles before text ts` says so of the
text that comes after `before`; the tokens of an interpolation account in the same way for the text
between its braces. -/

namespace PipeLang

open String (utf8Len)

/-- Where `text` stands when `before` comes before it. -/
def Span.ofText (before text : List Char) : Span where
  start := utf8Len before
  stop := utf8Len (before ++ text)
  line := 1 + before.count '\n'
  column := 1 + (before.reverse.takeWhile (· != '\n')).length

theorem Position.after_origin (cs : List Char) :
    Position.origin.after cs = ⟨utf8Len cs, 1 + cs.count '\n',
      1 + (cs.reverse.takeWhile (· != '\n')).length⟩ := by
  induction cs using List.reverseRecOn with
  | nil => rfl
  | append_singleton cs c ih =>
    rw [Position.after_append, ih, String.utf8Len_append]
    show Position.advance _ c = _
    unfold Position.advance
    split
    · next hc =>
      subst hc
      simp [Nat.add_assoc]
    · next hc => simp [hc, Nat.add_comm]

theorem Position.to_after (before text : List Char) :
    (Position.origin.after before).to (Position.origin.after (before ++ text)) =
      Span.ofText before text := by
  rw [Position.after_origin, Position.after_origin]
  rfl

/-- The rest of a block comment that is `n` levels deep, up to its end. -/
inductive CommentRest : Nat → List Char → Prop
  | stop : CommentRest 1 ['*', '/']
  | closes {n : Nat} {cs : List Char} (rest : CommentRest (n + 1) cs) :
    CommentRest (n + 2) ('*' :: '/' :: cs)
  | opens {n : Nat} {cs : List Char} (rest : CommentRest (n + 1) cs) :
    CommentRest n ('/' :: '*' :: cs)
  | char {n : Nat} {c : Char} {cs : List Char} (plain : ¬ ['/', '*'] <+: c :: cs)
    (inside : ¬ ['*', '/'] <+: c :: cs) (rest : CommentRest n cs) : CommentRest n (c :: cs)

/-- Literal text of a string as it is written, and with its escapes applied. -/
inductive Unescapes : List Char → List Char → Prop
  | nil : Unescapes [] []
  | plain {c : Char} {raw text : List Char}
    (plain : c ≠ '"' ∧ c ≠ '\\' ∧ c ≠ '\x7b' ∧ c ≠ '\x7d' ∧ c ≠ '\n') (rest : Unescapes raw text) :
    Unescapes (c :: raw) (c :: text)
  | escape {c d : Char} {raw text : List Char} (known : unescape? c = some d)
    (rest : Unescapes raw text) : Unescapes ('\\' :: c :: raw) (d :: text)
  | kept {c : Char} {raw text : List Char} (unknown : unescape? c = none) (line : c ≠ '\n')
    (rest : Unescapes raw text) : Unescapes ('\\' :: c :: raw) ('\\' :: c :: text)

theorem Unescapes.append {raw raw' text text' : List Char} (h : Unescapes raw text)
    (h' : Unescapes raw' text') : Unescapes (raw ++ raw') (text ++ text') := by
  induction h with
  | nil => exact h'
  | plain hc _ ih => exact .plain hc ih
  | escape known _ ih => exact .escape known ih
  | kept unknown line _ ih => exact .kept unknown line ih

theorem Unescapes.eq_nil {raw : List Char} (h : Unescapes raw []) : raw = [] := by
  cases h
  rfl

mutual

/-- The text after `before`, with the tokens that account for it. -/
inductive Tiles : List Char → List Char → List Token → Prop
  | nil {before : List Char} : Tiles before [] []
  | blank {before cs : List Char} {c : Char} {ts : List Token}
    (blank : c = ' ' ∨ c = '\t' ∨ c = '\r' ∨ c = '\n') (rest : Tiles (before ++ [c]) cs ts) :
    Tiles before (c :: cs) ts
  | note {before text cs : List Char} {ts : List Token} (line : '\n' ∉ text)
    (ended : ∀ c ∈ cs.head?, c = '\n') (rest : Tiles (before ++ '#' :: text) cs ts) :
    Tiles before ('#' :: text ++ cs) ts
  | comment {before text cs : List Char} {ts : List Token} (closed : CommentRest 1 text)
    (rest : Tiles (before ++ '/' :: '*' :: text) cs ts) :
    Tiles before ('/' :: '*' :: text ++ cs) ts
  | token {before text cs : List Char} {kind : TokenKind} {ts : List Token}
    (spells : Spells before text kind) (rest : Tiles (before ++ text) cs ts) :
    Tiles before (text ++ cs) (⟨kind, .ofText before text⟩ :: ts)

/-- The text of a token, after `before`. -/
inductive Spells : List Char → List Char → TokenKind → Prop
  | ident {before : List Char} (name : String) : Spells before name.toList (.ident name)
  | keyword {before : List Char} (k : Keyword) : Spells before k.spelling.toList (.keyword k)
  | operator {before : List Char} (o : Operator) : Spells before o.spelling.toList (.operator o)
  | punctuation {before : List Char} (p : Punctuation) :
    Spells before p.spelling.toList (.punctuation p)
  | whole {before ds : List Char} (nonempty : ds ≠ []) (digits : ∀ d ∈ ds, d.isDigit = true) :
    Spells before ds (.number (.ofLiteral ds []))
  | places {before ds es : List Char} (nonempty : ds ≠ [] ∧ es ≠ [])
    (digits : ∀ d ∈ ds ++ es, d.isDigit = true) :
    Spells before (ds ++ '.' :: es) (.number (.ofLiteral ds es))
  | text {before raw : List Char} {parts : List StringPart}
    (quotes : Quotes (before ++ ['"']) raw parts) : Spells before ('"' :: raw ++ ['"']) (.text parts)
  | newline {before : List Char} : Spells before ['\n'] .newline
  | lastLine {before : List Char} : Spells before [] .newline
  | indent {before bs : List Char} (nonempty : bs ≠ []) (blanks : ∀ b ∈ bs, b = ' ' ∨ b = '\t') :
    Spells before bs .indent
  | dedent {before : List Char} : Spells before [] .dedent
  | eof {before : List Char} : Spells before [] .eof

/-- The text between the quotes of a string, after `before`, with its parts. -/
inductive Quotes : List Char → List Char → List StringPart → Prop
  | nil {before : List Char} : Quotes before [] []
  | literal {before raw cs text : List Char} {parts : List StringPart} (nonempty : text ≠ [])
    (written : Unescapes raw text) (rest : Quotes (before ++ raw) cs parts) :
    Quotes before (raw ++ cs) (.literal (String.ofList text) :: parts)
  | hole {before body cs : List Char} {tokens : List Token} {parts : List StringPart}
    (tiles : Tiles (before ++ ['\x7b']) body tokens)
    (rest : Quotes (before ++ ('\x7b' :: body ++ ['\x7d'])) cs parts) :
    Quotes before ('\x7b' :: body ++ ['\x7d'] ++ cs)
      (.hole tokens (.ofText (before ++ ['\x7b']) body) :: parts)

end

/-- The list `us` itself, or that of an interpolation in it, or in one of these, and so on. -/
inductive Embedded (us : List Token) : List Token → Prop
  | self : Embedded us us
  | hole {ts inner : List Token} {t : Token} {parts : List StringPart} {span : Span} (mem : t ∈ ts)
    (kind : t.kind = .text parts) (part : .hole inner span ∈ parts) (embedded : Embedded us inner) :
    Embedded us ts

/-- Every token has its place in the text. -/
theorem Tiles.spells {before text : List Char} {ts : List Token} : Tiles before text ts →
    ∀ t ∈ ts, ∃ b x r, before ++ text = b ++ x ++ r ∧ t.span = .ofText b x ∧ Spells b x t.kind
  | .nil => fun _ ht => absurd ht List.not_mem_nil
  | .blank _ rest => by simpa using rest.spells
  | .note _ _ rest => by simpa using rest.spells
  | .comment _ rest => by simpa using rest.spells
  | .token hspells rest => fun t ht => by
    rcases List.mem_cons.mp ht with rfl | ht
    · exact ⟨_, _, _, (List.append_assoc _ _ _).symm, rfl, hspells⟩
    · simpa using rest.spells t ht

/-- No token starts before the text, or before the end of the token before it. -/
theorem Tiles.chain {before text : List Char} {ts : List Token} : Tiles before text ts →
    (∀ t ∈ ts.head?, utf8Len before ≤ t.span.start) ∧
      ts.IsChain fun t u => t.span.stop ≤ u.span.start
  | .nil => ⟨by simp, .nil⟩
  | .blank _ rest => ⟨fun t ht => Nat.le_trans (by simp) (rest.chain.1 t ht), rest.chain.2⟩
  | .note _ _ rest => ⟨fun t ht => Nat.le_trans (by simp) (rest.chain.1 t ht), rest.chain.2⟩
  | .comment _ rest => ⟨fun t ht => Nat.le_trans (by simp) (rest.chain.1 t ht), rest.chain.2⟩
  | .token _ rest => by
    refine ⟨fun t ht => ?_, List.isChain_cons.mpr rest.chain⟩
    cases ht
    exact Nat.le_refl _

/-- The tokens of an interpolation account for the text between its braces. -/
theorem Quotes.tiles {before raw : List Char} {parts : List StringPart} {inner : List Token}
    {span : Span} : Quotes before raw parts → .hole inner span ∈ parts →
      ∃ b x r, raw = b ++ x ++ r ∧ span = .ofText (before ++ b) x ∧ Tiles (before ++ b) x inner
  | .nil, hmem => absurd hmem List.not_mem_nil
  | @Quotes.literal _ skipped _ _ _ _ _ rest, hmem => by
    obtain ⟨b, x, r, rfl, hspan, htiles⟩ := rest.tiles (by simpa using hmem)
    exact ⟨skipped ++ b, x, r, by simp, by simpa using hspan, by simpa using htiles⟩
  | @Quotes.hole _ body cs _ _ htiles rest, hmem => by
    rcases List.mem_cons.mp hmem with heq | hmem
    · obtain ⟨rfl, rfl⟩ := StringPart.hole.inj heq
      exact ⟨['\x7b'], body, '\x7d' :: cs, by simp, rfl, htiles⟩
    · obtain ⟨b, x, r, rfl, hspan, htiles⟩ := rest.tiles hmem
      exact ⟨'\x7b' :: body ++ ['\x7d'] ++ b, x, r, by simp, by simpa using hspan, by simpa using htiles⟩

theorem Tiles.embedded {before text : List Char} {us ts : List Token} (h : Tiles before text ts)
    (he : Embedded us ts) : ∃ b x r, before ++ text = b ++ x ++ r ∧ Tiles b x us := by
  induction he generalizing before text with
  | self => exact ⟨before, text, [], by simp, h⟩
  | hole mem kind part _ ih =>
    obtain ⟨b, x, r, hsplit, _, hspells⟩ := h.spells _ mem
    rw [kind] at hspells
    cases hspells with
    | text quotes =>
      obtain ⟨b', x', r', rfl, _, htiles⟩ := quotes.tiles part
      obtain ⟨b'', x'', r'', hsplit', htiles'⟩ := ih htiles
      refine ⟨b'', x'', r'' ++ (r' ++ '"' :: r), ?_, htiles'⟩
      calc before ++ text
        _ = b ++ ['"'] ++ b' ++ x' ++ r' ++ ('"' :: r) := by simpa using hsplit
        _ = b'' ++ x'' ++ r'' ++ r' ++ ('"' :: r) := by rw [hsplit']
        _ = _ := by simp

/-- The tokens of a part of a text stand within that text. -/
theorem Tiles.within {source : String} {before text after : List Char} {us : List Token}
    (h : Tiles before text us) (hsplit : source.toList = before ++ text ++ after) :
    ∀ t ∈ us, t.span.start ≤ t.span.stop ∧ t.span.stop ≤ source.utf8ByteSize := by
  intro t ht
  obtain ⟨b, x, r, hplace, hspan, -⟩ := h.spells t ht
  have hbytes : String.utf8Len (b ++ x) ≤ source.utf8ByteSize := by
    have hsize := String.utf8ByteSize_ofList source.toList
    rw [String.ofList_toList] at hsize
    rw [hsize, hsplit, hplace]
    exact String.utf8Len_le_of_infix ⟨[], r ++ after, by simp⟩
  rw [hspan]
  exact ⟨by simp [Span.ofText], hbytes⟩

/-- After `before`, the tokens `ts` account for `done`, whatever text comes next. -/
def Reaches (before done : List Char) (ts : List Token) : Prop :=
  ∀ cs us, Tiles (before ++ done) cs us → Tiles before (done ++ cs) (ts ++ us)

namespace Reaches

variable {before done more : List Char} {ts us : List Token}

theorem nil : Reaches before [] [] := fun _ _ h => by simpa using h

theorem append (h : Reaches before done ts) (h' : Reaches (before ++ done) more us) :
    Reaches before (done ++ more) (ts ++ us) := by
  intro cs vs hrest
  rw [List.append_assoc, List.append_assoc]
  rw [← List.append_assoc] at hrest
  exact h _ _ (h' cs vs hrest)

/-- Text without tokens. -/
theorem skip (h : Reaches before done ts) (h' : Reaches (before ++ done) more []) :
    Reaches before (done ++ more) ts := by
  simpa using h.append h'

theorem blanks (h : ∀ c ∈ done, c = ' ' ∨ c = '\t' ∨ c = '\r' ∨ c = '\n') :
    Reaches before done [] := by
  induction done generalizing before with
  | nil => exact nil
  | cons c cs ih =>
    intro ds vs hrest
    have hcs : Reaches (before ++ [c]) cs [] := ih fun d hd => h d (List.mem_cons_of_mem c hd)
    exact .blank (h c List.mem_cons_self) (hcs ds vs (by simpa using hrest))

theorem blank {c : Char} (h : c = ' ' ∨ c = '\t' ∨ c = '\r' ∨ c = '\n') :
    Reaches before [c] [] :=
  blanks (List.forall_mem_singleton.mpr h)

theorem comment (h : CommentRest 1 done) : Reaches before ('/' :: '*' :: done) [] :=
  fun _ _ hrest => .comment h hrest

theorem token {kind : TokenKind} (h : Spells before done kind) :
    Reaches before done [⟨kind, .ofText before done⟩] :=
  fun _ _ hrest => .token h hrest

/-- A comment up to the end of the line, with the line feed that ends it. -/
theorem note (h : '\n' ∉ done) (h' : Reaches (before ++ '#' :: done) ['\n'] ts) :
    Reaches before ('#' :: done ++ ['\n']) ts := by
  intro cs vs hrest
  rw [List.append_assoc]
  refine .note h (fun c hc => ?_) (h' cs vs (by simpa using hrest))
  exact (Option.some.inj hc).symm

end Reaches

end PipeLang
