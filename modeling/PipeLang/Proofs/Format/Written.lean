import PipeLang.Format.Printer
import PipeLang.Proofs.Format.Laid
import PipeLang.Proofs.Scan.Burrow

/-! Texts that are written for pieces: reading one gives the tokens of its pieces where the text shows
them. Such texts are put together as the pieces are, with blanks for gaps. -/

namespace PipeLang

open Scan State

namespace Parse

open Format

/-- Reading `cs` where nothing is pending gives the tokens of `ps`; the last one may be pending. -/
def ReadsPieces (n : Nat) (cs : List Char) (ps : List Piece) : Prop :=
  ∀ s : State, s.mode = .ready → (s.run (inner? n) cs).mode.isToken = true ∧
    ∃ ts, (s.run (inner? n) cs).settle = s.read cs ts ∧
      Laid s.position.offset s.position.offset ps ts (s.position.after cs).offset
        (s.position.after cs).offset

/-- A first character that shows, and the first piece of which it is. -/
structure Heads (c : Char) (x : Piece) : Prop where
  token : x.isToken = true
  visible : isBlank c = false
  no_note : c ≠ '#'
  slash : c = '/' → x = .plain (.operator .slash)

/-- The text `cs` is written for `ps`, with room for `n` levels of interpolations. -/
structure Written (n : Nat) (cs : List Char) (ps : List Piece) : Prop where
  head : ∃ c rest x more, cs = c :: rest ∧ ps = x :: more ∧ Heads c x
  passes : Passes cs
  reads : ReadsPieces n cs ps

variable {n : Nat} {cs ds : List Char} {ps qs : List Piece}

theorem readsPieces_nil : ReadsPieces n [] [] := by
  intro s hs
  refine ⟨by rw [run_nil, hs]; rfl, [], ?_, .nil _ _⟩
  rw [run_nil, settle_of_ready hs, read_nil hs]

theorem offset_lt_advance (p : Position) (c : Char) : p.offset < (p.advance c).offset := by
  rw [Position.advance_offset]
  have := c.utf8Size_pos
  omega

theorem laid_token {p q : Position} {kind : TokenKind} (h : p.offset ≤ q.offset) :
    Laid p.offset p.offset [.plain kind] [⟨kind, p.to q⟩] q.offset q.offset :=
  .plain rfl rfl h (.nil _ _)

theorem readsPieces_of_token {kind : TokenKind} (h : ∀ inner, ReadsToken inner cs kind) :
    ReadsPieces n cs [.plain kind] := by
  intro s hs
  obtain ⟨hmode, hsettle⟩ := h (inner? n) s hs
  exact ⟨hmode, _, hsettle, laid_token (Position.offset_le_after s.position cs)⟩

namespace Written

theorem token {kind : TokenKind} {c : Char} (hc : Heads c (.plain kind)) (hp : Passes (c :: cs))
    (h : ∀ inner, ReadsToken inner (c :: cs) kind) : Written n (c :: cs) [.plain kind] :=
  ⟨⟨c, cs, _, [], rfl, rfl, hc⟩, hp, readsPieces_of_token h⟩

/-- A blank where nothing else than a token is pending. -/
theorem step_blank {inner : Option Inner} {s : State} (h : s.mode = .ready) :
    s.step inner ' ' = s.read [' '] [] := by
  rw [step_of_ready h]
  rfl

/-- Two texts with a blank between them. -/
theorem gap (hc : Written n cs ps) (hd : Written n ds qs) :
    Written n (cs ++ ' ' :: ds) (ps ++ .gap :: qs) := by
  obtain ⟨c, cs, x, ps, rfl, rfl, hx⟩ := hc.head
  obtain ⟨d, ds, y, qs, rfl, rfl, hy⟩ := hd.head
  have hpass : Passes (c :: cs ++ ' ' :: d :: ds) := fun k =>
    (hc.passes k).append ((Burrows.plain (by decide) (by decide) (by decide) (by decide)).append
      (hd.passes k))
  refine ⟨⟨c, _, x, _, rfl, rfl, hx⟩, hpass, fun s hs => ?_⟩
  obtain ⟨hmode, ts, hsettle, hlaid⟩ := hc.reads s hs
  obtain ⟨hmode', us, hsettle', hlaid'⟩ := hd.reads ((s.read (c :: cs) ts).read [' '] []) rfl
  have hrun : s.run (inner? n) (c :: cs ++ ' ' :: d :: ds) =
      ((s.read (c :: cs) ts).read [' '] []).run (inner? n) (d :: ds) := by
    rw [run_append, run_cons, step_of_isBreak hmode rfl, hsettle, step_blank rfl]
  rw [hrun]
  refine ⟨hmode', ts ++ us, ?_, ?_⟩
  · rw [hsettle', read_read, read_read]
    simp
  · rw [Position.after_append, Position.after_cons]
    exact hlaid.append (.gap (Nat.le_refl _) (offset_lt_advance _ ' ')
      (hlaid'.of_isToken hy.token _))

end Written

/-- A mark that a break settles what is pending for. -/
theorem readsPieces_snoc {c : Char} {kind : TokenKind} (hb : isBreak c = true)
    (hk : symbol? c = some kind) (h : ReadsPieces n cs ps) :
    ReadsPieces n (cs ++ [c]) (ps ++ [.plain kind]) := by
  intro s hs
  obtain ⟨hmode, ts, hsettle, hlaid⟩ := h s hs
  have hread : ReadsToken (inner? n) [c] kind := readsToken_of_symbol hk
  obtain ⟨hmode', hsettle'⟩ := hread (s.read cs ts) rfl
  have hrun : s.run (inner? n) (cs ++ [c]) = (s.read cs ts).run (inner? n) [c] := by
    rw [run_append, run_cons, run_cons, run_nil, run_nil, step_of_isBreak hmode hb, hsettle]
  rw [hrun]
  refine ⟨hmode', ts ++ [⟨kind, (s.position.after cs).to ((s.position.after cs).after [c])⟩],
    ?_, ?_⟩
  · rw [hsettle', read_read]
    rfl
  · rw [Position.after_append]
    exact hlaid.append (laid_token (Position.offset_le_after _ [c]))

theorem Written.snoc {c : Char} {kind : TokenKind} (hb : isBreak c = true)
    (hk : symbol? c = some kind) (h : Written n cs ps) :
    Written n (cs ++ [c]) (ps ++ [.plain kind]) := by
  obtain ⟨d, ds, x, qs, rfl, rfl, hx⟩ := h.head
  have hplain : c ≠ '\n' ∧ c ≠ '"' ∧ c ≠ '\x7b' ∧ c ≠ '\x7d' := by
    refine ⟨?_, ?_, ?_, ?_⟩ <;> rintro rfl <;> cases hk
  exact ⟨⟨d, _, x, _, rfl, rfl, hx⟩,
    fun k => (h.passes k).append (.plain hplain.1 hplain.2.1 hplain.2.2.1 hplain.2.2.2),
    readsPieces_snoc hb hk h.reads⟩

/-! Brackets. -/

/-- The characters of a pair of brackets. -/
structure IsPair (l r : Char) (o b : Punctuation) : Prop where
  opens : ∀ (s : State) p, s.start p l = s.openBracket p o
  closes : ∀ (s : State) p, s.start p r = s.closeBracket p b
  isBreak : isBreak r = true
  heads : Heads l (.mark o)
  match_eq : o.closing? = some b

theorem isPair_parens : IsPair '(' ')' .lparen .rparen :=
  ⟨fun _ _ => rfl, fun _ _ => rfl, rfl, ⟨rfl, rfl, by decide, nofun⟩, rfl⟩

theorem isPair_brackets : IsPair '[' ']' .lbracket .rbracket :=
  ⟨fun _ _ => rfl, fun _ _ => rfl, rfl, ⟨rfl, rfl, by decide, nofun⟩, rfl⟩

theorem isPair_braces : IsPair '\x7b' '\x7d' .lbrace .rbrace :=
  ⟨fun _ _ => rfl, fun _ _ => rfl, rfl, ⟨rfl, rfl, by decide, nofun⟩, rfl⟩

theorem closeBracket_of_match {s : State} {o b : Punctuation} {span : Span}
    {outer : List (Punctuation × Span)} (h : s.brackets = (o, span) :: outer)
    (hm : o.closing? = some b) (p : Position) :
    s.closeBracket p b = { s with brackets := outer }.emit p (.punctuation b) := by
  unfold closeBracket
  rw [h]
  exact if_pos hm

theorem readsPieces_enclosed {l r : Char} {o b : Punctuation} (hpair : IsPair l r o b)
    (h : ReadsPieces n cs ps) : ReadsPieces n (l :: (cs ++ [r])) (enclosed o b ps) := by
  intro s hs
  have hopen : s.step (inner? n) l = (s.past l).openBracket s.position o := by
    rw [step_of_ready hs, hpair.opens]
  obtain ⟨hmode, ts, hsettle, hlaid⟩ := h ((s.past l).openBracket s.position o) rfl
  have hlaid : Laid (s.position.advance l).offset (s.position.advance l).offset ps ts
      ((s.position.advance l).after cs).offset ((s.position.advance l).after cs).offset := hlaid
  have hbrackets : ((((s.past l).openBracket s.position o).read cs ts).past r).brackets =
      (o, s.position.to (s.position.advance l)) :: s.brackets := rfl
  have hclose : ((s.past l).openBracket s.position o).run (inner? n) (cs ++ [r]) =
      s.read (l :: (cs ++ [r]))
        (⟨.punctuation o, s.position.to (s.position.advance l)⟩ :: (ts ++
          [⟨.punctuation b, ((s.position.advance l).after cs).to
            (((s.position.advance l).after cs).advance r)⟩])) := by
    rw [run_append, run_cons, run_nil, step_of_isBreak hmode hpair.isBreak, hsettle,
      step_of_ready rfl, hpair.closes, closeBracket_of_match hbrackets hpair.match_eq]
    simp [emit, State.read, past, openBracket, Position.after_append]
  rw [run_cons, hopen, hclose]
  refine ⟨rfl, _, settle_of_ready rfl, ?_⟩
  rw [Position.after_cons, Position.after_append]
  refine .plain rfl rfl (Nat.le_of_lt (offset_lt_advance _ l)) ?_
  exact hlaid.append (laid_token (Position.offset_le_after _ [r]))

namespace Written

theorem ofEnclosed {l r : Char} {o b : Punctuation} (hpair : IsPair l r o b)
    (hp : Passes (l :: (cs ++ [r]))) (h : ReadsPieces n cs ps) :
    Written n (l :: (cs ++ [r])) (enclosed o b ps) :=
  ⟨⟨l, _, _, _, rfl, rfl, hpair.heads⟩, hp, readsPieces_enclosed hpair h⟩

theorem passes_round {l r : Char} (hl : l ≠ '\n' ∧ l ≠ '"' ∧ l ≠ '\x7b' ∧ l ≠ '\x7d')
    (hr : r ≠ '\n' ∧ r ≠ '"' ∧ r ≠ '\x7b' ∧ r ≠ '\x7d') (hp : Passes cs) :
    Passes (l :: (cs ++ [r])) := fun k =>
  (Burrows.plain hl.1 hl.2.1 hl.2.2.1 hl.2.2.2).append
    ((hp k).append (.plain hr.1 hr.2.1 hr.2.2.1 hr.2.2.2))

theorem parens (h : Written n cs ps) : Written n ('(' :: (cs ++ [')'])) (parensPieces ps) :=
  ofEnclosed isPair_parens (passes_round (by decide) (by decide) h.passes) h.reads

theorem brackets (hp : Passes cs) (h : ReadsPieces n cs ps) :
    Written n ('[' :: (cs ++ [']'])) (enclosed .lbracket .rbracket ps) :=
  ofEnclosed isPair_brackets (passes_round (by decide) (by decide) hp) h

theorem braces (hp : Passes cs) (h : ReadsPieces n cs ps) :
    Written n ('\x7b' :: (cs ++ ['\x7d'])) (enclosed .lbrace .rbrace ps) :=
  ofEnclosed isPair_braces (fun k => (hp (k + 1)).braces) h

end Written

end Parse

end PipeLang
