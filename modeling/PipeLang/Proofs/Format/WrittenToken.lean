import PipeLang.Format.Printer
import PipeLang.Proofs.Format.Written

/-! Names, keywords, operators, marks, numbers and field accesses, as they are written. -/

namespace PipeLang

open Scan State

namespace Parse

open Format

variable {n : Nat} {cs : List Char} {ps : List Piece}

/-! Words. -/

theorem plain_of_continuesWord {c : Char} (h : continuesWord c = true ∨ isMark c = true) :
    c ≠ '\n' ∧ c ≠ '"' ∧ c ≠ '\x7b' ∧ c ≠ '\x7d' := by
  refine ⟨?_, ?_, ?_, ?_⟩ <;> rintro rfl <;> revert h <;> decide

/-- The characters of a word. -/
theorem mem_of_isWord (h : isWord cs = true) : ∀ c ∈ cs, continuesWord c = true ∨ isMark c = true := by
  have stem : ∀ {ds : List Char}, IsStem ds → ∀ c ∈ ds, continuesWord c = true := by
    rintro ds ⟨d, rest, rfl, hd, hrest⟩ c hc
    rcases List.mem_cons.mp hc with rfl | hc
    · exact continuesWord_of_isAlpha hd
    · exact hrest c hc
  intro c hc
  rcases isWord_cases h with hstem | ⟨ds, m, rfl, hstem, hm⟩
  · exact .inl (stem hstem c hc)
  · rcases List.mem_append.mp hc with hc | hc
    · exact .inl (stem hstem c hc)
    · rw [List.mem_singleton.mp hc]
      exact .inr hm

theorem plain_of_isWord (h : isWord cs = true) :
    ∀ c ∈ cs, c ≠ '\n' ∧ c ≠ '"' ∧ c ≠ '\x7b' ∧ c ≠ '\x7d' :=
  fun c hc => plain_of_continuesWord (mem_of_isWord h c hc)

theorem passes_of_isWord (h : isWord cs = true) : Passes cs :=
  fun _ => Burrows.ofPlain (plain_of_isWord h)

/-- A word begins with a letter. -/
theorem exists_isAlpha_of_isWord (h : isWord cs = true) :
    ∃ c rest, cs = c :: rest ∧ c.isAlpha = true := by
  rcases isWord_cases h with hstem | ⟨ds, m, rfl, hstem, _⟩
  · obtain ⟨c, rest, rfl, halpha, _⟩ := hstem
    exact ⟨c, rest, rfl, halpha⟩
  · obtain ⟨c, rest, rfl, halpha, _⟩ := hstem
    exact ⟨c, rest ++ [m], rfl, halpha⟩

theorem not_isBlank_of_isAlphanum {c : Char} (h : c.isAlphanum = true) : isBlank c = false := by
  have hrange : 48 ≤ c.toNat ∧ c.toNat ≤ 122 := by
    simp only [Char.isAlphanum, Char.isAlpha, Char.isUpper, Char.isLower, Char.isDigit,
      Bool.or_eq_true, Bool.and_eq_true, decide_eq_true_eq, UInt32.le_iff_toNat_le] at h
    have : c.toNat = c.val.toNat := rfl
    simp at h
    omega
  simp only [isBlank, Bool.or_eq_false_iff, Bool.and_eq_false_iff, decide_eq_false_iff_not,
    beq_eq_false_iff_ne]
  omega

theorem heads_of_isAlphanum {c : Char} {x : Piece} (h : c.isAlphanum = true)
    (hx : x.isToken = true) : Heads c x := by
  refine ⟨hx, not_isBlank_of_isAlphanum h, ?_, ?_⟩
  · rintro rfl
    exact absurd h (by decide)
  · rintro rfl
    exact absurd h (by decide)

theorem Written.word {s : String} (h : isWord s.toList = true) :
    Written n s.toList [.plain (wordKind s)] := by
  have hread : ∀ inner, ReadsToken inner s.toList (wordKind (String.ofList s.toList)) :=
    fun _ => readsToken_of_isWord h
  rw [String.ofList_toList] at hread
  obtain ⟨c, rest, hc, halpha⟩ := exists_isAlpha_of_isWord h
  have hpass := passes_of_isWord h
  rw [hc] at hread hpass ⊢
  exact .token (heads_of_isAlphanum (by simp [Char.isAlphanum, halpha]) rfl) hpass hread

theorem wordKind_of_isIdentifier {s : String} (h : isIdentifier s = true) :
    isWord s.toList = true ∧ wordKind s = .ident s := by
  obtain ⟨hword, hnone⟩ := Bool.and_eq_true_iff.mp h
  refine ⟨hword, ?_⟩
  unfold wordKind
  rw [Option.isNone_iff_eq_none.mp hnone]

theorem Written.name {s : String} (h : isIdentifier s = true) : Written n s.toList [.name s] := by
  obtain ⟨hword, hkind⟩ := wordKind_of_isIdentifier h
  have h := Written.word (n := n) hword
  rwa [hkind] at h

theorem isWord_spelling (k : Keyword) : isWord k.spelling.toList = true := by cases k <;> decide

theorem wordKind_spelling (k : Keyword) : wordKind k.spelling = .keyword k := by
  unfold wordKind
  rw [Keyword.ofSpelling?_spelling]

theorem Written.keyword (k : Keyword) : Written n k.spelling.toList [.word k] := by
  have h := Written.word (n := n) (isWord_spelling k)
  rwa [wordKind_spelling] at h

/-! Operators and marks. -/

theorem Written.operator (op : Operator) : Written n op.spelling.toList [.plain (operatorKind op)] := by
  cases hw : op.isWord with
  | true =>
    cases op with
    | and => exact .keyword .and_
    | or => exact .keyword .or_
    | _ => cases hw
  | false =>
    have hkind : operatorKind op = .operator op := by
      cases op <;> first | rfl | cases hw
    rw [hkind]
    have hread : ∀ inner, ReadsToken inner op.spelling.toList (.operator op) :=
      fun _ => readsToken_of_operator hw
    have hpass : Passes op.spelling.toList :=
      fun k => Burrows.ofPlain (by cases op <;> simp [Operator.spelling])
    obtain ⟨c, rest, hc, hheads⟩ : ∃ c rest, op.spelling.toList = c :: rest ∧
        Heads c (.plain (.operator op)) := by
      cases op with
      | and => cases hw
      | or => cases hw
      | slash => exact ⟨_, _, rfl, rfl, by decide, by decide, fun _ => rfl⟩
      | _ => exact ⟨_, _, rfl, rfl, by decide, by decide, nofun⟩
    rw [hc] at hread hpass ⊢
    exact .token hheads hpass hread

theorem Written.arrow : Written n ['-', '>'] [.mark .arrow] :=
  .token ⟨rfl, rfl, by decide, nofun⟩ (fun _ => Burrows.ofPlain (by simp)) fun _ =>
    readsToken_of_punctuation (p := .arrow) (by decide)

theorem Written.pipe : Written n ['|', '>'] [.mark .pipe] :=
  .token ⟨rfl, rfl, by decide, nofun⟩ (fun _ => Burrows.ofPlain (by simp)) fun _ =>
    readsToken_of_punctuation (p := .pipe) (by decide)

theorem Written.bar : Written n ['|'] [.mark .bar] :=
  .token ⟨rfl, rfl, by decide, nofun⟩ (fun _ => Burrows.ofPlain (by simp)) fun _ =>
    readsToken_of_punctuation (p := .bar) (by decide)

theorem Written.underscore : Written n ['_'] [.mark .underscore] :=
  .token ⟨rfl, rfl, by decide, nofun⟩ (fun _ => Burrows.ofPlain (by simp)) fun _ =>
    readsToken_of_punctuation (p := .underscore) (by decide)

/-! Numbers. -/

theorem plain_of_isDigit {c : Char} (h : c.isDigit = true) :
    c ≠ '\n' ∧ c ≠ '"' ∧ c ≠ '\x7b' ∧ c ≠ '\x7d' := by
  refine ⟨?_, ?_, ?_, ?_⟩ <;> rintro rfl <;> exact absurd h (by decide)

theorem plain_of_written {text : String} (w : Decimal.Written text) :
    ∀ c ∈ text.toList, c ≠ '\n' ∧ c ≠ '"' ∧ c ≠ '\x7b' ∧ c ≠ '\x7d' := by
  intro c hc
  rw [w.toList_eq] at hc
  rcases List.mem_append.mp hc with hc | hc
  · exact plain_of_isDigit (w.isDigit_whole c hc)
  · split at hc
    · exact absurd hc List.not_mem_nil
    · rcases List.mem_cons.mp hc with rfl | hc
      · decide
      · exact plain_of_isDigit (w.isDigit_fraction c hc)

theorem passes_of_written {text : String} (w : Decimal.Written text) : Passes text.toList :=
  fun _ => Burrows.ofPlain (plain_of_written w)

theorem exists_isDigit_of_written {text : String} (w : Decimal.Written text) :
    ∃ d rest, text.toList = d :: rest ∧ d.isDigit = true := by
  obtain ⟨d, whole, hwhole⟩ := List.exists_cons_of_ne_nil w.whole_ne_nil
  exact ⟨d, _, by rw [w.toList_eq, hwhole]; rfl,
    w.isDigit_whole d (by rw [hwhole]; exact List.mem_cons_self)⟩

theorem Written.decimal {text : String} (w : Decimal.Written text) :
    Written n text.toList [.plain (.number (.ofLiteral w.whole w.fraction))] := by
  have hread : ∀ inner, ReadsToken inner text.toList (.number (.ofLiteral w.whole w.fraction)) :=
    fun _ => readsToken_of_written w
  have hpass := passes_of_written w
  obtain ⟨d, rest, hd, hdigit⟩ := exists_isDigit_of_written w
  rw [hd] at hread hpass ⊢
  exact .token (heads_of_isAlphanum (by simp [Char.isAlphanum, hdigit]) rfl) hpass hread

/-- A minus that touches the number after it. -/
theorem Written.negative {text : String} (w : Decimal.Written text) :
    Written n ('-' :: text.toList) [.plain (.operator .minus), .glue,
      .plain (.number (.ofLiteral w.whole w.fraction))] := by
  have hpass : Passes ('-' :: text.toList) := fun k =>
    (Burrows.plain (by decide) (by decide) (by decide) (by decide)).append (passes_of_written w k)
  refine ⟨⟨_, _, _, _, rfl, rfl, rfl, rfl, by decide, nofun⟩, hpass, fun s hs => ?_⟩
  obtain ⟨d, rest, hd, hdigit⟩ := exists_isDigit_of_written w
  have hminus : s.step (inner? n) '-' = (s.past '-').become (.minus s.position) :=
    step_of_ready hs
  have hnone : (State.past ((s.past '-').become (.minus s.position)) d).join (inner? n)
      ((s.past '-').become (.minus s.position)).position d = none := by
    show (if d = '>' then _ else _) = _
    rw [if_neg]
    rintro rfl
    exact absurd hdigit (by decide)
  have hrun : s.run (inner? n) ('-' :: text.toList) =
      (s.read ['-'] [⟨.operator .minus, s.position.to (s.position.advance '-')⟩]).run (inner? n)
        text.toList := by
    rw [hd, run_cons, run_cons, run_cons, hminus, step_of_none hnone, step_of_ready rfl]
    rfl
  have hread : ReadsToken (inner? n) text.toList _ := readsToken_of_written w
  obtain ⟨hmode, hsettle⟩ := hread (s.read ['-'] [⟨.operator .minus, s.position.to (s.position.advance '-')⟩]) rfl
  rw [hrun]
  refine ⟨hmode, _, by rw [hsettle, read_read]; rfl, ?_⟩
  refine .plain rfl rfl (Nat.le_of_lt (offset_lt_advance _ '-')) (.glue rfl ?_)
  exact laid_token (Position.offset_le_after _ text.toList)

theorem Written.number {x : Number} (hf : x.isFinite = true) :
    Written n x.text.toList (numberPieces x) := by
  unfold numberPieces
  cases hneg : x.negative with
  | false =>
    obtain ⟨w, hw⟩ := Number.text_written hneg hf
    have h := Written.decimal (n := n) w
    rw [hw] at h
    exact h
  | true =>
    have htext := Number.toList_text_of_negative hneg hf
    obtain ⟨w, hw⟩ := Number.text_written (x := x.neg) (by rw [Number.neg_negative, hneg]; rfl) hf
    have h := Written.negative (n := n) w
    rw [hw, ← htext] at h
    exact h

/-! Field accesses. -/

theorem Written.field {f : String} (h : Written n cs ps) (hf : isIdentifier f = true) :
    Written n (cs ++ '.' :: f.toList) (ps ++ fieldPieces f) := by
  have hname := Written.name (n := n) hf
  have hread : ∀ inner, ReadsToken inner f.toList (wordKind (String.ofList f.toList)) :=
    fun _ => readsToken_of_isWord (wordKind_of_isIdentifier hf).1
  rw [String.ofList_toList, (wordKind_of_isIdentifier hf).2] at hread
  obtain ⟨d, ds, x, qs, rfl, rfl, hx⟩ := h.head
  have hpass : Passes (d :: ds ++ '.' :: f.toList) := fun k =>
    (h.passes k).append ((Burrows.plain (by decide) (by decide) (by decide) (by decide)).append
      (hname.passes k))
  refine ⟨⟨d, _, x, _, rfl, rfl, hx⟩, hpass, fun s hs => ?_⟩
  obtain ⟨c, more, hc, halpha⟩ := exists_isAlpha_of_isWord (Bool.and_eq_true_iff.mp hf).1
  generalize d :: ds = cs at *
  obtain ⟨hmode, ts, hsettle, hlaid⟩ := h.reads s hs
  have hdot : (s.read cs ts).run (inner? n) ['.'] = (s.read cs ts).read ['.']
      [⟨.punctuation .dot, (s.position.after cs).to ((s.position.after cs).advance '.')⟩] := by
    rw [run_cons, run_nil, step_of_ready rfl]
    rfl
  obtain ⟨hmode', hsettle'⟩ := hread (inner? n) ((s.read cs ts).read ['.']
    [⟨.punctuation .dot, (s.position.after cs).to ((s.position.after cs).advance '.')⟩]) rfl
  have hrun : s.run (inner? n) (cs ++ '.' :: f.toList) =
      ((s.read cs ts).read ['.'] [⟨.punctuation .dot, (s.position.after cs).to
        ((s.position.after cs).advance '.')⟩]).run (inner? n) f.toList := by
    rw [run_append, hc, run_dot hmode (isDigit_of_isAlpha halpha), hsettle,
      show '.' :: c :: more = ['.'] ++ c :: more from rfl, run_append, hdot]
  rw [hrun]
  refine ⟨hmode', _, by rw [hsettle', read_read, read_read]; rfl, ?_⟩
  rw [Position.after_append, Position.after_cons]
  refine hlaid.append ?_
  refine .glue rfl (.plain rfl rfl (Nat.le_of_lt (offset_lt_advance _ '.')) (.glue rfl ?_))
  exact laid_token (Position.offset_le_after _ f.toList)

end Parse

end PipeLang
