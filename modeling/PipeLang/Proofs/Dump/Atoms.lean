import PipeLang.Proofs.Dump.Rendered
import PipeLang.Proofs.Format.Opens
import PipeLang.Proofs.Format.WrittenExpr
import PipeLang.Proofs.Number.ReadBack
import PipeLang.Proofs.Tree.Formed
import PipeLang.Tree.Dump

/-! The atoms of a dump: each is an atom in a text, and its first characters tell what it stands for. -/

namespace PipeLang

open Parse

/-! ## Number texts -/

namespace Decimal

/-- The digits of a text are those of its parts. -/
theorem Written.eq_of_text {text : String} (w w' : Written text) :
    w.whole = w'.whole ∧ w.fraction = w'.fraction := by
  have hstop : ∀ fraction : List Char,
      ∀ c ∈ (if fraction = [] then [] else '.' :: fraction).head?, c.isDigit = false := by
    intro fraction c hc
    split at hc
    · cases hc
    · obtain rfl : '.' = c := by simpa using hc
      rfl
  obtain ⟨hwhole, hrest⟩ := eq_of_append_eq w.isDigit_whole w'.isDigit_whole (hstop _) (hstop _)
    (w.toList_eq.symm.trans w'.toList_eq)
  refine ⟨hwhole, ?_⟩
  split at hrest
  · next h =>
    split at hrest
    · next h' => rw [h, h']
    · cases hrest
  · split at hrest
    · cases hrest
    · exact (List.cons.inj hrest).2

theorem Written.isBare {text : String} (w : Written text) : ∀ c ∈ text.toList, isBare c = true := by
  have hdigit : ∀ c : Char, c.isDigit = true → PipeLang.isBare c = true := by
    intro c hc
    unfold PipeLang.isBare
    simp only [Bool.and_eq_true, bne_iff_ne]
    refine ⟨⟨⟨⟨?_, ?_⟩, ?_⟩, ?_⟩, ?_⟩ <;> rintro rfl <;> exact absurd hc (by decide)
  intro c hc
  rw [w.toList_eq] at hc
  rcases List.mem_append.mp hc with hc | hc
  · exact hdigit c (w.isDigit_whole c hc)
  · split at hc
    · cases hc
    · rcases List.mem_cons.mp hc with rfl | hc
      · rfl
      · exact hdigit c (w.isDigit_fraction c hc)

end Decimal

namespace Number

variable {x y : Number}

/-- The text of a finite number is a decimal after a minus, or without one. -/
theorem text_cases (hf : x.isFinite = true) :
    ∃ text, ∃ w : Decimal.Written text, ofLiteral w.whole w.fraction = ⟨false, x.magnitude⟩ ∧
      x.text.toList = (if x.negative then ['-'] else []) ++ text.toList := by
  cases hneg : x.negative with
  | false =>
    obtain ⟨w, hw⟩ := text_written hneg hf
    exact ⟨x.text, w, by rw [hw, ← hneg], rfl⟩
  | true =>
    obtain ⟨w, hw⟩ := text_written (x := x.neg) (by rw [neg_negative, hneg]; rfl) hf
    refine ⟨x.neg.text, w, ?_, toList_text_of_negative hneg hf⟩
    rw [hw, neg, hneg]
    rfl

theorem text_injective (hx : x.isFinite = true) (hy : y.isFinite = true) (h : x.text = y.text) :
    x = y := by
  obtain ⟨text, w, hw, htext⟩ := text_cases hx
  obtain ⟨other, w', hw', hother⟩ := text_cases hy
  rw [h, hother] at htext
  obtain ⟨d, ds, hd, hdigit⟩ := exists_isDigit_of_written w
  obtain ⟨d', ds', hd', hdigit'⟩ := exists_isDigit_of_written w'
  have hminus : ∀ {c : Char}, c.isDigit = true → c ≠ '-' := by
    rintro c hc rfl
    cases hc
  have hsign : x.negative = y.negative := by
    cases hxs : x.negative <;> cases hys : y.negative <;> rw [hxs, hys, hd, hd'] at htext
    · exact absurd (List.cons.inj htext).1.symm (hminus hdigit)
    · exact absurd (List.cons.inj htext).1 (hminus hdigit')
  rw [hsign] at htext
  obtain rfl : other = text := String.toList_inj.mp (List.append_cancel_left htext)
  obtain ⟨hwhole, hfraction⟩ := w.eq_of_text w'
  rw [hwhole, hfraction, hw'] at hw
  obtain ⟨sx, mx⟩ := x
  obtain ⟨sy, my⟩ := y
  cases hw
  cases hsign
  rfl

end Number

/-! ## Atoms -/

theorem isBare_of_isIdentifier {name : String} (h : isIdentifier name = true) :
    ∀ c ∈ name.toList, isBare c = true := by
  intro c hc
  have hword := mem_of_isWord (Bool.and_eq_true_iff.mp h).1 c hc
  unfold isBare
  simp only [Bool.and_eq_true, bne_iff_ne]
  refine ⟨⟨⟨⟨?_, ?_⟩, ?_⟩, ?_⟩, ?_⟩ <;> rintro rfl <;> revert hword <;> decide

theorem exists_isAlpha_of_isIdentifier {name : String} (h : isIdentifier name = true) :
    ∃ c cs, name.toList = c :: cs ∧ c.isAlpha = true :=
  exists_isAlpha_of_isWord (Bool.and_eq_true_iff.mp h).1

theorem isAtom_identifier {name : String} (h : isIdentifier name = true) : IsAtom name := by
  obtain ⟨c, cs, hcons, -⟩ := exists_isAlpha_of_isIdentifier h
  exact .bare (by rw [hcons]; exact List.cons_ne_nil c cs) (isBare_of_isIdentifier h)

theorem isAtom_number {x : Number} (hf : x.isFinite = true) : IsAtom x.text := by
  obtain ⟨text, w, -, htext⟩ := Number.text_cases hf
  obtain ⟨d, ds, hd, -⟩ := exists_isDigit_of_written w
  refine .bare (by rw [htext, hd]; exact List.append_ne_nil_of_right_ne_nil _ (List.cons_ne_nil d ds)) ?_
  intro c hc
  rw [htext] at hc
  rcases List.mem_append.mp hc with hc | hc
  · split at hc
    · rw [List.mem_singleton.mp hc]
      rfl
    · cases hc
  · exact w.isBare c hc

/-- A fixed word whose characters are all bare. -/
theorem isAtom_of_all {word : String} (hne : word.toList.isEmpty = false)
    (h : word.toList.all isBare = true) : IsAtom word :=
  .bare (List.isEmpty_eq_false_iff.mp hne) (List.all_eq_true.mp h)

theorem isAtom_operator (op : Operator) : IsAtom op.spelling :=
  isAtom_of_all (by cases op <;> decide) (by cases op <;> decide)

theorem isAtom_boolWord (b : Bool) : IsAtom (boolWord b) :=
  isAtom_of_all (by cases b <;> decide) (by cases b <;> decide)

theorem boolWord_injective {b c : Bool} (h : boolWord b = boolWord c) : b = c := by
  revert b c
  decide

theorem isAtom_path {path : List String} (h : ∀ f ∈ path, isIdentifier f = true) :
    IsAtom (".".intercalate ("_" :: path)) := by
  refine .bare (by rw [toList_path]; exact List.cons_ne_nil _ _) fun c hc => ?_
  rw [toList_path] at hc
  rcases List.mem_append.mp hc with hc | hc
  · rw [List.mem_singleton.mp hc]
    rfl
  · obtain ⟨f, hf, hc⟩ := List.mem_flatMap.mp hc
    rcases List.mem_cons.mp hc with rfl | hc
    · rfl
    · exact isBare_of_isIdentifier (h f hf) c hc

/-- No identifier has a point in it, so the fields of a path can be told apart. -/
theorem path_injective {path other : List String} (h : ∀ f ∈ path, isIdentifier f = true)
    (h' : ∀ f ∈ other, isIdentifier f = true)
    (heq : ".".intercalate ("_" :: path) = ".".intercalate ("_" :: other)) : path = other := by
  have hfields := congrArg String.toList heq
  rw [toList_path, toList_path] at hfields
  replace hfields := List.append_cancel_left hfields
  clear heq
  have hpoint : ∀ {f : String}, isIdentifier f = true → ∀ c ∈ f.toList, (c != '.') = true := by
    intro f hf c hc
    have hword := mem_of_isWord (Bool.and_eq_true_iff.mp hf).1 c hc
    rw [bne_iff_ne]
    rintro rfl
    revert hword
    decide
  have hstop : ∀ fields : List String, ∀ c ∈ (fields.flatMap fun f => '.' :: f.toList).head?,
      (c != '.') = false := by
    intro fields c hc
    cases fields with
    | nil => cases hc
    | cons f fields =>
      obtain rfl : '.' = c := by simpa using hc
      rfl
  induction path generalizing other with
  | nil =>
    cases other with
    | nil => rfl
    | cons f other => cases hfields
  | cons f path ih =>
    cases other with
    | nil => cases hfields
    | cons g other =>
      obtain ⟨hf, hpath⟩ := List.forall_mem_cons.mp h
      obtain ⟨hg, hother⟩ := List.forall_mem_cons.mp h'
      obtain ⟨hname, hrest⟩ := eq_of_append_eq (hpoint hf) (hpoint hg) (hstop path) (hstop other)
        (List.cons.inj hfields).2
      rw [String.toList_inj.mp hname, ih hpath hother hrest]

/-! ## What an atom stands for -/

/-- The forms of expressions. -/
inductive Shape
  | ident | wildcard | number | text | bool | nil | record | list | function | apply | access
  | pipeline | letIn | ifElse | matchOn | tryCatch | error
  deriving DecidableEq

/-- Operators and words are names, but for the three constants; any other atom is told by its first
character. -/
def atomShape (atom : String) : Shape :=
  if Operator.isName atom then .ident
  else if atom = "true" ∨ atom = "false" then .bool
  else if atom = "nil" then .nil
  else match atom.toList with
    | c :: _ =>
      if c = '"' then .text
      else if c = '_' then .wildcard
      else if c.isAlpha then .ident
      else if c.isDigit ∨ c = '-' then .number
      else .error
    | [] => .error

theorem atomShape_of_isName {name : String} (h : Operator.isName name = true) : atomShape name = .ident :=
  if_pos h

/-- An atom that is neither an operator nor a constant. -/
theorem atomShape_of_head {atom : String} {c : Char} {cs : List Char} (hcons : atom.toList = c :: cs)
    (hname : Operator.isName atom = false)
    (hconst : atom ≠ "true" ∧ atom ≠ "false" ∧ atom ≠ "nil") :
    atomShape atom = if c = '"' then .text else if c = '_' then .wildcard
      else if c.isAlpha then .ident else if c.isDigit ∨ c = '-' then .number else .error := by
  unfold atomShape
  rw [hname, if_neg Bool.false_ne_true, if_neg (by tauto), if_neg hconst.2.2, hcons]

theorem atomShape_identifier {name : String} (h : isIdentifier name = true) : atomShape name = .ident := by
  obtain ⟨c, cs, hcons, halpha⟩ := exists_isAlpha_of_isIdentifier h
  have hname : Operator.isName name = false := by
    rw [Operator.isName, ofSpelling?_of_isIdentifier h]
    rfl
  have hconst : name ≠ "true" ∧ name ≠ "false" ∧ name ≠ "nil" := by
    refine ⟨?_, ?_, ?_⟩ <;> rintro rfl <;> revert h <;> decide
  rw [atomShape_of_head hcons hname hconst, if_neg, if_neg, if_pos halpha] <;> rintro rfl <;> cases halpha

/-- No operator starts with a character that starts no word and no operator. -/
theorem isName_of_head {atom : String} {c : Char} {cs : List Char} (hcons : atom.toList = c :: cs)
    (h : ∀ op : Operator, op.spelling.toList.head? ≠ some c) : Operator.isName atom = false := by
  cases hop : Operator.ofSpelling? atom with
  | none =>
    rw [Operator.isName, hop]
    rfl
  | some op =>
    refine absurd ?_ (h op)
    rw [Operator.spelling_of_ofSpelling? hop, hcons]
    rfl

theorem atomShape_quoted (body : String) : atomShape (quoted body) = .text := by
  have hcons := toList_quoted body
  have hconst : ∀ word : String, word.toList.head? ≠ some '"' → quoted body ≠ word := by
    rintro word hword rfl
    rw [hcons] at hword
    exact hword rfl
  rw [atomShape_of_head hcons (isName_of_head hcons fun op => by cases op <;> decide)
    ⟨hconst _ (by decide), hconst _ (by decide), hconst _ (by decide)⟩]
  rfl

theorem atomShape_path (path : List String) :
    atomShape (".".intercalate ("_" :: path)) = .wildcard := by
  have hcons := toList_path "_" path
  have hconst : ∀ word : String, word.toList.head? ≠ some '_' →
      ".".intercalate ("_" :: path) ≠ word := by
    rintro word hword rfl
    rw [hcons] at hword
    exact hword rfl
  rw [atomShape_of_head hcons (isName_of_head hcons fun op => by cases op <;> decide)
    ⟨hconst _ (by decide), hconst _ (by decide), hconst _ (by decide)⟩]
  rfl

/-- A number has a digit in it, which no operator has. -/
theorem atomShape_number {x : Number} (hf : x.isFinite = true) : atomShape x.text = .number := by
  obtain ⟨text, w, -, htext⟩ := Number.text_cases hf
  obtain ⟨d, ds, hd, hdigit⟩ := exists_isDigit_of_written w
  have hne : ∀ word : String, (word.toList.all fun c => !c.isDigit) = true → x.text ≠ word := by
    rintro word hword rfl
    have hmem : d ∈ x.text.toList := by
      rw [htext, hd]
      exact List.mem_append_right _ List.mem_cons_self
    have hnot := List.all_eq_true.mp hword d hmem
    rw [hdigit] at hnot
    cases hnot
  have hname : Operator.isName x.text = false := by
    cases hop : Operator.ofSpelling? x.text with
    | none =>
      rw [Operator.isName, hop]
      rfl
    | some op =>
      exact absurd (Operator.spelling_of_ofSpelling? hop).symm (hne _ (by cases op <;> decide))
  have hconst : x.text ≠ "true" ∧ x.text ≠ "false" ∧ x.text ≠ "nil" :=
    ⟨hne _ (by decide), hne _ (by decide), hne _ (by decide)⟩
  cases hneg : x.negative with
  | true =>
    rw [hneg] at htext
    rw [atomShape_of_head htext hname hconst]
    rfl
  | false =>
    rw [hneg, hd] at htext
    rw [atomShape_of_head htext hname hconst, if_neg, if_neg, if_neg, if_pos (.inl hdigit)]
    · intro halpha
      exact absurd hdigit (by rw [Scan.State.isDigit_of_isAlpha halpha]; exact Bool.false_ne_true)
    · rintro rfl
      cases hdigit
    · rintro rfl
      cases hdigit

theorem atomShape_boolWord (b : Bool) : atomShape (boolWord b) = .bool := by cases b <;> decide

end PipeLang
