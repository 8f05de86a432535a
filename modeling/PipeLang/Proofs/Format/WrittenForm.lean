import PipeLang.Proofs.Format.WrittenText
import PipeLang.Proofs.Tree.Nodes

/-! Forms as they are written: what follows a text that is written already, lists with blanks between
their items, parts in their slots, and patterns. -/

namespace PipeLang

open Scan State

namespace Parse

open Format

variable {n : Nat} {cs ds : List Char} {ps qs : List Piece}

/-- After whatever text is written for some pieces, `cs` is written for `ps`. -/
def Follows (n : Nat) (cs : List Char) (ps : List Piece) : Prop :=
  ∀ ds qs, Written n ds qs → Written n (ds ++ cs) (qs ++ ps)

namespace Follows

theorem nil : Follows n [] [] := by
  intro ds qs h
  rwa [List.append_nil, List.append_nil]

theorem append (hc : Follows n cs ps) (hd : Follows n ds qs) : Follows n (cs ++ ds) (ps ++ qs) := by
  intro es rs h
  have := hd _ _ (hc es rs h)
  rwa [List.append_assoc, List.append_assoc] at this

theorem gap (h : Written n cs ps) : Follows n (' ' :: cs) (.gap :: ps) :=
  fun _ _ hd => hd.gap h

/-- A token with a blank on either side, and what comes after it. -/
theorem around {x : Piece} (hx : Written n cs [x]) (h : Written n ds ps) :
    Follows n (' ' :: (cs ++ ' ' :: ds)) (.gap :: x :: .gap :: ps) :=
  gap (hx.gap h)

theorem field {f : String} (hf : isIdentifier f = true) :
    Follows n ('.' :: f.toList) (fieldPieces f) :=
  fun _ _ hd => hd.field hf

/-- A colon or a semicolon. -/
theorem mark {c : Char} {kind : TokenKind} (hb : isBreak c = true) (hk : symbol? c = some kind) :
    Follows n [c] [.plain kind] :=
  fun _ _ hd => hd.snoc hb hk

end Follows

theorem Written.append (hc : Written n cs ps) (hd : Follows n ds qs) :
    Written n (cs ++ ds) (ps ++ qs) :=
  hd cs ps hc

/-! Lists. -/

/-- Texts, each written for its run of pieces. -/
abbrev WrittenAll (n : Nat) (texts : List String) (runs : List (List Piece)) : Prop :=
  List.Forall₂ (fun text ps => Written n text.toList ps) texts runs

theorem writtenAll_map {α : Type} {xs : List α} {text : α → String} {run : α → List Piece}
    (h : ∀ x ∈ xs, Written n (text x).toList (run x)) :
    WrittenAll n (xs.map text) (xs.map run) := by
  induction xs with
  | nil => exact .nil
  | cons x xs ih =>
    exact .cons (h x List.mem_cons_self) (ih fun y hy => h y (List.mem_cons_of_mem x hy))

theorem Follows.spaced {texts : List String} {runs : List (List Piece)}
    (h : WrittenAll n texts runs) : Follows n (spaced texts).toList (spacedPieces runs) := by
  induction h with
  | nil => exact .nil
  | @cons text ps texts runs hfirst _ ih =>
    have hchars : (PipeLang.spaced (text :: texts)).toList =
        ' ' :: text.toList ++ (PipeLang.spaced texts).toList := by
      simp [PipeLang.spaced]
    rw [hchars]
    exact (Follows.gap hfirst).append ih

theorem Written.joined {texts : List String} {runs : List (List Piece)}
    (h : WrittenAll n texts runs) (hne : texts ≠ []) :
    Written n (joined texts).toList (joinedPieces runs) := by
  cases h with
  | nil => exact absurd rfl hne
  | @cons text ps texts runs hfirst hrest =>
    rw [PipeLang.joined, String.toList_append]
    exact hfirst.append (.spaced hrest)

/-- A list that may be empty, where something encloses it. -/
theorem readsPieces_joined {texts : List String} {runs : List (List Piece)}
    (h : WrittenAll n texts runs) :
    Passes (joined texts).toList ∧ ReadsPieces n (joined texts).toList (joinedPieces runs) := by
  cases h with
  | nil => exact ⟨fun _ => .nil, readsPieces_nil⟩
  | cons hfirst hrest =>
    have h := Written.joined (.cons hfirst hrest) (List.cons_ne_nil _ _)
    exact ⟨h.passes, h.reads⟩

theorem Written.bracketed {texts : List String} {runs : List (List Piece)}
    (h : WrittenAll n texts runs) :
    Written n ("[" ++ PipeLang.joined texts ++ "]").toList
      (enclosed .lbracket .rbracket (joinedPieces runs)) := by
  obtain ⟨hpass, hread⟩ := readsPieces_joined h
  simpa using Written.brackets hpass hread

theorem Written.braced {texts : List String} {runs : List (List Piece)}
    (h : WrittenAll n texts runs) :
    Written n (Format.braces (PipeLang.joined texts)).toList
      (enclosed .lbrace .rbrace (joinedPieces runs)) := by
  obtain ⟨hpass, hread⟩ := readsPieces_joined h
  simpa [Format.braces] using Written.braces hpass hread

/-! Slots. -/

section

variable {text : String} (h : Written n text.toList ps)

include h

theorem Written.wrapped : Written n (Format.parens text).toList (parensPieces ps) := by
  simpa [Format.parens] using Written.parens h

theorem Written.place (slot : Slot) (e : Expr) :
    Written n (place slot e text).toList (placePieces slot e ps) := by
  unfold Format.place placePieces
  split
  · exact h.wrapped
  · exact h

theorem Written.operand (precedence : Nat) (onRight : Bool) (e : Expr) :
    Written n (placeOperand precedence onRight e text).toList
      (operandPieces precedence onRight e ps) := by
  unfold placeOperand operandPieces
  cases e.operator? with
  | none => exact h.place .operand e
  | some op =>
    dsimp only
    split
    · exact h.wrapped
    · exact h

theorem Written.target (e : Expr) : Written n (placeTarget e text).toList (targetPieces e ps) := by
  unfold placeTarget targetPieces
  cases e with
  | wildcard s path => exact h.wrapped
  | _ => exact h.place .argument _

end

/-- The last part of a construct is written bare, any other in its slot. -/
theorem Written.result {text : String} (h : Written n text.toList ps) (isLast : Bool) (e : Expr) :
    Written n (if isLast then text else Format.place .clause e text).toList
      (resultPieces isLast e ps) := by
  unfold resultPieces
  cases isLast with
  | true => exact h
  | false => exact h.place .clause e

/-- Keys with what they stand for. -/
theorem Written.key {key text : String} (hk : isIdentifier key = true)
    (h : Written n text.toList ps) :
    Written n (key ++ ": " ++ text).toList (keyPieces key ps) := by
  have hkey := (Written.name (n := n) hk).append 
    ((Follows.mark (c := ':') rfl rfl).append (.gap h))
  simpa [keyPieces] using hkey

/-! Patterns. -/

theorem Written.ignored : Written n "_".toList [.mark .underscore] := by
  simpa using Written.underscore

theorem Written.bool (b : Bool) : Written n (boolWord b).toList [.word (boolKeyword b)] := by
  cases b with
  | true => exact .keyword .true_
  | false => exact .keyword .false_

theorem Written.literal {value : Literal} (h : ∀ x, value = .number x → x.isFinite = true) :
    Written n value.dump.toList (literalPieces value) := by
  cases value with
  | number x => exact .number (h x rfl)
  | text s => exact .quoted s
  | bool b => exact .bool b
  | nil => exact .keyword .nil_

theorem Written.patternField {f : PatternField} (hkey : isIdentifier f.key.text = true)
    (huse : f.use.Formed) (hnum : ∀ x, f.use = .compare (.number x) → x.isFinite = true) :
    Written n (Format.patternField f).toList (patternFieldPieces f) := by
  unfold Format.patternField patternFieldPieces
  cases hf : f.use with
  | bind name =>
    dsimp only
    rw [hf] at huse
    split
    · exact .name hkey
    · exact .key hkey (.name huse)
  | compare value => exact .key hkey (.literal fun x hx => hnum x (by rw [hf, hx]))
  | ignore =>
    have h := Written.key (n := n) hkey .ignored
    simpa using h

theorem Written.pattern {p : Pattern} (hp : p.Formed)
    (hnum : ∀ x ∈ p.numbers, x.isFinite = true) :
    Written n (Format.pattern p).toList (patternPieces p) := by
  cases p with
  | record s fields =>
    obtain ⟨hfields, _⟩ := hp
    refine .braced (writtenAll_map fun f hf => ?_)
    obtain ⟨hkey, huse⟩ := hfields f hf
    refine .patternField hkey huse fun x hx => hnum x ?_
    refine List.mem_flatMap.mpr ⟨f, hf, ?_⟩
    rw [hx]
    exact List.mem_singleton_self x
  | literal s value =>
    refine .literal fun x hx => hnum x ?_
    rw [hx]
    exact List.mem_singleton_self x
  | bind s name => exact .name hp
  | wildcard s => exact .ignored
  | otherwise s => exact .keyword .otherwise_

/-! The left side of a definition. -/

theorem Written.definition {name : Name} {params : List Name} {text : String}
    (hname : isIdentifier name.text = true) (hparams : ∀ p ∈ params, isIdentifier p.text = true)
    (h : Written n text.toList ps) :
    Written n (definitionHead name params ++ text).toList (headPieces name params ++ ps) := by
  have hnames : WrittenAll n (params.map Name.text) (params.map namePieces) :=
    writtenAll_map fun p hp => Written.name (hparams p hp)
  have hrest := Follows.spaced hnames
  have hhead := ((Written.name (n := n) hname).append hrest).append
    (.around (.operator .eq) h)
  have hspelling : Operator.eq.spelling.toList = ['='] := rfl
  rw [hspelling] at hhead
  simpa [definitionHead, headPieces, PipeLang.joined, operatorKind] using hhead

end Parse

end PipeLang
