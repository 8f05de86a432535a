import Mathlib
import PipeLang.Proofs.Parse.Grammar

/-! A phrase of the grammar closes the blocks that it opens, but for the block that a construct in the
middle of its clauses has. -/

namespace PipeLang

/-- How many more blocks are open after some tokens. -/
def levelsOf (ts : List Token) : Int := (ts.map fun t => t.kind.levelChange).sum

@[simp] theorem levelsOf_nil : levelsOf [] = 0 := rfl

@[simp] theorem levelsOf_cons (t : Token) (ts : List Token) :
    levelsOf (t :: ts) = t.kind.levelChange + levelsOf ts := by
  simp [levelsOf]

@[simp] theorem levelsOf_append (ts us : List Token) :
    levelsOf (ts ++ us) = levelsOf ts + levelsOf us := by
  simp [levelsOf]

theorem levelsOf_eq_count (ts : List Token) :
    levelsOf ts = ts.countP (·.kind.isIndent) - ts.countP (·.kind.isDedent) := by
  induction ts with
  | nil => rfl
  | cons t ts ih =>
    rw [levelsOf_cons, ih, List.countP_cons, List.countP_cons]
    cases t.kind <;> simp [TokenKind.levelChange, TokenKind.isIndent, TokenKind.isDedent] <;> omega

theorem Cursor.level_eq (c : Cursor) : c.level = levelsOf c.before.reverse := by
  unfold Cursor.level
  induction c.before with
  | nil => rfl
  | cons t ts ih => simp [ih]

theorem levelsOf_of_flat {ts : List Token} (h : ∀ t ∈ ts, t.kind.levelChange = 0) : levelsOf ts = 0 := by
  induction ts with
  | nil => rfl
  | cons t ts ih =>
    rw [levelsOf_cons, h t List.mem_cons_self, ih fun u hu => h u (List.mem_cons_of_mem t hu)]
    rfl

/-- `ts` go on as `us` where `n` more blocks are open. -/
def Climbs (ts us : List Token) (n : Int) : Prop := ∃ taken, ts = taken ++ us ∧ levelsOf taken = n

namespace Climbs

variable {ts us vs : List Token} {m n : Int}

theorem refl : Climbs ts ts 0 := ⟨[], rfl, rfl⟩

theorem trans (h : Climbs ts us m) (h' : Climbs us vs n) : Climbs ts vs (m + n) := by
  obtain ⟨xs, rfl, rfl⟩ := h
  obtain ⟨ys, rfl, rfl⟩ := h'
  exact ⟨xs ++ ys, by simp, by simp⟩

theorem token {t : Token} (h : ts = t :: us) : Climbs ts us t.kind.levelChange :=
  ⟨[t], h, by simp⟩

theorem eq (h : Climbs ts us m) (hmn : m = n) : Climbs ts us n := hmn ▸ h

/-- After a token that is no layout. -/
theorem after {t : Token} (ht : ts = t :: us) (hflat : t.kind.levelChange = 0) (h : Climbs us vs n) :
    Climbs ts vs n :=
  ((token ht).trans h).eq (by rw [hflat]; exact Int.zero_add n)

/-- Before a token that is no layout. -/
theorem before {t : Token} (h : Climbs ts us n) (ht : us = t :: vs) (hflat : t.kind.levelChange = 0) :
    Climbs ts vs n :=
  (h.trans (token ht)).eq (by rw [hflat]; exact Int.add_zero n)

end Climbs

namespace Grammar

variable {mode : ParseMode} {ts us : List Token}

/-- The block that a construct has of its own, if it has one. -/
def depth (inBlock : Bool) : Int := if inBlock then 1 else 0

def Phrase.climb : Phrase → Int
  | .bindings b _ | .stages b _ | .clauses b _ | .catches b _ => depth b
  | .arm b c _ | .arms b c _ => depth c - depth b
  | _ => 0

theorem Names.climbs {names : List Name} (h : Names ts names us) : Climbs ts us 0 := by
  induction h with
  | nil => exact .refl
  | cons name _ ih => exact .after name rfl ih

theorem Path.climbs {path : List Name} (h : Path ts path us) : Climbs ts us 0 := by
  induction h with
  | nil => exact .refl
  | cons dot name _ ih => exact .after dot rfl (.after name rfl ih)

theorem Turn.climbs {b : Bool} (h : Turn b ts us) : Climbs ts us (1 - depth b) := by
  cases h with
  | line newline => exact (Climbs.token newline).eq rfl
  | block newline indent => exact .after newline rfl (.token indent)

theorem Ahead.climbs {b c : Bool} (h : Ahead b ts c us) : Climbs ts us (depth c - depth b) := by
  cases h with
  | here => exact Climbs.refl.eq (by omega)
  | turn turn => exact turn.climbs

theorem Closing.climbs {b : Bool} (h : Closing b ts us) : Climbs ts us (-depth b) := by
  cases h with
  | none => exact .refl
  | dedent dedent => exact .token dedent
  | line newline dedent => exact .after newline rfl (.token dedent)

theorem Opening.climbs {b : Bool} (h : Opening b ts us) : Climbs ts us (depth b) := by
  cases h with
  | inline => exact .refl
  | block turn => exact turn.climbs

theorem Between.climbs {b : Bool} (h : Between b ts us) : Climbs ts us 0 := by
  cases h with
  | semicolon semicolon => exact .token semicolon
  | line newline => exact .token newline
  | closed => exact .refl

theorem Tail.climbs {b c : Bool} (h : Tail b ts c us) : Climbs ts us (depth c - depth b) := by
  cases h with
  | ahead ahead => exact ahead.climbs
  | closed closing => exact closing.climbs

theorem Constant.climbs {v : Literal} {s : Span} (h : Constant ts v s us) : Climbs ts us 0 := by
  cases h with
  | negative minus number => exact .after minus rfl (.token number)
  | number token | empty token | text token | yes token | no token | nil token => exact .token token

theorem Use.climbs {use : FieldUse} (h : Use ts use us) : Climbs ts us 0 := by
  cases h with
  | bind token | ignore token => exact .token token
  | compare constant => exact constant.climbs

theorem PatternFields.climbs {fields : List PatternField} (h : PatternFields ts fields us) :
    Climbs ts us 0 := by
  induction h with
  | nil => exact .refl
  | key _ name ih => exact .before ih name rfl
  | use _ name colon used ih => exact (Climbs.before (.before ih name rfl) colon rfl).trans used.climbs

theorem Patterned.climbs {p : Pattern} (h : Patterned ts p us) : Climbs ts us 0 := by
  cases h with
  | bind token | wildcard token | otherwise token => exact .token token
  | literal constant => exact constant.climbs
  | record opened inside closed => exact .after opened rfl (inside.climbs.before closed rfl)

theorem Caught.climbs {tag bound : Option Name} (h : Caught ts tag bound us) : Climbs ts us 0 := by
  cases h with
  | tag name | binding name => exact .token name
  | both tag name => exact .after tag rfl (.token name)

theorem levelChange_of_binary? {k : TokenKind} {op : Operator} (h : k.binary? = some op) :
    k.levelChange = 0 := by
  cases k <;> first | rfl | cases h

theorem Derives.climbs {p : Phrase} (h : Derives mode ts p us) : Climbs ts us p.climb := by
  induction h with
  | ident token | number token | text token | yes token | no token | nil token => exact .token token
  | negative minus number => exact .after minus rfl (.token number)
  | wildcard token fields => exact .after token rfl fields.climbs
  | access _ dot name target => exact .before (.before target dot rfl) name rfl
  | apply _ _ _ callee arguments => exact callee.trans arguments
  | binary _ token operator _ left right =>
    exact (Climbs.before left token (levelChange_of_binary? operator)).trans right
  | parentheses opened _ closed inside | record opened _ closed inside | list opened _ closed inside =>
    exact .after opened rfl (Climbs.before inside closed rfl)
  | function opened names arrow _ closed value =>
    exact .after opened rfl ((names.climbs.before arrow rfl).trans (Climbs.before value closed rfl))
  | @pipeline _ _ _ _ _ b _ _ _ _ _ closing source stages =>
    exact ((source.trans stages).trans closing.climbs).eq (by simp [Phrase.climb])
  | letIn start _ tail ahead keyword _ closing bindings value =>
    refine Climbs.eq (.after start rfl ((((bindings.trans tail.climbs).trans ahead.climbs).before keyword
      rfl).trans (value.trans closing.climbs))) ?_
    simp [Phrase.climb]
  | ifElse start _ _ ahead keyword _ closing head tail value =>
    refine Climbs.eq (.after start rfl ((((head.trans tail).trans ahead.climbs).before keyword
      rfl).trans (value.trans closing.climbs))) ?_
    simp [Phrase.climb, depth]
  | matchOn start _ _ _ closing subject clauses =>
    exact (Climbs.after start rfl ((subject.trans clauses).trans closing.climbs)).eq (by simp [Phrase.climb])
  | tryCatch start _ _ _ closing value catches =>
    exact (Climbs.after start rfl ((value.trans catches).trans closing.climbs)).eq (by simp [Phrase.climb])
  | inline _ value => exact value
  | indented turn _ closing value => exact (turn.climbs.trans value).trans closing.climbs
  | noExprs | noFields | noStages | noGuard | noClauses | noCatches | noSegments => exact .refl
  | noArms => exact Climbs.refl.eq (by simp [Phrase.climb])
  | exprs _ _ before next => exact before.trans next
  | fields _ name colon _ before value => exact (Climbs.before (.before before name rfl) colon rfl).trans value
  | binding name names equals _ value => exact .after name rfl ((names.climbs.before equals rfl).trans value)
  | firstBinding opening _ first => exact (opening.climbs.trans first).eq (by simp [Phrase.climb])
  | bindings _ between _ before next =>
    exact ((before.trans between.climbs).trans next).eq (by simp [Phrase.climb])
  | stage _ _ callee arguments => exact callee.trans arguments
  | piped _ pipe _ before next => exact ((Climbs.before before pipe rfl).trans next).eq (by simp [Phrase.climb])
  | stageLine _ turn _ before next =>
    exact ((before.trans turn.climbs).trans next).eq (by simp [Phrase.climb, depth])
  | arm _ ahead keyword _ test value =>
    exact (((test.trans ahead.climbs).before keyword rfl).trans value).eq (by simp [Phrase.climb])
  | arms _ ahead keyword _ before next =>
    exact (((before.trans ahead.climbs).before keyword rfl).trans next).eq (by simp [Phrase.climb])
  | guard keyword _ value => exact .after keyword rfl value
  | clauses _ ahead bar pattern _ arrow _ before guard value =>
    refine ((((before.trans ahead.climbs).before bar rfl).trans pattern.climbs).trans guard).before arrow
      rfl |>.trans value |>.eq ?_
    simp [Phrase.climb]
  | catches _ ahead keyword caught arrow _ before value =>
    refine (((before.trans ahead.climbs).before keyword rfl).trans caught.climbs).before arrow rfl
      |>.trans value |>.eq ?_
    simp [Phrase.climb]
  | literal => exact .refl
  | hole => exact .refl
  | marker => exact .refl

theorem Stated.climbs {s : Statement} (h : Stated mode ts s us) : Climbs ts us 0 := by
  cases h with
  | assign definition => exact definition.climbs
  | expr value => exact value.climbs

end Grammar

end PipeLang
