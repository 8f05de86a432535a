/-! Positions in a source text and the spans between them. Offsets count bytes, lines and columns
count from one, and a column counts characters. -/

namespace PipeLang

structure Position where
  offset : Nat
  line : Nat
  column : Nat
  deriving DecidableEq

namespace Position

def origin : Position := ⟨0, 1, 1⟩

def advance (p : Position) (c : Char) : Position :=
  if c = '\n' then ⟨p.offset + c.utf8Size, p.line + 1, 1⟩
  else ⟨p.offset + c.utf8Size, p.line, p.column + 1⟩

def after (p : Position) (cs : List Char) : Position := cs.foldl advance p

@[simp] theorem after_nil (p : Position) : p.after [] = p := rfl

@[simp] theorem after_cons (p : Position) (c : Char) (cs : List Char) :
    p.after (c :: cs) = (p.advance c).after cs := rfl

theorem after_append (p : Position) (cs ds : List Char) :
    p.after (cs ++ ds) = (p.after cs).after ds := by
  simp [after, List.foldl_append]

@[simp] theorem advance_offset (p : Position) (c : Char) :
    (p.advance c).offset = p.offset + c.utf8Size := by
  unfold advance; split <;> rfl

theorem offset_le_after (p : Position) (cs : List Char) : p.offset ≤ (p.after cs).offset := by
  induction cs generalizing p with
  | nil => exact Nat.le_refl _
  | cons c cs ih => exact Nat.le_trans (by simp) (ih (p.advance c))

end Position

/-- A range of bytes, the end exclusive, with the line and column of its start. -/
structure Span where
  start : Nat
  stop : Nat
  line : Nat
  column : Nat
  deriving DecidableEq

def Position.to (p q : Position) : Span := ⟨p.offset, q.offset, p.line, p.column⟩

namespace Span

def origin : Span := ⟨0, 0, 1, 1⟩

instance : Inhabited Span := ⟨origin⟩

/-- The earlier start with its line and column, and the later end. -/
def merge (a b : Span) : Span :=
  let first := if b.start < a.start then b else a
  ⟨first.start, max a.stop b.stop, first.line, first.column⟩

def length (s : Span) : Nat := s.stop - s.start

def isEmpty (s : Span) : Bool := s.start == s.stop

@[simp] theorem merge_self (a : Span) : a.merge a = a := by simp [merge]

@[simp] theorem merge_stop (a b : Span) : (a.merge b).stop = max a.stop b.stop := rfl

theorem merge_start (a b : Span) : (a.merge b).start = min a.start b.start := by
  unfold merge; split <;> simp <;> omega

end Span

end PipeLang
