import Mathlib
import PipeLang.Parse.Program

/-! How a rule made of smaller ones runs: what each of them does to the cursor, in order. -/

namespace PipeLang

namespace Cursor

theorem peekAt_succ {c : Cursor} {t : Token} {rest : List Token} (h : c.rest = t :: rest)
    (n : Nat) : c.peekAt (n + 1) = c.forward.peekAt n := by
  unfold peekAt final forward
  rw [h]
  cases rest with
  | nil => simp
  | cons u rest => simp [List.getLast?_cons]

theorem peekAt_one {c : Cursor} {t : Token} {rest : List Token} (h : c.rest = t :: rest) :
    c.peekAt 1 = c.forward.peek := by
  rw [peekAt_succ h, ← peek_eq_peekAt]

theorem kindAt_one {c : Cursor} {t : Token} {rest : List Token} (h : c.rest = t :: rest) :
    c.kindAt 1 = c.forward.kind := by
  unfold kindAt kind
  rw [peekAt_one h]

theorem previous?_forward {c : Cursor} {t : Token} {rest : List Token} (h : c.rest = t :: rest) :
    c.forward.previous? = some c.peek := by
  unfold forward peek
  rw [h]
  rfl

end Cursor

namespace Parse

variable {c c' c'' : Cursor}

theorem kind_of_rest {t : Token} {rest : List Token} (h : c.rest = t :: rest) :
    c.kind = t.kind := by
  unfold Cursor.kind Cursor.peek
  rw [h]

theorem next_eq_forward (h : c.kind ≠ .eof) : c.next = c.forward := by
  unfold Cursor.next
  rw [if_neg]
  intro he
  exact h (TokenKind.isEof_iff.mp he)

theorem bind_of_ok {x : Parse α} {f : α → Parse β} {a : α} (h : x c = .ok a c') :
    (x >>= f) c = f a c' := by
  show EStateM.bind x f c = f a c'
  simp only [EStateM.bind, h]

theorem bind_of_error {x : Parse α} {f : α → Parse β} {d : Diagnostic} (h : x c = .error d c') :
    (x >>= f) c = .error d c' := by
  show EStateM.bind x f c = .error d c'
  simp only [EStateM.bind, h]

theorem bind_eq_ok {x : Parse α} {f : α → Parse β} {b : β} :
    (x >>= f) c = .ok b c'' ↔ ∃ a c', x c = .ok a c' ∧ f a c' = .ok b c'' := by
  cases h : x c with
  | ok a c' =>
    rw [bind_of_ok h]
    constructor
    · intro hf
      exact ⟨a, c', rfl, hf⟩
    · rintro ⟨a', c1, he, hf⟩
      cases he
      exact hf
  | error d c' =>
    rw [bind_of_error h]
    constructor
    · intro hf
      cases hf
    · rintro ⟨a', c1, he, hf⟩
      cases he

@[simp] theorem pure_run (a : α) : (pure a : Parse α) c = .ok a c := rfl

@[simp] theorem test_run (p : Cursor → α) : test p c = .ok (p c) c := rfl

@[simp] theorem fail_run (d : Cursor → Diagnostic) : (fail d : Parse α) c = .error (d c) c := rfl

@[simp] theorem skip_run : skip c = .ok c.peek.span c.next := rfl

theorem test_bind (p : Cursor → α) (f : α → Parse β) : (test p >>= f) c = f (p c) c := rfl

theorem skip_bind (f : Span → Parse β) : (skip >>= f) c = f c.peek.span c.next := rfl

theorem accept_bind_of_true {p : Cursor → Bool} {f : Bool → Parse β} (h : p c = true) :
    (accept p >>= f) c = f true c.next :=
  bind_of_ok (by rw [accept, if_pos h])

theorem accept_bind_of_false {p : Cursor → Bool} {f : Bool → Parse β} (h : p c = false) :
    (accept p >>= f) c = f false c :=
  bind_of_ok (by rw [accept, if_neg (by simp [h])])

theorem identifier_of_ident {place : Place} {name : String} (h : c.kind = .ident name) :
    identifier place c = .ok ⟨name, c.peek.span⟩ c.next := by
  have hk : c.peek.kind = .ident name := h
  unfold identifier
  rw [test_bind, hk]
  rfl

theorem identifier_eq_ok {place : Place} {x : Name} (h : identifier place c = .ok x c') :
    c.kind = .ident x.text ∧ x.span = c.peek.span ∧ c' = c.next := by
  unfold identifier at h
  rw [test_bind] at h
  cases hk : c.peek.kind with
  | ident name =>
    rw [hk] at h
    cases h
    exact ⟨hk, rfl, rfl⟩
  | _ => rw [hk] at h; cases h

/-- What `fieldUse` does at a token that is neither a name nor a mark. -/
def comparison : Parse FieldUse := do
  match ← literal? with
  | some (value, _) => pure (.compare value)
  | none => unexpected (.within .recordPattern) [.identifier, .punctuation .underscore, .pattern]

/-- What `pattern` does at a token that opens no other form. -/
def literalPattern : Parse Pattern := do
  match ← literal? with
  | some (value, span) => pure (.literal span value)
  | none => unexpected .inPattern [.pattern]

end Parse

end PipeLang
