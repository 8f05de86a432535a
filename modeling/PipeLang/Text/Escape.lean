/-! The body of a string literal. A quote, a backslash and the braces are written after a backslash,
line feed, tab and carriage return by a letter, and every other character stands for itself. -/

namespace PipeLang

def escapeChar (c : Char) : List Char :=
  if c = '\n' then ['\\', 'n']
  else if c = '\t' then ['\\', 't']
  else if c = '\r' then ['\\', 'r']
  else if c = '\\' ∨ c = '"' ∨ c = '\x7b' ∨ c = '\x7d' then ['\\', c]
  else [c]

/-- The character that a backslash followed by `c` stands for. -/
def unescape? (c : Char) : Option Char :=
  if c = 'n' then some '\n'
  else if c = 't' then some '\t'
  else if c = 'r' then some '\r'
  else if c = '\\' ∨ c = '"' ∨ c = '\x7b' ∨ c = '\x7d' then some c
  else none

def escape (s : String) : String := String.ofList (s.toList.flatMap escapeChar)

def quoted (s : String) : String := "\"" ++ escape s ++ "\""

@[simp] theorem escape_toList (s : String) : (escape s).toList = s.toList.flatMap escapeChar := by
  simp [escape]

/-- An escaped character is itself or the one its escape letter stands for. -/
theorem escapeChar_cases (c : Char) :
    (escapeChar c = [c] ∧ c ≠ '\\' ∧ c ≠ '"' ∧ c ≠ '\x7b' ∧ c ≠ '\x7d' ∧ c ≠ '\n') ∨
      ∃ d, escapeChar c = ['\\', d] ∧ unescape? d = some c ∧ d ≠ '\n' := by
  unfold escapeChar
  split
  · next h => subst h; exact .inr ⟨'n', rfl, by decide, by decide⟩
  split
  · next h => subst h; exact .inr ⟨'t', rfl, by decide, by decide⟩
  split
  · next h => subst h; exact .inr ⟨'r', rfl, by decide, by decide⟩
  split
  · next h =>
    refine .inr ⟨c, rfl, ?_, ?_⟩
    · rcases h with rfl | rfl | rfl | rfl <;> decide
    · rcases h with rfl | rfl | rfl | rfl <;> decide
  · next h1 _ _ h => simp only [not_or] at h; exact .inl ⟨rfl, h.1, h.2.1, h.2.2.1, h.2.2.2, h1⟩

end PipeLang
