/-! Lines of a text, in two readings. `betweenFeeds` cuts at every line feed. `lines` ends a line at a
line feed with an optional carriage return before it, and leaves out an empty last line. -/

namespace PipeLang

/-- The texts between line feeds, one more than there are line feeds. -/
def betweenFeeds : List Char → List (List Char)
  | [] => [[]]
  | c :: cs =>
    if c = '\n' then [] :: betweenFeeds cs
    else
      match betweenFeeds cs with
      | [] => [[c]]
      | p :: ps => (c :: p) :: ps

def dropReturn (line : List Char) : List Char :=
  if line.getLast? = some '\r' then line.dropLast else line

/-- All texts but the last are ended by a line feed; the last counts unless it is empty. -/
def endLines : List (List Char) → List (List Char)
  | [] => []
  | [last] => if last.isEmpty then [] else [last]
  | p :: q :: ps => dropReturn p :: endLines (q :: ps)

def lines (s : String) : List String := (endLines (betweenFeeds s.toList)).map String.ofList

/-- Line `n` of a text, counted from one, without its ending; empty past the last line. -/
def lineAt (s : String) (n : Nat) : List Char :=
  dropReturn (((betweenFeeds s.toList)[n - 1]?).getD [])

theorem betweenFeeds_ne_nil (cs : List Char) : betweenFeeds cs ≠ [] := by
  cases cs with
  | nil => simp [betweenFeeds]
  | cons c cs =>
    unfold betweenFeeds
    split
    · simp
    · split <;> simp

end PipeLang
