/-! S-expressions and their text: an atom stands for itself, a list is its items between parentheses
with single blanks between them. -/

namespace PipeLang

inductive Sexp
  | atom (text : String)
  | list (items : List Sexp)

/-- `pieces` with a blank before each. -/
def spaced : List String → String
  | [] => ""
  | p :: ps => " " ++ p ++ spaced ps

/-- `pieces` with a blank between each two. -/
def joined : List String → String
  | [] => ""
  | p :: ps => p ++ spaced ps

mutual

def Sexp.render : Sexp → String
  | .atom text => text
  | .list items => "(" ++ joined (renderAll items) ++ ")"

def renderAll : List Sexp → List String
  | [] => []
  | s :: rest => s.render :: renderAll rest

end

theorem renderAll_eq_map (items : List Sexp) : renderAll items = items.map Sexp.render := by
  induction items with
  | nil => simp [renderAll]
  | cons s rest ih => simp [renderAll, ih]

end PipeLang
