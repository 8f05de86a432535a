import PipeLang.Tree.Preorder
import PipeLang.Diagnostic.Basic

/-! Record literals that give a key twice. Every repetition is reported at its key, with the latest
use of that key before it as a label. -/

namespace PipeLang

/-- One report for each of `fields` whose key is among `seen` or comes earlier; `seen` holds the keys so
far, latest first. -/
def repeatedKeys (seen : List Name) : List Binding → List Diagnostic
  | [] => []
  | ⟨key, _⟩ :: rest =>
    match seen.find? fun n => n.text == key.text with
    | some earlier =>
      (({ cause := .duplicateKey key.text .recordLiteral, span := key.span } : Diagnostic)
        |>.withExpected [.identifier, .punctuation .rbrace]
        |>.withLabel earlier.span "first defined here"
        |>.withNote "each key may appear once in a record literal") ::
        repeatedKeys (key :: seen) rest
    | none => repeatedKeys (key :: seen) rest

namespace Expr

def ownRepeatedKeys : Expr → List Diagnostic
  | record _ fields => repeatedKeys [] fields
  | _ => []

/-- The repeated keys of all record literals in an expression, in preorder. -/
def keyErrors (e : Expr) : List Diagnostic :=
  (e.preorder 0).flatMap fun n => n.2.ownRepeatedKeys

end Expr

def Program.keyErrors (p : Program) : List Diagnostic := p.values.flatMap Expr.keyErrors

end PipeLang
