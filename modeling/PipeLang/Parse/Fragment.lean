import PipeLang.Parse.Program

/-! A token list read as a single expression or pattern, with nothing around it but line ends. -/

namespace PipeLang

inductive FragmentKind
  | expression | matchOn | tryCatch | pattern
  deriving DecidableEq

inductive Fragment
  | expression (value : Expr)
  | pattern (value : Pattern)

namespace Parse

def headed (k : Keyword) (rule : Parse Expr) : Parse Fragment := do
  if ← test (·.atKeyword k) then
    let e ← rule
    pure (.expression e)
  else unexpected .inputStart [.keyword k]

def fragment (o : ParseOptions) : FragmentKind → Parse Fragment
  | .expression => do
    let e ← rootExpression o
    pure (.expression e)
  | .matchOn => headed .match_ (matchOn o (rootPrimary o) o.maxDepth)
  | .tryCatch => headed .try_ (tryCatch o (rootPrimary o) o.maxDepth)
  | .pattern => do
    let p ← pattern o o.maxDepth
    pure (.pattern p)

def wholeFragment (o : ParseOptions) (kind : FragmentKind) : Parse Fragment := do
  skipNewlines
  let found ← fragment o kind
  skipNewlines
  if ← test Cursor.atEnd then pure found
  else unexpected .afterFragment [.endOfInput]

end Parse

def Fragment.finish (o : ParseOptions) : Fragment → Except (List Diagnostic) Fragment
  | expression e => Fragment.expression <$> e.finish o
  | pattern p => .ok (.pattern p)

def parseFragment (o : ParseOptions) (kind : FragmentKind) (tokens : List Token) :
    Except (List Diagnostic) Fragment :=
  match Parse.wholeFragment o kind (.ofTokens tokens) with
  | .ok found c => if c.errors.isEmpty then found.finish o else .error c.errors.reverse
  | .error d _ => .error [d]

end PipeLang
