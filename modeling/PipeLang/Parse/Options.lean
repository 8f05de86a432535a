/-! How a token list is parsed. -/

namespace PipeLang

inductive ParseMode
  | strict
  /-- Records an error and goes on with the next statement. -/
  | bestEffort
  deriving DecidableEq

structure ParseOptions where
  mode : ParseMode := .strict
  /-- The deepest that expressions and patterns may nest. -/
  maxDepth : Nat := 256
  /-- Rewires every pipeline into nested applications. -/
  resolvePipelines : Bool := false
  deriving DecidableEq

end PipeLang
