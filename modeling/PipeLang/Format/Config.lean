/-! How source text is laid out. -/

namespace PipeLang

/-- The layout of a pipeline that is the whole value of a statement. Any other stays on its line. -/
inductive PipelineLayout
  /-- One stage a line, indented under the seed. -/
  | indented
  | inline
  /-- On one line if the line is not too long. -/
  | fit
  deriving DecidableEq

structure FormatConfig where
  indentWidth : Nat := 2
  lineLength : Nat := 100
  layout : PipelineLayout := .indented
  deriving DecidableEq

end PipeLang
