/-! Snippets that show a vocabulary item in use. Diagnostics quote them when a construct is left
incomplete. -/

namespace PipeLang

structure Example where
  code : String
  note : Option String
  deriving DecidableEq

end PipeLang
