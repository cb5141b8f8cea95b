/-!
# Diagnostics

What a failed operation tells its user: a message, and where the cause has them
a code to look it up by and a hint.
-/

namespace Metrology

/-- A message with the code and the hint that go with it. -/
structure Diagnostic where
  message : String
  code : Option String := none
  help : Option String := none
deriving DecidableEq

end Metrology
