/-!
# Diagnostics

Where and why a text is no module.
-/

namespace ScopedFlow

/-- A syntax error. Lines count from one, columns count bytes from one. -/
structure Diagnostic where
  message : String
  line : Nat
  column : Nat
  deriving DecidableEq, Repr

namespace Diagnostic

def shown (d : Diagnostic) : String :=
  d.message ++ " (line " ++ toString d.line ++ ", column " ++ toString d.column ++ ")"

def report (d : Diagnostic) : String := "Syntax error: " ++ d.shown

end Diagnostic

end ScopedFlow
