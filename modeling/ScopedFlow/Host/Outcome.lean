/-!
# Outcomes

How a program ended and what it wrote.
-/

namespace ScopedFlow

inductive Exit where
  | code (n : Nat)
  | signal
  deriving DecidableEq, Repr

structure Outcome where
  stdout : List UInt8
  stderr : List UInt8
  exit : Exit
  deriving DecidableEq, Repr

end ScopedFlow
