import ScopedFlow.Node.Kind

/-!
# Fresh node ids

A supply hands out serial numbers; an id is the name of the kind, a low line and the serial number
in at least twelve hexadecimal digits.
-/

namespace ScopedFlow

structure Supply where
  next : Nat
  deriving DecidableEq, Repr

namespace Supply

/-- Hexadecimal digits of a number, padded with zeros on the left. -/
def hex (width n : Nat) : String :=
  let digits := Nat.toDigits 16 n
  String.ofList (List.replicate (width - digits.length) '0' ++ digits)

/-- The id that a serial number gives to a node of a kind. -/
def idOf (kind : NodeKind) (serial : Nat) : NodeId := ⟨kind.name ++ "_" ++ hex 12 serial⟩

def mint (s : Supply) (kind : NodeKind) : NodeId × Supply := (idOf kind s.next, ⟨s.next + 1⟩)

end Supply

end ScopedFlow
