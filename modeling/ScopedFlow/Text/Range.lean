/-!
# Sets of characters

A set is given by the lengths of its runs of code points: how many are outside, then how many inside,
and so on in turns.
-/

namespace ScopedFlow.Text

def inRuns : List Nat → Nat → Bool
  | outside :: inside :: rest, n =>
    if n < outside then false
    else if n < outside + inside then true
    else inRuns rest (n - (outside + inside))
  | _, _ => false

end ScopedFlow.Text
