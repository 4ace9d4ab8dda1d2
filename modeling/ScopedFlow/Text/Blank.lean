/-!
# White space

The Unicode property White_Space, and trimming by it.
-/

namespace ScopedFlow.Text

/-- The property White_Space. The zero-width space, the byte-order mark and the separators
U+001C to U+001F do not have it. -/
def isBlank (c : Char) : Bool :=
  let n := c.toNat
  (9 ≤ n && n ≤ 13) || n = 0x20 || n = 0x85 || n = 0xa0 || n = 0x1680 ||
    (0x2000 ≤ n && n ≤ 0x200a) || n = 0x2028 || n = 0x2029 || n = 0x202f || n = 0x205f ||
    n = 0x3000

def trimChars (cs : List Char) : List Char :=
  ((cs.dropWhile isBlank).reverse.dropWhile isBlank).reverse

def trim (s : String) : String :=
  String.ofList (trimChars s.toList)

end ScopedFlow.Text
