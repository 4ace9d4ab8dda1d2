/-!
# Text of bytes in UTF-8

Bytes that are no text are read as replacement characters, one for each longest start of a character
that goes wrong.
-/

namespace ScopedFlow.Text

def replacement : Char := Char.ofNat 0xfffd

/-- A character of which some bytes have been read: how many are left, the bits so far, and the
bounds of the next byte. -/
structure Unfinished where
  left : Nat
  bits : Nat
  low : Nat
  high : Nat
  deriving DecidableEq, Repr

inductive Start where
  | whole (c : Char)
  | open (u : Unfinished)
  | wrong
  deriving DecidableEq, Repr

/-- The bounds of second bytes leave out long forms, surrogates, and codes that are too large. -/
def Start.ofByte (b : Nat) : Start :=
  if b < 0x80 then .whole (Char.ofNat b)
  else if b < 0xc2 then .wrong
  else if b < 0xe0 then .open ⟨1, b - 0xc0, 0x80, 0xbf⟩
  else if b < 0xf0 then
    .open ⟨2, b - 0xe0, if b = 0xe0 then 0xa0 else 0x80, if b = 0xed then 0x9f else 0xbf⟩
  else if b < 0xf5 then
    .open ⟨3, b - 0xf0, if b = 0xf0 then 0x90 else 0x80, if b = 0xf4 then 0x8f else 0xbf⟩
  else .wrong

def decodeFrom : Option Unfinished → List UInt8 → List Char
  | none, [] => []
  | some _, [] => [replacement]
  | state, b :: rest =>
    let n := b.toNat
    let fresh : List Char :=
      match Start.ofByte n with
      | .whole c => c :: decodeFrom none rest
      | .open u => decodeFrom (some u) rest
      | .wrong => replacement :: decodeFrom none rest
    match state with
    | none => fresh
    | some u =>
      if u.low ≤ n && n ≤ u.high then
        let bits := 64 * u.bits + (n - 0x80)
        if u.left ≤ 1 then Char.ofNat bits :: decodeFrom none rest
        else decodeFrom (some ⟨u.left - 1, bits, 0x80, 0xbf⟩) rest
      else replacement :: fresh

def decodeUtf8 (bytes : List UInt8) : String := String.ofList (decodeFrom none bytes)

end ScopedFlow.Text
