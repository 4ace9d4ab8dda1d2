import ScopedFlow.Json.Value

/-!
# Reading JSON text

The whole text has to be one value; a raw control character in a string, a lone surrogate escape, a
superfluous comma or a leading zero make it unreadable.
-/

namespace ScopedFlow.Json

def isGap (c : Char) : Bool := c = ' ' || c = '\n' || c = '\r' || c = '\t'

def skipGaps (cs : List Char) : List Char := cs.dropWhile isGap

def hexValue (c : Char) : Option Nat :=
  if '0' ≤ c ∧ c ≤ '9' then some (c.toNat - '0'.toNat)
  else if 'a' ≤ c ∧ c ≤ 'f' then some (c.toNat - 'a'.toNat + 10)
  else if 'A' ≤ c ∧ c ≤ 'F' then some (c.toNat - 'A'.toNat + 10)
  else none

def hex4 (a b c d : Char) : Option Nat :=
  match hexValue a, hexValue b, hexValue c, hexValue d with
  | some a, some b, some c, some d => some (((a * 16 + b) * 16 + c) * 16 + d)
  | _, _, _, _ => none

def isHighSurrogate (n : Nat) : Bool := 0xd800 ≤ n && n < 0xdc00

def isLowSurrogate (n : Nat) : Bool := 0xdc00 ≤ n && n < 0xe000

def unescape (c : Char) : Option Char :=
  if c = '"' ∨ c = '\\' ∨ c = '/' then some c
  else if c = 'b' then some '\x08'
  else if c = 'f' then some '\x0c'
  else if c = 'n' then some '\n'
  else if c = 'r' then some '\r'
  else if c = 't' then some '\t'
  else none

def prepend (c : Char) (r : Option (List Char × List Char)) : Option (List Char × List Char) :=
  r.map fun p => (c :: p.1, p.2)

/-- Reads a string behind its opening quote; gives its characters and what follows. -/
def readString : List Char → Option (List Char × List Char)
  | [] => none
  | '"' :: rest => some ([], rest)
  | '\\' :: 'u' :: a :: b :: c :: d :: rest =>
    match hex4 a b c d with
    | none => none
    | some n =>
      if isHighSurrogate n then
        match rest with
        | '\\' :: 'u' :: e :: f :: g :: h :: rest =>
          match hex4 e f g h with
          | none => none
          | some m =>
            if isLowSurrogate m then
              prepend (Char.ofNat (0x10000 + (n - 0xd800) * 0x400 + (m - 0xdc00)))
                (readString rest)
            else none
        | _ => none
      else if isLowSurrogate n then none
      else prepend (Char.ofNat n) (readString rest)
  | '\\' :: c :: rest =>
    match unescape c with
    | some c => prepend c (readString rest)
    | none => none
  | c :: rest => if c.toNat < 0x20 ∨ c = '\\' then none else prepend c (readString rest)

def spanDigits (cs : List Char) : List Char × List Char :=
  (cs.takeWhile Char.isDigit, cs.dropWhile Char.isDigit)

/-- Whether `mantissa · 10 ^ (exponent - places)` is below the limit of doubles. -/
def fits (mantissa : List Char) (exponent : Int) (places : Nat) : Bool :=
  let m := Nat.ofDigitChars 10 mantissa 0
  if m = 0 then true
  else
    let scale := exponent - places
    let size := (Nat.toDigits 10 m).length + scale
    if size < 300 then true
    else if 320 < size then false
    else if 0 ≤ scale then m * Nat.pow 10 scale.toNat < doubleLimit
    else m < doubleLimit * Nat.pow 10 (-scale).toNat

/-- The fraction of a number, without its point; none if a point has no digit behind it. -/
def readFraction : List Char → Option (List Char × List Char)
  | '.' :: rest =>
    match spanDigits rest with
    | ([], _) => none
    | (ds, rest) => some (ds, rest)
  | cs => some ([], cs)

def readExponent : List Char → Option (Option Int × List Char)
  | c :: rest =>
    if c = 'e' ∨ c = 'E' then
      let (sign, rest) : Int × List Char :=
        match rest with
        | '+' :: rest => (1, rest)
        | '-' :: rest => (-1, rest)
        | rest => (1, rest)
      match spanDigits rest with
      | ([], _) => none
      | (ds, rest) => some (some (sign * Nat.ofDigitChars 10 ds 0), rest)
    else some (none, c :: rest)
  | [] => some (none, [])

/-- A number without its sign. -/
def readNumber (negative : Bool) (cs : List Char) : Option (Json × List Char) :=
  match spanDigits cs with
  | ([], _) => none
  | ('0' :: _ :: _, _) => none
  | (ds, rest) =>
    match readFraction rest with
    | none => none
    | some (fs, rest) =>
      match readExponent rest with
      | none => none
      | some (e, rest) =>
        if negative || !fs.isEmpty || e.isSome then
          some (number (fits (ds ++ fs) (e.getD 0) fs.length), rest)
        else some (.nat (Nat.ofDigitChars 10 ds 0), rest)

mutual
/-- Reads a value with no gap in front of it. Each level of nesting and each item takes one unit
of fuel. -/
def readValue : Nat → List Char → Option (Json × List Char)
  | 0, _ => none
  | fuel + 1, cs =>
    match cs with
    | 'n' :: 'u' :: 'l' :: 'l' :: rest => some (null, rest)
    | 't' :: 'r' :: 'u' :: 'e' :: rest => some (.bool true, rest)
    | 'f' :: 'a' :: 'l' :: 's' :: 'e' :: rest => some (.bool false, rest)
    | '"' :: rest => (readString rest).map fun p => (str (String.ofList p.1), p.2)
    | '-' :: rest => readNumber true rest
    | '[' :: rest =>
      match skipGaps rest with
      | ']' :: rest => some (arr [], rest)
      | rest => (readItems fuel rest).map fun p => (arr p.1, p.2)
    | '{' :: rest =>
      match skipGaps rest with
      | '}' :: rest => some (obj [], rest)
      | rest => (readFields fuel rest).map fun p => (obj p.1, p.2)
    | cs => readNumber false cs

def readItems : Nat → List Char → Option (List Json × List Char)
  | 0, _ => none
  | fuel + 1, cs =>
    match readValue fuel cs with
    | none => none
    | some (v, rest) =>
      match skipGaps rest with
      | ']' :: rest => some ([v], rest)
      | ',' :: rest => (readItems fuel (skipGaps rest)).map fun p => (v :: p.1, p.2)
      | _ => none

def readFields : Nat → List Char → Option (List (String × Json) × List Char)
  | 0, _ => none
  | fuel + 1, cs =>
    match cs with
    | '"' :: rest =>
      match readString rest with
      | none => none
      | some (k, rest) =>
        match skipGaps rest with
        | ':' :: rest =>
          match readValue fuel (skipGaps rest) with
          | none => none
          | some (v, rest) =>
            match skipGaps rest with
            | '}' :: rest => some ([(String.ofList k, v)], rest)
            | ',' :: rest =>
              (readFields fuel (skipGaps rest)).map fun p => ((String.ofList k, v) :: p.1, p.2)
            | _ => none
        | _ => none
    | _ => none
end

/-- Reads a text that is one value with gaps around it. -/
def parse (text : String) : Option Json :=
  let cs := text.toList
  match readValue (cs.length + 1) (skipGaps cs) with
  | some (v, rest) => if (skipGaps rest).isEmpty then some v else none
  | none => none

end ScopedFlow.Json
