import ScopedFlow.Json.Value

/-!
# JSON text

One writer serves both layouts: compact text without blanks, and indented text with one item on a
line. Characters outside ASCII are written as they are.
-/

namespace ScopedFlow.Json

/-- What stands before an item or a closing bracket at a nesting depth, and between the name and
the value of a field. -/
structure Style where
  gap : Nat → List Char
  colon : List Char

def Style.compact : Style := ⟨fun _ => [], [':']⟩

def Style.indented : Style :=
  ⟨fun depth => '\n' :: List.replicate (2 * depth) ' ', [':', ' ']⟩

def hexDigit (n : Nat) : Char := Nat.digitChar n

def escape (c : Char) : List Char :=
  if c = '"' then ['\\', '"']
  else if c = '\\' then ['\\', '\\']
  else if c = '\x08' then ['\\', 'b']
  else if c = '\t' then ['\\', 't']
  else if c = '\n' then ['\\', 'n']
  else if c = '\x0c' then ['\\', 'f']
  else if c = '\r' then ['\\', 'r']
  else if c.toNat < 0x20 then
    ['\\', 'u', '0', '0', hexDigit (c.toNat / 16), hexDigit (c.toNat % 16)]
  else [c]

def quoted (s : String) : List Char := '"' :: s.toList.flatMap escape ++ ['"']

mutual
def write (style : Style) (depth : Nat) : Json → List Char
  | null => ['n', 'u', 'l', 'l']
  | .bool true => ['t', 'r', 'u', 'e']
  | .bool false => ['f', 'a', 'l', 's', 'e']
  | .nat n => Nat.toDigits 10 n
  | number _ => ['0', '.', '0']
  | str s => quoted s
  | arr [] => ['[', ']']
  | arr (v :: rest) =>
    '[' :: (style.gap (depth + 1) ++ (write style (depth + 1) v ++ writeItems style depth rest))
  | obj [] => ['{', '}']
  | obj ((k, v) :: rest) =>
    '{' :: (style.gap (depth + 1) ++ (quoted k ++ (style.colon ++
      (write style (depth + 1) v ++ writeFields style depth rest))))

def writeItems (style : Style) (depth : Nat) : List Json → List Char
  | [] => style.gap depth ++ [']']
  | v :: rest =>
    ',' :: (style.gap (depth + 1) ++ (write style (depth + 1) v ++ writeItems style depth rest))

def writeFields (style : Style) (depth : Nat) : List (String × Json) → List Char
  | [] => style.gap depth ++ ['}']
  | (k, v) :: rest =>
    ',' :: (style.gap (depth + 1) ++ (quoted k ++ (style.colon ++
      (write style (depth + 1) v ++ writeFields style depth rest))))
end

def compact (v : Json) : String := String.ofList (write .compact 0 v)

def pretty (v : Json) : String := String.ofList (write .indented 0 v)

end ScopedFlow.Json
