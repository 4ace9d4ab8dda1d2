import ScopedFlow.Source.Cursor

/-!
# Words, numbers and operators

Of several readings of the same place the longest counts.
-/

namespace ScopedFlow.Source

/-- Words that are never names in an expression. -/
def reserved : List String :=
  ["and", "as", "assert", "break", "class", "continue", "def", "del", "elif", "else", "except",
    "finally", "for", "from", "global", "if", "import", "in", "is", "lambda", "nonlocal", "not",
    "or", "pass", "raise", "return", "try", "while", "with", "yield"]

def constantWords : List String := ["True", "False", "None"]

/-- Length of a run of digits in which single underscores may follow digits. -/
def decimalRun (underscore : Bool) : List Char → Nat
  | [] => 0
  | c :: cs =>
    if c.isDigit then decimalRun true cs + 1
    else if c == '_' && underscore then decimalRun false cs + 1
    else 0

/-- Length of a decimal run, which starts with a digit. -/
def decimalLength (cs : List Char) : Nat := decimalRun false cs

/-- Length of a run of digits of a base in which single underscores may precede digits. -/
def basedLength (digit : Char → Bool) : List Char → Nat
  | '_' :: c :: cs => if digit c then basedLength digit cs + 2 else 0
  | c :: cs => if digit c then basedLength digit cs + 1 else 0
  | [] => 0

def isHex (c : Char) : Bool := c.isDigit || ('a' ≤ c && c ≤ 'f') || ('A' ≤ c && c ≤ 'F')

def isOctal (c : Char) : Bool := '0' ≤ c && c ≤ '7'

def isBinary (c : Char) : Bool := c == '0' || c == '1'

/-- One more if the text goes on with one of the letters. -/
def letterLength (letters : List Char) (cs : List Char) : Nat :=
  if cs.head?.any (letters.contains ·) then 1 else 0

def exponentLength : List Char → Nat
  | [] => 0
  | e :: cs =>
    if e == 'e' || e == 'E' then
      let sign := letterLength ['+', '-'] cs
      let digits := decimalLength (cs.drop sign)
      if digits = 0 then 0 else 1 + sign + digits
    else 0

def prefixedLength (digit : Char → Bool) (cs : List Char) : Nat :=
  let digits := basedLength digit (cs.drop 2)
  if digits = 0 then 0 else 2 + digits + letterLength ['l', 'L'] (cs.drop (2 + digits))

/-- Adds what may follow a mantissa: an exponent and the mark of an imaginary number. -/
def withExponent (mantissa : Nat) (cs : List Char) : Nat :=
  let power := mantissa + exponentLength (cs.drop mantissa)
  power + letterLength ['j', 'J'] (cs.drop power)

/-- Length of a decimal number, whole or with a fraction. -/
def plainNumberLength (cs : List Char) : Nat :=
  let whole := decimalLength cs
  match cs.drop whole with
  | '.' :: rest =>
    let fraction := decimalLength rest
    if whole + fraction = 0 then 0 else withExponent (whole + 1 + fraction) cs
  | rest =>
    if whole = 0 then 0
    else if exponentLength rest = 0 then whole + letterLength ['l', 'L', 'j', 'J'] rest
    else withExponent whole cs

/-- Length of the number at the front of a text, zero if there is none. -/
def numberLength (cs : List Char) : Nat :=
  let based :=
    match cs with
    | '0' :: 'x' :: _ | '0' :: 'X' :: _ => prefixedLength isHex cs
    | '0' :: 'o' :: _ | '0' :: 'O' :: _ => prefixedLength isOctal cs
    | '0' :: 'b' :: _ | '0' :: 'B' :: _ => prefixedLength isBinary cs
    | _ => 0
  if based = 0 then plainNumberLength cs else based

/-- Operators between two values with their binding strength; a longer one stands before its
beginnings. The power operator is not among them, since it binds to the right. -/
def binaryOperators : List (String × Nat) :=
  [("//", 19), ("<<", 17), (">>", 17), ("*", 19), ("@", 19), ("/", 19), ("%", 19), ("+", 18),
    ("-", 18), ("^", 16), ("&", 15), ("|", 14)]

def powerOperator : String := "**"

def weakestBinary : Nat := 14

/-- The binary operator at the front; with an equals sign behind it is an assignment. -/
def binaryOperatorAt (cs : List Char) : Option (String × Nat) :=
  if startsWith powerOperator cs then none
  else
    match binaryOperators.find? fun op => startsWith op.1 cs with
    | some op => if (cs.drop op.1.length).head? = some '=' then none else some op
    | none => none

def comparisonSigns : List String := ["<=", ">=", "==", "!=", "<>", "<", ">"]

def comparisonSignAt (cs : List Char) : Option String :=
  if startsWith "<<" cs || startsWith ">>" cs then none
  else comparisonSigns.find? fun op => startsWith op cs

/-- Operators that assign the result of an operation, without the equals sign. -/
def assigningOperators : List String :=
  ["**", "//", ">>", "<<", "+", "-", "*", "/", "@", "%", "&", "^", "|"]

def assigningOperatorAt (cs : List Char) : Option String :=
  assigningOperators.find? fun op => startsWith (op ++ "=") cs

namespace Reader

def equals : Reader Unit := do
  require (!(← looksAt "=="))
  symbol "="

/-- A colon that does not belong to `:=`. -/
def colon : Reader Unit := do
  require (!(← looksAt ":="))
  symbol ":"

def star : Reader Unit := do
  require (!(← looksAt "**"))
  symbol "*"

end Reader

end ScopedFlow.Source
