import ScopedFlow.Text.Blank
import ScopedFlow.Text.Digit

/-!
# Source text of a literal

A label that already reads as a literal of Python stands for itself; every other label is taken for
the value of a string and is quoted.
-/

namespace ScopedFlow.Literal

open Text (isDecimalDigit)

def constants : List String := ["True", "False", "None", "..."]

def isHexDigit (c : Char) : Bool :=
  c.isDigit || ('a' ≤ c && c ≤ 'f') || ('A' ≤ c && c ≤ 'F')

def isOctalDigit (c : Char) : Bool := '0' ≤ c && c ≤ '7'

def isBinaryDigit (c : Char) : Bool := c == '0' || c == '1'

/-- A nonempty run of digits of a base, with underscores anywhere. -/
def isRun (digit : Char → Bool) (cs : List Char) : Bool :=
  !cs.isEmpty && cs.all fun c => digit c || c == '_'

def isDigitOrBar (c : Char) : Bool := isDecimalDigit c || c == '_'

def isImaginaryEnd : List Char → Bool
  | [] => true
  | [c] => c == 'j' || c == 'J'
  | _ => false

/-- After the sign of an exponent: at least one digit, then the end of the number. -/
def isExponentDigits (cs : List Char) : Bool :=
  !(cs.takeWhile isDecimalDigit).isEmpty && isImaginaryEnd (cs.dropWhile isDecimalDigit)

/-- What may follow the mantissa of a decimal number. -/
def isDecimalEnd : List Char → Bool
  | [] => true
  | c :: rest =>
    if c == 'e' || c == 'E' then
      match rest with
      | '+' :: digits | '-' :: digits => isExponentDigits digits
      | _ => isExponentDigits rest
    else isImaginaryEnd (c :: rest)

def isFraction (cs : List Char) : Bool := isDecimalEnd (cs.dropWhile isDigitOrBar)

def isDecimal : List Char → Bool
  | '.' :: c :: rest => isDecimalDigit c && isFraction rest
  | c :: rest =>
    isDecimalDigit c &&
      match rest.dropWhile isDigitOrBar with
      | '.' :: fraction => isFraction fraction
      | tail => isDecimalEnd tail
  | [] => false

def isUnsignedNumber (cs : List Char) : Bool :=
  match cs with
  | '0' :: 'x' :: digits | '0' :: 'X' :: digits => isRun isHexDigit digits
  | '0' :: 'o' :: digits | '0' :: 'O' :: digits => isRun isOctalDigit digits
  | '0' :: 'b' :: digits | '0' :: 'B' :: digits => isRun isBinaryDigit digits
  | _ => isDecimal cs

def isNumber : List Char → Bool
  | '+' :: rest | '-' :: rest => isUnsignedNumber rest
  | cs => isUnsignedNumber cs

def isQuoteMark (c : Char) : Bool := c == '\'' || c == '"'

def isStringLetter (c : Char) : Bool :=
  c.toLower == 'r' || c.toLower == 'b' || c.toLower == 'u' || c.toLower == 'f'

/-- A quotation mark after at most two letters of a string literal. What follows the mark is not
looked at. -/
def isQuoted : List Char → Bool
  | [] => false
  | c :: rest =>
    isQuoteMark c ||
      (isStringLetter c &&
        match rest with
        | [] => false
        | d :: rest => isQuoteMark d || (isStringLetter d && rest.head?.any isQuoteMark))

/-- Whether a text without blanks around it is a literal as it stands. -/
def isLiteral (s : String) : Bool :=
  decide (s ∈ constants) || isNumber s.toList || isQuoted s.toList

def escape : List Char → List Char
  | [] => []
  | '\\' :: rest => '\\' :: '\\' :: escape rest
  | '\'' :: rest => '\\' :: '\'' :: escape rest
  | '\n' :: rest => '\\' :: 'n' :: escape rest
  | c :: rest => c :: escape rest

def quote (s : String) : String := String.ofList ('\'' :: (escape s.toList ++ ['\'']))

def text (label : String) : String :=
  if isLiteral (Text.trim label) then Text.trim label else quote label

end ScopedFlow.Literal
