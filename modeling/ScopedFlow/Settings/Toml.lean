import ScopedFlow.Source.Cursor

/-!
# Documents of TOML

They are read as far as settings need them: texts and integers are kept, all other values are only
checked.
-/

namespace ScopedFlow.Toml

open Source
open Source.Reader

/-- How a table came to be. -/
inductive Origin where
  /-- By a header of its own. -/
  | header
  /-- As a part of the path of a header. -/
  | path
  /-- As a part of a key with dots. -/
  | dotted
  deriving DecidableEq, Repr

inductive Item where
  | text (s : String)
  | integer (n : Int)
  /-- A value of any other type, and with it a table that is written as a value. -/
  | other
  | table (origin : Origin) (entries : List (String × Item))
  /-- Tables under one header that is written again for each. -/
  | tables (done : List (List (String × Item)))
  deriving Repr

abbrev Entries := List (String × Item)

def find? (entries : Entries) (key : String) : Option Item :=
  (entries.find? fun e => e.1 = key).map (·.2)

/-- Puts an item in the place of the one of the same key, or behind all. -/
def put (key : String) (item : Item) : Entries → Entries
  | [] => [(key, item)]
  | e :: rest => if e.1 = key then (key, item) :: rest else e :: put key item rest

/-- Changes the table that the keys of a header lead to; tables on the way are made if needed. -/
def descend (f : Entries → Option Entries) : (path : List String) → Entries → Option Entries
  | [], entries => f entries
  | key :: path, entries =>
    match find? entries key with
    | none => (descend f path []).map fun inner => put key (.table .path inner) entries
    | some (.table origin inner) =>
      (descend f path inner).map fun inner => put key (.table origin inner) entries
    | some (.tables done) =>
      match done.getLast? with
      | some last =>
        (descend f path last).map fun inner => put key (.tables (done.dropLast ++ [inner])) entries
      | none => none
    | some _ => none

/-- Adds the value of a key with dots. Every key is given once, and tables that have a header of
their own cannot be extended so. -/
def assign (item : Item) : (path : List String) → Entries → Option Entries
  | [], _ => none
  | [key], entries =>
    match find? entries key with
    | none => some (entries ++ [(key, item)])
    | some _ => none
  | key :: path, entries =>
    match find? entries key with
    | none => (assign item path []).map fun inner => put key (.table .dotted inner) entries
    | some (.table .dotted inner) =>
      (assign item path inner).map fun inner => put key (.table .dotted inner) entries
    | some _ => none

def assignAll (pairs : List (List String × Item)) (entries : Entries) : Option Entries :=
  pairs.foldlM (fun entries pair => assign pair.2 pair.1 entries) entries

inductive Header where
  | table (path : List String)
  | tables (path : List String)
  deriving Repr

structure Section where
  header : Header
  pairs : List (List String × Item)
  deriving Repr

/-- Adds a section to a document. A table has one header only, but may have been on the way to
another one. -/
def addSection (entries : Entries) (s : Section) : Option Entries :=
  match s.header with
  | .table path =>
    match path.getLast? with
    | none => none
    | some key =>
      descend (fun parent =>
        match find? parent key with
        | none => (assignAll s.pairs []).map fun inner => put key (.table .header inner) parent
        | some (.table .path inner) =>
          (assignAll s.pairs inner).map fun inner => put key (.table .header inner) parent
        | some _ => none) path.dropLast entries
  | .tables path =>
    match path.getLast? with
    | none => none
    | some key =>
      descend (fun parent =>
        match find? parent key with
        | none => (assignAll s.pairs []).map fun inner => put key (.tables [inner]) parent
        | some (.tables done) =>
          (assignAll s.pairs []).map fun inner => put key (.tables (done ++ [inner])) parent
        | some _ => none) path.dropLast entries

def isPlain (c : Char) : Bool := c == '\t' || (0x20 ≤ c.toNat && c.toNat ≠ 0x7f)

def hexValue (c : Char) : Option Nat :=
  if c.isDigit then some (c.toNat - 48)
  else if 'a' ≤ c && c ≤ 'f' then some (c.toNat - 87)
  else if 'A' ≤ c && c ≤ 'F' then some (c.toNat - 55)
  else none

def codePoint (digits : Nat) : Reader Char := do
  let cs := (← rest).take digits
  require (cs.length = digits)
  match cs.mapM hexValue with
  | none => refuse
  | some values =>
    let n := values.foldl (fun n d => 16 * n + d) 0
    require (n < 0xd800 || (0xdfff < n && n < 0x110000))
    advance digits
    return Char.ofNat n

/-- The character that an escape stands for, behind its backslash. -/
def escaped : Reader Char := do
  match ← rest with
  | [] => refuse
  | c :: _ =>
    advance 1
    match c with
    | 'b' => return '\x08'
    | 't' => return '\t'
    | 'n' => return '\n'
    | 'f' => return '\x0c'
    | 'r' => return '\r'
    | '"' => return '"'
    | '\\' => return '\\'
    | 'u' => codePoint 4
    | 'U' => codePoint 8
    | _ => refuse

def basicRest : (fuel : Nat) → Reader (List Char)
  | 0 => refuse
  | fuel + 1 => do
    match ← rest with
    | '"' :: _ =>
      advance 1
      return []
    | '\\' :: _ =>
      advance 1
      let c ← escaped
      return c :: (← basicRest fuel)
    | c :: _ =>
      require (isPlain c)
      advance 1
      return c :: (← basicRest fuel)
    | [] => refuse

def literalRest : Reader (List Char) := do
  let cs := (← rest).takeWhile fun c => isPlain c && c != '\''
  advance cs.length
  symbol "'"
  return cs

def lineEndLength : List Char → Nat
  | '\n' :: _ => 1
  | '\r' :: '\n' :: _ => 2
  | _ => 0

def isBlankOrEnd (c : Char) : Bool := c == ' ' || c == '\t' || c == '\n' || c == '\r'

/-- The quotes at the end of a text of several lines: three close it, and up to two before them
belong to it. -/
def closing (mark : Char) : Reader (Option (List Char)) := do
  let count := ((← rest).takeWhile (· == mark)).length
  if count < 3 then return none
  else
    let kept := min (count - 3) 2
    advance (kept + 3)
    return some (List.replicate kept mark)

/-- A text of several lines in triple quotes, behind the opening ones. In double quotes escapes
count, and a backslash at the end of a line takes the blanks of the next lines with it. -/
def longRest (mark : Char) (escapes : Bool) : (fuel : Nat) → Reader (List Char)
  | 0 => refuse
  | fuel + 1 => do
    match ← closing mark with
    | some cs => return cs
    | none =>
      let cs ← rest
      let ending := lineEndLength cs
      if 0 < ending then
        advance ending
        return '\n' :: (← longRest mark escapes fuel)
      else
        match cs with
        | [] => refuse
        | c :: after =>
          if escapes && c == '\\' then
            let blanks := after.takeWhile fun c => c == ' ' || c == '\t'
            if 0 < lineEndLength (after.drop blanks.length) then
              advance (1 + (after.takeWhile isBlankOrEnd).length)
              longRest mark escapes fuel
            else
              advance 1
              let c ← escaped
              return c :: (← longRest mark escapes fuel)
          else
            require (isPlain c)
            advance 1
            return c :: (← longRest mark escapes fuel)

/-- A line end right behind the opening quotes does not count. -/
def long (mark : Char) (escapes : Bool) : Reader String := do
  advance 3
  advance (lineEndLength (← rest))
  return String.ofList (← longRest mark escapes ((← rest).length + 1))

def short : Reader String := do
  match ← rest with
  | '"' :: after =>
    advance 1
    return String.ofList (← basicRest (after.length + 1))
  | '\'' :: _ =>
    advance 1
    return String.ofList (← literalRest)
  | _ => refuse

def string : Reader String := do
  if ← looksAt "\"\"\"" then long '"' true
  else if ← looksAt "'''" then long '\'' false
  else short

/-- Digits with single underscores between them. -/
def isDigits (digit : Char → Bool) : List Char → Bool
  | [] => false
  | [c] => digit c
  | c :: '_' :: rest => digit c && isDigits digit rest
  | c :: rest => digit c && isDigits digit rest

def isHexDigit (c : Char) : Bool := (hexValue c).isSome

def isOctalDigit (c : Char) : Bool := '0' ≤ c && c ≤ '7'

def isBinaryDigit (c : Char) : Bool := c == '0' || c == '1'

def valueOf (base : Nat) (cs : List Char) : Nat :=
  (cs.filterMap hexValue).foldl (fun n d => base * n + d) 0

/-- A decimal number without a sign; it does not start with an unneeded zero. -/
def natural (cs : List Char) : Option Nat :=
  if isDigits Char.isDigit cs && (cs = ['0'] || cs.head? ≠ some '0') then some (valueOf 10 cs)
  else none

/-- Numbers are 64-bit words with a sign. -/
def inWord (n : Int) : Option Int := if -Int.pow 2 63 ≤ n ∧ n < Int.pow 2 63 then some n else none

def based (base : Nat) (digit : Char → Bool) (cs : List Char) : Option Int :=
  if isDigits digit cs then inWord (valueOf base cs) else none

def integer (cs : List Char) : Option Int :=
  match cs with
  | '0' :: 'x' :: digits => based 16 isHexDigit digits
  | '0' :: 'o' :: digits => based 8 isOctalDigit digits
  | '0' :: 'b' :: digits => based 2 isBinaryDigit digits
  | '+' :: digits => (natural digits).bind fun n => inWord n
  | '-' :: digits => (natural digits).bind fun n => inWord (-n)
  | _ => (natural cs).bind fun n => inWord n

def unsigned : List Char → List Char
  | '+' :: rest | '-' :: rest => rest
  | cs => cs

def isFloat (text : List Char) : Bool :=
  let cs := unsigned text
  let whole := cs.takeWhile fun c => c.isDigit || c == '_'
  let tail := cs.drop whole.length
  let isExponent (cs : List Char) : Bool :=
    match cs with
    | 'e' :: digits | 'E' :: digits => isDigits Char.isDigit (unsigned digits)
    | _ => false
  cs = "inf".toList || cs = "nan".toList ||
    ((natural whole).isSome &&
      match tail with
      | '.' :: rest =>
        let fraction := rest.takeWhile fun c => c.isDigit || c == '_'
        let power := rest.drop fraction.length
        isDigits Char.isDigit fraction && (power.isEmpty || isExponent power)
      | _ => isExponent tail)

def isPair (low high : Nat) (cs : List Char) : Bool :=
  cs.length = 2 && cs.all Char.isDigit && low ≤ valueOf 10 cs && valueOf 10 cs ≤ high

def isDate (cs : List Char) : Bool :=
  match cs with
  | [y1, y2, y3, y4, '-', m1, m2, '-', d1, d2] =>
    let year := valueOf 10 [y1, y2, y3, y4]
    let month := valueOf 10 [m1, m2]
    let leap := (year % 4 = 0 && year % 100 ≠ 0) || year % 400 = 0
    let days :=
      if month = 2 then if leap then 29 else 28
      else if month = 4 || month = 6 || month = 9 || month = 11 then 30
      else 31
    [y1, y2, y3, y4].all Char.isDigit && isPair 1 12 [m1, m2] && isPair 1 days [d1, d2]
  | _ => false

def isTime (cs : List Char) : Bool :=
  match cs with
  | h1 :: h2 :: ':' :: m1 :: m2 :: ':' :: s1 :: s2 :: rest =>
    isPair 0 23 [h1, h2] && isPair 0 59 [m1, m2] && isPair 0 60 [s1, s2] &&
      match rest with
      | [] => true
      | '.' :: digits => !digits.isEmpty && digits.all Char.isDigit
      | _ => false
  | _ => false

def isOffset (cs : List Char) : Bool :=
  match cs with
  | ['Z'] | ['z'] => true
  | [sign, h1, h2, ':', m1, m2] =>
    (sign == '+' || sign == '-') && isPair 0 23 [h1, h2] && isPair 0 59 [m1, m2]
  | _ => false

def isTimeWithOffset (cs : List Char) : Bool :=
  let time := cs.takeWhile fun c => c.isDigit || c == ':' || c == '.'
  let offset := cs.drop time.length
  isTime time && (offset.isEmpty || isOffset offset)

def isMoment (cs : List Char) : Bool :=
  isDate cs || isTime cs ||
    (isDate (cs.take 10) &&
      match cs.drop 10 with
      | 'T' :: time | 't' :: time | ' ' :: time => isTimeWithOffset time
      | _ => false)

def isWordChar (c : Char) : Bool :=
  c.isAlphanum || c == '_' || c == '+' || c == '-' || c == '.' || c == ':'

/-- A value that is one word, except that a date may have a blank before its time. -/
def bare : Reader Item := do
  let cs ← rest
  let word := cs.takeWhile isWordChar
  let after := cs.drop word.length
  let time := (after.drop 1).takeWhile isWordChar
  if isDate word && after.head? = some ' ' && time.head?.any Char.isDigit then
    let moment := word ++ ' ' :: time
    require (isMoment moment)
    advance moment.length
    return .other
  else
    advance word.length
    match integer word with
    | some n => return .integer n
    | none =>
      require (word = "true".toList || word = "false".toList || isFloat word || isMoment word)
      return .other

def blanks : Reader Unit := do
  advance ((← rest).takeWhile fun c => c == ' ' || c == '\t').length

def comment : Reader Unit := do
  match ← rest with
  | '#' :: cs => advance (1 + (cs.takeWhile isPlain).length)
  | _ => pure ()

def lineEnd : Reader Unit := do
  let length := lineEndLength (← rest)
  require (0 < length)
  advance length

def spaces : (fuel : Nat) → Reader Unit
  | 0 => pure ()
  | fuel + 1 => do
    blanks
    comment
    match ← attempt lineEnd with
    | some () => spaces fuel
    | none => pure ()

def isKeyChar (c : Char) : Bool := c.isAlphanum || c == '_' || c == '-'

def simpleKey : Reader String := do
  let cs := (← rest).takeWhile isKeyChar
  if cs.isEmpty then short
  else
    advance cs.length
    return String.ofList cs

def key : (fuel : Nat) → Reader (List String)
  | 0 => refuse
  | fuel + 1 => do
    let first ← simpleKey
    let dot ← attempt do
      blanks
      symbol "."
      blanks
    match dot with
    | some () => return first :: (← key fuel)
    | none => return [first]

def pair (value : Reader Item) : Reader (List String × Item) := do
  let path ← key ((← rest).length + 1)
  blanks
  symbol "="
  blanks
  return (path, ← value)

def arrayRest (value : Reader Item) : (fuel : Nat) → Reader Unit
  | 0 => refuse
  | fuel + 1 => do
    spaces ((← rest).length + 1)
    match ← attempt (symbol "]") with
    | some () => pure ()
    | none =>
      let _ ← value
      spaces ((← rest).length + 1)
      match ← attempt (symbol ",") with
      | some () => arrayRest value fuel
      | none => symbol "]"

/-- The pairs of a table that is written as a value, behind its opening brace. -/
def inlineRest (value : Reader Item) : (fuel : Nat) → Reader (List (List String × Item))
  | 0 => refuse
  | fuel + 1 => do
    blanks
    let first ← pair value
    blanks
    match ← attempt (symbol ",") with
    | some () => return first :: (← inlineRest value fuel)
    | none =>
      symbol "\x7d"
      return [first]

def inline (value : Reader Item) : Reader Unit := do
  let bare ← attempt do
    blanks
    symbol "\x7d"
  match bare with
  | some () => pure ()
  | none =>
    let pairs ← inlineRest value ((← rest).length + 1)
    require (assignAll pairs []).isSome

def value : (fuel : Nat) → Reader Item
  | 0 => refuse
  | fuel + 1 => do
    match ← rest with
    | '"' :: _ | '\'' :: _ => return .text (← string)
    | '[' :: after =>
      advance 1
      arrayRest (value fuel) (after.length + 1)
      return .other
    | '\x7b' :: _ =>
      advance 1
      inline (value fuel)
      return .other
    | _ => bare

def header : Reader Header := do
  if ← looksAt "[[" then
    advance 2
    blanks
    let path ← key ((← rest).length + 1)
    blanks
    symbol "]]"
    return .tables path
  else
    symbol "["
    blanks
    let path ← key ((← rest).length + 1)
    blanks
    symbol "]"
    return .table path

/-- The end of a line, with a comment before it; at the end of the text there is none. -/
def endOfLine : Reader Unit := do
  blanks
  comment
  if (← rest).isEmpty then pure () else lineEnd

def pairs : (fuel : Nat) → Reader (List (List String × Item))
  | 0 => refuse
  | fuel + 1 => do
    let cs ← rest
    spaces (cs.length + 1)
    match ← rest with
    | [] | '[' :: _ => return []
    | cs =>
      let first ← pair (value (cs.length + 1))
      endOfLine
      return first :: (← pairs fuel)

def sections : (fuel : Nat) → Reader (List Section)
  | 0 => refuse
  | fuel + 1 => do
    if (← rest).isEmpty then return []
    else
      let h ← header
      endOfLine
      let ps ← pairs ((← rest).length + 1)
      return ⟨h, ps⟩ :: (← sections fuel)

def parse (text : String) : Option Entries := do
  let cs := text.toList
  let start := if cs.head?.any (fun c => c.toNat = 0xfeff) then cs.drop 1 else cs
  let ((top, rest), _) ← (do
    let top ← pairs (start.length + 1)
    return (top, ← sections (start.length + 1)) : Reader _) ⟨start, 0⟩
  let entries ← assignAll top []
  rest.foldlM addSection entries

end ScopedFlow.Toml
