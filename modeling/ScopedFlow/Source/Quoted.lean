import ScopedFlow.Source.Gap
import ScopedFlow.Source.Token

/-!
# String literals

A string that formats values holds interpolations between braces; the reader of one is a parameter
here.
-/

namespace ScopedFlow.Source

/-- What the opening of a string says about its content. -/
structure Quote where
  raw : Bool
  bytes : Bool
  formatted : Bool
  triple : Bool
  mark : Char
  deriving DecidableEq, Repr

/-- Length of the escape sequence whose backslash stands before the text; zero if the backslash
stands for itself. -/
def escapeLength : List Char → Nat
  | [] => 0
  | c :: cs =>
    let hexes (n : Nat) := if (cs.take n).length = n && (cs.take n).all isHex then n + 1 else 0
    if c == 'u' then hexes 4
    else if c == 'U' then hexes 8
    else if c == 'x' then hexes 2
    else if c.isDigit then ((c :: cs).take 3 |>.takeWhile Char.isDigit).length
    else if c == '\n' then 1
    else if c == '\r' then if cs.head? = some '\n' then 2 else 0
    else if "'\"abfrntv\\".toList.contains c then 1
    else if c == 'N' then
      match cs with
      | '\x7b' :: name =>
        let length := (name.takeWhile (· ≠ '\x7d')).length
        if 0 < length && length < name.length then length + 3 else 0
      | _ => 0
    else 0

/-- How far a backslash of a raw string reaches: over a mark or backslash behind it, and over a
line end. -/
def rawEscapeLength (mark : Char) (cs : List Char) : Nat :=
  let escaped := if cs.head?.any fun c => c == mark || c == '\\' then 1 else 0
  match cs.drop escaped with
  | '\r' :: '\n' :: _ => escaped + 2
  | '\r' :: _ | '\n' :: _ => escaped + 1
  | _ => escaped

namespace Reader

def openQuote : Reader Quote := do
  let cs ← rest
  let letters := cs.takeWhile isStringLetter
  let has (c : Char) := letters.any fun d => d.toLower == c
  match cs.drop letters.length with
  | [] => refuse
  | mark :: after =>
    require (isQuote mark)
    let triple := mark != '\x60' && after.take 2 == [mark, mark]
    advance (letters.length + if triple then 3 else 1)
    return ⟨has 'r', has 'b', has 'f', triple, mark⟩

/-- The content of a string up to its closing mark. A line end is refused in a string of one line
unless it opens a run of plain characters; `inRun` says that such a run has begun. -/
def content (q : Quote) (interpolation : Reader Unit) : (fuel : Nat) → (inRun : Bool) → Reader Unit
  | 0, _ => refuse
  | fuel + 1, inRun => do
    match ← rest with
    | [] => refuse
    | c :: cs =>
      if q.formatted && (c == '\x7b' || c == '\x7d') then
        if cs.head? = some c then
          advance 2
        else
          symbol "\x7b"
          interpolation
        content q interpolation fuel false
      else if c == '\\' then
        if q.raw then
          advance (rawEscapeLength q.mark cs + 1)
          content q interpolation fuel inRun
        else if q.bytes && cs.head?.any fun d => d == 'N' || d == 'u' || d == 'U' then
          advance 3
          content q interpolation fuel true
        else
          advance (escapeLength cs + 1)
          content q interpolation fuel false
      else if c == q.mark then
        if !q.triple then advance 1
        else if cs.take 2 == [c, c] then advance 3
        else
          advance 1
          content q interpolation fuel false
      else
        require (q.triple || !inRun || c != '\n')
        advance 1
        content q interpolation fuel true

def quoted (interpolation : Reader Unit) : Reader Unit := do
  let q ← openQuote
  content q interpolation ((← rest).length + 1) false

/-- Strings that stand side by side are one literal. -/
def moreStrings (ctx : Context) (interpolation : Reader Unit) : (fuel : Nat) → Reader Unit
  | 0 => pure ()
  | fuel + 1 => do
    let next ← attempt do
      let _ ← gap ctx true
      quoted interpolation
    match next with
    | some () => moreStrings ctx interpolation fuel
    | none => pure ()

end Reader

end ScopedFlow.Source
