import ScopedFlow.Source.Cursor
import ScopedFlow.Text.Blank

/-!
# Gaps

Between two tokens may stand blanks, comments, continued lines and line ends.

Whether a line end is white space depends on what the grammar expects. Where a statement may stop it
ends the statement. Elsewhere it is passed over, but outside brackets, and wherever an operand is
still missing, the next line must not be indented less than the block it belongs to, unless it goes
on with a string.

A backslash at the end of a line continues it. Such a continuation counts as an item of the
construct around it, so a gap returns the texts of its continuations; one right before a string
belongs to the string and is not counted.
-/

namespace ScopedFlow.Source

/-- What a line end means in a gap. -/
inductive LineEnd where
  /-- The statement stops there. -/
  | stops
  /-- It is passed over if the next line is not indented less than the block. -/
  | checked
  /-- It is passed over. -/
  | free
  deriving DecidableEq, Repr

/-- White space between tokens; next to the blanks there are three marks of no width. -/
def isSpace (c : Char) : Bool :=
  Text.isBlank c || c.toNat = 0xfeff || c.toNat = 0x2060 || c.toNat = 0x200b

def tabWidth : Nat := 8

/-- What the plain layout from a place on amounts to: whether a line ended, the indentation of the
line reached, and the place where it stops. -/
structure Layout where
  lineEnded : Bool
  indent : Nat
  stop : Cursor
  deriving Repr

/-- Reads layout: line ends, spaces, tabs, returns, form feeds and continuations. The flag
`comments` says whether comments on lines of their own are passed over too, `inside` whether the
place is in such a comment. The end of the text counts as a line end. -/
def layoutFrom (comments : Bool) : (cs : List Char) → (inside lineEnded : Bool) →
    (indent offset : Nat) → Layout
  | [], _, _, _, offset => ⟨true, 0, ⟨[], offset⟩⟩
  | '\n' :: cs, _, _, _, offset => layoutFrom comments cs false true 0 (offset + 1)
  | _ :: cs, true, lineEnded, _, offset => layoutFrom comments cs true lineEnded 0 (offset + 1)
  | ' ' :: cs, false, lineEnded, indent, offset =>
    layoutFrom comments cs false lineEnded (indent + 1) (offset + 1)
  | '\t' :: cs, false, lineEnded, indent, offset =>
    layoutFrom comments cs false lineEnded (indent + tabWidth) (offset + 1)
  | '\r' :: cs, false, lineEnded, _, offset => layoutFrom comments cs false lineEnded 0 (offset + 1)
  | '\x0c' :: cs, false, lineEnded, _, offset =>
    layoutFrom comments cs false lineEnded 0 (offset + 1)
  | '\\' :: '\n' :: cs, false, lineEnded, indent, offset =>
    layoutFrom comments cs false lineEnded indent (offset + 2)
  | '\\' :: '\r' :: '\n' :: cs, false, lineEnded, indent, offset =>
    layoutFrom comments cs false lineEnded indent (offset + 3)
  | ['\\'], false, _, _, offset => ⟨true, 0, ⟨[], offset + 1⟩⟩
  | '#' :: cs, false, lineEnded, indent, offset =>
    if comments && lineEnded then layoutFrom comments cs true lineEnded 0 (offset + 1)
    else ⟨lineEnded, indent, ⟨'#' :: cs, offset⟩⟩
  | c :: cs, false, lineEnded, indent, offset => ⟨lineEnded, indent, ⟨c :: cs, offset⟩⟩

def Cursor.layout (c : Cursor) (comments : Bool) : Layout :=
  layoutFrom comments c.rest false false 0 c.offset

def isQuote (c : Char) : Bool := c == '"' || c == '\'' || c == '\x60'

/-- Letters that may stand before the quotation mark of a string. -/
def isStringLetter (c : Char) : Bool :=
  c == 'f' || c == 'F' || c == 'r' || c == 'R' || c == 'b' || c == 'B' || c == 'u' || c == 'U'

def startsString (cs : List Char) : Bool := (cs.dropWhile isStringLetter).head?.any isQuote

def continuation? : List Char → Option String
  | '\\' :: '\n' :: _ => some "\\\n"
  | '\\' :: '\r' :: '\n' :: _ => some "\\\r\n"
  | ['\\'] => some "\\"
  | _ => none

/-- One piece of a gap that is neither blank nor layout: a comment or a continuation. -/
inductive Piece where
  | comment (length : Nat)
  | continuation (text : String)
  | token

def pieceAt (cs : List Char) : Piece :=
  match cs with
  | '#' :: rest => .comment ((rest.takeWhile (· ≠ '\n')).length + 1)
  | _ =>
    match continuation? cs with
    | some text => .continuation text
    | none => .token

inductive GapEnd where
  | token (continuations : List String) (place : Cursor)
  | lineEnd
  | refused

/-- Passes a gap. At most `fuel` comments and continuations are passed, so the number of characters
left is always enough. `indent` is that of the block, and `string` tells whether the next token
may be a string. -/
def gapFrom (lineEnd : LineEnd) (indent : Nat) (string : Bool) :
    (fuel : Nat) → (continuations : List String) → Cursor → GapEnd
  | 0, _, _ => .refused
  | fuel + 1, found, c =>
    let layout := c.layout false
    let beginsString := string && startsString layout.stop.rest
    if layout.lineEnded && lineEnd = .stops then .lineEnd
    else if layout.lineEnded && lineEnd = .checked && decide (layout.indent < indent) &&
        !(string && layout.stop.rest.head?.any isQuote) then .refused
    else if beginsString then .token found layout.stop
    else
      let next := c.skipWhile isSpace
      match pieceAt next.rest with
      | .comment length => gapFrom lineEnd indent string fuel found (next.advance length)
      | .continuation text =>
        gapFrom lineEnd indent string fuel (found ++ [text]) (next.advance text.length)
      | .token => if string && startsString next.rest then .refused else .token found next

/-- The surroundings of an expression: the indentation of the block, and what a line end means
after a complete expression. -/
structure Context where
  indent : Nat
  lineEnd : LineEnd
  deriving DecidableEq, Repr

def Context.stops (ctx : Context) : Context := { ctx with lineEnd := .stops }

def Context.checked (ctx : Context) : Context := { ctx with lineEnd := .checked }

def Context.free (ctx : Context) : Context := { ctx with lineEnd := .free }

namespace Reader

/-- A gap that must lead to a token; returns its continuations. -/
def gap (ctx : Context) (string : Bool) : Reader (List String) := fun c =>
  match gapFrom ctx.lineEnd ctx.indent string (c.rest.length + 1) [] c with
  | .token found next => some (found, next)
  | _ => none

def before (ctx : Context) : Reader (List String) := gap ctx.checked false

def beforeOperand (ctx : Context) : Reader (List String) := gap ctx.checked true

/-- The gap inside brackets where they may also be closed. -/
def beforeItem (ctx : Context) : Reader (List String) := gap ctx.free true

def after (ctx : Context) : Reader (List String) := gap ctx false

/-- Whether the statement stops here. -/
def atLineEnd : Reader Bool := fun c =>
  match gapFrom .stops 0 false (c.rest.length + 1) [] c with
  | .lineEnd => some (true, c)
  | _ => some (false, c)

/-- Reads what follows a complete expression, if it is there. -/
def follow? {α : Type} (ctx : Context) (p : Reader α) : Reader (Option (List String × α)) :=
  attempt do
    let found ← after ctx
    let a ← p
    return (found, a)

end Reader

/-- How the way to the next statement ends. -/
inductive LineStart where
  | statement (continuations : List String) (place : Cursor)
  | blockEnd

/-- The way to the next statement of a block: it ends the block if the next line is indented less,
or if there is none. -/
def lineStartFrom (indent : Nat) : (fuel : Nat) → (continuations : List String) → Cursor → LineStart
  | 0, _, _ => .blockEnd
  | fuel + 1, found, c =>
    let layout := c.layout true
    if layout.lineEnded && decide (layout.indent < indent) then .blockEnd
    else if startsString layout.stop.rest then .statement found layout.stop
    else
      let next := c.skipWhile isSpace
      match pieceAt next.rest with
      | .comment length => lineStartFrom indent fuel found (next.advance length)
      | .continuation text =>
        lineStartFrom indent fuel (found ++ [text]) (next.advance text.length)
      | .token => if next.rest.isEmpty then .blockEnd else .statement found next

/-- What follows the colon of a header. -/
inductive SuiteStart where
  | inline (continuations : List String) (place : Cursor)
  | block (indent : Nat)
  | empty

def suiteStartFrom (indent : Nat) : (fuel : Nat) → (continuations : List String) → Cursor →
    SuiteStart
  | 0, _, _ => .empty
  | fuel + 1, found, c =>
    let layout := c.layout true
    if layout.lineEnded then if indent < layout.indent then .block layout.indent else .empty
    else if startsString layout.stop.rest then .inline found layout.stop
    else
      let next := c.skipWhile isSpace
      match pieceAt next.rest with
      | .comment length => suiteStartFrom indent fuel found (next.advance length)
      | .continuation text =>
        suiteStartFrom indent fuel (found ++ [text]) (next.advance text.length)
      | .token => .inline found next

def Cursor.lineStart (c : Cursor) (indent : Nat) : LineStart :=
  lineStartFrom indent (c.rest.length + 1) [] c

def Cursor.suiteStart (c : Cursor) (indent : Nat) : SuiteStart :=
  suiteStartFrom indent (c.rest.length + 1) [] c

end ScopedFlow.Source
