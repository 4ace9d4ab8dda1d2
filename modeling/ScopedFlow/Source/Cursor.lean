import ScopedFlow.Text.Identifier

/-!
# Places in a text, and readers that move them

A reader either takes something off the front of the text or refuses; a refused reader leaves no
trace.
-/

namespace ScopedFlow.Source

/-- The text that is left, and how many characters went before it. -/
structure Cursor where
  rest : List Char
  offset : Nat
  deriving DecidableEq, Repr

namespace Cursor

def start (text : String) : Cursor := ⟨text.toList, 0⟩

def advance (c : Cursor) (n : Nat) : Cursor := ⟨c.rest.drop n, c.offset + n⟩

def slice (start stop : Cursor) : String :=
  String.ofList (start.rest.take (stop.offset - start.offset))

def skipWhile (p : Char → Bool) (c : Cursor) : Cursor := c.advance (c.rest.takeWhile p).length

end Cursor

abbrev Reader (α : Type) := StateT Cursor Option α

def leadingWord : List Char → List Char
  | [] => []
  | c :: rest => if Text.isIdentStart c then c :: rest.takeWhile Text.isIdentPart else []

def startsWith (text : String) (cs : List Char) : Bool := text.toList.isPrefixOf cs

namespace Reader

def refuse {α : Type} : Reader α := fun _ => none

def here : Reader Cursor := get

def goTo (c : Cursor) : Reader Unit := set c

def rest : Reader (List Char) := return (← get).rest

def advance (n : Nat) : Reader Unit := modify (·.advance n)

def sliceFrom (start : Cursor) : Reader String := return start.slice (← get)

def require (b : Bool) : Reader Unit := if b then pure () else refuse

def looksAt (text : String) : Reader Bool := return startsWith text (← rest)

def symbol (text : String) : Reader Unit := do
  require (← looksAt text)
  advance text.length

def word : Reader String := do
  let w := leadingWord (← rest)
  require (!w.isEmpty)
  advance w.length
  return String.ofList w

def keyword (text : String) : Reader Unit := do
  require ((← word) = text)

def attempt {α : Type} (p : Reader α) : Reader (Option α) := fun c =>
  match p c with
  | some (a, next) => some (some a, next)
  | none => some (none, c)

/-- Whether a reader would go through; the place stays. -/
def wouldRead {α : Type} (p : Reader α) : Reader Bool := fun c => some ((p c).isSome, c)

/-- Runs a reader again and again until it refuses. -/
def repeated {α : Type} (p : Reader α) : (fuel : Nat) → Reader (List α)
  | 0 => pure []
  | fuel + 1 => do
    match ← attempt p with
    | none => pure []
    | some a => return a :: (← repeated p fuel)

end Reader

end ScopedFlow.Source
