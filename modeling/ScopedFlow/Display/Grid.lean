import ScopedFlow.Display.Width
import ScopedFlow.Graph.Stats

/-!
# Tables

They have two columns in a box with rounded corners.
-/

namespace ScopedFlow.Display

structure Row where
  label : String
  value : String
  deriving DecidableEq, Repr

def headings : Row := ⟨"Metric", "Value"⟩

/-- The pieces of a text between its line ends. -/
def splitLines : List Char → List (List Char)
  | [] => [[]]
  | '\n' :: rest => [] :: splitLines rest
  | c :: rest =>
    match splitLines rest with
    | [] => [[c]]
    | line :: lines => (c :: line) :: lines

def cellLines (text : String) : List (List Char) := splitLines text.toList

def cellWidth (text : String) : Nat := ((cellLines text).map width).foldl max 0

def pad (columns : Nat) (line : List Char) : List Char :=
  ' ' :: line ++ List.replicate (columns - width line) ' ' ++ [' ']

/-- The lines of a row. The shorter cell is filled up with empty lines. -/
def rowLines (first second : Nat) (row : Row) : List (List Char) :=
  let left := cellLines row.label
  let right := cellLines row.value
  (List.range (max left.length right.length)).map fun i =>
    '│' :: pad first (left[i]?.getD []) ++ '│' :: pad second (right[i]?.getD []) ++ ['│']

def rule (first second : Nat) (left cross right : Char) : List Char :=
  left :: List.replicate (first + 2) '─' ++ cross :: List.replicate (second + 2) '─' ++ [right]

/-- The table of some rows under its headings; nothing without rows. -/
def grid (rows : List Row) : String :=
  if rows.isEmpty then ""
  else
    let all := headings :: rows
    let first := (all.map fun r => cellWidth r.label).foldl max 0
    let second := (all.map fun r => cellWidth r.value).foldl max 0
    let lines :=
      rule first second '╭' '┬' '╮' :: rowLines first second headings ++
        rule first second '├' '┼' '┤' :: rows.flatMap (rowLines first second) ++
        [rule first second '╰' '┴' '╯']
    "\n".intercalate (lines.map String.ofList)

/-- The totals of a graph, then its kinds of nodes. -/
def statsGrid (s : GraphStats) : String :=
  grid ([⟨"nodes", toString s.nodes⟩, ⟨"edges", toString s.edges⟩, ⟨"worlds", toString s.worlds⟩] ++
    s.byKind.map fun c => ⟨c.1.name, toString c.2⟩)

end ScopedFlow.Display
