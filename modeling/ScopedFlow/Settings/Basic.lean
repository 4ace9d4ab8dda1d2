import ScopedFlow.Settings.Toml

/-!
# Settings of the command line

Each of them is optional and has a default.
-/

namespace ScopedFlow

structure Settings where
  graph : Option String
  indent : Option Nat
  interpreter : Option String
  deriving DecidableEq, Repr

namespace Settings

def empty : Settings := ⟨none, none, none⟩

def defaultGraph : String := "graph.json"

def defaultIndent : Nat := 4

def defaultInterpreter : String := "python3"

def defaults : Settings := ⟨some defaultGraph, some defaultIndent, some defaultInterpreter⟩

def graphPath (s : Settings) : String := s.graph.getD defaultGraph

def indentWidth (s : Settings) : Nat := s.indent.getD defaultIndent

def interpreterName (s : Settings) : String := s.interpreter.getD defaultInterpreter

def text? (entries : Toml.Entries) (key : String) : Option (Option String) :=
  match Toml.find? entries key with
  | none => some none
  | some (.text s) => some (some s)
  | some _ => none

def nat? (entries : Toml.Entries) (key : String) : Option (Option Nat) :=
  match Toml.find? entries key with
  | none => some none
  | some (.integer n) => if 0 ≤ n then some (some n.toNat) else none
  | some _ => none

/-- Reads settings; other keys are passed over. -/
def parse (source : String) : Option Settings := do
  let entries ← Toml.parse source
  return ⟨← text? entries "graph", ← nat? entries "indent", ← text? entries "interpreter"⟩

/-- Whether a text is written without escapes, in single quotes: it has a backslash, nothing that
needs an escape, and its single quotes can be told from the closing ones. -/
def isRaw (cs : List Char) : Bool :=
  cs.contains '\\' && cs.all (fun c => c == '\n' || Toml.isPlain c) && cs.getLast? ≠ some '\'' &&
    !(List.range cs.length).any fun i => (cs.drop i).take 3 == ['\'', '\'', '\'']

def escapeChar (c : Char) : List Char :=
  match c with
  | '"' => ['\\', '"']
  | '\\' => ['\\', '\\']
  | '\x08' => ['\\', 'b']
  | '\t' => ['\\', 't']
  | '\x0c' => ['\\', 'f']
  | '\r' => ['\\', 'r']
  | c =>
    if Toml.isPlain c || c == '\n' then [c]
    else
      let digits := (Nat.toDigits 16 c.toNat).map Char.toUpper
      '\\' :: 'u' :: List.replicate (4 - digits.length) '0' ++ digits

/-- A text as a value: in double quotes unless escapes can be saved, and in triple quotes if it has
several lines. -/
def quoted (s : String) : String :=
  let cs := s.toList
  let lines := cs.contains '\n'
  if isRaw cs then
    if lines then "'''\n" ++ s ++ "'''"
    else if cs.contains '\'' then "'''" ++ s ++ "'''"
    else "'" ++ s ++ "'"
  else
    let body := String.ofList (cs.flatMap escapeChar)
    if lines then "\"\"\"\n" ++ body ++ "\"\"\"" else "\"" ++ body ++ "\""

def line (key : String) : Option String → String
  | some value => key ++ " = " ++ value ++ "\n"
  | none => ""

def isPrintable (s : Settings) : Bool := s.indent.all fun n => n < Nat.pow 2 63

/-- The text of settings: a line for each that is set. -/
def print (s : Settings) : String :=
  line "graph" (s.graph.map quoted) ++ line "indent" (s.indent.map toString) ++
    line "interpreter" (s.interpreter.map quoted)

end Settings

end ScopedFlow
