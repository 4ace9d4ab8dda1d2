import ScopedFlow.World

/-!
# The kinds of nodes

They have names and an order.
-/

namespace ScopedFlow

inductive NodeKind where
  | functionDef
  | classDef
  | variable
  | call
  | literal
  | operator
  | returnStmt
  | importStmt
  | ifBlock
  | elifBlock
  | elseBlock
  | forBlock
  | whileBlock
  | tryBlock
  | exceptBlock
  | listDisplay
  | dictDisplay
  | accessor
  | attribute
  deriving DecidableEq, Repr

namespace NodeKind

def name : NodeKind → String
  | functionDef => "function_def"
  | classDef => "class_def"
  | .variable => "variable"
  | call => "call"
  | literal => "literal"
  | operator => "operator"
  | returnStmt => "return"
  | importStmt => "import"
  | ifBlock => "if_block"
  | elifBlock => "elif_block"
  | elseBlock => "else_block"
  | forBlock => "for_block"
  | whileBlock => "while_block"
  | tryBlock => "try_block"
  | exceptBlock => "except_block"
  | listDisplay => "list_constructor"
  | dictDisplay => "dict_constructor"
  | accessor => "accessor"
  | .attribute => "attribute"

def all : List NodeKind :=
  [functionDef, classDef, .variable, call, literal, operator, returnStmt, importStmt, ifBlock,
    elifBlock, elseBlock, forBlock, whileBlock, tryBlock, exceptBlock, listDisplay, dictDisplay,
    accessor, .attribute]

theorem mem_all (k : NodeKind) : k ∈ all := by cases k <;> decide

def ownsWorld : NodeKind → Bool
  | functionDef | classDef | ifBlock | elifBlock | elseBlock | forBlock | whileBlock | tryBlock
  | exceptBlock => true
  | _ => false

def isDefinition : NodeKind → Bool
  | functionDef | classDef => true
  | _ => false

def ofName? (s : String) : Option NodeKind := all.find? fun k => k.name = s

theorem ofName?_name (k : NodeKind) : ofName? k.name = some k := by cases k <;> decide

/-- Short names accepted besides the full ones. -/
def ofAlias? (s : String) : Option NodeKind :=
  if s = "def" ∨ s = "function" then some functionDef
  else if s = "class" then some classDef
  else if s = "var" then some .variable
  else if s = "list" then some listDisplay
  else if s = "dict" then some dictDisplay
  else none

/-- Letter case as far as it can meet an ASCII name: outside ASCII only the Kelvin sign has an
ASCII letter as its lower case. A hyphen stands for a low line. -/
def foldChar (c : Char) : Char :=
  if c.toNat = 0x212a then 'k' else if c = '-' then '_' else c.toLower

/-- Reads a kind as a person types it. -/
def parse (s : String) : Except NameError NodeKind :=
  let folded := String.ofList ((Text.trimChars s.toList).map foldChar)
  match (ofName? folded).or (ofAlias? folded) with
  | some kind => .ok kind
  | none => .error (.unknownKind s)

def position (k : NodeKind) : Nat := all.idxOf k

end NodeKind

end ScopedFlow
