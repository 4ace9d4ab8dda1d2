import ScopedFlow.World

/-!
# Edges

An edge leads from the node that yields a value, or comes first in a chain of clauses, to the node
that takes it.
-/

namespace ScopedFlow

inductive EdgeKind where
  | argument (index : Option Nat) (keyword : Option String)
  | operand (index : Nat)
  | writesTo
  | input
  | listElement (index : Nat)
  | dictKey (index : Nat)
  | dictValue (index : Nat)
  | accessValue
  | accessKey
  | attributeValue
  | iteratesOn
  | nextClause (index : Option Nat)
  | closureOf
  deriving DecidableEq, Repr

namespace EdgeKind

def positional (index : Nat) : EdgeKind := argument (some index) none

def keyword (name : String) : EdgeKind := argument none (some name)

/-- The name without what the edge carries. -/
def name : EdgeKind → String
  | argument _ _ => "argument"
  | operand _ => "operand"
  | writesTo => "writes_to"
  | input => "input"
  | listElement _ => "list_element"
  | dictKey _ => "dict_key"
  | dictValue _ => "dict_value"
  | accessValue => "access_value"
  | accessKey => "access_key"
  | attributeValue => "attribute_value"
  | iteratesOn => "iterates_on"
  | nextClause _ => "next_clause"
  | closureOf => "closure_of"

/-- Whether the edge carries a value. A call with such an edge going out is consumed elsewhere and
is no statement of its own. -/
def isData : EdgeKind → Bool
  | nextClause _ | closureOf => false
  | _ => true

def index? : EdgeKind → Option Nat
  | argument index _ | nextClause index => index
  | operand index | listElement index | dictKey index | dictValue index => some index
  | _ => none

def elementIndex? : EdgeKind → Option Nat
  | listElement index => some index
  | _ => none

def keyIndex? : EdgeKind → Option Nat
  | dictKey index => some index
  | _ => none

def valueIndex? : EdgeKind → Option Nat
  | dictValue index => some index
  | _ => none

/-- The number of the pair that a key or a value belongs to. -/
def pairIndex? : EdgeKind → Option Nat
  | dictKey index | dictValue index => some index
  | _ => none

/-- The kind as a person reads it: a keyword or an index follows in brackets. -/
def shown (k : EdgeKind) : String :=
  match k with
  | argument _ (some word) => "argument[" ++ word ++ "]"
  | _ =>
    match k.index? with
    | some index => k.name ++ "[" ++ toString index ++ "]"
    | none => k.name

end EdgeKind

structure Edge where
  source : NodeId
  target : NodeId
  kind : EdgeKind
  deriving DecidableEq, Repr

def Edge.touches (e : Edge) (id : NodeId) : Bool := e.source = id || e.target = id

end ScopedFlow
