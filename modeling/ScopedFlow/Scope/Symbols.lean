import ScopedFlow.Table
import ScopedFlow.World

/-!
# Names in scope

There is one table of bindings for each open world, the innermost first. A write touches the
innermost table only; a read walks outward.
-/

namespace ScopedFlow

/-- The node that last wrote a name, how often the name was written in its scope, and the world
the node lives in. -/
structure Binding where
  node : NodeId
  version : Nat
  world : World
  deriving DecidableEq, Repr

structure Symbols where
  innermost : Table String Binding
  outer : List (Table String Binding)
  deriving Repr

namespace Symbols

def empty : Symbols := ⟨.empty, []⟩

def enter (s : Symbols) : Symbols := ⟨.empty, s.innermost :: s.outer⟩

/-- Closes the innermost scope; the outermost one cannot be closed. -/
def leave? (s : Symbols) : Option Symbols :=
  match s.outer with
  | [] => none
  | scope :: rest => some ⟨scope, rest⟩

def leave (s : Symbols) : Symbols := s.leave?.getD s

def nextVersion (s : Symbols) (name : String) : Nat :=
  match s.innermost.get? name with
  | some b => b.version + 1
  | none => 1

def write (s : Symbols) (name : String) (node : NodeId) (world : World) : Symbols :=
  { s with innermost := s.innermost.insert name ⟨node, s.nextVersion name, world⟩ }

/-- The innermost binding of a name; a name without one is external. -/
def read (s : Symbols) (name : String) : Option Binding :=
  (s.innermost :: s.outer).findSome? fun scope => scope.get? name

@[simp] theorem leave_enter (s : Symbols) : s.enter.leave = s := rfl

end Symbols

/-- The node that stands in for an origin within a world. -/
abbrev Proxies := Table (World × NodeId) NodeId

end ScopedFlow
