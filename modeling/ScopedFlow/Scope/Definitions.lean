import ScopedFlow.Scope.Tree

/-!
# Definitions

Functions and classes are kept by the world that defines them and their name. A later definition of
the same name in the same world takes the place of the earlier one.
-/

namespace ScopedFlow

structure Definitions where
  table : Table (World × String) NodeId
  deriving Repr

namespace Definitions

def empty : Definitions := ⟨.empty⟩

def define (d : Definitions) (world : World) (name : String) (node : NodeId) : Definitions :=
  ⟨d.table.insert (world, name) node⟩

def ofGraph (g : Graph) : Definitions :=
  g.nodes.foldl (fun d n =>
    if n.kind.isDefinition then d.define n.world n.label n.id else d) empty

def local? (d : Definitions) (world : World) (name : String) : Option NodeId :=
  d.table.get? (world, name)

/-- The innermost definition along the chain of worlds. -/
def lookup (d : Definitions) (t : WorldTree) (world : World) (name : String) : Option NodeId :=
  (t.chain world).findSome? fun w => d.local? w name

def size (d : Definitions) : Nat := d.table.size

end Definitions

end ScopedFlow
