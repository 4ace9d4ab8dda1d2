import ScopedFlow.Graph.Basic
import ScopedFlow.Remaining
import ScopedFlow.Table

/-!
# The tree of worlds

It is never stored: the parent of the body that a node owns is the world the node lives in. A
malformed graph may have a cycle of worlds, so a chain ends where a world would come again.
-/

namespace ScopedFlow

structure WorldTree where
  parents : Table World World
  deriving Repr

namespace WorldTree

def empty : WorldTree := ⟨.empty⟩

def add (t : WorldTree) (world parent : World) : WorldTree := ⟨t.parents.insert world parent⟩

def ofGraph (g : Graph) : WorldTree :=
  g.nodes.foldl (fun t n =>
    match n.ownWorld? with
    | some w => t.add w n.world
    | none => t) empty

def parent? (t : WorldTree) (w : World) : Option World := t.parents.get? w

def contains (t : WorldTree) : World → Bool
  | .root | .imports => true
  | w => t.parents.contains w

theorem remaining_parents_lt (t : WorldTree) {w p : World} {seen : List World}
    (h : t.parent? w = some p) (hs : p ∉ seen) :
    remaining t.parents.values (p :: seen) < remaining t.parents.values seen :=
  remaining_cons_lt (Table.mem_values_of_get? h) hs

/-- The worlds around `w` outward, as far as they are new. -/
def above (t : WorldTree) (seen : List World) (w : World) : List World :=
  match h : t.parent? w with
  | none => []
  | some p =>
    if hs : p ∈ seen then []
    else
      have := t.remaining_parents_lt h hs
      p :: above t (p :: seen) p
termination_by remaining t.parents.values seen

theorem above_eq (t : WorldTree) (seen : List World) (w : World) : t.above seen w =
    (t.parent? w).elim [] fun p => if p ∈ seen then [] else p :: t.above (p :: seen) p := by
  rw [above]
  split <;> simp [*]

def chain (t : WorldTree) (w : World) : List World := w :: t.above [w] w

def path (t : WorldTree) (w : World) : List World := (t.chain w).reverse

end WorldTree

end ScopedFlow
