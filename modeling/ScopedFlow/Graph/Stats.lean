import ScopedFlow.Graph.Basic

/-!
# Counts over a graph
-/

namespace ScopedFlow

structure GraphStats where
  nodes : Nat
  edges : Nat
  worlds : Nat
  /-- The kinds in use, in the order of kinds, with the number of their nodes. -/
  byKind : List (NodeKind × Nat)
  deriving DecidableEq, Repr

def Graph.stats (g : Graph) : GraphStats where
  nodes := g.nodes.length
  edges := g.edges.length
  worlds := g.worlds.length
  byKind := (NodeKind.all.map fun k => (k, (g.nodesOfKind k).length)).filter fun c => c.2 ≠ 0

namespace GraphStats

def shown (s : GraphStats) : String :=
  "World Graph Statistics:\n" ++
  "  Nodes: " ++ toString s.nodes ++ "\n" ++
  "  Edges: " ++ toString s.edges ++ "\n" ++
  "  Worlds: " ++ toString s.worlds ++ "\n" ++
  String.join (s.byKind.map fun c => "    " ++ c.1.name ++ ": " ++ toString c.2 ++ "\n")

end GraphStats

end ScopedFlow
