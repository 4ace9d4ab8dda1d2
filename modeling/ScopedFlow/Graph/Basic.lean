import ScopedFlow.Node.Basic
import ScopedFlow.Edge

/-!
# The graph

Nodes and edges stand in the order in which they were made. Statements are written back in node
order. Ids need not be distinct; `node?` finds the first node of an id and `lookup` the last one.
-/

namespace ScopedFlow

structure Graph where
  nodes : List Node
  edges : List Edge
  deriving DecidableEq, Repr

namespace Graph

def empty : Graph := ⟨[], []⟩

def ids (g : Graph) : List NodeId := g.nodes.map (·.id)

def addNode (g : Graph) (n : Node) : Graph := { g with nodes := g.nodes ++ [n] }

def addEdge (g : Graph) (e : Edge) : Graph :=
  if e ∈ g.edges then g else { g with edges := g.edges ++ [e] }

/-- Removes every node of an id and every edge at it. -/
def removeNode (g : Graph) (id : NodeId) : Graph :=
  ⟨g.nodes.filter fun n => n.id ≠ id, g.edges.filter fun e => !e.touches id⟩

def joins (source target : NodeId) (kind : Option EdgeKind) (e : Edge) : Bool :=
  e.source = source && e.target = target && kind.all (fun k => e.kind = k)

def removeEdges (g : Graph) (source target : NodeId) (kind : Option EdgeKind) : Graph :=
  { g with edges := g.edges.filter fun e => !joins source target kind e }

/-- The first node of an id. -/
def node? (g : Graph) (id : NodeId) : Option Node := g.nodes.find? fun n => n.id = id

/-- The last node of an id. -/
def lookup (g : Graph) (id : NodeId) : Option Node := g.nodes.reverse.find? fun n => n.id = id

def contains (g : Graph) (id : NodeId) : Bool := (g.node? id).isSome

def modifyFirst {α : Type} (p : α → Bool) (f : α → α) : List α → List α
  | [] => []
  | a :: rest => if p a then f a :: rest else a :: modifyFirst p f rest

def modifyNode (g : Graph) (id : NodeId) (f : Node → Node) : Graph :=
  { g with nodes := modifyFirst (fun n => n.id = id) f g.nodes }

/-- The two reserved worlds always exist, a body exists while its owner does. -/
def hasWorld (g : Graph) : World → Bool
  | .root | .imports => true
  | .body id => (g.node? id).any fun n => n.kind.ownsWorld

def nodesIn (g : Graph) (w : World) : List Node := g.nodes.filter fun n => n.world = w

def nodesOfKind (g : Graph) (k : NodeKind) : List Node := g.nodes.filter fun n => n.kind = k

def distinct {α : Type} [DecidableEq α] (xs : List α) : List α :=
  xs.foldl (fun seen x => if x ∈ seen then seen else seen ++ [x]) []

def worlds (g : Graph) : List World := distinct (g.nodes.map (·.world))

def edgesTo (g : Graph) (id : NodeId) : List Edge := g.edges.filter fun e => e.target = id

def edgesFrom (g : Graph) (id : NodeId) : List Edge := g.edges.filter fun e => e.source = id

/-- Source of the first edge into a node that passes the test. -/
def input (g : Graph) (id : NodeId) (p : EdgeKind → Bool) : Option NodeId :=
  ((g.edgesTo id).find? fun e => p e.kind).map (·.source)

/-- Every edge at a node, with the node at its other end. -/
def neighbors (g : Graph) (id : NodeId) : List (Edge × Option Node) :=
  (g.edges.filter (·.touches id)).map fun e =>
    (e, g.node? (if e.source = id then e.target else e.source))

end Graph

end ScopedFlow
