import ScopedFlow.Graph.Codec
import ScopedFlow.Supply

/-!
# Edits of a graph

An edit of an unknown node, or of a node of the wrong kind, changes nothing: an editor may well hold
on to ids that are gone. Ids are taken from the supply only for nodes that are really added.
-/

namespace ScopedFlow

/-- A graph with the supply of ids for new nodes. -/
structure Workspace where
  graph : Graph
  supply : Supply
  deriving DecidableEq, Repr

inductive EditError where
  /-- The next index would not fit into a word. -/
  | indexOverflow
  deriving DecidableEq, Repr

namespace Workspace

def mapGraph (f : Graph → Graph) (s : Workspace) : Workspace := { s with graph := f s.graph }

def insert (s : Workspace) (payload : Payload) (label : String) (w : World) : NodeId × Workspace :=
  let (id, supply) := s.supply.mint payload.kind
  (id, ⟨s.graph.addNode ⟨id, label, w, payload⟩, supply⟩)

def insertLiteral (s : Workspace) (text : String) (w : World) (target : NodeId) (kind : EdgeKind) :
    Workspace :=
  let (id, s) := s.insert .literal text w
  s.mapGraph fun g => g.addEdge ⟨id, target, kind⟩

/-- Adds a bare node to a world that exists. -/
def addNode (s : Workspace) (kind : NodeKind) (label : String) (w : World) :
    Option NodeId × Workspace :=
  if s.graph.hasWorld w then
    let (id, s) := s.insert (.default kind) label w
    (some id, s)
  else (none, s)

end Workspace

namespace Graph

def removeNodes (g : Graph) (ids : List NodeId) : Graph := ids.foldl removeNode g

def setLabel (text : String) (n : Node) : Node :=
  if n.kind = .literal then { n with label := text } else n

def updateLiteral (g : Graph) (id : NodeId) (text : String) : Graph :=
  g.modifyNode id (setLabel text)

def addEdgeBetween (g : Graph) (source target : NodeId) (kind : EdgeKind) : Graph :=
  if g.contains source && g.contains target then g.addEdge ⟨source, target, kind⟩ else g

/-- Gives a parameter of a call a text that counts before all arguments. -/
def setParam (g : Graph) (call : NodeId) (param text : String) : Graph :=
  g.modifyNode call (Node.mapSite fun s => { s with overrides := s.overrides.insert param text })

def nodeOfKind? (g : Graph) (id : NodeId) (kind : NodeKind) : Option Node :=
  (g.node? id).filter fun n => n.kind = kind

/-- Whether an edge carries the argument for a slot that may have a position. -/
def isSlot (slot : String) (position : Option Nat) : EdgeKind → Bool
  | .argument _ (some keyword) => keyword = slot
  | .argument (some index) none => position = some index
  | _ => false

/-- The number behind the largest one among some edges into a node; none if it is no word. -/
def nextIndex (g : Graph) (target : NodeId) (index : EdgeKind → Option Nat) :
    Except EditError Nat :=
  let next := ((g.edgesTo target).filterMap fun e => index e.kind).foldl
    (fun m i => max m (i + 1)) 0
  if next < indexLimit then .ok next else .error .indexOverflow

/-- The source of the first edge of a kind into a node, if it is a literal. -/
def literalSource (g : Graph) (target : NodeId) (kind : EdgeKind) : Option NodeId :=
  (g.input target fun k => k = kind).filter fun id => (g.nodeOfKind? id .literal).isSome

def updateSource (g : Graph) (target : NodeId) (kind : EdgeKind) (text : String) : Graph :=
  match g.literalSource target kind with
  | some id => g.updateLiteral id text
  | none => g

def updateListItem (g : Graph) (list : NodeId) (index : Nat) (text : String) : Graph :=
  g.updateSource list (.listElement index) text

def updateDictPair (g : Graph) (dict : NodeId) (index : Nat) (key value : Option String) : Graph :=
  let g :=
    match key with
    | some text => g.updateSource dict (.dictKey index) text
    | none => g
  match value with
  | some text => g.updateSource dict (.dictValue index) text
  | none => g

end Graph

/-- Takes off the blanks around a text, and then one pair of quotation marks. -/
def unquote (text : String) : String :=
  let trimmed := Text.trimChars text.toList
  match trimmed with
  | c :: rest =>
    if (c == '"' || c == '\'') && rest.getLast? = some c then String.ofList rest.dropLast
    else String.ofList trimmed
  | [] => ""

namespace Workspace

/-- Gives a slot of a call a literal. A literal that is there already gets a new text; any other
input is replaced. -/
def setSlot (s : Workspace) (call : NodeId) (slot value : String) : Workspace :=
  match s.graph.nodeOfKind? call .call with
  | none => s
  | some n =>
    let text := unquote value
    let position := Param.positionalSlot n.params slot
    match (s.graph.edgesTo call).find? fun e => Graph.isSlot slot position e.kind with
    | none => s.insertLiteral text n.world call (.keyword slot)
    | some e =>
      if (s.graph.nodeOfKind? e.source .literal).isSome then
        s.mapGraph fun g => g.updateLiteral e.source text
      else
        (s.mapGraph fun g => g.removeEdges e.source call (some e.kind)).insertLiteral text n.world
          call e.kind

def addListItem (s : Workspace) (list : NodeId) (text : String) : Except EditError Workspace :=
  match s.graph.nodeOfKind? list .listDisplay with
  | none => .ok s
  | some n => do
    let index ← s.graph.nextIndex list EdgeKind.elementIndex?
    return s.insertLiteral text n.world list (.listElement index)

def addDictPair (s : Workspace) (dict : NodeId) (key value : String) :
    Except EditError Workspace :=
  match s.graph.nodeOfKind? dict .dictDisplay with
  | none => .ok s
  | some n => do
    let index ← s.graph.nextIndex dict EdgeKind.pairIndex?
    let (k, s) := s.insert .literal key n.world
    let (v, s) := s.insert .literal value n.world
    return s.mapGraph fun g =>
      (g.addEdge ⟨k, dict, .dictKey index⟩).addEdge ⟨v, dict, .dictValue index⟩

end Workspace

end ScopedFlow
