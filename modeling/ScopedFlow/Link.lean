import ScopedFlow.Scope.Definitions

/-!
# Linking of calls

A call of a function goes to the innermost definition of its name around it, and takes over the
parameters of the definition. A call that is still without a target and without parameters gets
parameters from the arguments that are wired to it.
-/

namespace ScopedFlow

structure LinkReport where
  total : Nat
  linked : Nat
  hydrated : Nat
  methods : Nat
  /-- The calls that are neither linked nor methods. Calls that share an id can be more than their
  ids, and then there is no such number. -/
  external : Option Nat
  deriving DecidableEq, Repr

namespace LinkReport

def ofCounts (total linked hydrated methods : Nat) : LinkReport :=
  ⟨total, linked, hydrated, methods,
    if linked + methods ≤ total then some (total - linked - methods) else none⟩

def shown (r : LinkReport) : String :=
  "Call Linker Stats:\n" ++
  "  Total Calls: " ++ toString r.total ++ "\n" ++
  "  ✅ Linked: " ++ toString r.linked ++ "\n" ++
  "  💧 Hydrated: " ++ toString r.hydrated ++ "\n" ++
  "  🔗 Methods: " ++ toString r.methods ++ "\n" ++
  "  🌍 External: " ++ toString (r.external.getD 0) ++ "\n"

end LinkReport

structure CallLink where
  call : NodeId
  target : World
  params : List Param
  deriving DecidableEq, Repr

namespace Graph

def isMethodCall (n : Node) : Bool := n.site?.any (·.isMethod)

/-- The link of a node, if it is a call of a function with a definition in sight. -/
def linkOf (g : Graph) (t : WorldTree) (d : Definitions) (n : Node) : Option CallLink :=
  match n.site? with
  | none => none
  | some site =>
    if site.isMethod then none
    else
      match d.lookup t n.world n.label with
      | none => none
      | some definition =>
        some ⟨n.id, .body definition, ((g.node? definition).map Node.params).getD []⟩

/-- Whether the first node of an id is a call. -/
def isCall (g : Graph) (id : NodeId) : Bool := (g.node? id).any fun n => n.site?.isSome

def applyLink (g : Graph) (l : CallLink) : Graph :=
  g.modifyNode l.call (Node.mapSite fun s => { s with target := some l.target, params := l.params })

/-- Whether a call has neither a target nor parameters. -/
def needsParams (g : Graph) (id : NodeId) : Bool :=
  (g.node? id).any fun n => n.site?.any fun s => s.target.isNone && s.params.isEmpty

def argumentIndices (es : List Edge) : List Nat :=
  es.filterMap fun e =>
    match e.kind with
    | .argument index _ => index
    | _ => none

def argumentKeywords (es : List Edge) : List String :=
  es.filterMap fun e =>
    match e.kind with
    | .argument _ keyword => keyword
    | _ => none

/-- Parameters that the wired arguments suggest: one for each position up to the last, and one for
each keyword in order of first appearance. -/
def suggestedParams (g : Graph) (id : NodeId) : List Param :=
  let es := g.edgesTo id
  let count := (argumentIndices es).foldl (fun m i => max m (i + 1)) 0
  ((List.range count).map fun i => Param.required ("arg" ++ toString i)) ++
    (distinct (argumentKeywords es)).map Param.required

/-- Whether a call takes the parameters that its arguments suggest. -/
def hydrates (g : Graph) (id : NodeId) : Bool :=
  g.needsParams id && !(g.suggestedParams id).isEmpty

def hydrate (g : Graph) (id : NodeId) : Graph :=
  if g.hydrates id then
    g.modifyNode id (Node.mapSite fun s => { s with params := g.suggestedParams id })
  else g

/-- Links the calls of the given ids. Every link is found in the graph as it was. -/
def linkOn (g : Graph) (ids : List NodeId) : Graph × LinkReport :=
  let calls := distinct ids
  let tree := WorldTree.ofGraph g
  let definitions := Definitions.ofGraph g
  let members := g.nodes.filter fun n => n.id ∈ calls
  let links := members.filterMap (g.linkOf tree definitions)
  let linked := links.foldl applyLink g
  (calls.foldl hydrate linked,
    .ofCounts calls.length (links.countP fun l => g.isCall l.call) (calls.countP linked.hydrates)
      (members.countP isMethodCall))

def link (g : Graph) : Graph × LinkReport :=
  g.linkOn ((g.nodesOfKind .call).map (·.id))

end Graph

end ScopedFlow
