import ScopedFlow.Program

/-!
# Injection of a snippet into a world of a graph

The snippet is built with the names in scope that the graph gives to that world, so its reads bind
as they would there. The nodes and edges of the snippet come behind those of the graph, and only its
own calls are linked.
-/

namespace ScopedFlow

inductive InjectError where
  | unknownWorld (w : World)
  | unreadable (d : Diagnostic)
  deriving DecidableEq, Repr

def InjectError.message : InjectError → String
  | .unknownWorld w => "Node not found: world " ++ w.text
  | .unreadable d => d.report

namespace Symbols

def replayNode (w : World) (s : Symbols) (n : Node) : Symbols :=
  match n.payload with
  | .importStmt bindings => bindings.foldl (fun s name => s.write name n.id .imports) s
  | .variable _ | .functionDef _ | .classDef _ => s.write n.label n.id w
  | _ => s

/-- Writes the names of a world. The module holds the imports too. -/
def replayWorld (g : Graph) (s : Symbols) (w : World) : Symbols :=
  let s := if w.isRoot then s else s.enter
  (g.nodes.filter fun n => n.world = w || (w.isRoot && n.world = .imports)).foldl (replayNode w) s

/-- The names in scope at the end of a world. -/
def ofWorld (g : Graph) (w : World) : Symbols :=
  ((WorldTree.ofGraph g).path w).foldl (replayWorld g) .empty

end Symbols

namespace Graph

def proxies (g : Graph) : Proxies :=
  g.nodes.foldl (fun p n =>
    match n.payload with
    | .variable ⟨.closureRead origin _, _, _⟩ => p.insert (n.world, origin) n.id
    | _ => p) .empty

/-- The nodes and edges of another graph behind those of this one. -/
def append (g h : Graph) : Graph := h.edges.foldl addEdge { g with nodes := g.nodes ++ h.nodes }

/-- The graph that a snippet adds when it stands at the end of a world. -/
def snippet (g : Graph) (supply : Supply) (stmts : List Stmt) (w : World) : Graph × Supply :=
  let b := Builder.statements w stmts ⟨.empty, .ofWorld g w, g.proxies, supply⟩
  (b.graph, b.supply)

def accepts (g : Graph) (w : World) : Bool := g.hasWorld w && w ≠ .imports

/-- Puts a snippet at the end of a world. Returns the number of nodes added too. -/
def inject (g : Graph) (supply : Supply) (text : String) (w : World) :
    Except InjectError (Graph × Nat × Supply) :=
  if g.accepts w then
    match Source.parse text with
    | .error d => .error (.unreadable d)
    | .ok stmts =>
      let (added, supply) := g.snippet supply stmts w
      let calls := (added.nodesOfKind .call).map (·.id)
      .ok (((g.append added).linkOn calls).1, added.nodes.length, supply)
  else .error (.unknownWorld w)

end Graph

end ScopedFlow
