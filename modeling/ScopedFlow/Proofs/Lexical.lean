import ScopedFlow.Proofs.Reflection

/-!
# Reads go where the text says

The builder finds the binding of every name with its tables, and that is the binding which the text
gives; the edge to the reader starts at the node of the binding or, from another world, at a
variable that stands in for it.
-/

namespace ScopedFlow

/-- The node may be bound to the name. -/
def Node.Binds (n : Node) (name : String) : Prop := n.payload.Binds n.label name

theorem Graph.eq_of_parts {g g' : Graph} (hn : g.nodes = g'.nodes) (he : g.edges = g'.edges) :
    g = g' := by
  cases g
  cases g'
  simp_all

namespace Run
open Steps

/-- A variable that stands in a world for the node of a binding. -/
def StandsFor (q : Run) (w : Place) (o : Origin) (n : Node) : Prop :=
  n.world = q.world w ∧ n.payload = .variable (.closureRead (q.nodeId o.node) (q.world o.home))

/-- What a read in a world does to a graph, by the binding that it has. -/
inductive Reads (q : Run) (w : Place) (port : Port) (g : Graph) : Option Origin → Graph → Prop where
  /-- Nothing is added. -/
  | unbound : Reads q w port g none g
  /-- The node of the binding is wired to the reader. -/
  | own {o : Origin} (home : o.home = w) : Reads q w port g (some o)
      (g.addEdge ⟨q.nodeId o.node, q.nodeId port.target, port.kind⟩)
  /-- The stand-in is there and is wired to the reader. -/
  | again {o : Origin} {proxy : Node} (home : o.home ≠ w) (known : proxy ∈ g.nodes)
    (stands : q.StandsFor w o proxy) : Reads q w port g (some o)
      (g.addEdge ⟨proxy.id, q.nodeId port.target, port.kind⟩)
  /-- The stand-in is made, joined to the node of the binding and wired to the reader. -/
  | first {o : Origin} {proxy : Node} (home : o.home ≠ w) (stands : q.StandsFor w o proxy) :
    Reads q w port g (some o)
      (((g.addNode proxy).addEdge ⟨q.nodeId o.node, proxy.id, .closureOf⟩).addEdge
        ⟨proxy.id, q.nodeId port.target, port.kind⟩)

namespace Reflects

variable {q r r' : Run} {ss : List Step} {sketch : Sketch} {name : String}

theorem made_mem_items {k : Nat} (h : (sketches ss)[k]? = some sketch) :
    ∃ version, .made k sketch version ∈ items ss := by
  obtain ⟨front, back, rfl, rfl⟩ := node_of_sketch h
  rw [items_append]
  exact ⟨_, List.mem_append_right _ (List.mem_append_left _ List.mem_cons_self)⟩

theorem mem_nodes (h : Reflects q ss r) {item : Item} (hi : item ∈ items ss) :
    q.draw item ∈ r.builder.graph.nodes := by
  rw [h.nodes]
  exact List.mem_map.mpr ⟨item, hi, rfl⟩

theorem node_of_sketch (h : Reflects q ss r) {k : Nat} (hk : (sketches ss)[k]? = some sketch) :
    ∃ version, q.draw (.made k sketch version) ∈ r.builder.graph.nodes := by
  obtain ⟨version, hv⟩ := made_mem_items hk
  exact ⟨version, h.mem_nodes hv⟩

theorem binds_draw (h : sketch.Names name) (k version : Nat) :
    (q.draw (.made k sketch version)).Binds name := by
  obtain ⟨home, label, content⟩ := sketch
  cases content <;> exact h

theorem standIn_of_needed (h : Reflects q ss r) {w : Place} {o : Origin}
    (hn : .proxy w o.node ∈ (needed ss).map StandIn.ref) {path : List Place}
    (ho : resolve ss path name = some o) :
    ∃ proxy ∈ r.builder.graph.nodes, proxy.id = q.ref (.proxy w o.node) ∧ q.StandsFor w o proxy := by
  obtain ⟨s, hs, hsr⟩ := List.mem_map.mp hn
  obtain ⟨p, hp, hpr, hpn⟩ := proxy_of_needed hs
  have href : p.ref = .proxy w o.node := hpr.trans hsr
  obtain ⟨hw, hnode⟩ := Ref.proxy.inj href
  have hhome : p.origin.home = o.home := by
    obtain ⟨sketch, hsk, hh, -⟩ := h.wellFormed.sketch_of_needed hpn
    obtain ⟨sketch', hsk', hh', -⟩ := h.wellFormed.sketch_of_resolve ho
    rw [hnode, hsk'] at hsk
    obtain rfl := Option.some.inj hsk
    exact hh.symm.trans hh'
  refine ⟨_, h.mem_nodes hp, congrArg q.ref href, congrArg q.world hw, ?_⟩
  simp only [draw, hnode, hhome]

/-- One read, by the text before it. -/
theorem reads (h : Reflects q ss r) {w : Place} {outer : List Place} {port : Port}
    (h' : Reflects q (ss ++ [.read name w outer port]) r') :
    Reads q w port r.builder.graph (resolve ss (w :: outer) name) r'.builder.graph := by
  have hnodes := h'.nodes
  have hedges := h'.edges
  rw [items_snoc, List.map_append, ← h.nodes] at hnodes
  rw [links_snoc, List.map_append] at hedges
  cases hres : resolve ss (w :: outer) name with
  | none =>
    have hneeds : needs ss (.read name w outer port) = [] := by simp only [needs, hres]
    have hg : r.builder.graph = r'.builder.graph := by
      refine Graph.eq_of_parts ?_ ?_
      · simp [hnodes, asks, introduces, hneeds]
      · simp [h.edges, hedges, joins, introduces, hneeds, hres]
    exact hg ▸ .unbound
  | some o =>
    by_cases hhome : o.home = w
    · have hneeds : needs ss (.read name w outer port) = [] := by
        simp only [needs, hres, if_pos hhome]
      have hg : r.builder.graph.addEdge ⟨q.nodeId o.node, q.nodeId port.target, port.kind⟩ =
          r'.builder.graph := by
        refine Graph.eq_of_parts ?_ ?_
        · simp [hnodes, asks, introduces, hneeds]
        · rw [Graph.edges_addEdge h.edges, hedges]
          simp [joins, introduces, hneeds, hres, edge, Origin.ref, hhome]
      exact hg ▸ .own hhome
    · have hneeds : needs ss (.read name w outer port) = [⟨name, w, o⟩] := by
        simp only [needs, hres, if_neg hhome]
      by_cases hold : .proxy w o.node ∈ (needed ss).map StandIn.ref
      · have hintro : introduces ss (.read name w outer port) = [] := by
          simpa [introduces, hneeds, StandIn.ref] using hold
        obtain ⟨proxy, hp, hid, hstands⟩ := h.standIn_of_needed hold hres
        have hg : r.builder.graph.addEdge ⟨proxy.id, q.nodeId port.target, port.kind⟩ =
            r'.builder.graph := by
          refine Graph.eq_of_parts ?_ ?_
          · simp [hnodes, asks, hintro]
          · rw [Graph.edges_addEdge h.edges, hedges]
            simp [joins, hintro, hres, edge, Origin.ref, hhome, hid]
        exact hg ▸ .again hhome hp hstands
      · have hintro : introduces ss (.read name w outer port) = [⟨name, w, o⟩] := by
          simpa [introduces, hneeds, StandIn.ref] using hold
        have hg : ((r.builder.graph.addNode (q.draw (.proxy ⟨name, w, o⟩))).addEdge
            ⟨q.nodeId o.node, (q.draw (.proxy ⟨name, w, o⟩)).id, .closureOf⟩).addEdge
            ⟨(q.draw (.proxy ⟨name, w, o⟩)).id, q.nodeId port.target, port.kind⟩ =
            r'.builder.graph := by
          refine Graph.eq_of_parts ?_ ?_
          · simp [hnodes, asks, hintro, Graph.addNode]
          · have hadded : (r.builder.graph.addNode (q.draw (.proxy ⟨name, w, o⟩))).edges =
              Graph.distinct ((links ss).map q.edge) := h.edges
            rw [Graph.edges_addEdge (Graph.edges_addEdge hadded _), hedges]
            simp [joins, hintro, hres, edge, Origin.ref, hhome, draw, StandIn.ref]
        exact hg ▸ .first hhome ⟨rfl, rfl⟩

end Reflects

/-- Reads are wired by the text: a read in the world `w` inside `outer` reaches the last binding
of its name, before it in the text, in the innermost of these worlds that has one. The graph after
the read is part of the graph of the module. -/
theorem reads_lexically (supply : Supply) (module : List Stmt) {before after : List Step}
    {name : String} {w : Place} {outer : List Place} {port : Port}
    (h : Steps.ofModule module = before ++ .read name w outer port :: after) :
    let q := ofModule supply module
    let g := ((Run.start supply).all before).builder.graph
    let g' := ((Run.start supply).all (before ++ [.read name w outer port])).builder.graph
    Reads q w port g (resolve before (w :: outer) name) g' ∧
      (∀ o ∈ resolve before (w :: outer) name, ∃ d ∈ g.nodes,
        d.id = q.nodeId o.node ∧ d.world = q.world o.home ∧ d.Binds name) ∧
      g'.nodes <+: (build supply module).1.nodes ∧ g'.edges <+: (build supply module).1.edges := by
  have hb := reflects_before supply h
  have hs : Steps.ofModule module = (before ++ [.read name w outer port]) ++ after := by
    rw [h, List.append_cons]
  have ha := reflects_before supply hs
  have hall := reflects_ofModule supply module
  refine ⟨hb.reads ha, ?_, ?_, ?_⟩
  · intro o ho
    obtain ⟨sketch, hsk, hhome, hnames⟩ := hb.wellFormed.sketch_of_resolve ho
    obtain ⟨version, hd⟩ := hb.node_of_sketch hsk
    exact ⟨_, hd, rfl, congrArg (ofModule supply module).world hhome, Reflects.binds_draw hnames _ _⟩
  · rw [← graph_ofModule, ha.nodes, hall.nodes, hs, items_append (before ++ _), List.map_append]
    exact List.prefix_append ..
  · rw [← graph_ofModule, ha.edges, hall.edges, hs, links_append (before ++ _), List.map_append]
    exact Graph.distinct_append ..

/-- A function that reads a name of the module around it, which was written twice. -/
def closureModule : List Stmt :=
  [.assign "x" (.literal "1"), .augment "x" "+" (.literal "2"),
    .function "f" (["y"].map .required) [.ret (some (.binary "*" (.name "x") (.name "y")))]]

/-- The read of the outer name goes to its second binding, by a stand-in in the function. -/
theorem reads_lexically_closure :
    let ss := Steps.ofModule closureModule
    ss = ss.take 19 ++ .read "x" (.body 5) [.root] ⟨8, .operand 0⟩ :: ss.drop 20 ∧
      Reads (ofModule ⟨0⟩ closureModule) (.body 5) ⟨8, .operand 0⟩
        ((Run.start ⟨0⟩).all (ss.take 19)).builder.graph (some ⟨2, .root⟩)
        ((Run.start ⟨0⟩).all (ss.take 20)).builder.graph := by
  intro ss
  have hread : ss = ss.take 19 ++ .read "x" (.body 5) [.root] ⟨8, .operand 0⟩ :: ss.drop 20 := rfl
  exact ⟨hread, (reads_lexically ⟨0⟩ closureModule hread).1⟩

end Run

end ScopedFlow
