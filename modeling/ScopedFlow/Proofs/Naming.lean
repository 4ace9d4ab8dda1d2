import ScopedFlow.Proofs.Lexical
import ScopedFlow.Proofs.Linked
import ScopedFlow.Synthesis.Statement

/-!
# The text of a name that is read

A world has one stand-in for each node of another world, and the stand-in carries the name of the
first read that needed it. So a read is written under its own name, unless it reaches an import that
binds several names and its world has met that import under another one of them.
-/

namespace ScopedFlow

variable {p : Payload} {label : String}

/-- Nodes that are written as their labels. -/
def Payload.isName : Payload → Bool
  | .variable _ | .functionDef _ | .classDef _ | .importStmt _ => true
  | _ => false

theorem Payload.Binds.isName {name : String} (h : p.Binds label name) : p.isName = true := by
  cases p with
  | «variable» v => rfl
  | functionDef params => rfl
  | classDef bases => rfl
  | importStmt names => rfl
  | _ => exact h.elim

theorem Payload.Binds.label_eq {name : String} (h : p.Binds label name) :
    label = name ∨ ∃ names, p = .importStmt names ∧ name ∈ names := by
  cases p with
  | «variable» v => exact .inl h
  | functionDef params => exact .inl h
  | classDef bases => exact .inl h
  | importStmt names => exact .inr ⟨names, rfl, h⟩
  | _ => exact h.elim

theorem Payload.Binds.eq_or_import {a b : String} (ha : p.Binds label a) (hb : p.Binds label b) :
    a = b ∨ ∃ names, p = .importStmt names ∧ a ∈ names ∧ b ∈ names := by
  rcases ha.label_eq with hla | ⟨names, rfl, -⟩
  · rcases hb.label_eq with hlb | ⟨names, rfl, -⟩
    · exact .inl (hla.symm.trans hlb)
    · exact .inr ⟨names, rfl, ha, hb⟩
  · exact .inr ⟨names, rfl, ha, hb⟩

theorem Payload.isName_site {n : Node} (h : n.payload.isName = true) : n.site? = none := by
  obtain ⟨id, label, world, payload⟩ := n
  cases payload <;> simp_all [Payload.isName, Node.site?]

theorem Content.eq_of_payload {content : Content} {version : Nat} {names : List String}
    (h : content.payload version = .importStmt names) : content = .plain (.importStmt names) := by
  cases content <;> simp_all [Content.payload]

namespace Graph

theorem resolve_of_name {g : Graph} (style : CodeStyle) {visiting : List NodeId} {id : NodeId}
    {n : Node} (h : g.lookup id = some n) (hn : n.payload.isName = true) (hv : id ∉ visiting) :
    g.resolve style visiting id = .plain n.label := by
  rw [resolve]
  split
  · rename_i hnone
    rw [h] at hnone
    cases hnone
  · rename_i m hm
    obtain rfl : n = m := Option.some.inj (h.symm.trans hm)
    rw [dif_neg hv, renderNode]
    cases hp : n.payload <;> simp [hp, Payload.isName] at hn ⊢

end Graph

namespace Steps

/-- The name by which a world first reads a node of another world. -/
def firstName (ss : List Step) (w : Place) (origin : Nat) : Option String :=
  ((needed ss).find? fun s => s.ref = .proxy w origin).map (·.name)

/-- The name under which a read in a world is written. -/
def shownName (ss : List Step) (w : Place) (o : Origin) (name : String) : String :=
  if o.home = w then name else (firstName ss w o.node).getD name

theorem firstName_of_proxy {ss : List Step} {p : StandIn} (hp : .proxy p ∈ items ss) {w : Place}
    {d : Nat} (hr : p.ref = .proxy w d) : firstName ss w d = some p.name := by
  have hfirst := proxy_mem_items.mp hp
  rw [hr] at hfirst
  rw [firstName, hfirst, Option.map_some]

end Steps

namespace Run
open Steps

namespace Reflects

variable {q r : Run} {ss before after : List Step} {name : String} {w : Place} {outer : List Place}
  {port : Port} {o : Origin}

theorem label_of_own (h : Reflects q ss r)
    (hss : ss = before ++ .read name w outer port :: after) {sketch : Sketch}
    (hsk : (sketches ss)[o.node]? = some sketch) (hhome : sketch.home = w)
    (hn : sketch.Names name) : sketch.label = name := by
  rcases Payload.Binds.label_eq hn with hl | ⟨names, hp, -⟩
  · exact hl
  · have himp := (h.wellFormed.home_eq_imports hsk).mpr ⟨names, Content.eq_of_payload hp⟩
    rw [hhome] at himp
    cases h.wellFormed.admissible hss with
    | read _ path ht =>
      have hwf : WellFormed before := (hss ▸ h.wellFormed).of_append
      exact absurd himp (hwf.ne_imports (by simp [path]))

theorem source_of_read (h : Reflects q ss r)
    (hss : ss = before ++ .read name w outer port :: after)
    (ho : resolve before (w :: outer) name = some o) :
    ∃ n ∈ r.builder.graph.nodes, n.id = q.ref (o.ref w) ∧ n.payload.isName = true ∧
      n.label = shownName ss w o name := by
  have hbefore : WellFormed before := (hss ▸ h.wellFormed).of_append
  by_cases hw : o.home = w
  · obtain ⟨sketch, hsk, hhome, hn⟩ := hbefore.sketch_of_resolve ho
    have hsk' : (sketches ss)[o.node]? = some sketch := hss ▸ sketch_append hsk _
    obtain ⟨version, hm⟩ := h.node_of_sketch hsk'
    refine ⟨_, hm, ?_, (binds_draw hn o.node version).isName, ?_⟩
    · rw [Origin.ref, if_pos hw]
      rfl
    · rw [shownName, if_pos hw]
      exact h.label_of_own hss hsk' (hhome.trans hw) hn
  · have hneed : ⟨name, w, o⟩ ∈ needed ss := hss ▸ needed_of_read ho hw
    obtain ⟨p, hp, hpr, -⟩ := proxy_of_needed hneed
    refine ⟨_, h.mem_nodes hp, ?_, rfl, ?_⟩
    · rw [Origin.ref, if_neg hw]
      exact congrArg q.ref hpr
    · rw [shownName, if_neg hw, firstName_of_proxy hp hpr, Option.getD_some]
      rfl

/-- A read that is written under another name reaches an import that binds both. -/
theorem import_of_shownName_ne (h : Reflects q ss r)
    (hss : ss = before ++ .read name w outer port :: after)
    (ho : resolve before (w :: outer) name = some o) (hne : shownName ss w o name ≠ name) :
    ∃ names, (∃ d ∈ r.builder.graph.nodes, d.id = q.nodeId o.node ∧
      d.payload = .importStmt names) ∧ name ∈ names ∧ shownName ss w o name ∈ names := by
  have hbefore : WellFormed before := (hss ▸ h.wellFormed).of_append
  have hw : o.home ≠ w := fun hw => hne (if_pos hw)
  have hneed : ⟨name, w, o⟩ ∈ needed ss := hss ▸ needed_of_read ho hw
  obtain ⟨p, hp, hpr, hpn⟩ := proxy_of_needed hneed
  have hshown : shownName ss w o name = p.name := by
    rw [shownName, if_neg hw, firstName_of_proxy hp hpr, Option.getD_some]
  obtain ⟨-, hnode⟩ := Ref.proxy.inj hpr
  obtain ⟨sketch, hsk, -, hn⟩ := hbefore.sketch_of_resolve ho
  have hsk' : (sketches ss)[o.node]? = some sketch := hss ▸ sketch_append hsk _
  obtain ⟨sketch', hsk'', -, hn'⟩ := h.wellFormed.sketch_of_needed hpn
  rw [hnode, hsk'] at hsk''
  obtain rfl := Option.some.inj hsk''
  obtain ⟨version, hm⟩ := h.node_of_sketch hsk'
  rcases Payload.Binds.eq_or_import hn hn' with he | ⟨names, hnames, hin, hin'⟩
  · exact absurd (hshown.trans he.symm) hne
  · refine ⟨names, ⟨_, hm, rfl, ?_⟩, hin, hshown ▸ hin'⟩
    simp only [draw, Content.eq_of_payload hnames, Content.payload]

end Reflects

theorem edge_of_read (supply : Supply) {module : List Stmt} {before after : List Step}
    {name : String} {w : Place} {outer : List Place} {port : Port} {o : Origin}
    (h : Steps.ofModule module = before ++ .read name w outer port :: after)
    (ho : resolve before (w :: outer) name = some o) :
    ⟨(ofModule supply module).ref (o.ref w), (ofModule supply module).nodeId port.target,
      port.kind⟩ ∈ (build supply module).1.edges := by
  rw [← graph_ofModule, (reflects_ofModule supply module).edges, Graph.mem_distinct, h,
    links_append, List.map_append, collect_cons, joins, ho]
  simp [edge]

/-- The text of a read. What is wired to the reader is written under the name by which its world
first read the node, which is the name of the read unless it reaches an import that binds both
names. Linking changes nothing about it. -/
theorem read_shown (supply : Supply) (module : List Stmt) (style : CodeStyle)
    {before after : List Step} {name : String} {w : Place} {outer : List Place} {port : Port}
    (h : Steps.ofModule module = before ++ .read name w outer port :: after) {o : Origin}
    (ho : resolve before (w :: outer) name = some o) :
    let q := ofModule supply module
    let g := (build supply module).1
    let source := q.ref (o.ref w)
    let shown := shownName (Steps.ofModule module) w o name
    ⟨source, q.nodeId port.target, port.kind⟩ ∈ g.edges ∧
      g.value style source = .plain shown ∧ g.link.1.value style source = .plain shown ∧
      (shown ≠ name → ∃ names, (∃ d ∈ g.nodes, d.id = q.nodeId o.node ∧
        d.payload = .importStmt names) ∧ name ∈ names ∧ shown ∈ names) := by
  have hall := reflects_ofModule supply module
  have hids := ids_nodup supply (Steps.ofModule module)
  obtain ⟨n, hn, hid, hname, hlabel⟩ := hall.source_of_read h ho
  have himport := hall.import_of_shownName_ne h ho
  change (ofModule supply module).builder.graph.ids.Nodup at hids
  rw [graph_ofModule] at hn hids himport
  refine ⟨edge_of_read supply h ho, ?_, ?_, himport⟩
  · rw [← hid, ← hlabel]
    exact Graph.resolve_of_name style (Graph.lookup_of_mem hids hn) hname List.not_mem_nil
  · have hl := Graph.lookup_link hids hn
    rw [Graph.settled_of_site (Payload.isName_site hname)] at hl
    rw [← hid, ← hlabel]
    exact Graph.resolve_of_name style hl hname List.not_mem_nil

/-- An import of two names, each of them read once. -/
def twoImports : List Stmt :=
  [.import "from m import a, b" ["a", "b"], .assign "x" (.name "a"), .assign "y" (.name "b")]

/-- The second name of an import is written as the first one. -/
theorem read_shown_second_import :
    let ss := Steps.ofModule twoImports
    ss = ss.take 7 ++ .read "b" .root [] ⟨2, .writesTo⟩ :: ss.drop 8 ∧
      resolve (ss.take 7) [.root] "b" = some ⟨0, .imports⟩ ∧
      (build ⟨0⟩ twoImports).1.link.1.value .default
        ((ofModule ⟨0⟩ twoImports).ref (.proxy .root 0)) = .plain "a" := by
  intro ss
  have hread : ss = ss.take 7 ++ .read "b" .root [] ⟨2, .writesTo⟩ :: ss.drop 8 := rfl
  have hfound : resolve (ss.take 7) [.root] "b" = some ⟨0, .imports⟩ := rfl
  exact ⟨hread, hfound, (read_shown ⟨0⟩ twoImports .default hread hfound).2.2.1⟩

end Run

end ScopedFlow
