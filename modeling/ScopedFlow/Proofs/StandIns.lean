import ScopedFlow.Proofs.Callee
import ScopedFlow.Program

/-!
# Variables that stand in a world for a node of another world

In the graph of a text a world has at most one of them for each node, joined to that node alone; the
node binds names by itself and lives around the world or among the imports.
-/

namespace ScopedFlow

variable {version : Nat} {sketch : Sketch}

namespace Node

/-- The node that a variable stands in for, and the world of that node. -/
def origin? (n : Node) : Option (NodeId × World) :=
  match n.payload with
  | .variable ⟨.closureRead origin home, _, _⟩ => some (origin, home)
  | _ => none

/-- The world of a stand-in and the node that it is for. -/
def standsAt? (n : Node) : Option (World × NodeId) := n.origin?.map fun o => (n.world, o.1)

/-- Whether a node binds names by itself: a header, an assignment, a definition or an import. -/
def isBinding (n : Node) : Bool :=
  match n.payload with
  | .variable _ => n.origin?.isNone
  | .functionDef _ | .classDef _ | .importStmt _ => true
  | _ => false

end Node

/-- The stand-ins of a graph are those that its worlds need. -/
structure Graph.StandsIn (g : Graph) : Prop where
  once : (g.nodes.filterMap Node.standsAt?).Nodup
  joined : ∀ n ∈ g.nodes, ∀ o ∈ n.origin?,
    (g.edgesTo n.id).filter (fun e => e.kind = .closureOf) = [⟨o.1, n.id, .closureOf⟩]
  origin : ∀ n ∈ g.nodes, ∀ o ∈ n.origin?,
    ∃ d ∈ g.nodes, d.id = o.1 ∧ d.world = o.2 ∧ d.isBinding = true
  around : ∀ n ∈ g.nodes, ∀ o ∈ n.origin?,
    o.2 = .imports ∨ o.2 ≠ n.world ∧ o.2 ∈ (WorldTree.ofGraph g).chain n.world
  ends : ∀ e ∈ g.edges, e.kind = .closureOf →
    ∃ n ∈ g.nodes, n.id = e.target ∧ ∃ home, n.origin? = some (e.source, home)

/-- Variables and calls are never given as finished payloads. -/
def Content.isOpen : Content → Bool
  | .plain (.variable _) | .plain (.call _) => false
  | _ => true

namespace Steps

variable {ss all : List Step} {s : StandIn} {k : Nat}

/-- A step as a text has it: it joins nothing as a stand-in, and what a body binds lives in it or
is an import. -/
def regular : Step → Bool
  | .node sketch => sketch.content.isOpen
  | .wire _ port | .read _ _ _ port => port.kind ≠ .closureOf
  | .bind _ body _ home => home = body || home = .imports
  | .enter _ | .leave => true

def Regular (ss : List Step) : Prop := ss.all regular = true

theorem Regular.append {ts : List Step} (hs : Regular ss) (ht : Regular ts) :
    Regular (ss ++ ts) := by
  rw [Regular, List.all_append, hs, ht]
  rfl

theorem Regular.of_mem (h : Regular ss) {s : Step} (hs : s ∈ ss) :
    regular s = true := List.all_eq_true.mp h s hs

variable {w : Place} {outer : List Place}

theorem regular_place {content : Content} (hc : content.isOpen = true) {port : Option Port}
    (hp : ∀ p ∈ port, p.kind ≠ .closureOf) (label : String) (k : Nat) :
    Regular (place w label content k port) := by
  cases port with
  | none => simp [Regular, place, regular, hc]
  | some port => simp [Regular, place, regular, hc, hp port rfl]

theorem Content.isOpen_of_isPart {content : Content} (h : content.isPart = true) :
    content.isOpen = true := by
  cases content with
  | plain payload =>
    cases payload with
    | «variable» _ | call _ => cases h
    | _ => rfl
  | _ => rfl

theorem Feeds.regular {target : Option Nat} (h : Feeds w outer (·.isData = true) target k ss) :
    Regular ss := by
  have hne {kind : EdgeKind} (hk : kind.isData = true) : kind ≠ .closureOf := by
    rintro rfl
    cases hk
  induction h with
  | nil => rfl
  | append _ _ ih ih' => exact ih.append ih'
  | read name hk k => simp [Regular, Steps.regular, hne hk]
  | node made hp _ ih =>
    have part := isPart_of_face made
    exact (regular_place (Content.isOpen_of_isPart part) (fun p h => hne (hp p h)) ..).append ih

theorem regular_header (names : List (String × Bool)) (k : Nat) : Regular (header w k names) := by
  induction names generalizing k with
  | nil => rfl
  | cons p names ih =>
    obtain ⟨name, optional⟩ := p
    have hhead : Regular [.node ⟨w, name, .param optional⟩, .bind name w k w] := by
      simp [Regular, regular, Content.isOpen]
    exact hhead.append (ih (k + 1))

theorem Regular.enclosed (h : Regular ss) (k : Nat) : Regular (enclosed k ss) := by
  have henter : Regular [.enter (.body k)] := rfl
  exact (henter.append h).append rfl

theorem regular_bind (name : String) (k : Nat) : Regular [.bind name w k w] := by
  simp [Regular, regular]

theorem Preamble.regular {label : String} {payload : Payload} {source : Option Nat}
    (h : Preamble w outer label payload source k ss) : Regular ss := by
  cases h with
  | names => exact regular_bind ..
  | feeds parts => exact parts.regular
  | behind _ index parts => exact Regular.append rfl parts.regular

theorem Suite.regular {source : Option Nat} (h : Suite w outer source k ss) : Regular ss := by
  have hplace {w : Place} (label : String) {content : Content} (hc : content.isOpen = true) (k : Nat) :
      Regular (place w label content k none) := regular_place hc (by simp) label k
  induction h with
  | nil => rfl
  | append _ _ _ ih ih' => exact ih.append ih'
  | plain source label hc parts =>
    refine (hplace label ?_ _).append parts.regular
    rcases hc with hc | rfl
    · exact Content.isOpen_of_isPart hc
    · rfl
  | write source name parts =>
    exact (hplace name rfl _).append (parts.regular.append (regular_bind ..))
  | imports w outer source k text names =>
    refine (hplace text rfl k).append ?_
    simp [Regular, Steps.regular]
  | @block w outer source k label payload owns mid preamble names inner _ ih =>
    have hopen : (Content.plain payload).isOpen = true := by
      cases payload with
      | «variable» _ | call _ => cases owns
      | _ => rfl
    exact (hplace label hopen k).append
      (preamble.regular.append (((regular_header ..).append ih).enclosed k))
  | joined _ _ _ ih => exact ih.append rfl

theorem Regular.home_of_resolve (h : Regular ss) {path : List Place} {name : String} {o : Origin}
    (hr : resolve ss path name = some o) : o.home = .imports ∨ o.home ∈ path := by
  obtain ⟨body, hbody, ho⟩ := mem_of_resolve hr
  have hreg := h.of_mem (mem_bindings ho)
  simp only [regular, Bool.or_eq_true, decide_eq_true_eq] at hreg
  rcases hreg with hb | hi
  · exact .inr (hb ▸ hbody)
  · exact .inl hi

theorem Regular.closure_link (h : Regular all) {l : Link} (hl : l ∈ links all)
    (hk : l.kind = .closureOf) :
    ∃ s, .proxy s ∈ items all ∧ s ∈ needed all ∧ l = ⟨.node s.origin.node, s.ref, .closureOf⟩ := by
  obtain ⟨before, s, after, hall, hs⟩ := mem_collect hl
  rw [List.nil_append] at hs
  have hreg := h.of_mem (s := s) (by simp [hall])
  cases s with
  | wire source port =>
    obtain rfl := List.mem_singleton.mp hs
    exact absurd hk (of_decide_eq_true hreg)
  | read name w outer port =>
    rcases List.mem_append.mp hs with hs | hs
    · obtain ⟨p, hp, rfl⟩ := List.mem_map.mp hs
      refine ⟨p, ?_, introduced_needed hall hp, rfl⟩
      rw [hall, items_append]
      exact List.mem_append_right _ (List.mem_append_left _ (proxy_mem_asks.mpr hp))
    · obtain ⟨o, -, rfl⟩ := List.mem_map.mp hs
      exact absurd hk (of_decide_eq_true hreg)
  | node sketch => cases hs
  | bind name body node home => cases hs
  | enter body => cases hs
  | leave => cases hs

theorem link_of_proxy (h : .proxy s ∈ items all) :
    ⟨.node s.origin.node, s.ref, .closureOf⟩ ∈ links all := by
  obtain ⟨before, step, after, rfl, hs⟩ := mem_collect h
  rw [List.nil_append] at hs
  have hp := proxy_mem_asks.mp hs
  rw [links_append]
  refine List.mem_append_right _ (List.mem_append_left _ ?_)
  cases step with
  | read name w outer port => exact List.mem_append_left _ (List.mem_map.mpr ⟨s, hp, rfl⟩)
  | _ => cases hp

theorem needed_of_proxy (h : .proxy s ∈ items all) :
    s ∈ needed all := List.mem_of_find?_eq_some (proxy_mem_items.mp h)

theorem proxy_unique {t : StandIn} (hs : .proxy s ∈ items all) (ht : .proxy t ∈ items all)
    (he : s.ref = t.ref) : s = t := by
  have hfind := proxy_mem_items.mp hs
  rw [he, proxy_mem_items.mp ht] at hfind
  exact (Option.some.inj hfind).symm

theorem mem_of_made (h : .made k sketch version ∈ items all) : .node sketch ∈ all := by
  obtain ⟨before, s, after, rfl, hs⟩ := mem_collect h
  cases s with
  | node other =>
    obtain ⟨-, rfl, -⟩ := Item.made.inj (List.mem_singleton.mp hs)
    simp
  | _ => simp [asks] at hs

end Steps

namespace Run
open Steps

variable {q : Run} {all : List Step}

theorem origin_made (h : Regular all) {k : Nat} (hi : .made k sketch version ∈ items all) :
    (q.draw (.made k sketch version)).origin? = none := by
  have hopen := h.of_mem (mem_of_made hi)
  obtain ⟨home, label, content⟩ := sketch
  cases content with
  | plain payload =>
    cases payload with
    | «variable» v => cases hopen
    | _ => rfl
  | _ => rfl

theorem proxy_of_origin (h : Regular all) {item : Item} (hi : item ∈ items all)
    {o : NodeId × World} (ho : o ∈ (q.draw item).origin?) :
    ∃ s, item = .proxy s ∧ o = (q.nodeId s.origin.node, q.world s.origin.home) := by
  cases item with
  | made k sketch version =>
    rw [origin_made h hi] at ho
    cases ho
  | proxy s => exact ⟨s, rfl, (Option.mem_some.mp ho).symm⟩

theorem isBinding_made (h : Regular all) {k : Nat} (hi : .made k sketch version ∈ items all)
    {name : String} (hn : sketch.Names name) :
    (q.draw (.made k sketch version)).isBinding = true := by
  have hopen := h.of_mem (mem_of_made hi)
  obtain ⟨home, label, content⟩ := sketch
  cases content with
  | plain payload =>
    cases payload with
    | «variable» v => cases hopen
    | functionDef params => rfl
    | classDef bases => rfl
    | importStmt names => rfl
    | _ => cases hn
  | param optional => rfl
  | write => rfl
  | call isMethod args => cases hn

namespace Draws

theorem nodup_items (h : Draws q all) : (items all).Nodup := by
  have hids := h.ids
  rw [Graph.ids, h.reflects.nodes, List.map_map] at hids
  exact hids.of_map

theorem closure_edges (h : Draws q all) (hreg : Regular all) {s : StandIn}
    (hs : .proxy s ∈ items all) :
    (q.builder.graph.edgesTo (q.ref s.ref)).filter (fun e => e.kind = .closureOf) =
      [⟨q.nodeId s.origin.node, q.ref s.ref, .closureOf⟩] := by
  have hmem : (⟨q.nodeId s.origin.node, q.ref s.ref, .closureOf⟩ : Edge) ∈
      (q.builder.graph.edgesTo (q.ref s.ref)).filter (fun e => e.kind = .closureOf) := by
    simp only [Graph.edgesTo, List.mem_filter, decide_true, and_true, h.reflects.edges,
      Graph.mem_distinct]
    exact List.mem_map.mpr ⟨_, link_of_proxy hs, rfl⟩
  have hall : ∀ e ∈ (q.builder.graph.edgesTo (q.ref s.ref)).filter (fun e => e.kind = .closureOf),
      e = ⟨q.nodeId s.origin.node, q.ref s.ref, .closureOf⟩ := by
    intro e he
    simp only [Graph.edgesTo, List.mem_filter, decide_eq_true_eq, h.reflects.edges,
      Graph.mem_distinct] at he
    obtain ⟨⟨hedge, htarget⟩, hkind⟩ := he
    obtain ⟨l, hl, rfl⟩ := List.mem_map.mp hedge
    obtain ⟨t, ht, -, rfl⟩ := hreg.closure_link hl hkind
    have href : t.ref = s.ref := h.ref_inj ⟨_, ht, rfl⟩ ⟨_, hs, rfl⟩ htarget
    obtain rfl := proxy_unique ht hs href
    rfl
  have hnodup : ((q.builder.graph.edgesTo (q.ref s.ref)).filter
      (fun e => e.kind = .closureOf)).Nodup := by
    rw [Graph.edgesTo, h.reflects.edges]
    exact ((Graph.nodup_distinct _).filter _).filter _
  exact List.perm_singleton.mp
    ((List.perm_ext_iff_of_nodup hnodup (List.nodup_singleton _)).mpr fun e =>
      ⟨fun he => List.mem_singleton.mpr (hall e he), fun he => List.mem_singleton.mp he ▸ hmem⟩)

theorem around (h : Draws q all) (hreg : Regular all) {s : StandIn} (hs : s ∈ needed all) :
    q.world s.origin.home = .imports ∨ q.world s.origin.home ≠ q.world s.world ∧
      q.world s.origin.home ∈ (WorldTree.ofGraph q.builder.graph).chain (q.world s.world) := by
  obtain ⟨front, outer, port, back, hall, hr, hne⟩ := read_of_needed hs
  have hfront : Regular front := List.all_eq_true.mpr fun t ht => hreg.of_mem (by simp [hall, ht])
  rcases hfront.home_of_resolve hr with hi | hin
  · exact .inl (by rw [hi]; rfl)
  · have hpath : openPath front = s.world :: outer := by
      cases h.wellFormed.admissible hall with
      | read _ path ht => exact path
    have hb (p : Place) (hp : p ∈ s.world :: outer) : p.Below (count all) :=
      ((hall ▸ h.wellFormed).of_append.below_path (hpath ▸ hp)).mono (by simp [hall])
    refine .inr ⟨fun he => hne ?_, ?_⟩
    · exact h.reflects.world_inj (hb _ hin) (hb _ List.mem_cons_self) he
    · rw [h.chain_eq hall hpath]
      exact List.mem_map.mpr ⟨_, hin, rfl⟩

theorem standsIn (h : Draws q all) (hreg : Regular all) : q.builder.graph.StandsIn := by
  have hproxy : ∀ n ∈ q.builder.graph.nodes, ∀ o ∈ n.origin?, ∃ s, .proxy s ∈ items all ∧
      n = q.draw (.proxy s) ∧ o = (q.nodeId s.origin.node, q.world s.origin.home) := by
    intro n hn o ho
    rw [h.reflects.nodes] at hn
    obtain ⟨item, hi, rfl⟩ := List.mem_map.mp hn
    obtain ⟨s, rfl, rfl⟩ := proxy_of_origin hreg hi ho
    exact ⟨s, hi, rfl, rfl⟩
  constructor
  case once =>
    rw [h.reflects.nodes, List.filterMap_map, List.Nodup, List.pairwise_filterMap]
    refine h.nodup_items.imp_of_mem fun {i j} hi hj hij key hk key' hk' he => hij ?_
    obtain ⟨o, ho, rfl⟩ := Option.map_eq_some_iff.mp hk
    obtain ⟨o', ho', rfl⟩ := Option.map_eq_some_iff.mp hk'
    obtain ⟨s, rfl, rfl⟩ := proxy_of_origin hreg hi ho
    obtain ⟨t, rfl, rfl⟩ := proxy_of_origin hreg hj ho'
    have hbounds := h.wellFormed.bounds_of_needed (needed_of_proxy hj)
    have href := h.reflects.ref_eq_of_key (needed_of_proxy hi) hbounds.1 hbounds.2 he
    rw [proxy_unique hi hj href]
  case joined =>
    intro n hn o ho
    obtain ⟨s, hs, rfl, rfl⟩ := hproxy n hn o ho
    exact h.closure_edges hreg hs
  case origin =>
    intro n hn o ho
    obtain ⟨s, hs, rfl, rfl⟩ := hproxy n hn o ho
    obtain ⟨sketch, hsketch, hhome, hnames⟩ := h.wellFormed.sketch_of_needed (needed_of_proxy hs)
    obtain ⟨version, hv⟩ := Reflects.made_mem_items hsketch
    exact ⟨_, h.reflects.mem_nodes hv, rfl, congrArg q.world hhome, isBinding_made hreg hv hnames⟩
  case around =>
    intro n hn o ho
    obtain ⟨s, hs, rfl, rfl⟩ := hproxy n hn o ho
    exact h.around hreg (needed_of_proxy hs)
  case ends =>
    intro e he hk
    rw [h.reflects.edges, Graph.mem_distinct] at he
    obtain ⟨l, hl, rfl⟩ := List.mem_map.mp he
    obtain ⟨s, hs, -, rfl⟩ := hreg.closure_link hl hk
    exact ⟨_, h.reflects.mem_nodes hs, rfl, _, rfl⟩

end Draws

end Run

/-- In the graph of a text each world has one stand-in at most for a node of another world. It is
joined to that node alone, and the node binds names by itself and lives around the world or among
the imports. -/
theorem Graph.standsIn_ofSource {supply rest : Supply} {text : String} {g : Graph}
    (h : ofSource supply text = .ok (g, rest)) : g.StandsIn := by
  unfold ofSource at h
  split at h
  · rename_i module _
    have hdraws := Run.draws_ofModule supply module
    have hg : (Run.ofModule supply module).builder.graph = g := by
      rw [Run.graph_ofModule, Except.ok.inj h]
    rw [← hg]
    exact hdraws.standsIn (Steps.suite_statements ..).regular
  · cases h

/-- A function that reads a variable of the module twice and an import once. -/
theorem Graph.standsIn_twice :
    ∃ g rest, ofSource ⟨0⟩ "import m\nx = 1\ndef f():\n    return x + x * m\n" = .ok (g, rest) ∧
      (g.nodes.filterMap Node.standsAt?).length = 2 ∧ g.StandsIn := by
  have h : ofSource ⟨0⟩ "import m\nx = 1\ndef f():\n    return x + x * m\n" = .ok (build ⟨0⟩
      [.import "import m" ["m"], .assign "x" (.literal "1"), .function "f" [] [.ret (some (.binary "+"
        (.name "x") (.binary "*" (.name "x") (.name "m"))))]]) := by
    decide +kernel
  exact ⟨_, _, h, by decide +kernel, standsIn_ofSource h⟩

end ScopedFlow
