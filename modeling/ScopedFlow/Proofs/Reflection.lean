import ScopedFlow.Proofs.Distinct
import ScopedFlow.Proofs.Resolution

/-!
# A run reflects its steps

The nodes and edges of a run are the items and links that the text asks for, its tables of names
hold the last bindings of the open worlds, and its stand-ins are those that were needed so far. Ids
are taken from a later run, which never changes them.
-/

namespace ScopedFlow

namespace Run
open Steps

/-- The id of a node that the text knows. -/
def ref (r : Run) : Ref → NodeId
  | .node k => r.nodeId k
  | .proxy w origin => (r.builder.proxies.get? (r.world w, r.nodeId origin)).getD ⟨""⟩

@[simp] theorem ref_node (r : Run) (k : Nat) : r.ref (.node k) = r.nodeId k := rfl

def draw (r : Run) : Item → Node
  | .made k sketch version =>
    ⟨r.nodeId k, sketch.label, r.world sketch.home, sketch.content.payload version⟩
  | .proxy s =>
    ⟨r.ref s.ref, s.name, r.world s.world,
      .variable (.closureRead (r.nodeId s.origin.node) (r.world s.origin.home))⟩

def edge (r : Run) (l : Link) : Edge := ⟨r.ref l.source, r.ref l.target, l.kind⟩

def key (r : Run) (s : StandIn) : World × NodeId := (r.world s.world, r.nodeId s.origin.node)

/-- A table holds what a body has bound, by the last binding and the number of bindings. -/
def Holds (q : Run) (ss : List Step) (table : Table String Binding) (body : Place) : Prop :=
  ∀ name, table.get? name = (bindings ss body name).getLast?.map fun o =>
    ⟨q.nodeId o.node, (bindings ss body name).length, q.world o.home⟩

structure Reflects (q : Run) (ss : List Step) (r : Run) : Prop where
  wellFormed : WellFormed ss
  length : r.made.length = count ss
  later : Extends r q
  distinct : q.made.Nodup
  nodes : r.builder.graph.nodes = (items ss).map q.draw
  edges : r.builder.graph.edges = Graph.distinct ((links ss).map q.edge)
  scopes : List.Forall₂ (Holds q ss) (r.builder.symbols.innermost :: r.builder.symbols.outer)
    (openPath ss)
  present : ∀ s ∈ needed ss, ∃ proxy, r.builder.proxies.get? (q.key s) = some proxy
  known : ∀ k proxy, r.builder.proxies.get? k = some proxy → ∃ s ∈ needed ss, k = q.key s

namespace Reflects

variable {q r : Run} {ss : List Step} {s : Step} {w : Place} {outer : List Place} {name : String}
  {port : Port}

theorem length_le (h : Reflects q ss r) : count ss ≤ q.made.length := by
  obtain ⟨new, hq⟩ := h.later.continues
  rw [hq, List.length_append, h.length]
  exact Nat.le_add_right ..

theorem nodeId_eq (h : Reflects q ss r) {k : Nat} (hk : k < count ss) :
    r.nodeId k = q.nodeId k :=
  (h.later.continues.nodeId_eq (h.length ▸ hk)).symm

theorem world_eq (h : Reflects q ss r) {p : Place} (hp : p.Below (count ss)) :
    r.world p = q.world p :=
  (h.later.continues.world_eq (h.length ▸ hp)).symm

theorem world_inj (h : Reflects q ss r) {p p' : Place} (hp : p.Below (count ss))
    (hp' : p'.Below (count ss)) (he : q.world p = q.world p') : p = p' :=
  Run.world_inj h.distinct (hp.mono h.length_le) (hp'.mono h.length_le) he

theorem nodeId_inj (h : Reflects q ss r) {i j : Nat} (hi : i < count ss) (hj : j < count ss)
    (he : q.nodeId i = q.nodeId j) : i = j :=
  Run.nodeId_inj h.distinct (Nat.lt_of_lt_of_le hi h.length_le) (Nat.lt_of_lt_of_le hj h.length_le)
    he

theorem ref_eq_of_key (h : Reflects q ss r) {s t : StandIn} (hs : s ∈ needed ss)
    (hw : t.world.Below (count ss)) (ht : t.origin.node < count ss) (he : q.key s = q.key t) :
    s.ref = t.ref := by
  obtain ⟨hsw, hso⟩ := h.wellFormed.bounds_of_needed hs
  have hworld := h.world_inj hsw hw (congrArg Prod.fst he)
  have hnode := h.nodeId_inj hso ht (congrArg Prod.snd he)
  rw [StandIn.ref, StandIn.ref, hworld, hnode]

theorem find_scope {tables : List (Table String Binding)} {path : List Place}
    (h : List.Forall₂ (Holds q ss) tables path) (name : String) :
    (resolve ss path name = none ∧ tables.findSome? (·.get? name) = none) ∨
    ∃ o binding, resolve ss path name = some o ∧ tables.findSome? (·.get? name) = some binding ∧
      binding.node = q.nodeId o.node ∧ binding.world = q.world o.home := by
  induction h with
  | nil => exact .inl ⟨rfl, rfl⟩
  | @cons table body tables path hb _ ih =>
    simp only [resolve, List.findSome?_cons, hb name]
    cases hl : (bindings ss body name).getLast? with
    | none => simpa [resolve] using ih
    | some o => exact .inr ⟨o, _, rfl, rfl, rfl, rfl⟩

theorem read_symbols (h : Reflects q ss r) (name : String) :
    (resolve ss (openPath ss) name = none ∧ r.builder.symbols.read name = none) ∨
    ∃ o binding, resolve ss (openPath ss) name = some o ∧
      r.builder.symbols.read name = some binding ∧ binding.node = q.nodeId o.node ∧
      binding.world = q.world o.home :=
  find_scope h.scopes name

theorem nextVersion_eq (h : Reflects q ss r) (path : openPath ss = w :: outer) (name : String) :
    r.builder.symbols.nextVersion name = (bindings ss w name).length + 1 := by
  have hs := h.scopes
  rw [path] at hs
  obtain ⟨hw, -⟩ := List.forall₂_cons.mp hs
  rw [Symbols.nextVersion, hw name]
  cases hb : (bindings ss w name).getLast? with
  | none => simp [List.getLast?_eq_none_iff.mp hb]
  | some o => rfl

theorem scopes_keep {tables : List (Table String Binding)} {path : List Place}
    (h : List.Forall₂ (Holds q ss) tables path)
    (hs : ∀ body ∈ path, ∀ name, origin? body name s = none) :
    List.Forall₂ (Holds q (ss ++ [s])) tables path := by
  induction h with
  | nil => exact .nil
  | @cons table body tables path hb _ ih =>
    refine .cons (fun name => ?_) (ih fun body hb => hs body (List.mem_cons_of_mem _ hb))
    rw [bindings_snoc, hs body List.mem_cons_self name, Option.toList_none, List.append_nil]
    exact hb name

theorem still (h : Reflects q ss r) (ha : Admissible ss s) (hl : Extends (r.step s) q)
    (hmade : sketch? s = none) (hasks : asks ss s = []) (hjoins : joins ss s = [])
    (hneeds : needs ss s = []) (hgraph : (r.step s).builder.graph = r.builder.graph)
    (hproxies : (r.step s).builder.proxies = r.builder.proxies)
    (hscopes : List.Forall₂ (Holds q (ss ++ [s]))
      ((r.step s).builder.symbols.innermost :: (r.step s).builder.symbols.outer)
      (openPath (ss ++ [s]))) : Reflects q (ss ++ [s]) (r.step s) := by
  refine ⟨h.wellFormed.snoc ha, ?_, hl, h.distinct, ?_, ?_, hscopes, ?_, ?_⟩
  · rw [length_step, h.length, hmade, count_append, count_cons, hmade]
    rfl
  · rw [hgraph, items_snoc, hasks, List.append_nil, h.nodes]
  · rw [hgraph, links_snoc, hjoins, List.append_nil, h.edges]
  · rw [hproxies, needed_snoc, hneeds, List.append_nil]
    exact h.present
  · rw [hproxies, needed_snoc, hneeds, List.append_nil]
    exact h.known

theorem node (h : Reflects q ss r) {sketch : Sketch} (ha : Admissible ss (.node sketch))
    (hl : Extends (r.step (.node sketch)) q) :
    Reflects q (ss ++ [.node sketch]) (r.step (.node sketch)) := by
  have hlen := length_step r (.node sketch)
  have hid : q.nodeId (count ss) = r.builder.fresh
      (sketch.content.payload (r.builder.symbols.nextVersion sketch.label)).kind := by
    rw [hl.continues.nodeId_eq (by simp [hlen, h.length, sketch?])]
    exact nodeId_fresh h.length ..
  have hhome : r.world sketch.home = q.world sketch.home := by
    cases ha with
    | node label path plain => exact h.world_eq (h.wellFormed.below_path (by simp [path]))
    | importNode label names => rfl
  have hpayload : sketch.content.payload (r.builder.symbols.nextVersion sketch.label) =
      sketch.content.payload ((bindings ss sketch.home sketch.label).length + 1) := by
    cases ha with
    | node label path plain => rw [h.nextVersion_eq path]
    | importNode label names => rfl
  refine ⟨h.wellFormed.snoc ha, ?_, hl, h.distinct, ?_, ?_, ?_, ?_, ?_⟩
  · rw [hlen, h.length, count_append]
    rfl
  · simp only [step, Builder.add, Graph.addNode, h.nodes, items_snoc, asks, List.map_append,
      List.map_cons, List.map_nil, draw, hid, hhome, hpayload]
  · rw [links_snoc, show joins ss (.node sketch) = [] from rfl, List.append_nil]
    exact h.edges
  · rw [openPath_snoc]
    exact scopes_keep h.scopes fun _ _ _ => rfl
  · rw [needed_snoc, show needs ss (.node sketch) = [] from rfl, List.append_nil]
    exact h.present
  · rw [needed_snoc, show needs ss (.node sketch) = [] from rfl, List.append_nil]
    exact h.known

theorem wire (h : Reflects q ss r) {source : Nat} {port : Port}
    (ha : Admissible ss (.wire source port)) (hl : Extends (r.step (.wire source port)) q) :
    Reflects q (ss ++ [.wire source port]) (r.step (.wire source port)) := by
  have hedge : (⟨r.nodeId source, (r.slot port).target, (r.slot port).kind⟩ : Edge) =
      q.edge ⟨.node source, .node port.target, port.kind⟩ := by
    cases ha with
    | wire hs ht => simp only [slot, edge, ref_node, h.nodeId_eq hs, h.nodeId_eq ht]
  refine ⟨h.wellFormed.snoc ha, ?_, hl, h.distinct, ?_, ?_, ?_, ?_, ?_⟩
  · rw [length_step, h.length, count_append]
    rfl
  · simpa only [step, Builder.nodes_connect, items_snoc, asks, introduces, needs, List.filter_nil,
      List.map_nil, List.append_nil] using h.nodes
  · simp only [step, Builder.connect, Builder.wire, links_snoc, joins, List.map_append,
      List.map_cons, List.map_nil, ← hedge]
    exact Graph.edges_addEdge h.edges _
  · simpa only [step, Builder.symbols_connect, openPath_snoc, turn] using
      scopes_keep h.scopes fun _ _ _ => rfl
  · simpa only [step, Builder.proxies_connect, needed_snoc, needs, List.append_nil] using h.present
  · simpa only [step, Builder.proxies_connect, needed_snoc, needs, List.append_nil] using h.known

theorem bind (h : Reflects q ss r) {name : String} {body home : Place} {n : Nat}
    (ha : Admissible ss (.bind name body n home))
    (hl : Extends (r.step (.bind name body n home)) q) :
    Reflects q (ss ++ [.bind name body n home]) (r.step (.bind name body n home)) := by
  refine h.still ha hl rfl rfl rfl rfl rfl rfl ?_
  cases ha with
  | @bind _ _ _ outer _ sketch path hn hh hs =>
    have hbody := h.nextVersion_eq path
    have hscopes := h.scopes
    have hnodup := h.wellFormed.nodup_openPath
    rw [path] at hscopes hnodup
    obtain ⟨hw, hrest⟩ := List.forall₂_cons.mp hscopes
    have hnode := h.nodeId_eq (lt_count_of_sketch hn)
    have hhome := h.world_eq (hh ▸ h.wellFormed.below_home hn)
    simp only [openPath_snoc, turn, path]
    refine .cons (fun other => ?_) (scopes_keep hrest fun p hp other => ?_)
    · by_cases ho : name = other
      · subst ho
        simp [step, Builder.define, Symbols.write, hbody name, hnode, hhome, origin?]
      · simp only [step, Builder.define, Symbols.write, Table.get?_insert_of_ne _ ho, hw other,
          bindings_snoc, origin?, ho, and_false, if_false, Option.toList_none, List.append_nil]
    · have hne : body ≠ p := fun he => (List.nodup_cons.mp hnodup).1 (he ▸ hp)
      simp only [origin?, hne, false_and, if_false]

theorem enter (h : Reflects q ss r) {body : Place} (ha : Admissible ss (.enter body))
    (hl : Extends (r.step (.enter body)) q) :
    Reflects q (ss ++ [.enter body]) (r.step (.enter body)) := by
  refine h.still ha hl rfl rfl rfl rfl rfl rfl ?_
  cases ha with
  | enter path hk home owns once =>
    simp only [openPath_snoc, turn]
    refine .cons (fun name => ?_) (scopes_keep h.scopes fun _ _ _ => rfl)
    rw [bindings_snoc, h.wellFormed.bindings_eq_nil once]
    rfl

theorem leave (h : Reflects q ss r) (ha : Admissible ss .leave) (hl : Extends (r.step .leave) q) :
    Reflects q (ss ++ [.leave]) (r.step .leave) := by
  refine h.still ha hl rfl rfl rfl rfl rfl rfl ?_
  cases ha with
  | leave path =>
    have hscopes := scopes_keep (s := .leave) h.scopes fun _ _ _ => rfl
    rw [path] at hscopes
    obtain ⟨-, hrest⟩ := List.forall₂_cons.mp hscopes
    simp only [openPath_snoc, turn, path, List.tail_cons, step, Builder.leave, Symbols.leave,
      Symbols.leave?]
    cases ho : r.builder.symbols.outer with
    | nil =>
      rw [ho] at hrest
      cases hrest
    | cons table tables =>
      rw [ho] at hrest
      exact hrest

theorem read_unbound (h : Reflects q ss r) (ha : Admissible ss (.read name w outer port))
    (hl : Extends (r.step (.read name w outer port)) q) (hres : resolve ss (w :: outer) name = none)
    (hread : r.builder.read name (r.world w) (r.slot port) = r.builder) :
    Reflects q (ss ++ [.read name w outer port]) (r.step (.read name w outer port)) := by
  have hneeds : needs ss (.read name w outer port) = [] := by simp only [needs, hres]
  refine h.still ha hl rfl ?_ ?_ hneeds ?_ ?_ ?_
  · simp [asks, introduces, hneeds]
  · simp [joins, introduces, hneeds, hres]
  · rw [step, hread]
  · rw [step, hread]
  · rw [step, hread, openPath_snoc]
    exact scopes_keep h.scopes fun _ _ _ => rfl

theorem read_wired (h : Reflects q ss r) (ha : Admissible ss (.read name w outer port))
    (hl : Extends (r.step (.read name w outer port)) q) {o : Origin}
    (hres : resolve ss (w :: outer) name = some o)
    (hintro : introduces ss (.read name w outer port) = []) {source : NodeId}
    (hsource : source = q.ref (o.ref w)) (hread : r.builder.read name (r.world w) (r.slot port) =
      r.builder.connect source (r.slot port)) (hpresent : ∀ s ∈ needs ss (.read name w outer port),
      ∃ proxy, r.builder.proxies.get? (q.key s) = some proxy) :
    Reflects q (ss ++ [.read name w outer port]) (r.step (.read name w outer port)) := by
  have htarget : r.nodeId port.target = q.nodeId port.target := by
    cases ha with
    | read _ path ht => exact h.nodeId_eq ht
  refine ⟨h.wellFormed.snoc ha, ?_, hl, h.distinct, ?_, ?_, ?_, ?_, ?_⟩
  · rw [length_step, h.length, count_append]
    rfl
  · rw [step, hread, Builder.nodes_connect, items_snoc, asks, hintro, List.map_nil,
      List.append_nil, h.nodes]
    simp
  · have hedge : q.edge ⟨o.ref w, .node port.target, port.kind⟩ =
        ⟨source, (r.slot port).target, (r.slot port).kind⟩ := by
      simp only [edge, ref_node, slot, hsource, htarget]
    simp only [step, hread, links_snoc, joins, hintro, hres, List.map_nil, List.nil_append,
      Option.toList_some, List.map_append, List.map_cons, hedge]
    exact Graph.edges_addEdge h.edges _
  · rw [step, hread, Builder.symbols_connect, openPath_snoc]
    exact scopes_keep h.scopes fun _ _ _ => rfl
  · intro s hs
    rw [needed_snoc] at hs
    rw [step, hread, Builder.proxies_connect]
    exact (List.mem_append.mp hs).elim (h.present s) (hpresent s)
  · intro k proxy hk
    rw [step, hread, Builder.proxies_connect] at hk
    obtain ⟨s, hs, hkey⟩ := h.known k proxy hk
    exact ⟨s, by rw [needed_snoc]; exact List.mem_append_left _ hs, hkey⟩

theorem read_introduces (h : Reflects q ss r) (ha : Admissible ss (.read name w outer port))
    (hl : Extends (r.step (.read name w outer port)) q) {o : Origin}
    (hres : resolve ss (w :: outer) name = some o) (hhome : o.home ≠ w)
    (hnew : (⟨name, w, o⟩ : StandIn).ref ∉ (needed ss).map StandIn.ref) {binding : Binding}
    (hnode : binding.node = q.nodeId o.node) (hworld : binding.world = q.world o.home)
    (hread : r.builder.read name (r.world w) (r.slot port) =
      (r.builder.standIn name binding (r.world w)).connect (r.builder.fresh .variable)
        (r.slot port)) :
    Reflects q (ss ++ [.read name w outer port]) (r.step (.read name w outer port)) := by
  have hneeds : needs ss (.read name w outer port) = [⟨name, w, o⟩] := by
    simp only [needs, hres, if_neg hhome]
  have hintro : introduces ss (.read name w outer port) = [⟨name, w, o⟩] := by
    simp only [introduces, hneeds, List.filter_cons, hnew, not_false_eq_true, decide_true, if_true,
      List.filter_nil]
  have hw : r.world w = q.world w := by
    cases ha with
    | read _ path ht => exact h.world_eq (h.wellFormed.below_path (by simp [path]))
  have htarget : r.nodeId port.target = q.nodeId port.target := by
    cases ha with
    | read _ path ht => exact h.nodeId_eq ht
  have hproxies : (r.step (.read name w outer port)).builder.proxies =
      r.builder.proxies.insert (q.key ⟨name, w, o⟩) (r.builder.fresh .variable) := by
    rw [step, hread, Builder.proxies_connect, key, ← hnode, ← hw]
    rfl
  have hid : q.ref (.proxy w o.node) = r.builder.fresh .variable := by
    have hq := hl.proxies (q.key ⟨name, w, o⟩) (r.builder.fresh .variable)
      (by rw [hproxies, Table.get?_insert_self])
    rw [ref, show (q.world w, q.nodeId o.node) = q.key ⟨name, w, o⟩ from rfl, hq, Option.getD_some]
  refine ⟨h.wellFormed.snoc ha, ?_, hl, h.distinct, ?_, ?_, ?_, ?_, ?_⟩
  · rw [length_step, h.length, count_append]
    rfl
  · rw [step, hread]
    simp only [Builder.nodes_connect, Builder.standIn, Builder.wire, Builder.add,
      Graph.nodes_addEdge, Graph.addNode, h.nodes, items_snoc, asks, hintro, List.map_cons,
      List.map_nil, List.map_append, draw, StandIn.ref, hid, hnode, hworld, hw]
    rfl
  · have hclosure : q.edge ⟨.node o.node, .proxy w o.node, .closureOf⟩ =
        ⟨binding.node, r.builder.fresh .variable, .closureOf⟩ := by
      simp only [edge, hid, ref_node, hnode]
    have hedge : q.edge ⟨o.ref w, .node port.target, port.kind⟩ =
        ⟨r.builder.fresh .variable, (r.slot port).target, (r.slot port).kind⟩ := by
      simp only [edge, Origin.ref, if_neg hhome, hid, ref_node, slot, htarget]
    simp only [step, hread, links_snoc, joins, hintro, hres, List.map_cons, List.map_nil,
      StandIn.ref, Option.toList_some, List.map_append, hedge, hclosure, ← List.append_assoc]
    have hadded : (r.builder.add (.variable (.closureRead binding.node binding.world)) name
        (r.world w)).graph.edges = Graph.distinct ((links ss).map q.edge) := h.edges
    exact Graph.edges_addEdge (Graph.edges_addEdge hadded _) _
  · rw [step, hread, Builder.symbols_connect, openPath_snoc]
    exact scopes_keep h.scopes fun _ _ _ => rfl
  · intro s hs
    rw [hproxies]
    by_cases hk : q.key ⟨name, w, o⟩ = q.key s
    · exact ⟨_, by rw [← hk, Table.get?_insert_self]⟩
    · rw [Table.get?_insert_of_ne _ hk]
      rw [needed_snoc, hneeds] at hs
      rcases List.mem_append.mp hs with hs | hs
      · exact h.present s hs
      · exact absurd (congrArg q.key (List.mem_singleton.mp hs).symm) hk
  · intro k proxy hk
    rw [hproxies] at hk
    rw [needed_snoc, hneeds]
    by_cases he : q.key ⟨name, w, o⟩ = k
    · exact ⟨⟨name, w, o⟩, by simp, he.symm⟩
    · rw [Table.get?_insert_of_ne _ he] at hk
      obtain ⟨s, hs, hkey⟩ := h.known k proxy hk
      exact ⟨s, List.mem_append_left _ hs, hkey⟩

theorem read (h : Reflects q ss r) {name : String} {w : Place} {outer : List Place} {port : Port}
    (ha : Admissible ss (.read name w outer port))
    (hl : Extends (r.step (.read name w outer port)) q) :
    Reflects q (ss ++ [.read name w outer port]) (r.step (.read name w outer port)) := by
  have hpath : openPath ss = w :: outer := by
    cases ha with
    | read _ path ht => exact path
  have hbelow : w.Below (count ss) := h.wellFormed.below_path (by simp [hpath])
  have hw := h.world_eq hbelow
  have hcases := r.builder.read_cases name (r.world w) (r.slot port)
  rcases h.read_symbols name with ⟨hres, hsym⟩ | ⟨o, binding, hres, hsym, hnode, hworld⟩
  · rw [hpath] at hres
    rcases hcases with ⟨-, hread⟩ | ⟨binding, hb, -⟩
    · exact h.read_unbound ha hl hres hread
    · rw [hsym] at hb
      cases hb
  · rw [hpath] at hres
    obtain ⟨sketch, hsketch, hhome, -⟩ := h.wellFormed.sketch_of_resolve hres
    have hlt := lt_count_of_sketch hsketch
    rcases hcases with ⟨hn, -⟩ | ⟨other, hb, hcases⟩
    · rw [hsym] at hn
      cases hn
    rw [hsym] at hb
    obtain rfl := Option.some.inj hb
    have hsame : binding.world = r.world w ↔ o.home = w := by
      rw [hworld, hw]
      refine ⟨h.world_inj (hhome ▸ h.wellFormed.below_home hsketch) hbelow, ?_⟩
      rintro rfl
      rfl
    have hkey : (r.world w, binding.node) = q.key ⟨name, w, o⟩ := by
      rw [key, hw, hnode]
    rcases hcases with ⟨heq, hread⟩ | ⟨hne, proxy, hproxy, hread⟩ | ⟨hne, hnone, hread⟩
    · have hown := hsame.mp heq
      have hneeds : needs ss (.read name w outer port) = [] := by
        simp only [needs, hres, if_pos hown]
      refine h.read_wired ha hl hres (by simp [introduces, hneeds]) ?_ hread (by simp [hneeds])
      rw [Origin.ref, if_pos hown, hnode, ref_node]
    · have hhome' : o.home ≠ w := fun he => hne (hsame.mpr he)
      have hneeds : needs ss (.read name w outer port) = [⟨name, w, o⟩] := by
        simp only [needs, hres, if_neg hhome']
      rw [hkey] at hproxy
      obtain ⟨s, hs, hks⟩ := h.known _ _ hproxy
      have hold : (⟨name, w, o⟩ : StandIn).ref ∈ (needed ss).map StandIn.ref :=
        List.mem_map.mpr ⟨s, hs, h.ref_eq_of_key hs hbelow hlt hks.symm⟩
      refine h.read_wired ha hl hres (by simpa [introduces, hneeds] using hold) ?_ hread ?_
      · rw [Origin.ref, if_neg hhome', ref,
          show (q.world w, q.nodeId o.node) = q.key ⟨name, w, o⟩ from rfl,
          h.later.proxies _ _ hproxy, Option.getD_some]
      · rw [hneeds]
        intro s hs
        rw [List.mem_singleton.mp hs]
        exact ⟨proxy, hproxy⟩
    · refine h.read_introduces ha hl hres (fun he => hne (hsame.mpr he)) ?_ hnode hworld hread
      intro hold
      obtain ⟨s, hs, href⟩ := List.mem_map.mp hold
      obtain ⟨proxy, hproxy⟩ := h.present s hs
      have hk : q.key s = q.key ⟨name, w, o⟩ := by
        obtain ⟨hsw, hso⟩ := Ref.proxy.inj href
        simp only [key, hsw, hso]
      rw [hkey, ← hk, hproxy] at hnone
      cases hnone

theorem step (h : Reflects q ss r) (ha : Admissible ss s) (hl : Extends (r.step s) q) :
    Reflects q (ss ++ [s]) (r.step s) := by
  cases s with
  | node sketch => exact h.node ha hl
  | wire source port => exact h.wire ha hl
  | read name w outer port => exact h.read ha hl
  | bind name body node home => exact h.bind ha hl
  | enter body => exact h.enter ha hl
  | leave => exact h.leave ha hl

end Reflects

theorem reflects (supply : Supply) {ss : List Step} (h : WellFormed ss) (ts : List Step) :
    Reflects ((Run.start supply).all (ss ++ ts)) ss ((Run.start supply).all ss) := by
  induction h generalizing ts with
  | nil =>
    refine ⟨.nil, rfl, extends_all _ _, made_nodup _ _, rfl, rfl, ?_, ?_, ?_⟩
    · exact .cons (fun name => rfl) .nil
    · intro s hs
      cases hs
    · intro k proxy hk
      cases hk
  | @snoc ss s h ha ih =>
    have hq := ih (s :: ts)
    have hall : (Run.start supply).all (ss ++ [s]) = ((Run.start supply).all ss).step s := by
      rw [all_append]
      rfl
    rw [List.append_cons] at hq
    rw [hall]
    refine hq.step ha ?_
    rw [← hall, all_append _ (ss ++ [s])]
    exact extends_all _ _

def ofModule (supply : Supply) (module : List Stmt) : Run :=
  (Run.start supply).all (Steps.ofModule module)

theorem graph_ofModule (supply : Supply) (module : List Stmt) :
    (ofModule supply module).builder.graph = (build supply module).1 := by
  rw [build_eq_run]
  rfl

theorem reflects_before (supply : Supply) {module : List Stmt} {before after : List Step}
    (h : Steps.ofModule module = before ++ after) :
    Reflects (ofModule supply module) before ((Run.start supply).all before) := by
  have hw := wellFormed_ofModule module
  rw [h] at hw
  rw [ofModule, h]
  exact reflects supply hw.of_append after

theorem reflects_ofModule (supply : Supply) (module : List Stmt) :
    Reflects (ofModule supply module) (Steps.ofModule module) (ofModule supply module) :=
  reflects_before supply (List.append_nil _).symm

end Run

end ScopedFlow
