import ScopedFlow.Proofs.Lexical
import ScopedFlow.Proofs.Linked
import ScopedFlow.Proofs.Segment
import ScopedFlow.Synthesis.Source

/-!
# The linked graph of a text

Its nodes are the items of the text in their order, the edges into a numbered node are the inputs
that the text gives it, and the edges out of a node that carries no name are its outputs.
-/

namespace ScopedFlow

namespace Steps

def InUse (all : List Step) (a : Ref) : Prop := ∃ item ∈ items all, item.ref = a

theorem inUse_node {all : List Step} {k : Nat} (h : k < count all) : InUse all (.node k) := by
  obtain ⟨version, hv⟩ := Run.Reflects.made_mem_items (List.getElem?_eq_getElem h)
  exact ⟨_, hv, rfl⟩

theorem inUse_needed {all : List Step} {s : StandIn} (h : s ∈ needed all) : InUse all s.ref := by
  obtain ⟨p, hp, hr, -⟩ := proxy_of_needed h
  exact ⟨_, hp, hr⟩

/-- A number whose node may be bound to a name. -/
def Named (all : List Step) (n : Nat) : Prop :=
  ∃ sketch name, (sketches all)[n]? = some sketch ∧ sketch.Names name

section Links

variable {all before after : List Step}

theorem introduced_needed {s : Step} {p : StandIn} (h : all = before ++ s :: after)
    (hp : p ∈ introduces before s) : p ∈ needed all := by
  rw [h, needed, collect_append, collect_cons, List.nil_append]
  exact List.mem_append_right _ (List.mem_append_left _ (List.mem_of_mem_filter hp))

theorem inUse_read (hw : WellFormed all) {name : String} {w : Place} {outer : List Place}
    {port : Port} (h : all = before ++ .read name w outer port :: after) {o : Origin}
    (ho : resolve before (w :: outer) name = some o) : InUse all (o.ref w) := by
  unfold Origin.ref
  split
  · obtain ⟨sketch, hs, -⟩ := (h ▸ hw).of_append.sketch_of_resolve ho
    exact inUse_node (lt_count_of_sketch (h ▸ sketch_append hs _))
  · rename_i hhome
    have hneeds : ⟨name, w, o⟩ ∈ needed all := h ▸ needed_of_read ho hhome
    exact inUse_needed hneeds

theorem inUse_link (hw : WellFormed all) {l : Link} (hl : l ∈ links all) :
    InUse all l.source ∧ InUse all l.target := by
  obtain ⟨before, s, after, hall, hs⟩ := mem_collect hl
  rw [List.nil_append] at hs
  have hle {n : Nat} (hn : n < count before) : InUse all (.node n) :=
    inUse_node (Nat.lt_of_lt_of_le hn (by simp [hall]))
  have ha := hw.admissible hall
  cases s with
  | wire source port =>
    cases ha with
    | wire hs' ht =>
      obtain rfl := List.mem_singleton.mp hs
      exact ⟨hle hs', hle ht⟩
  | read name w outer port =>
    cases ha with
    | read _ path ht =>
      rcases List.mem_append.mp hs with hs | hs
      · obtain ⟨p, hp, rfl⟩ := List.mem_map.mp hs
        have hn := introduced_needed hall hp
        exact ⟨inUse_node (hw.bounds_of_needed hn).2, inUse_needed hn⟩
      · obtain ⟨o, ho, rfl⟩ := List.mem_map.mp hs
        exact ⟨inUse_read hw hall (Option.mem_toList.mp ho), hle ht⟩
  | node sketch => cases hs
  | bind name body node home => cases hs
  | enter body => cases hs
  | leave => cases hs

theorem joins_from (hw : WellFormed all) {s : Step} (h : all = before ++ s :: after) {n : Nat}
    (hn : ¬ Named all n) : (joins before s).filter (fun l => l.source = .node n) =
      (outputs n [s]).map fun port => ⟨.node n, .node port.target, port.kind⟩ := by
  cases s with
  | wire source port => by_cases hs : source = n <;> simp [joins, outputs, hs]
  | read name w outer port =>
    refine List.filter_eq_nil_iff.mpr fun l hl he => hn ?_
    rcases List.mem_append.mp hl with hl | hl
    · obtain ⟨p, hp, rfl⟩ := List.mem_map.mp hl
      obtain ⟨sketch, hs, -, hnames⟩ := hw.sketch_of_needed (introduced_needed h hp)
      obtain rfl : p.origin.node = n := by simpa using he
      exact ⟨sketch, _, hs, hnames⟩
    · obtain ⟨o, ho, rfl⟩ := List.mem_map.mp hl
      obtain ⟨sketch, hs, -, hnames⟩ :=
        (h ▸ hw).of_append.sketch_of_resolve (Option.mem_toList.mp ho)
      have hnode : o.node = n := by
        have he' : o.ref w = .node n := by simpa using he
        unfold Origin.ref at he'
        split at he'
        · exact Ref.node.inj he'
        · cases he'
      exact ⟨sketch, _, hnode ▸ h ▸ sketch_append hs _, hnames⟩
  | node sketch => rfl
  | bind name body node home => rfl
  | enter body => rfl
  | leave => rfl

theorem links_from (hw : WellFormed all) {n : Nat} (hn : ¬ Named all n) {ss : List Step}
    (h : all = before ++ ss) : (collect joins before ss).filter (fun l => l.source = .node n) =
      (outputs n ss).map fun port => ⟨.node n, .node port.target, port.kind⟩ := by
  induction ss generalizing before with
  | nil => rfl
  | cons s ss ih =>
    rw [collect_cons, List.filter_append, joins_from hw h hn, ih (by simpa using h),
      ← List.map_append, ← outputs_append, List.singleton_append]

end Links

end Steps

namespace Run
open Steps

def linked (q : Run) : Graph := q.builder.graph.link.1

def finished (q : Run) (item : Item) : Node := q.builder.graph.settled (q.draw item)

theorem id_draw (q : Run) (item : Item) : (q.draw item).id = q.ref item.ref := by
  cases item <;> rfl

theorem world_draw (q : Run) (item : Item) : (q.draw item).world = q.world item.home := by
  cases item <;> rfl

/-- The run has drawn the whole text. -/
structure Draws (q : Run) (all : List Step) : Prop where
  reflects : Reflects q all q
  ids : q.builder.graph.ids.Nodup

theorem draws_ofModule (supply : Supply) (module : List Stmt) :
    Draws (ofModule supply module) (Steps.ofModule module) :=
  ⟨reflects_ofModule supply module, ids_nodup supply (Steps.ofModule module)⟩

namespace Draws

variable {q : Run} {all : List Step} {n : Nat}

theorem wellFormed (h : Draws q all) : WellFormed all := h.reflects.wellFormed

theorem edges (h : Draws q all) : q.linked.edges = Graph.distinct ((links all).map q.edge) := by
  rw [linked, Graph.edges_link, h.reflects.edges]

theorem nodes (h : Draws q all) : q.linked.nodes = (items all).map q.finished := by
  rw [linked, Graph.nodes_link h.ids, h.reflects.nodes, List.map_map]
  rfl

theorem ref_inj (h : Draws q all) {a b : Ref} (ha : InUse all a) (hb : InUse all b)
    (he : q.ref a = q.ref b) : a = b := by
  obtain ⟨i, hi, rfl⟩ := ha
  obtain ⟨j, hj, rfl⟩ := hb
  have hids := h.ids
  rw [Graph.ids, h.reflects.nodes, List.map_map] at hids
  have hij := List.inj_on_of_nodup_map hids hi hj
  simp only [Function.comp, id_draw] at hij
  rw [hij he]

theorem nodeId_inj (h : Draws q all) {i j : Nat} (hi : i < count all) (hj : j < count all)
    (he : q.nodeId i = q.nodeId j) : i = j := h.reflects.nodeId_inj hi hj he

theorem lookup (h : Draws q all) {item : Item} (hi : item ∈ items all) :
    q.linked.lookup (q.ref item.ref) = some (q.finished item) := by
  have hn := h.reflects.mem_nodes hi
  rw [← id_draw]
  exact Graph.lookup_link h.ids hn

theorem mem_ids (h : Draws q all) {k : Nat} (hk : k < count all) :
    q.nodeId k ∈ q.linked.ids := by
  obtain ⟨item, hi, hr⟩ := inUse_node hk
  have hl := h.lookup hi
  rw [hr] at hl
  exact Graph.mem_ids_of_lookup hl

theorem edgesTo (h : Draws q all) (hn : n < count all) :
    q.linked.edgesTo (q.nodeId n) = Graph.distinct
      ((inputs n (links all)).map fun p => ⟨q.ref p.1, q.nodeId n, p.2⟩) := by
  have hin (ls : List Link) (hls : ∀ l ∈ ls, InUse all l.target) :
      (ls.map q.edge).filter (fun e => e.target = q.nodeId n) =
        (inputs n ls).map fun p => ⟨q.ref p.1, q.nodeId n, p.2⟩ := by
    induction ls with
    | nil => rfl
    | cons l ls ih =>
      have hrest := ih fun l' hl' => hls l' (List.mem_cons_of_mem _ hl')
      by_cases hl : l.target = .node n
      · simp [inputs, edge, hl] at hrest ⊢
        exact hrest
      · have hne : q.ref l.target ≠ q.nodeId n := fun he =>
          hl (h.ref_inj (hls l List.mem_cons_self) (inUse_node hn) he)
        simp [inputs, edge, hl, hne] at hrest ⊢
        exact hrest
  rw [Graph.edgesTo, h.edges, Graph.filter_distinct,
    hin _ fun l hl => (inUse_link h.wellFormed hl).2]

theorem edgesTo_of_nodup (h : Draws q all) (hn : n < count all)
    (hk : ((inputs n (links all)).map Prod.snd).Nodup) : q.linked.edgesTo (q.nodeId n) =
      (inputs n (links all)).map fun p => ⟨q.ref p.1, q.nodeId n, p.2⟩ := by
  rw [h.edgesTo hn, Graph.distinct_eq_self]
  refine List.Nodup.of_map Edge.kind ?_
  rw [List.map_map]
  exact hk

theorem edgesFrom (h : Draws q all) (hn : n < count all) (hname : ¬ Named all n) :
    q.linked.edgesFrom (q.nodeId n) = Graph.distinct
      ((outputs n all).map fun p => ⟨q.nodeId n, q.nodeId p.target, p.kind⟩) := by
  have hfrom : (links all).filter (fun l => l.source = .node n) =
      (outputs n all).map fun port => ⟨.node n, .node port.target, port.kind⟩ :=
    links_from h.wellFormed hname (List.nil_append _).symm
  have hsource : ((links all).map q.edge).filter (fun e => e.source = q.nodeId n) =
      ((links all).filter fun l => l.source = .node n).map q.edge := by
    rw [List.filter_map]
    refine congrArg _ (List.filter_congr fun l hl => ?_)
    refine decide_eq_decide.mpr ⟨?_, fun he => congrArg q.ref he⟩
    exact h.ref_inj (inUse_link h.wellFormed hl).1 (inUse_node hn)
  rw [Graph.edgesFrom, h.edges, Graph.filter_distinct, hsource, hfrom, List.map_map]
  rfl

theorem input (h : Draws q all) (hn : n < count all) (test : EdgeKind → Bool) :
    q.linked.input (q.nodeId n) test =
      ((inputs n (links all)).find? fun p => test p.2).map fun p => q.ref p.1 := by
  rw [Graph.input, h.edgesTo hn, Graph.find?_distinct, List.find?_map, Option.map_map]
  rfl

theorem below_home (h : Draws q all) {item : Item} (hi : item ∈ items all) :
    item.home.Below (count all) := by
  obtain ⟨before, s, after, hall, hs⟩ := mem_collect hi
  exact h.wellFormed.keeps.homes s (by simp [hall]) _ (home_of_mem_asks hs)

theorem nodesIn (h : Draws q all) {w : Place} (hw : w.Below (count all)) :
    q.linked.nodesIn (q.world w) = (itemsIn w [] all).map q.finished := by
  rw [Graph.nodesIn, h.nodes, List.filter_map, itemsIn]
  refine congrArg _ (List.filter_congr fun item hi => ?_)
  simp only [Function.comp, finished, Graph.world_settled, world_draw, decide_eq_decide]
  exact ⟨h.reflects.world_inj (h.below_home hi) hw, fun he => he ▸ rfl⟩

end Draws

end Run

end ScopedFlow
