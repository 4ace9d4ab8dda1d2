import Mathlib.Logic.Relation
import ScopedFlow.Edit
import ScopedFlow.Proofs.Joined

/-!
# Sequences of edits keep a graph consistent

An edit is made of few changes: it relabels or removes nodes, removes edges, adds a node under a
fresh id, wires nodes that are there, or grafts a snippet.
-/

namespace ScopedFlow

inductive Edit where
  | addNode (kind : NodeKind) (label : String) (w : World)
  | removeNodes (ids : List NodeId)
  | updateLiteral (id : NodeId) (text : String)
  | addEdge (source target : NodeId) (kind : EdgeKind)
  | removeEdges (source target : NodeId) (kind : Option EdgeKind)
  | setParam (call : NodeId) (param text : String)
  | setSlot (call : NodeId) (slot value : String)
  | addListItem (list : NodeId) (text : String)
  | updateListItem (list : NodeId) (index : Nat) (text : String)
  | addDictPair (dict : NodeId) (key value : String)
  | updateDictPair (dict : NodeId) (index : Nat) (key value : Option String)
  | link
  | inject (text : String) (w : World)
  deriving DecidableEq, Repr

namespace Graph

/-- Whether the index behind those of the edges into a node is no word. -/
def isFull (g : Graph) (target : NodeId) (index : EdgeKind → Option Nat) : Bool :=
  (g.edgesTo target).any fun e => (index e.kind).any fun i => indexLimit ≤ i + 1

end Graph

namespace Workspace

def inject (s : Workspace) (text : String) (w : World) : Workspace :=
  match s.graph.inject s.supply text w with
  | .ok (g, _, supply) => ⟨g, supply⟩
  | .error _ => s

def apply (s : Workspace) : Edit → Except EditError Workspace
  | .addNode kind label w => .ok (s.addNode kind label w).2
  | .removeNodes ids => .ok (s.mapGraph fun g => g.removeNodes ids)
  | .updateLiteral id text => .ok (s.mapGraph fun g => g.updateLiteral id text)
  | .addEdge source target kind => .ok (s.mapGraph fun g => g.addEdgeBetween source target kind)
  | .removeEdges source target kind => .ok (s.mapGraph fun g => g.removeEdges source target kind)
  | .setParam call param text => .ok (s.mapGraph fun g => g.setParam call param text)
  | .setSlot call slot value => .ok (s.setSlot call slot value)
  | .addListItem list text => s.addListItem list text
  | .updateListItem list index text => .ok (s.mapGraph fun g => g.updateListItem list index text)
  | .addDictPair dict key value => s.addDictPair dict key value
  | .updateDictPair dict index key value =>
    .ok (s.mapGraph fun g => g.updateDictPair dict index key value)
  | .link => .ok (s.mapGraph fun g => g.link.1)
  | .inject text w => .ok (s.inject text w)

def applyAll (s : Workspace) (es : List Edit) : Except EditError Workspace := es.foldlM apply s

/-- Whether an edit needs an index that is no word. -/
def overflows (s : Workspace) : Edit → Bool
  | .addListItem list _ =>
    (s.graph.nodeOfKind? list .listDisplay).isSome && s.graph.isFull list EdgeKind.elementIndex?
  | .addDictPair dict _ _ =>
    (s.graph.nodeOfKind? dict .dictDisplay).isSome && s.graph.isFull dict EdgeKind.pairIndex?
  | _ => false

/-- Whether none of the edits needs such an index when its turn comes. -/
def fits : Workspace → List Edit → Bool
  | _, [] => true
  | s, e :: es =>
    !s.overflows e &&
      match s.apply e with
      | .ok s' => s'.fits es
      | .error _ => true

end Workspace

namespace Graph

variable {g : Graph} {id : NodeId} {n : Node}

theorem id_eq_of_node? (h : g.node? id = some n) : n.id = id := by
  have hid := List.find?_some h
  exact of_decide_eq_true hid

theorem mem_ids_of_node? (h : g.node? id = some n) : id ∈ g.ids :=
  List.mem_map.mpr ⟨n, List.mem_of_find?_eq_some h, id_eq_of_node? h⟩

theorem mem_ids_of_contains (h : g.contains id = true) : id ∈ g.ids := by
  obtain ⟨n, hn⟩ := Option.isSome_iff_exists.mp h
  exact mem_ids_of_node? hn

theorem mem_of_nodeOfKind? {kind : NodeKind} (h : g.nodeOfKind? id kind = some n) : n ∈ g.nodes :=
  List.mem_of_find?_eq_some (Option.filter_eq_some_iff.mp h).1

theorem mem_ids_of_nodeOfKind? {kind : NodeKind} (h : g.nodeOfKind? id kind = some n) :
    id ∈ g.ids :=
  mem_ids_of_node? (Option.filter_eq_some_iff.mp h).1

theorem ids_addNode (g : Graph) (n : Node) : (g.addNode n).ids = g.ids ++ [n.id] := by
  rw [ids, addNode, List.map_append]
  rfl

theorem ids_addEdge (g : Graph) (e : Edge) : (g.addEdge e).ids = g.ids := by
  rw [ids, ids, nodes_addEdge]

theorem mem_ids_removeNode {x : NodeId} : x ∈ (g.removeNode id).ids ↔ x ∈ g.ids ∧ x ≠ id := by
  constructor
  · intro hx
    obtain ⟨n, hn, rfl⟩ := List.mem_map.mp hx
    obtain ⟨hn, hne⟩ := List.mem_filter.mp hn
    exact ⟨List.mem_map_of_mem hn, of_decide_eq_true hne⟩
  · rintro ⟨hx, hne⟩
    obtain ⟨n, hn, rfl⟩ := List.mem_map.mp hx
    exact List.mem_map_of_mem (List.mem_filter.mpr ⟨hn, decide_eq_true hne⟩)

theorem address_modifyNode (g : Graph) (id : NodeId) {f : Node → Node}
    (hf : ∀ n, (f n).address = n.address) :
    (g.modifyNode id f).nodes.map Node.address = g.nodes.map Node.address := by
  simp only [modifyNode]
  induction g.nodes with
  | nil => rfl
  | cons n ns ih =>
    unfold modifyFirst
    split
    · rw [List.map_cons, List.map_cons, hf]
    · rw [List.map_cons, List.map_cons, ih]

theorem foldl_next_lt {limit : Nat} {is : List Nat} (h : ∀ i ∈ is, i + 1 < limit) {m : Nat}
    (hm : m < limit) : is.foldl (fun m i => max m (i + 1)) m < limit := by
  induction is generalizing m with
  | nil => exact hm
  | cons i is ih =>
    have hi := h i List.mem_cons_self
    apply ih
    · intro j hj
      exact h j (List.mem_cons_of_mem _ hj)
    · exact Nat.max_lt.mpr ⟨hm, hi⟩

theorem exists_nextIndex {index : EdgeKind → Option Nat} (h : g.isFull id index = false) :
    ∃ i, g.nextIndex id index = .ok i := by
  refine ⟨_, if_pos ?_⟩
  apply foldl_next_lt
  · intro i hi
    obtain ⟨e, he, hindex⟩ := List.mem_filterMap.mp hi
    have hword := List.any_eq_false.mp h e he
    rw [hindex, Option.any_some, decide_eq_true_eq] at hword
    omega
  · decide

end Graph

namespace Workspace

open ScopedFlow.Graph Relation

variable {es : List Edit}

/-- What edits are made of. Nodes are relabelled or removed, edges are removed, a node comes behind
the others into a world that is in use, nodes are wired, or a snippet is grafted. An edge from clause
to clause is wired by `hung` only. -/
inductive Change (hung : Edge → Prop) : Workspace → Workspace → Prop where
  | relabel {s : Workspace} {g : Graph}
    (address : g.nodes.map Node.address = s.graph.nodes.map Node.address)
    (edges : g.edges = s.graph.edges) : Change hung s ⟨g, s.supply⟩
  | removeEdges {s : Workspace} (source target : NodeId) (kind : Option EdgeKind) :
    Change hung s (s.mapGraph fun g => g.removeEdges source target kind)
  | removeNode {s : Workspace} (id : NodeId) : Change hung s (s.mapGraph fun g => g.removeNode id)
  | insert {s : Workspace} (payload : Payload) (label : String) {w : World}
    (used : s.graph.hasWorld w = true ∨ ∃ n ∈ s.graph.nodes, n.world = w) :
    Change hung s (s.insert payload label w).2
  | wire {s : Workspace} {e : Edge} (source : e.source ∈ s.graph.ids) (target : e.target ∈ s.graph.ids)
    (clause : (∃ index, e.kind = .nextClause index) → hung e) :
    Change hung s (s.mapGraph fun g => g.addEdge e)
  | graft {s : Workspace} (stmts : List Stmt) {w : World} (accepted : s.graph.accepts w = true) :
    Change hung s ⟨s.graph.grafted s.supply stmts w, (s.graph.snippet s.supply stmts w).2⟩

theorem mem_insert_self (s : Workspace) (payload : Payload) (label : String) (w : World) :
    (s.insert payload label w).1 ∈ (s.insert payload label w).2.graph.ids :=
  (ids_addNode ..).symm ▸ List.mem_append_right _ List.mem_cons_self

theorem mem_insert {s : Workspace} {id : NodeId} (h : id ∈ s.graph.ids) (payload : Payload)
    (label : String) (w : World) : id ∈ (s.insert payload label w).2.graph.ids :=
  (ids_addNode ..).symm ▸ List.mem_append_left _ h

section Changes

variable (hung : Edge → Prop) {s s' : Workspace} {kind : EdgeKind}

theorem changes_addNode (s : Workspace) (kind : NodeKind) (label : String) (w : World) :
    ReflTransGen (Change hung) s (s.addNode kind label w).2 := by
  unfold Workspace.addNode
  split
  · rename_i hw
    exact .single (.insert (.default kind) label (.inl hw))
  · exact .refl

theorem changes_removeNodes (s : Workspace) (ids : List NodeId) :
    ReflTransGen (Change hung) s (s.mapGraph fun g => g.removeNodes ids) := by
  induction ids generalizing s with
  | nil => exact .refl
  | cons id ids ih => exact .head (.removeNode id) (ih _)

theorem change_updateLiteral (s : Workspace) (id : NodeId) (text : String) :
    Change hung s (s.mapGraph fun g => g.updateLiteral id text) := by
  refine .relabel (address_modifyNode _ _ ?_) rfl
  intro n
  unfold setLabel
  split <;> rfl

theorem changes_addEdgeBetween (s : Workspace) {source target : NodeId}
    (h : hung ⟨source, target, kind⟩) :
    ReflTransGen (Change hung) s (s.mapGraph fun g => g.addEdgeBetween source target kind) := by
  show ReflTransGen _ s ⟨s.graph.addEdgeBetween source target kind, s.supply⟩
  unfold Graph.addEdgeBetween
  split
  · rename_i hends
    obtain ⟨hs, ht⟩ := (Bool.and_eq_true _ _).mp hends
    exact .single (.wire (mem_ids_of_contains hs) (mem_ids_of_contains ht) fun _ => h)
  · exact .refl

theorem change_setParam (s : Workspace) (call : NodeId) (param text : String) :
    Change hung s (s.mapGraph fun g => g.setParam call param text) :=
  .relabel (Node.address_of_bare (bare_modifyNode ..)) rfl

theorem change_link (s : Workspace) : Change hung s (s.mapGraph fun g => g.link.1) :=
  .relabel (Node.address_of_bare (bare_linkOn ..)) (edges_linkOn ..)

theorem changes_insertLiteral {n : Node} (hn : n ∈ s.graph.nodes) (text : String) {target : NodeId}
    (ht : target ∈ s.graph.ids) (hdata : kind.isData = true) :
    ReflTransGen (Change hung) s (s.insertLiteral text n.world target kind) := by
  refine .tail (.single (.insert .literal text (.inr ⟨n, hn, rfl⟩))) (.wire ?_ ?_ ?_)
  · exact mem_insert_self ..
  · exact mem_insert ht ..
  · rintro ⟨index, rfl⟩
    cases hdata

theorem isData_of_isSlot {slot : String} {position : Option Nat}
    (h : isSlot slot position kind = true) : kind.isData = true := by
  cases kind with
  | argument _ _ => rfl
  | _ => cases h

theorem changes_setSlot (s : Workspace) (call : NodeId) (slot value : String) :
    ReflTransGen (Change hung) s (s.setSlot call slot value) := by
  unfold Workspace.setSlot
  split
  · exact .refl
  · rename_i n hn
    have hcall := mem_ids_of_nodeOfKind? hn
    have hmem := mem_of_nodeOfKind? hn
    dsimp only
    split
    · exact changes_insertLiteral hung hmem _ hcall rfl
    · rename_i e he
      have hslot := List.find?_some he
      split
      · exact .single (change_updateLiteral ..)
      · refine .head (.removeEdges e.source call (some e.kind)) ?_
        exact changes_insertLiteral hung (s := s.mapGraph _) hmem _ hcall (isData_of_isSlot hslot)

theorem changes_updateSource (s : Workspace) (target : NodeId) (kind : EdgeKind) (text : String) :
    ReflTransGen (Change hung) s (s.mapGraph fun g => g.updateSource target kind text) := by
  show ReflTransGen _ s ⟨s.graph.updateSource target kind text, s.supply⟩
  unfold Graph.updateSource
  split
  · exact .single (change_updateLiteral ..)
  · exact .refl

theorem changes_updateDictPair (s : Workspace) (dict : NodeId) (index : Nat)
    (key value : Option String) :
    ReflTransGen (Change hung) s (s.mapGraph fun g => g.updateDictPair dict index key value) := by
  have hkey : ReflTransGen (Change hung) s
      (s.mapGraph fun g => g.updateDictPair dict index key none) := by
    cases key with
    | none => exact .refl
    | some text => exact changes_updateSource ..
  cases value with
  | none => exact hkey
  | some text => exact hkey.trans (changes_updateSource hung _ dict (.dictValue index) text)

theorem addListItem_cases {list : NodeId} {text : String} (h : s.addListItem list text = .ok s') :
    s.graph.nodeOfKind? list .listDisplay = none ∧ s' = s ∨ ∃ n i,
      s.graph.nodeOfKind? list .listDisplay = some n ∧
      s.graph.nextIndex list EdgeKind.elementIndex? = .ok i ∧
      s' = s.insertLiteral text n.world list (.listElement i) := by
  unfold Workspace.addListItem at h
  cases hn : s.graph.nodeOfKind? list .listDisplay with
  | none =>
    simp only [hn, Except.ok.injEq] at h
    exact .inl ⟨rfl, h.symm⟩
  | some n =>
    cases hi : s.graph.nextIndex list EdgeKind.elementIndex? with
    | error e =>
      simp only [hn, hi] at h
      cases h
    | ok i =>
      simp only [hn, hi] at h
      cases h
      exact .inr ⟨n, i, rfl, rfl, rfl⟩

def insertPair (s : Workspace) (key value : String) (w : World) (dict : NodeId) (index : Nat) :
    Workspace :=
  mapGraph (fun g => (g.addEdge ⟨(s.insert .literal key w).1, dict, .dictKey index⟩).addEdge
    ⟨((s.insert .literal key w).2.insert .literal value w).1, dict, .dictValue index⟩)
    ((s.insert .literal key w).2.insert .literal value w).2

theorem addDictPair_cases {dict : NodeId} {key value : String}
    (h : s.addDictPair dict key value = .ok s') :
    s.graph.nodeOfKind? dict .dictDisplay = none ∧ s' = s ∨ ∃ n i,
      s.graph.nodeOfKind? dict .dictDisplay = some n ∧
      s.graph.nextIndex dict EdgeKind.pairIndex? = .ok i ∧
      s' = s.insertPair key value n.world dict i := by
  unfold Workspace.addDictPair at h
  cases hn : s.graph.nodeOfKind? dict .dictDisplay with
  | none =>
    simp only [hn, Except.ok.injEq] at h
    exact .inl ⟨rfl, h.symm⟩
  | some n =>
    cases hi : s.graph.nextIndex dict EdgeKind.pairIndex? with
    | error e =>
      simp only [hn, hi] at h
      cases h
    | ok i =>
      simp only [hn, hi] at h
      cases h
      exact .inr ⟨n, i, rfl, rfl, rfl⟩

theorem changes_addListItem {list : NodeId} {text : String}
    (h : s.addListItem list text = .ok s') : ReflTransGen (Change hung) s s' := by
  rcases addListItem_cases h with ⟨-, rfl⟩ | ⟨n, i, hn, -, rfl⟩
  · exact .refl
  · exact changes_insertLiteral hung (mem_of_nodeOfKind? hn) text (mem_ids_of_nodeOfKind? hn) rfl

theorem changes_addDictPair {dict : NodeId} {key value : String}
    (h : s.addDictPair dict key value = .ok s') : ReflTransGen (Change hung) s s' := by
  rcases addDictPair_cases h with ⟨-, rfl⟩ | ⟨n, i, hn, -, rfl⟩
  · exact .refl
  have hmem := mem_of_nodeOfKind? hn
  have hdict := mem_ids_of_nodeOfKind? hn
  have hfirst : Change hung s (s.insert .literal key n.world).2 :=
    .insert .literal key (.inr ⟨n, hmem, rfl⟩)
  have hsecond : Change hung _ ((s.insert .literal key n.world).2.insert .literal value n.world).2 :=
    .insert .literal value (.inr ⟨n, List.mem_append_left _ hmem, rfl⟩)
  have hkey : Change hung _ (mapGraph (fun g => g.addEdge ⟨_, dict, .dictKey i⟩)
      ((s.insert .literal key n.world).2.insert .literal value n.world).2) :=
    .wire (mem_insert (mem_insert_self s .literal key n.world) ..)
      (mem_insert (mem_insert hdict ..) ..) nofun
  refine .tail (.tail (.tail (.single hfirst) hsecond) hkey) (.wire ?_ ?_ nofun)
  · exact (ids_addEdge ..).symm ▸ mem_insert_self ..
  · exact (ids_addEdge ..).symm ▸ mem_insert (mem_insert hdict ..) ..

theorem changes_inject (s : Workspace) (text : String) (w : World) :
    ReflTransGen (Change hung) s (s.inject text w) := by
  unfold Workspace.inject
  split
  · rename_i g count rest hinject
    obtain ⟨hw, stmts, -, rfl, rfl⟩ := inject_ok hinject
    exact .single (.graft stmts hw)
  · exact .refl

theorem changes_of_apply {e : Edit} (h : s.apply e = .ok s')
    (hhung : ∀ source target kind, e = .addEdge source target kind → hung ⟨source, target, kind⟩) :
    ReflTransGen (Change hung) s s' := by
  cases e with
  | addNode kind label w => cases h; exact changes_addNode ..
  | removeNodes ids => cases h; exact changes_removeNodes ..
  | updateLiteral id text => cases h; exact .single (change_updateLiteral ..)
  | addEdge source target kind => cases h; exact changes_addEdgeBetween _ _ (hhung _ _ _ rfl)
  | removeEdges source target kind => cases h; exact .single (.removeEdges ..)
  | setParam call param text => cases h; exact .single (change_setParam ..)
  | setSlot call slot value => cases h; exact changes_setSlot ..
  | addListItem list text => exact changes_addListItem hung h
  | updateListItem list index text => cases h; exact changes_updateSource ..
  | addDictPair dict key value => exact changes_addDictPair hung h
  | updateDictPair dict index key value => cases h; exact changes_updateDictPair ..
  | link => cases h; exact .single (change_link ..)
  | inject text w => cases h; exact changes_inject ..

theorem changes_of_applyAll (h : s.applyAll es = .ok s')
    (hhung : ∀ source target kind, .addEdge source target kind ∈ es →
      hung ⟨source, target, kind⟩) : ReflTransGen (Change hung) s s' := by
  induction es generalizing s with
  | nil => cases h; exact .refl
  | cons e es ih =>
    rw [Workspace.applyAll, List.foldlM_cons] at h
    cases he : s.apply e with
    | error e =>
      rw [he] at h
      cases h
    | ok t =>
      rw [he] at h
      have hfirst := changes_of_apply hung he fun source target kind heq =>
        hhung source target kind (heq ▸ List.mem_cons_self)
      exact hfirst.trans (ih h fun source target kind hmem =>
        hhung source target kind (List.mem_cons_of_mem _ hmem))

theorem exists_apply {e : Edit} (hroom : s.overflows e = false) : ∃ s', s.apply e = .ok s' := by
  cases e with
  | addListItem list text =>
    simp only [Workspace.apply, Workspace.addListItem]
    cases hn : s.graph.nodeOfKind? list .listDisplay with
    | none => exact ⟨s, rfl⟩
    | some n =>
      rw [overflows, hn] at hroom
      obtain ⟨i, hi⟩ := exists_nextIndex hroom
      exact ⟨_, by simp only [hi]; rfl⟩
  | addDictPair dict key value =>
    simp only [Workspace.apply, Workspace.addDictPair]
    cases hn : s.graph.nodeOfKind? dict .dictDisplay with
    | none => exact ⟨s, rfl⟩
    | some n =>
      rw [overflows, hn] at hroom
      obtain ⟨i, hi⟩ := exists_nextIndex hroom
      exact ⟨_, by simp only [hi]; rfl⟩
  | _ => exact ⟨_, rfl⟩

theorem exists_applyAll (hfits : s.fits es = true) : ∃ s', s.applyAll es = .ok s' := by
  induction es generalizing s with
  | nil => exact ⟨s, rfl⟩
  | cons e es ih =>
    obtain ⟨hroom, hrest⟩ := (Bool.and_eq_true _ _).mp hfits
    obtain ⟨t, happly⟩ := exists_apply ((Bool.not_eq_true' _).mp hroom)
    rw [happly] at hrest
    obtain ⟨s', hall⟩ := ih hrest
    refine ⟨s', ?_⟩
    rw [Workspace.applyAll, List.foldlM_cons, happly]
    exact hall

end Changes

/-- The graph is consistent, and the ids to come are not among its ids. -/
structure Intact (s : Workspace) : Prop where
  graph : s.graph.Consistent
  fresh : ∀ id ∈ s.graph.ids, s.supply.Spent id

namespace Intact

variable {s : Workspace} (h : s.Intact)

include h

theorem shrink {f : Graph → Graph} (hids : (f s.graph).ids.Sublist s.graph.ids)
    (hedges : (f s.graph).edges.Sublist s.graph.edges)
    (hends : ∀ e ∈ (f s.graph).edges, e.source ∈ (f s.graph).ids ∧ e.target ∈ (f s.graph).ids) :
    (s.mapGraph f).Intact := by
  constructor
  · exact ⟨h.graph.ids.sublist hids, h.graph.edges.sublist hedges, hends⟩
  · intro id hid
    exact h.fresh id (hids.subset hid)

theorem relabel {f : Graph → Graph} (hids : (f s.graph).ids = s.graph.ids)
    (hedges : (f s.graph).edges = s.graph.edges) : (s.mapGraph f).Intact := by
  apply h.shrink
  · rw [hids]
  · rw [hedges]
  · rw [hids, hedges]
    exact h.graph.ends

theorem removeEdges (source target : NodeId) (kind : Option EdgeKind) :
    (s.mapGraph fun g => g.removeEdges source target kind).Intact := by
  apply h.shrink
  · exact List.Sublist.refl _
  · exact List.filter_sublist
  · intro e he
    exact h.graph.ends e (List.mem_filter.mp he).1

theorem removeNode (id : NodeId) : (s.mapGraph fun g => g.removeNode id).Intact := by
  apply h.shrink
  · exact List.filter_sublist.map _
  · exact List.filter_sublist
  · intro e he
    obtain ⟨he, htouch⟩ := List.mem_filter.mp he
    obtain ⟨hs, ht⟩ := h.graph.ends e he
    simp only [Edge.touches, Bool.not_eq_true', Bool.or_eq_false_iff, decide_eq_false_iff_not]
      at htouch
    exact ⟨mem_ids_removeNode.mpr ⟨hs, htouch.1⟩, mem_ids_removeNode.mpr ⟨ht, htouch.2⟩⟩

theorem insert (payload : Payload) (label : String) (w : World) :
    (s.insert payload label w).2.Intact := by
  let n : Node := ⟨Supply.idOf payload.kind s.supply.next, label, w, payload⟩
  have hnew : n.id ∉ s.graph.ids := by
    intro hmem
    exact h.fresh _ hmem payload.kind s.supply.next (Nat.le_refl _) rfl
  have hids : (s.graph.addNode n).ids = s.graph.ids ++ [n.id] := ids_addNode ..
  constructor
  · constructor
    · show (s.graph.addNode n).ids.Nodup
      rw [hids]
      apply List.nodup_append.mpr
      refine ⟨h.graph.ids, List.nodup_singleton _, ?_⟩
      rintro x hx y hy rfl
      exact hnew (List.mem_singleton.mp hy ▸ hx)
    · exact h.graph.edges
    · intro e he
      show e.source ∈ (s.graph.addNode n).ids ∧ e.target ∈ (s.graph.addNode n).ids
      obtain ⟨hs, ht⟩ := h.graph.ends e he
      rw [hids]
      exact ⟨List.mem_append_left _ hs, List.mem_append_left _ ht⟩
  · intro id hid
    have hid : id ∈ (s.graph.addNode n).ids := hid
    rw [hids] at hid
    rcases List.mem_append.mp hid with hold | hnew
    · exact (h.fresh id hold).mono (Nat.le_succ _)
    · obtain rfl := List.mem_singleton.mp hnew
      exact Supply.Issued.spent (s := s.supply) ⟨payload.kind, s.supply.next, rfl, Nat.le_refl _,
        Nat.lt_succ_self _⟩

theorem wire {e : Edge} (hs : e.source ∈ s.graph.ids) (ht : e.target ∈ s.graph.ids) :
    (s.mapGraph fun g => g.addEdge e).Intact := by
  have hids : (s.graph.addEdge e).ids = s.graph.ids := ids_addEdge ..
  constructor
  · constructor
    · exact hids.symm ▸ h.graph.ids
    · exact nodup_addEdge h.graph.edges e
    · intro d hd
      show d.source ∈ (s.graph.addEdge e).ids ∧ d.target ∈ (s.graph.addEdge e).ids
      rw [hids]
      rcases mem_addEdge_iff.mp hd with hd | rfl
      · exact h.graph.ends d hd
      · exact ⟨hs, ht⟩
  · exact hids.symm ▸ h.fresh

theorem graft (stmts : List Stmt) (w : World) :
    Intact ⟨s.graph.grafted s.supply stmts w, (s.graph.snippet s.supply stmts w).2⟩ := by
  have hspent : ∀ n ∈ s.graph.nodes, s.supply.Spent n.id := by
    intro n hn
    exact h.fresh n.id (List.mem_map_of_mem hn)
  constructor
  · exact consistent_graft h.graph hspent stmts w
  · intro id hid
    have hid : id ∈ (s.graph.grafted s.supply stmts w).ids := hid
    rw [ids_graft, ids, ids, ← List.map_append] at hid
    obtain ⟨n, hn, rfl⟩ := List.mem_map.mp hid
    exact (joined_snippet h.graph.ids hspent stmts w).spent n hn

theorem change {hung : Edge → Prop} {t : Workspace} (hc : Change hung s t) : t.Intact := by
  cases hc with
  | @relabel g haddress hedges =>
    have hids := congrArg (List.map Prod.fst) haddress
    rw [List.map_map, List.map_map] at hids
    exact h.relabel (f := fun _ => g) hids hedges
  | removeEdges source target kind => exact h.removeEdges source target kind
  | removeNode id => exact h.removeNode id
  | insert payload label _ => exact h.insert payload label _
  | wire hs ht _ => exact h.wire hs ht
  | graft stmts _ => exact h.graft stmts _

theorem changes {hung : Edge → Prop} {t : Workspace} (hc : ReflTransGen (Change hung) s t) :
    t.Intact := by
  induction hc with
  | refl => exact h
  | tail _ hlast ih => exact ih.change hlast

theorem applyAll (hfits : s.fits es = true) : ∃ s', s.applyAll es = .ok s' ∧ s'.Intact := by
  obtain ⟨s', hall⟩ := exists_applyAll hfits
  have hchanges := changes_of_applyAll (fun _ => True) hall fun _ _ _ _ => trivial
  exact ⟨s', hall, h.changes hchanges⟩

end Intact

/-- Edits keep a graph consistent as long as the ids to come are not among its ids, and their
indices are words. -/
theorem applyAll_consistent {s : Workspace} (h : s.graph.Consistent)
    (hfresh : ∀ id ∈ s.graph.ids, s.supply.Spent id) {es : List Edit} (hfits : s.fits es = true) :
    ∃ s', s.applyAll es = .ok s' ∧ s'.graph.Consistent := by
  have hintact : s.Intact := ⟨h, hfresh⟩
  obtain ⟨s', hall, hs'⟩ := hintact.applyAll hfits
  exact ⟨s', hall, hs'.graph⟩

/-- A list grows and loses its first item. Its place as an argument goes to a literal. The ids of
removed nodes and of nodes of other kinds stay in use, and a snippet calls the function again. -/
theorem applyAll_consistent_stale :
    let call := Supply.idOf .call 0
    let list := Supply.idOf .listDisplay 1
    let item := Supply.idOf .literal 2
    let edits := [.addListItem list "2", .removeNodes [item, item, ⟨"none"⟩],
      .addEdge item call .input, .updateListItem list 0 "3", .setSlot call "arg0" "'q'",
      .addDictPair list "k" "v", .setParam item "p" "1", .inject "f({1: 2})\n" .root, .link]
    ∃ s s' : Workspace, s.graph.Consistent ∧ s.fits edits = true ∧ item ∈ s.graph.ids ∧
      item ∉ s'.graph.ids ∧ s.applyAll edits = .ok s' ∧ s'.graph.Consistent := by
  intro call list item edits
  let module : List Stmt := [.eval (.call "f" [.positional (.list [.literal "1"])])]
  let s : Workspace := ⟨(build ⟨0⟩ module).1.link.1, (build ⟨0⟩ module).2⟩
  have hsource : ofSourceLinked ⟨0⟩ "f([1])\n" = .ok (s.graph, s.supply) := by decide +kernel
  have hreached : Reached 0 s.graph s.supply := .parsed hsource
  have hfresh : ∀ id ∈ s.graph.ids, s.supply.Spent id := List.forall_mem_map.mpr hreached.sound.spent
  have hfits : s.fits edits = true := by decide +kernel
  obtain ⟨s', hall, hs'⟩ := applyAll_consistent hreached.consistent hfresh hfits
  have hgone : (s.applyAll edits).map (fun t => decide (item ∈ t.graph.ids)) = .ok false := by
    decide +kernel
  rw [hall] at hgone
  exact ⟨s, s', hreached.consistent, hfits, by decide +kernel,
    of_decide_eq_false (Except.ok.inj hgone), hall, hs'⟩

end Workspace

end ScopedFlow
