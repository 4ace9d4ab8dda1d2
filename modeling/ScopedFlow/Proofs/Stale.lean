import ScopedFlow.Proofs.Frame

/-!
# Edits that miss

An edit may name a node that is gone, or one of another kind than it is for. Nearly every edit looks
for its node first and changes nothing if it does not find it. The edits that replace an item do not
look: they follow an edge into the node that they are given, whatever it is.
-/

namespace ScopedFlow

namespace Edit

/-- The node that an edit is for, with the kind that it has to be of. -/
def subject? : Edit → Option (NodeId × NodeKind)
  | .updateLiteral id _ => some (id, .literal)
  | .setParam call _ _ | .setSlot call _ _ => some (call, .call)
  | .addListItem list _ | .updateListItem list _ _ => some (list, .listDisplay)
  | .addDictPair dict _ _ | .updateDictPair dict _ _ _ => some (dict, .dictDisplay)
  | _ => none

/-- The edit names something that is not there, or a node of another kind than it is for. -/
def Misses (g : Graph) : Edit → Prop
  | .addNode _ _ w => g.hasWorld w = false
  | .removeNodes ids => ∀ id ∈ ids, id ∉ g.ids
  | .addEdge source target _ | .removeEdges source target _ => source ∉ g.ids ∨ target ∉ g.ids
  | e => ∃ id kind, e.subject? = some (id, kind) ∧ ∀ n ∈ g.nodes, n.id = id → n.kind ≠ kind

/-- The text that an edit gives to a literal which an edge leads from. A literal that is both key and
value of a pair keeps the text of the value. -/
def replacement? (g : Graph) (id : NodeId) : Edit → Option String
  | .updateListItem list index text =>
    if g.literalSource list (.listElement index) = some id then some text else none
  | .updateDictPair dict index key value =>
    (if g.literalSource dict (.dictValue index) = some id then value else none).or
      (if g.literalSource dict (.dictKey index) = some id then key else none)
  | _ => none

end Edit

def Node.relabelled (n : Node) (label : Option String) : Node := { n with label := label.getD n.label }

theorem Node.relabelled_relabelled (n : Node) (label label' : Option String) :
    (n.relabelled label).relabelled label' = n.relabelled (label'.or label) := by
  cases label' <;> rfl

theorem Node.relabelled_eq_self {n : Node} {label : Option String} :
    n.relabelled label = n ↔ ∀ text, label = some text → n.label = text := by
  constructor
  · rintro h text rfl
    exact congrArg Node.label h.symm
  · intro h
    cases label with
    | none => rfl
    | some text => rw [relabelled, Option.getD_some, ← h text rfl]

namespace Graph

variable {g g' : Graph} {target : NodeId}

theorem nodeOfKind?_eq_none {id : NodeId} {kind : NodeKind}
    (h : ∀ n ∈ g.nodes, n.id = id → n.kind ≠ kind) : g.nodeOfKind? id kind = none := by
  refine Option.filter_eq_none_iff.mpr fun n hn hk => ?_
  exact h n (List.mem_of_find?_eq_some hn) (id_eq_of_node? hn) (of_decide_eq_true hk)

section Ends

variable (hends : ∀ e ∈ g.edges, e.source ∈ g.ids ∧ e.target ∈ g.ids) {id : NodeId}

include hends

theorem edgesTo_eq_nil (hid : id ∉ g.ids) : g.edgesTo id = [] := by
  refine List.filter_eq_nil_iff.mpr fun e he ht => hid ?_
  exact of_decide_eq_true ht ▸ (hends e he).2

theorem mem_ids_of_literalSource {kind : EdgeKind} (h : g.literalSource target kind = some id) :
    target ∈ g.ids := by
  by_contra htarget
  rw [literalSource, input, edgesTo_eq_nil hends htarget] at h
  cases h

theorem removeNode_eq_self (hid : id ∉ g.ids) : g.removeNode id = g := by
  have hnodes : g.nodes.filter (fun n => n.id ≠ id) = g.nodes := by
    refine List.filter_eq_self.mpr fun n hn => decide_eq_true ?_
    rintro rfl
    exact hid (List.mem_map_of_mem hn)
  have hedges : g.edges.filter (fun e => !e.touches id) = g.edges := by
    refine List.filter_eq_self.mpr fun e he => ?_
    have hsource : e.source ≠ id := fun h => hid (h ▸ (hends e he).1)
    have htarget : e.target ≠ id := fun h => hid (h ▸ (hends e he).2)
    simp [Edge.touches, hsource, htarget]
  rw [removeNode, hnodes, hedges]

theorem removeNodes_eq_self {ids : List NodeId} (h : ∀ id ∈ ids, id ∉ g.ids) : g.removeNodes ids = g := by
  induction ids with
  | nil => rfl
  | cons id ids ih =>
    rw [removeNodes, List.foldl_cons, removeNode_eq_self hends (h id List.mem_cons_self)]
    exact ih fun x hx => h x (List.mem_cons_of_mem _ hx)

theorem removeEdges_eq_self {source : NodeId} (h : source ∉ g.ids ∨ target ∉ g.ids)
    (kind : Option EdgeKind) : g.removeEdges source target kind = g := by
  have hedges : g.edges.filter (fun e => !joins source target kind e) = g.edges := by
    refine List.filter_eq_self.mpr fun e he => ?_
    have hne : ¬ (e.source = source ∧ e.target = target) := by
      rintro ⟨rfl, rfl⟩
      exact h.elim (· (hends e he).1) (· (hends e he).2)
    by_cases hs : e.source = source
    · have ht : e.target ≠ target := fun ht => hne ⟨hs, ht⟩
      simp [joins, ht]
    · simp [joins, hs]
  rw [removeEdges, hedges]

end Ends

theorem nodes_updateSource (hids : g.ids.Nodup) (target : NodeId) (kind : EdgeKind) (text : String) :
    (g.updateSource target kind text).nodes = g.nodes.map fun n =>
      n.relabelled (if g.literalSource target kind = some n.id then some text else none) := by
  unfold updateSource
  cases hs : g.literalSource target kind with
  | none => exact (List.map_id' _).symm
  | some id =>
    refine (nodes_modifyNode hids id (setLabel text)).trans ?_
    refine List.map_congr_left fun n hn => ?_
    by_cases hid : n.id = id
    · obtain ⟨m, hm⟩ := Option.isSome_iff_exists.mp (Option.filter_eq_some_iff.mp hs).2
      obtain ⟨hm, hk⟩ := Option.filter_eq_some_iff.mp hm
      have heq : n = m := Option.some.inj ((node?_of_mem hids hn).symm.trans (hid ▸ hm))
      rw [if_pos hid, if_pos (congrArg some hid.symm), setLabel, if_pos (heq ▸ of_decide_eq_true hk)]
      rfl
    · rw [if_neg hid, if_neg fun h => hid (Option.some.inj h).symm]
      rfl

theorem edges_updateSource (target : NodeId) (kind : EdgeKind) (text : String) :
    (g.updateSource target kind text).edges = g.edges := by
  unfold updateSource
  split <;> rfl

theorem literalSource_relabelled {label : Node → Option String}
    (hnodes : g'.nodes = g.nodes.map fun n => n.relabelled (label n)) (hedges : g'.edges = g.edges)
    (target : NodeId) (kind : EdgeKind) :
    g'.literalSource target kind = g.literalSource target kind := by
  have hkind (id : NodeId) :
      (g'.nodeOfKind? id .literal).isSome = (g.nodeOfKind? id .literal).isSome := by
    rw [nodeOfKind?, node?, hnodes, List.find?_map]
    show (((g.node? id).map _).filter _).isSome = _
    rw [Option.filter_map, Option.isSome_map]
    rfl
  simp only [literalSource, input, edgesTo, hedges, hkind]

theorem edges_updateDictPair (dict : NodeId) (index : Nat) (key value : Option String) :
    (g.updateDictPair dict index key value).edges = g.edges := by
  cases key <;> cases value <;> simp only [updateDictPair, edges_updateSource]

theorem nodes_updateDictPair (hids : g.ids.Nodup) (dict : NodeId) (index : Nat)
    (key value : Option String) : (g.updateDictPair dict index key value).nodes =
      g.nodes.map fun n => n.relabelled
        (Edit.replacement? g n.id (.updateDictPair dict index key value)) := by
  have hnone : g.nodes = g.nodes.map fun n => n.relabelled none := (List.map_id' _).symm
  have hkey : (g.updateDictPair dict index key none).nodes = g.nodes.map fun n => n.relabelled
      (if g.literalSource dict (.dictKey index) = some n.id then key else none) := by
    cases key with
    | none =>
      simp only [ite_self]
      exact hnone
    | some text => exact nodes_updateSource hids ..
  cases value with
  | none =>
    simp only [Edit.replacement?, ite_self, Option.none_or]
    exact hkey
  | some text =>
    have hids' : (g.updateDictPair dict index key none).ids.Nodup := by
      rw [ids, hkey, List.map_map]
      exact hids
    refine (nodes_updateSource hids' ..).trans ?_
    rw [literalSource_relabelled hkey (edges_updateDictPair ..), hkey, List.map_map]
    refine List.map_congr_left fun n _ => ?_
    exact Node.relabelled_relabelled ..

theorem eq_iff_of_relabelled (label : NodeId → Option String)
    (hnodes : g'.nodes = g.nodes.map fun n => n.relabelled (label n.id))
    (hedges : g'.edges = g.edges) :
    g' = g ↔ ∀ n ∈ g.nodes, ∀ text, label n.id = some text → n.label = text := by
  have hext : g' = g ↔ g'.nodes = g.nodes :=
    ⟨congrArg nodes, fun h => by cases g; cases g'; cases h; cases hedges; rfl⟩
  rw [hext, hnodes]
  nth_rewrite 2 [← List.map_id' g.nodes]
  rw [List.map_inj_left]
  exact forall₂_congr fun n _ => Node.relabelled_eq_self

theorem addEdgeBetween_eq_self {source : NodeId} (h : source ∉ g.ids ∨ target ∉ g.ids)
    (kind : EdgeKind) : g.addEdgeBetween source target kind = g := by
  refine if_neg fun hends => ?_
  obtain ⟨hs, ht⟩ := (Bool.and_eq_true _ _).mp hends
  exact h.elim (· (mem_ids_of_contains hs)) (· (mem_ids_of_contains ht))

theorem setParam_eq_self {call : NodeId} (h : ∀ n ∈ g.nodes, n.id = call → n.kind ≠ .call)
    (param text : String) : g.setParam call param text = g := by
  refine modifyNode_keep fun n hn => ?_
  have hkind := h n (List.mem_of_find?_eq_some hn) (id_eq_of_node? hn)
  unfold Node.mapSite
  split
  · rename_i site hp
    exact absurd (congrArg Payload.kind hp) hkind
  · rfl

theorem updateLiteral_eq_self {id : NodeId} (h : ∀ n ∈ g.nodes, n.id = id → n.kind ≠ .literal)
    (text : String) : g.updateLiteral id text = g :=
  modifyNode_keep fun n hn => if_neg (h n (List.mem_of_find?_eq_some hn) (id_eq_of_node? hn))

end Graph

namespace Workspace

open ScopedFlow.Graph

variable {s : Workspace} {e : Edit}

/-- An edit that misses gives its texts to the literals that it reaches, and does nothing else. -/
theorem exists_apply_of_misses (hg : s.graph.Consistent) (h : e.Misses s.graph) :
    ∃ s', s.apply e = .ok s' ∧ s'.graph.edges = s.graph.edges ∧
      s'.graph.nodes = s.graph.nodes.map fun n => n.relabelled (e.replacement? s.graph n.id) := by
  have hsame {t : Workspace} (ht : t.graph = s.graph) (hnone : ∀ id, e.replacement? s.graph id = none) :
      t.graph.edges = s.graph.edges ∧
        t.graph.nodes = s.graph.nodes.map fun n => n.relabelled (e.replacement? s.graph n.id) := by
    refine ⟨congrArg edges ht, (congrArg nodes ht).trans ?_⟩
    simp only [hnone]
    exact (List.map_id' _).symm
  cases e with
  | addNode kind label w =>
    refine ⟨_, rfl, hsame ?_ fun _ => rfl⟩
    rw [Workspace.addNode, if_neg (ne_true_of_eq_false h)]
  | removeNodes ids => exact ⟨_, rfl, hsame (removeNodes_eq_self hg.ends h) fun _ => rfl⟩
  | addEdge source target kind =>
    exact ⟨_, rfl, hsame (addEdgeBetween_eq_self h kind) fun _ => rfl⟩
  | removeEdges source target kind =>
    exact ⟨_, rfl, hsame (removeEdges_eq_self hg.ends h kind) fun _ => rfl⟩
  | updateLiteral id text =>
    obtain ⟨_, _, ⟨⟩, hkind⟩ := h
    exact ⟨_, rfl, hsame (updateLiteral_eq_self hkind text) fun _ => rfl⟩
  | setParam call param text =>
    obtain ⟨_, _, ⟨⟩, hkind⟩ := h
    exact ⟨_, rfl, hsame (setParam_eq_self hkind param text) fun _ => rfl⟩
  | setSlot call slot value =>
    obtain ⟨_, _, ⟨⟩, hkind⟩ := h
    refine ⟨_, rfl, hsame ?_ fun _ => rfl⟩
    rw [Workspace.setSlot, nodeOfKind?_eq_none hkind]
  | addListItem list text =>
    obtain ⟨_, _, ⟨⟩, hkind⟩ := h
    refine ⟨s, ?_, hsame rfl fun _ => rfl⟩
    rw [Workspace.apply, Workspace.addListItem, nodeOfKind?_eq_none hkind]
  | addDictPair dict key value =>
    obtain ⟨_, _, ⟨⟩, hkind⟩ := h
    refine ⟨s, ?_, hsame rfl fun _ => rfl⟩
    rw [Workspace.apply, Workspace.addDictPair, nodeOfKind?_eq_none hkind]
  | updateListItem list index text =>
    exact ⟨_, rfl, edges_updateSource .., nodes_updateSource hg.ids ..⟩
  | updateDictPair dict index key value =>
    exact ⟨_, rfl, edges_updateDictPair .., nodes_updateDictPair hg.ids ..⟩
  | link | inject text w =>
    obtain ⟨_, _, ⟨⟩, _⟩ := h

theorem replacement?_eq_none (hg : s.graph.Consistent) {target : NodeId} {kind : NodeKind}
    (hs : e.subject? = some (target, kind)) (htarget : target ∉ s.graph.ids) (id : NodeId) :
    e.replacement? s.graph id = none := by
  have hnone (k : EdgeKind) : s.graph.literalSource target k ≠ some id := fun hsource =>
    htarget (mem_ids_of_literalSource hg.ends hsource)
  cases e with
  | updateListItem list index text =>
    obtain ⟨⟩ := hs
    exact if_neg (hnone _)
  | updateDictPair dict index key value =>
    obtain ⟨⟩ := hs
    rw [Edit.replacement?, if_neg (hnone _), if_neg (hnone _)]
    rfl
  | _ => rfl

/-- In a graph that comes from a text by edits, an edit that misses changes nothing, exactly unless it
gives a new text to a literal that an edge leads from into a node of another kind. An edit of a node
that is gone changes nothing at all. -/
theorem apply_of_misses {supply rest : Supply} {text : String} {g : Graph}
    (hparse : ofSourceLinked supply text = .ok (g, rest)) {es : List Edit}
    (hedits : applyAll ⟨g, rest⟩ es = .ok s) (hmiss : e.Misses s.graph) :
    ∃ s', s.apply e = .ok s' ∧
      (s'.graph = s.graph ↔ ∀ n ∈ s.graph.nodes, ∀ label,
        e.replacement? s.graph n.id = some label → n.label = label) ∧
      ∀ id kind, e.subject? = some (id, kind) → id ∉ s.graph.ids → s'.graph = s.graph := by
  have hreached : Reached 0 g rest := .parsed hparse
  have hstart : Intact ⟨g, rest⟩ :=
    ⟨hreached.consistent, List.forall_mem_map.mpr hreached.sound.spent⟩
  have hg := (hstart.changes (changes_of_applyAll (fun _ => True) hedits fun _ _ _ _ => trivial)).graph
  obtain ⟨s', happly, hedges, hnodes⟩ := exists_apply_of_misses hg hmiss
  have hiff := eq_iff_of_relabelled (fun id => e.replacement? s.graph id) hnodes hedges
  refine ⟨s', happly, hiff, fun id kind hs hid => hiff.mpr fun n _ label hlabel => ?_⟩
  rw [replacement?_eq_none hg hs hid] at hlabel
  cases hlabel

/-- An edge leads into a variable as into a list. Its literal is replaced as if it were an item. Of a
list that is gone nothing is replaced. -/
theorem apply_of_misses_variable :
    let x := Supply.idOf .variable 0
    let wire : Edit := .addEdge (Supply.idOf .literal 1) x (.listElement 0)
    ∃ g rest s s' s'', ofSourceLinked ⟨0⟩ "x = 1\n" = .ok (g, rest) ∧
      applyAll ⟨g, rest⟩ [wire] = .ok s ∧ Edit.Misses s.graph (.updateListItem x 0 "2") ∧
      s.apply (.updateListItem x 0 "2") = .ok s' ∧ s'.graph ≠ s.graph ∧
      Edit.Misses s.graph (.updateListItem ⟨"gone"⟩ 0 "2") ∧
      s.apply (.updateListItem ⟨"gone"⟩ 0 "2") = .ok s'' ∧ s''.graph = s.graph := by
  intro x wire
  let module : List Stmt := [.assign "x" (.literal "1")]
  obtain ⟨start, hparse, hwired⟩ : ∃ start : Workspace,
      ofSourceLinked ⟨0⟩ "x = 1\n" = .ok (start.graph, start.supply) ∧
      (start.applyAll [wire]).map (fun s => decide ((∀ n ∈ s.graph.nodes, n.kind ≠ .listDisplay) ∧
        ⟨"gone"⟩ ∉ s.graph.ids ∧ ∃ n ∈ s.graph.nodes, n.label ≠ "2" ∧
          Edit.replacement? s.graph n.id (.updateListItem x 0 "2") = some "2")) = .ok true :=
    ⟨⟨(build ⟨0⟩ module).1.link.1, (build ⟨0⟩ module).2⟩, by decide +kernel⟩
  obtain ⟨s, hs, hstate⟩ := exists_of_map_eq_ok hwired
  obtain ⟨hkind, hgone, n, hn, hlabel, hnew⟩ := of_decide_eq_true hstate
  have hmiss (id : NodeId) : Edit.Misses s.graph (.updateListItem id 0 "2") :=
    ⟨id, .listDisplay, rfl, fun n hn _ => hkind n hn⟩
  obtain ⟨s', happly, hiff, -⟩ := apply_of_misses hparse hs (hmiss x)
  obtain ⟨s'', happly', -, hsame⟩ := apply_of_misses hparse hs (hmiss ⟨"gone"⟩)
  exact ⟨start.graph, start.supply, s, s', s'', hparse, hs, hmiss x, happly,
    fun heq => hlabel (hiff.mp heq n hn "2" hnew), hmiss _, happly', hsame _ _ rfl hgone⟩

end Workspace

end ScopedFlow
