import Mathlib.Logic.Relation
import ScopedFlow.Proofs.Slots

/-!
# Items that are added to lists and dictionaries

A new literal that goes into a node leaves all values alone that do not hang on the node, and those
that the node takes: inside of its own text the node is cut off. The number of a new item is behind
all others, so its text is the last.
-/

namespace ScopedFlow

open Relation

namespace EdgeKind

variable {k : EdgeKind} {i : Nat}

theorem elementIndex?_eq_some : k.elementIndex? = some i ↔ k = .listElement i := by
  cases k <;> simp [elementIndex?]

theorem keyIndex?_eq_some : k.keyIndex? = some i ↔ k = .dictKey i := by
  cases k <;> simp [keyIndex?]

theorem valueIndex?_eq_some : k.valueIndex? = some i ↔ k = .dictValue i := by
  cases k <;> simp [valueIndex?]

theorem pairIndex?_eq_some : k.pairIndex? = some i ↔ k = .dictKey i ∨ k = .dictValue i := by
  cases k <;> simp [pairIndex?]

end EdgeKind

namespace Graph

variable {g g' : Graph} {style : CodeStyle} {index : EdgeKind → Option Nat} {n : Node}

/-- A value goes from one node into the other. -/
def Passes (g : Graph) (source target : NodeId) : Prop :=
  ∃ e ∈ g.edges, e.source = source ∧ e.target = target ∧ e.kind.isData = true

/-- A change at one node does not reach the values that it does not go into, nor those that are
written inside of its own. -/
theorem resolve_frame {t : NodeId} (hids : g.ids.Nodup) (hends : ∀ e ∈ g.edges, e.source ∈ g.ids)
    (hlookup : ∀ id ∈ g.ids, id ≠ t → g'.lookup id = g.lookup id)
    (hedges : ∀ id ∈ g.ids, id ≠ t → g'.edgesTo id = g.edgesTo id)
    (hparams : ∀ site, g'.callParams site = g.callParams site) (visiting : List NodeId) {id : NodeId}
    (hid : id ∈ g.ids)
    (hfar : t ∈ visiting ∧ g'.lookup t = g.lookup t ∨ ¬ ReflTransGen g.Passes t id) :
    g'.resolve style visiting id = g.resolve style visiting id := by
  induction visiting, id using resolve.induct g with
  | case1 visiting id hnone =>
    obtain ⟨n, hn, rfl⟩ := List.mem_map.mp hid
    rw [lookup_of_mem hids hn] at hnone
    cases hnone
  | case2 visiting id n hl hin =>
    have hsame : g'.lookup id = g.lookup id := by
      by_cases heq : id = t
      · subst heq
        exact hfar.elim And.right fun hfar => absurd .refl hfar
      · exact hlookup id hid heq
    rw [resolve_visiting hl hin, resolve_visiting (hsame.trans hl) hin]
  | case3 visiting id n hl hnot _ ih =>
    have hne : id ≠ t := by
      rintro rfl
      exact hfar.elim (fun hin => hnot hin.1) fun hfar => hfar .refl
    rw [resolve_node hl hnot,
      resolve_node ((hlookup id hid hne).trans hl) hnot]
    have hidn := id_eq_of_lookup hl
    apply renderNode_congr
    · rw [hidn]
      exact hedges id hid hne
    · intro e he hdata
      obtain ⟨hmem, htarget⟩ := List.mem_filter.mp he
      apply ih e.source (hends e hmem)
      refine hfar.imp (And.imp_left (List.mem_cons_of_mem _)) fun hfar hpath => ?_
      exact hfar (hpath.tail ⟨e, hmem, rfl, (of_decide_eq_true htarget).trans hidn, hdata⟩)
    · intro site _
      exact hparams site

theorem callParams_congr (h : ∀ id, (g'.lookup id).filter (fun n => n.kind = .functionDef) =
    (g.lookup id).filter fun n => n.kind = .functionDef) (site : CallSite) :
    g'.callParams site = g.callParams site := by
  have hparams (g : Graph) : g.callParams site =
      (((site.target.bind World.owner?).bind fun id =>
        (g.lookup id).filter fun n => n.kind = .functionDef).map Node.params).getD site.params := by
    unfold callParams
    cases site.target.bind World.owner? with
    | none => rfl
    | some id =>
      cases hl : g.lookup id with
      | none => simp [hl]
      | some n =>
        by_cases hk : n.kind = .functionDef <;> simp [hl, hk, Option.filter]
  rw [hparams, hparams]
  simp only [h]

theorem edges_addEdge_of_source {es : List Edge} (hg : g.edges = es) {source : NodeId}
    (h : ∀ e ∈ es, e.source ≠ source) (target : NodeId) (kind : EdgeKind) :
    (g.addEdge ⟨source, target, kind⟩).edges = es ++ [⟨source, target, kind⟩] := by
  subst hg
  rw [addEdge, if_neg fun hmem => h _ hmem rfl]

/-- A graph with new literals behind its nodes, all of them for one node. -/
structure Supplied (g g' : Graph) (target : NodeId) (new : List (Node × EdgeKind)) : Prop where
  ids : g'.ids.Nodup
  nodes : g'.nodes = g.nodes ++ new.map Prod.fst
  edges : g'.edges = g.edges ++ new.map fun p => ⟨p.1.id, target, p.2⟩
  literal : ∀ p ∈ new, p.1.payload = .literal

namespace Supplied

variable {t : NodeId} {new : List (Node × EdgeKind)} (h : Supplied g g' t new) {id : NodeId}

include h

theorem lookup_old (hn : n ∈ g.nodes) : g'.lookup n.id = some n :=
  lookup_of_mem h.ids (h.nodes ▸ List.mem_append_left _ hn)

theorem ids_old : g.ids.Nodup := by
  have hids := h.ids
  rw [Graph.ids, h.nodes, List.map_append] at hids
  exact (List.nodup_append.mp hids).1

theorem lookup_eq (hid : id ∈ g.ids) : g'.lookup id = g.lookup id := by
  obtain ⟨n, hn, rfl⟩ := List.mem_map.mp hid
  rw [h.lookup_old hn, lookup_of_mem h.ids_old hn]

theorem edgesTo_self :
    g'.edgesTo t = g.edgesTo t ++ new.map fun p => ⟨p.1.id, t, p.2⟩ := by
  rw [edgesTo, edgesTo, h.edges, List.filter_append]
  congr 1
  rw [List.filter_eq_self]
  intro e he
  obtain ⟨p, -, rfl⟩ := List.mem_map.mp he
  exact decide_eq_true rfl

theorem edgesTo_of_ne (hid : id ≠ t) : g'.edgesTo id = g.edgesTo id := by
  rw [edgesTo, edgesTo, h.edges, List.filter_append, List.append_right_eq_self, List.filter_eq_nil_iff]
  intro e he
  obtain ⟨p, -, rfl⟩ := List.mem_map.mp he
  simpa using hid.symm

theorem callParams_eq (site : CallSite) : g'.callParams site = g.callParams site := by
  apply callParams_congr
  intro id
  by_cases hid : id ∈ g.ids
  · rw [h.lookup_eq hid]
  · have hnone : g.lookup id = none := by
      cases hl : g.lookup id with
      | none => rfl
      | some n => exact absurd (mem_ids_of_lookup hl) hid
    rw [hnone]
    cases hl : g'.lookup id with
    | none => rfl
    | some n =>
      have hn := mem_of_lookup hl
      rw [h.nodes] at hn
      rcases List.mem_append.mp hn with hn | hn
      · exact absurd (id_eq_of_lookup hl ▸ List.mem_map_of_mem hn) hid
      · obtain ⟨p, hp, rfl⟩ := List.mem_map.mp hn
        rw [Option.filter_some, Node.kind, h.literal p hp]
        rfl

theorem resolve_eq (hends : ∀ e ∈ g.edges, e.source ∈ g.ids) (ht : t ∈ g.ids)
    (visiting : List NodeId) (hid : id ∈ g.ids) (hfar : t ∈ visiting ∨ ¬ ReflTransGen g.Passes t id)
    : g'.resolve style visiting id = g.resolve style visiting id := by
  apply resolve_frame h.ids_old hends _ _ h.callParams_eq visiting hid
  · exact hfar.imp_left fun hin => ⟨hin, h.lookup_eq ht⟩
  · intro id hid _
    exact h.lookup_eq hid
  · intro id _ hne
    exact h.edgesTo_of_ne hne

theorem resolve_new (style : CodeStyle) (ht : t ∈ g.ids) {p : Node × EdgeKind} (hp : p ∈ new) :
    g'.resolve style [t] p.1.id = .plain (Literal.text p.1.label) := by
  have hmem : p.1 ∈ new.map Prod.fst := List.mem_map_of_mem hp
  have hids := h.ids
  rw [Graph.ids, h.nodes, List.map_append] at hids
  have hne : p.1.id ∉ [t] := by
    intro heq
    rw [List.mem_singleton] at heq
    exact (List.nodup_append.mp hids).2.2 t ht p.1.id (List.mem_map_of_mem hmem) heq.symm
  have hlookup := lookup_of_mem h.ids (h.nodes ▸ List.mem_append_right _ hmem)
  rw [resolve_node hlookup hne, renderNode, h.literal p hp]

theorem resolve_part (hends : ∀ e ∈ g.edges, e.source ∈ g.ids) (ht : t ∈ g.ids) {e : Edge}
    (he : e ∈ g.edgesTo t) : g'.resolve style [t] e.source = g.resolve style [t] e.source :=
  h.resolve_eq hends ht [t] (hends e (List.mem_filter.mp he).1) (.inl List.mem_cons_self)

end Supplied

theorem lt_foldl_next {is : List Nat} {i : Nat} (hi : i ∈ is) (m : Nat) :
    i < is.foldl (fun m i => max m (i + 1)) m := by
  have hgrows (is : List Nat) (m : Nat) : m ≤ is.foldl (fun m i => max m (i + 1)) m := by
    induction is generalizing m with
    | nil => exact Nat.le_refl m
    | cons i is ih => exact Nat.le_trans (Nat.le_max_left ..) (ih _)
  induction is generalizing m with
  | nil => cases hi
  | cons j is ih =>
    rcases List.mem_cons.mp hi with rfl | hi
    · exact Nat.lt_of_lt_of_le (Nat.lt_of_lt_of_le i.lt_succ_self (Nat.le_max_right ..)) (hgrows ..)
    · exact ih hi _

theorem lt_nextIndex {id : NodeId} {next : Nat} (h : g.nextIndex id index = .ok next) {e : Edge}
    (he : e ∈ g.edgesTo id) {i : Nat} (hi : index e.kind = some i) : i < next := by
  dsimp only [nextIndex] at h
  split at h
  · rw [← Except.ok.inj h]
    exact lt_foldl_next (List.mem_filterMap.mpr ⟨e, he, hi⟩) 0
  · cases h

theorem exists_next_of_lt {id : NodeId}
    (h : ∀ e ∈ g.edgesTo id, ∀ i, index e.kind = some i → i + 1 < indexLimit) :
    ∃ next, g.nextIndex id index = .ok next := by
  apply exists_nextIndex
  rw [isFull, List.any_eq_false]
  intro e he hfull
  obtain ⟨i, hi, hlimit⟩ := (Option.any_eq_true ..).mp hfull
  exact absurd (h e he i hi) (Nat.not_lt.mpr (of_decide_eq_true hlimit))

theorem indexed_snoc (index : EdgeKind → Option Nat) {id : NodeId} {es : List Edge} {entry : Nat × NodeId}
    (hedges : g'.edgesTo id = g.edgesTo id ++ es)
    (hes : (es.filterMap fun e => (index e.kind).map fun i => (i, e.source)) = [entry])
    (hlast : ∀ e ∈ g.edgesTo id, ∀ i, index e.kind = some i → i < entry.1) :
    g'.indexed id index = g.indexed id index ++ [entry] := by
  rw [indexed, hedges, List.filterMap_append, hes, List.foldl_append]
  apply insertIndexed_last
  intro p hp
  obtain ⟨e, he, hi, -⟩ := mem_indexed.mp hp
  exact Nat.le_of_lt (hlast e he p.1 hi)

theorem keyedPairs_snoc {id k v : NodeId} {i : Nat}
    (hkeys : g'.indexed id EdgeKind.keyIndex? = g.indexed id EdgeKind.keyIndex? ++ [(i, k)])
    (hvalues : g'.indexed id EdgeKind.valueIndex? = g.indexed id EdgeKind.valueIndex? ++ [(i, v)])
    (hlast : ∀ key ∈ g.indexed id EdgeKind.keyIndex?, key.1 < i)
    (hpaired : ∀ key ∈ g.indexed id EdgeKind.keyIndex?,
      ∃ value ∈ g.indexed id EdgeKind.valueIndex?, value.1 = key.1) :
    g'.keyedPairs id = g.keyedPairs id ++ [(k, v)] := by
  rw [keyedPairs_of_paired hpaired, keyedPairs_of_paired, hkeys, hvalues, List.filterMap_append,
    List.reverse_append, List.reverse_singleton, List.singleton_append]
  · congr 1
    · apply List.filterMap_congr
      intro key hkey
      have hne : i ≠ key.1 := (Nat.ne_of_lt (hlast key hkey)).symm
      rw [List.find?_cons_of_neg (by simpa using hne)]
    · simp
  · intro key hkey
    rw [hkeys] at hkey
    rw [hvalues]
    rcases List.mem_append.mp hkey with hkey | hkey
    · obtain ⟨value, hvalue, hnumber⟩ := hpaired key hkey
      exact ⟨value, List.mem_append_left _ hvalue, hnumber⟩
    · obtain rfl := List.mem_singleton.mp hkey
      exact ⟨(i, v), List.mem_append_right _ List.mem_cons_self, rfl⟩

/-- Texts of the items of a list, by their numbers. -/
def itemTexts (g : Graph) (style : CodeStyle) (id : NodeId) : List String :=
  (g.indexed id EdgeKind.elementIndex?).map fun e => (g.resolve style [id] e.2).text

/-- Texts of the pairs of a dictionary, by the numbers of their keys. -/
def pairTexts (g : Graph) (style : CodeStyle) (id : NodeId) : List String :=
  (g.keyedPairs id).map fun p =>
    (g.resolve style [id] p.1).text ++ ": " ++ (g.resolve style [id] p.2).text

def listText (items : List String) : String := "[" ++ ", ".intercalate items ++ "]"

def dictText (pairs : List String) : String := "\x7b" ++ ", ".intercalate pairs ++ "\x7d"

theorem text_list (hl : g.lookup n.id = some n) (hp : n.payload = .listDisplay) :
    (g.value style n.id).text = listText (g.itemTexts style n.id) := by
  rw [value, resolve_node hl List.not_mem_nil, renderNode, hp]
  simp only [Rendered.map, Rendered.join, List.map_map]
  rfl

theorem text_dict (hl : g.lookup n.id = some n) (hp : n.payload = .dictDisplay) :
    (g.value style n.id).text = dictText (g.pairTexts style n.id) := by
  rw [value, resolve_node hl List.not_mem_nil, renderNode, hp]
  simp only [Rendered.map, Rendered.join, List.map_map]
  rfl

section Snoc

variable {t : NodeId} {i : Nat} (hends : ∀ e ∈ g.edges, e.source ∈ g.ids) (ht : t ∈ g.ids)

include hends ht

theorem itemTexts_snoc {m : Node} (h : Supplied g g' t [(m, .listElement i)])
    (hlast : ∀ e ∈ g.edgesTo t, ∀ j, e.kind = .listElement j → j < i) :
    g'.itemTexts style t = g.itemTexts style t ++ [Literal.text m.label] := by
  rw [itemTexts, indexed_snoc _ h.edgesTo_self rfl, List.map_append]
  · apply congrArg₂
    · apply List.map_congr_left
      intro p hp
      obtain ⟨e, he, -, hs⟩ := mem_indexed.mp hp
      rw [← hs, h.resolve_part hends ht he]
    · have hm := h.resolve_new style ht (p := (m, .listElement i)) List.mem_cons_self
      simp only [List.map_cons, List.map_nil, hm, Rendered.plain]
  · intro e he j hj
    exact hlast e he j (EdgeKind.elementIndex?_eq_some.mp hj)

theorem pairTexts_snoc {k v : Node} (h : Supplied g g' t [(k, .dictKey i), (v, .dictValue i)])
    (hlast : ∀ e ∈ g.edgesTo t, ∀ j, e.kind = .dictKey j ∨ e.kind = .dictValue j → j < i)
    (hpaired : ∀ e ∈ g.edgesTo t, ∀ j, e.kind = .dictKey j →
      ∃ e' ∈ g.edgesTo t, e'.kind = .dictValue j) :
    g'.pairTexts style t =
      g.pairTexts style t ++ [Literal.text k.label ++ ": " ++ Literal.text v.label] := by
  have hkeys := indexed_snoc EdgeKind.keyIndex? h.edgesTo_self rfl
    fun e he j hj => hlast e he j (.inl (EdgeKind.keyIndex?_eq_some.mp hj))
  have hvalues := indexed_snoc EdgeKind.valueIndex? h.edgesTo_self rfl
    fun e he j hj => hlast e he j (.inr (EdgeKind.valueIndex?_eq_some.mp hj))
  rw [pairTexts, keyedPairs_snoc hkeys hvalues, List.map_append]
  · apply congrArg₂
    · apply List.map_congr_left
      intro p hp
      obtain ⟨⟨e, he, -, hs⟩, e', he', -, hs'⟩ := mem_edgesTo_of_keyedPairs hp
      rw [← hs, ← hs', h.resolve_part hends ht he, h.resolve_part hends ht he']
    · have hk := h.resolve_new style ht (p := (k, .dictKey i)) List.mem_cons_self
      have hv := h.resolve_new style ht (p := (v, .dictValue i))
        (List.mem_cons_of_mem _ List.mem_cons_self)
      simp only [List.map_cons, List.map_nil, hk, hv, Rendered.plain]
  · intro key hkey
    obtain ⟨e, he, hk, -⟩ := mem_indexed.mp hkey
    exact hlast e he key.1 (.inl (EdgeKind.keyIndex?_eq_some.mp hk))
  · intro key hkey
    obtain ⟨e, he, hk, -⟩ := mem_indexed.mp hkey
    obtain ⟨e', he', hv⟩ := hpaired e he key.1 (EdgeKind.keyIndex?_eq_some.mp hk)
    exact ⟨(key.1, e'.source),
      mem_indexed.mpr ⟨e', he', EdgeKind.valueIndex?_eq_some.mpr hv, rfl⟩, rfl⟩

end Snoc

/-- A container is written with one text more at its end, and what does not hang on it as before. -/
structure TextAppends (g g' : Graph) (style : CodeStyle) (id : NodeId)
    (wrap : List String → String) (texts : List String) (last : String) : Prop where
  before : (g.value style id).text = wrap texts
  after : (g'.value style id).text = wrap (texts ++ [last])
  others : ∀ visiting, ∀ other ∈ g.ids, ¬ ReflTransGen g.Passes id other →
    g'.resolve style visiting other = g.resolve style visiting other

end Graph

namespace Workspace

open ScopedFlow.Graph

variable {s : Workspace} {n : Node}

section Supplied

variable (hids : s.graph.ids.Nodup)
  (hends : ∀ e ∈ s.graph.edges, e.source ∈ s.graph.ids ∧ e.target ∈ s.graph.ids)
  (hfresh : ∀ id ∈ s.graph.ids, s.supply.Spent id)

include hends in
theorem source_ne {id : NodeId} (hid : id ∉ s.graph.ids) : ∀ e ∈ s.graph.edges, e.source ≠ id :=
  fun e he heq => hid (heq ▸ (hends e he).1)

include hids hends hfresh

theorem supplied_insertLiteral (text : String) (w : World) (target : NodeId) (kind : EdgeKind) :
    s.graph.Supplied (s.insertLiteral text w target kind).graph target
      [(⟨Supply.idOf .literal s.supply.next, text, w, .literal⟩, kind)] := by
  have hnew := not_mem_ids hfresh (Nat.le_refl _) .literal
  constructor
  · apply nodup_ids_append hids (nodes_insertLiteral ..) (List.nodup_singleton _)
    intro m hm
    rw [List.mem_singleton.mp hm]
    exact hnew
  · exact nodes_insertLiteral ..
  · exact edges_addEdge_of_source (g := (s.insert .literal text w).2.graph) rfl (source_ne hends hnew)
      target kind
  · intro p hp
    rw [List.mem_singleton.mp hp]

theorem supplied_insertPair (key value : String) (w : World) (dict : NodeId) (index : Nat) :
    s.graph.Supplied (s.insertPair key value w dict index).graph dict
      [(⟨Supply.idOf .literal s.supply.next, key, w, .literal⟩, .dictKey index),
        (⟨Supply.idOf .literal (s.supply.next + 1), value, w, .literal⟩, .dictValue index)] := by
  have hkey := not_mem_ids hfresh (Nat.le_refl _) .literal
  have hvalue := not_mem_ids hfresh (Nat.le_succ _) .literal
  have hissued : s.supply.Issued ⟨s.supply.next + 1⟩ (Supply.idOf .literal s.supply.next) :=
    ⟨.literal, s.supply.next, rfl, Nat.le_refl _, Nat.lt_succ_self _⟩
  have hne : Supply.idOf .literal s.supply.next ≠ Supply.idOf .literal (s.supply.next + 1) :=
    hissued.spent .literal _ (Nat.le_refl _)
  constructor
  · apply nodup_ids_append hids (nodes_insertPair ..)
    · simpa using hne
    · simpa using ⟨hkey, hvalue⟩
  · exact nodes_insertPair ..
  · have hsources : ∀ e ∈ s.graph.edges ++ [⟨Supply.idOf .literal s.supply.next, dict, .dictKey index⟩],
        e.source ≠ Supply.idOf .literal (s.supply.next + 1) := by
      intro e he
      rcases List.mem_append.mp he with he | he
      · exact source_ne hends hvalue e he
      · rw [List.mem_singleton.mp he]
        exact hne
    have hfirst := edges_addEdge_of_source (g := ((s.insert .literal key w).2.insert .literal value w).2.graph)
      rfl (source_ne hends hkey) dict (.dictKey index)
    exact (edges_addEdge_of_source hfirst hsources dict (.dictValue index)).trans
      (List.append_assoc ..)
  · simp

variable (hn : n ∈ s.graph.nodes) (style : CodeStyle)

include hn

theorem exists_addListItem (hp : n.payload = .listDisplay)
    (hroom : ∀ e ∈ s.graph.edgesTo n.id, ∀ i, e.kind = .listElement i → i + 1 < indexLimit)
    (text : String) : ∃ s', s.addListItem n.id text = .ok s' ∧
      s.graph.TextAppends s'.graph style n.id listText (s.graph.itemTexts style n.id)
        (Literal.text text) := by
  have ht : n.id ∈ s.graph.ids := List.mem_map_of_mem hn
  have hsources : ∀ e ∈ s.graph.edges, e.source ∈ s.graph.ids := fun e he => (hends e he).1
  have hnode : s.graph.nodeOfKind? n.id .listDisplay = some n := by
    simp [nodeOfKind?, node?_of_mem hids hn, Node.kind, hp, Payload.kind]
  obtain ⟨next, hnext⟩ : ∃ next, s.graph.nextIndex n.id EdgeKind.elementIndex? = .ok next := by
    apply exists_next_of_lt
    intro e he i hi
    exact hroom e he i (EdgeKind.elementIndex?_eq_some.mp hi)
  have hsup := supplied_insertLiteral hids hends hfresh text n.world n.id (.listElement next)
  refine ⟨s.insertLiteral text n.world n.id (.listElement next), ?_, ?_, ?_, ?_⟩
  · simp only [Workspace.addListItem, hnode, hnext]
    rfl
  · exact text_list (lookup_of_mem hids hn) hp
  · rw [text_list (hsup.lookup_old hn) hp, itemTexts_snoc hsources ht hsup]
    intro e he j hj
    exact lt_nextIndex hnext he (EdgeKind.elementIndex?_eq_some.mpr hj)
  · intro visiting other hother hfar
    exact hsup.resolve_eq hsources ht visiting hother (.inr hfar)

theorem exists_addDictPair (hp : n.payload = .dictDisplay)
    (hpaired : ∀ e ∈ s.graph.edgesTo n.id, ∀ i, e.kind = .dictKey i →
      ∃ e' ∈ s.graph.edgesTo n.id, e'.kind = .dictValue i)
    (hroom : ∀ e ∈ s.graph.edgesTo n.id, ∀ i, e.kind = .dictKey i ∨ e.kind = .dictValue i →
      i + 1 < indexLimit)
    (key value : String) : ∃ s', s.addDictPair n.id key value = .ok s' ∧
      s.graph.TextAppends s'.graph style n.id dictText (s.graph.pairTexts style n.id)
        (Literal.text key ++ ": " ++ Literal.text value) := by
  have ht : n.id ∈ s.graph.ids := List.mem_map_of_mem hn
  have hsources : ∀ e ∈ s.graph.edges, e.source ∈ s.graph.ids := fun e he => (hends e he).1
  have hnode : s.graph.nodeOfKind? n.id .dictDisplay = some n := by
    simp [nodeOfKind?, node?_of_mem hids hn, Node.kind, hp, Payload.kind]
  obtain ⟨next, hnext⟩ : ∃ next, s.graph.nextIndex n.id EdgeKind.pairIndex? = .ok next := by
    apply exists_next_of_lt
    intro e he i hi
    exact hroom e he i (EdgeKind.pairIndex?_eq_some.mp hi)
  have hsup := supplied_insertPair hids hends hfresh key value n.world n.id next
  refine ⟨s.insertPair key value n.world n.id next, ?_, ?_, ?_, ?_⟩
  · simp only [Workspace.addDictPair, hnode, hnext]
    rfl
  · exact text_dict (lookup_of_mem hids hn) hp
  · rw [text_dict (hsup.lookup_old hn) hp, pairTexts_snoc hsources ht hsup _ hpaired]
    intro e he j hj
    exact lt_nextIndex hnext he (EdgeKind.pairIndex?_eq_some.mpr hj)
  · intro visiting other hother hfar
    exact hsup.resolve_eq hsources ht visiting hother (.inr hfar)

end Supplied

/-- What is added to a list or a dictionary is written behind all that was there, and a value that the
container does not go into is written as before. -/
theorem text_appends (hids : s.graph.ids.Nodup)
    (hends : ∀ e ∈ s.graph.edges, e.source ∈ s.graph.ids ∧ e.target ∈ s.graph.ids)
    (hfresh : ∀ id ∈ s.graph.ids, s.supply.Spent id) (hn : n ∈ s.graph.nodes) (style : CodeStyle) :
    (n.payload = .listDisplay →
      (∀ e ∈ s.graph.edgesTo n.id, ∀ i, e.kind = .listElement i → i + 1 < indexLimit) →
      ∀ text, ∃ s', s.addListItem n.id text = .ok s' ∧
        s.graph.TextAppends s'.graph style n.id listText (s.graph.itemTexts style n.id)
          (Literal.text text)) ∧
    (n.payload = .dictDisplay →
      (∀ e ∈ s.graph.edgesTo n.id, ∀ i, e.kind = .dictKey i →
        ∃ e' ∈ s.graph.edgesTo n.id, e'.kind = .dictValue i) →
      (∀ e ∈ s.graph.edgesTo n.id, ∀ i, e.kind = .dictKey i ∨ e.kind = .dictValue i →
        i + 1 < indexLimit) →
      ∀ key value, ∃ s', s.addDictPair n.id key value = .ok s' ∧
        s.graph.TextAppends s'.graph style n.id dictText (s.graph.pairTexts style n.id)
          (Literal.text key ++ ": " ++ Literal.text value)) :=
  ⟨exists_addListItem hids hends hfresh hn style, exists_addDictPair hids hends hfresh hn style⟩

/-- A list that is an item of its own, with a gap in its numbers. Inside of its text it is cut off,
before and after the new item. -/
theorem text_appends_cyclic :
    let list := Supply.idOf .listDisplay 1
    let dict := Supply.idOf .dictDisplay 4
    let knot : Edit := .addEdge list list (.listElement 7)
    ∃ g rest s s₁ s₂, ofSourceLinked ⟨0⟩ "xs = [1]\nf(\x7b2: xs\x7d)\n" = .ok (g, rest) ∧
      applyAll ⟨g, rest⟩ [knot] = .ok s ∧ s.addListItem list "q" = .ok s₁ ∧
      s.graph.TextAppends s₁.graph .default list listText ["1", "__missing__"] "'q'" ∧
      s.addDictPair dict "q" "3" = .ok s₂ ∧
      s.graph.TextAppends s₂.graph .default dict dictText ["2: xs"] "'q': 3" := by
  intro list dict knot
  let module : List Stmt := [.assign "xs" (.list [.literal "1"]),
    .eval (.call "f" [.positional (.dict [.mk (.literal "2") (.name "xs")])])]
  obtain ⟨start, hparse, hknot⟩ : ∃ start : Workspace,
      ofSourceLinked ⟨0⟩ "xs = [1]\nf(\x7b2: xs\x7d)\n" = .ok (start.graph, start.supply) ∧
      (start.applyAll [knot]).map (fun s => decide (
        ⟨list, "[]", .root, .listDisplay⟩ ∈ s.graph.nodes ∧
        ⟨dict, "\x7b\x7d", .root, .dictDisplay⟩ ∈ s.graph.nodes ∧
        (s.graph.edgesTo list).map (·.kind) = [.listElement 0, .listElement 7] ∧
        (s.graph.edgesTo dict).map (·.kind) = [.dictKey 0, .dictValue 0] ∧
        s.graph.itemTexts .default list = ["1", "__missing__"] ∧
        s.graph.pairTexts .default dict = ["2: xs"] ∧
        Literal.text "q" = "'q'" ∧ Literal.text "3" = "3")) = .ok true :=
    ⟨⟨(build ⟨0⟩ module).1.link.1, (build ⟨0⟩ module).2⟩, by decide +kernel⟩
  obtain ⟨s, hs, hstate⟩ := exists_of_map_eq_ok hknot
  obtain ⟨hlist, hdict, hitems, hpairs, hlistTexts, hdictTexts, hq, hthree⟩ :=
    of_decide_eq_true hstate
  have hreached : Reached 0 start.graph start.supply := .parsed hparse
  have hstart : Intact start := ⟨hreached.consistent, List.forall_mem_map.mpr hreached.sound.spent⟩
  have hintact := hstart.changes (changes_of_applyAll (fun _ => True) hs fun _ _ _ _ => trivial)
  have hkind {id : NodeId} {kinds : List EdgeKind} (hkinds : (s.graph.edgesTo id).map (·.kind) = kinds)
      {e : Edge} (he : e ∈ s.graph.edgesTo id) : e.kind ∈ kinds := hkinds ▸ List.mem_map_of_mem he
  have hroom₁ : ∀ e ∈ s.graph.edgesTo list, ∀ i, e.kind = .listElement i → i + 1 < indexLimit := by
    intro e he i hi
    have hi : i = 0 ∨ i = 7 := by simpa [hi] using hkind hitems he
    rcases hi with rfl | rfl <;> decide
  have hpaired : ∀ e ∈ s.graph.edgesTo dict, ∀ i, e.kind = .dictKey i →
      ∃ e' ∈ s.graph.edgesTo dict, e'.kind = .dictValue i := by
    intro e he i hi
    obtain rfl : i = 0 := by simpa [hi] using hkind hpairs he
    exact List.mem_map.mp (hpairs ▸ List.mem_cons_of_mem _ List.mem_cons_self)
  have hroom₂ : ∀ e ∈ s.graph.edgesTo dict, ∀ i, e.kind = .dictKey i ∨ e.kind = .dictValue i →
      i + 1 < indexLimit := by
    rintro e he i (hi | hi)
    all_goals
      obtain rfl : i = 0 := by simpa [hi] using hkind hpairs he
      decide
  obtain ⟨s₁, happly₁, htexts₁⟩ := (text_appends hintact.graph.ids hintact.graph.ends hintact.fresh
    hlist .default).1 rfl hroom₁ "q"
  obtain ⟨s₂, happly₂, htexts₂⟩ := (text_appends hintact.graph.ids hintact.graph.ends hintact.fresh
    hdict .default).2 rfl hpaired hroom₂ "q" "3"
  rw [hlistTexts, hq] at htexts₁
  rw [hdictTexts, hq, hthree] at htexts₂
  exact ⟨start.graph, start.supply, s, s₁, s₂, hparse, hs, happly₁, htexts₁, happly₂, htexts₂⟩

end Workspace

end ScopedFlow
