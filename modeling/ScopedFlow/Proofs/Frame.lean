import Mathlib.Data.List.Forall2
import ScopedFlow.Proofs.Appending
import ScopedFlow.Proofs.Editing

/-!
# What an edit leaves alone

An edit either changes nodes where they stand, or removes nodes, or puts new ones behind all others.
Where it changes a node, that is the label of a literal or the site of a call.
-/

namespace ScopedFlow

variable {e : Edit}

namespace Overrides

theorem find?_put_self (name text : String) (es : List (String × String)) :
    (put name text es).find? (fun e => e.1 = name) = some (name, text) := by
  induction es with
  | nil => simp [put]
  | cons e es ih =>
    unfold put
    split
    · simp
    · split
      · simp
      · rename_i _ hne
        rw [List.find?_cons_of_neg (by simpa using Ne.symm hne), ih]

theorem find?_put_of_ne {name other : String} (h : other ≠ name) (text : String)
    (es : List (String × String)) :
    (put name text es).find? (fun e => e.1 = other) = es.find? fun e => e.1 = other := by
  induction es with
  | nil => simp [put, h.symm]
  | cons e es ih =>
    unfold put
    split
    · rw [List.find?_cons_of_neg (by simpa using h.symm)]
    · split
      · rename_i _ heq
        rw [List.find?_cons_of_neg (by simpa using h.symm),
          List.find?_cons_of_neg (by simpa [← heq] using h.symm)]
      · by_cases he : e.1 = other
        · simp [he]
        · rw [List.find?_cons_of_neg (by simpa using he), List.find?_cons_of_neg (by simpa using he),
            ih]

theorem get?_insert_self (o : Overrides) (name text : String) :
    (o.insert name text).get? name = some text := by
  rw [get?, insert, find?_put_self, Option.map_some]

theorem get?_insert_of_ne (o : Overrides) {name other : String} (h : other ≠ name) (text : String) :
    (o.insert name text).get? other = o.get? other := by
  rw [get?, get?, insert, find?_put_of_ne h]

end Overrides

namespace Edit

/-- What an edit may change at the site of a call: linking its target and its parameters, and a text
for a parameter the one override of that parameter. -/
def Resites : Edit → NodeId → CallSite → CallSite → Prop
  | .link, _, site, site' => site' = { site with target := site'.target, params := site'.params }
  | .setParam call param text, id, site, site' =>
    id = call ∧ site' = { site with overrides := site'.overrides } ∧
      site'.overrides.get? param = some text ∧
      ∀ name, name ≠ param → site'.overrides.get? name = site.overrides.get? name
  | _, _, _, _ => False

/-- How a node that stays is after an edit. -/
structure Keeps (e : Edit) (n n' : Node) : Prop where
  id : n'.id = n.id
  world : n'.world = n.world
  kind : n'.kind = n.kind
  label : n'.label ≠ n.label → n.kind = .literal
  payload : n'.payload ≠ n.payload →
    ∃ site site', n.payload = .call site ∧ n'.payload = .call site' ∧ e.Resites n.id site site'

theorem Keeps.refl (e : Edit) (n : Node) : e.Keeps n n :=
  ⟨rfl, rfl, rfl, fun h => absurd rfl h, fun h => absurd rfl h⟩

/-- The ways in which an edit acts on the nodes of a graph. -/
inductive Effect (e : Edit) (g g' : Graph) : Prop where
  | changes (f : Node → Node) (nodes : g'.nodes = g.nodes.map f)
    (keeps : ∀ n ∈ g.nodes, e.Keeps n (f n))
  | removes (ids : List NodeId) (edit : e = .removeNodes ids)
    (nodes : g'.nodes = g.nodes.filter fun n => n.id ∉ ids)
  | adds (new : List Node) (nodes : g'.nodes = g.nodes ++ new) (fresh : ∀ n ∈ new, n.id ∉ g.ids)

theorem Effect.same {g g' : Graph} (h : g'.nodes = g.nodes) : e.Effect g g' :=
  .changes (fun n => n) (by rw [List.map_id', h]) fun n _ => .refl e n

end Edit

namespace Graph

open ScopedFlow.Edit

variable {g g' : Graph}

/-- Labels of literals may differ, and nothing else. -/
def Relabels (g g' : Graph) : Prop :=
  ∃ f : Node → Node, g'.nodes = g.nodes.map f ∧
    ∀ n, f n = { n with label := (f n).label } ∧ ((f n).label ≠ n.label → n.kind = .literal)

theorem Relabels.refl (g : Graph) : Relabels g g :=
  ⟨fun n => n, (List.map_id' _).symm, fun _ => ⟨rfl, fun h => absurd rfl h⟩⟩

theorem Relabels.trans {g'' : Graph} (h : Relabels g g') (h' : Relabels g' g'') :
    Relabels g g'' := by
  obtain ⟨f, hf, hkeeps⟩ := h
  obtain ⟨f', hf', hkeeps'⟩ := h'
  refine ⟨f' ∘ f, by rw [hf', hf, List.map_map], ?_⟩
  intro n
  obtain ⟨hn, hlabel⟩ := hkeeps n
  obtain ⟨hn', hlabel'⟩ := hkeeps' (f n)
  constructor
  · rw [Function.comp_apply, hn', hn]
  · intro hne
    by_cases hmid : (f n).label = n.label
    · have hkind : (f n).kind = n.kind := by rw [hn]; rfl
      rw [← hkind]
      apply hlabel'
      rw [hmid]
      exact hne
    · exact hlabel hmid

theorem relabels_updateLiteral (h : g.ids.Nodup) (id : NodeId) (text : String) :
    Relabels g (g.updateLiteral id text) := by
  refine ⟨_, nodes_modifyNode h id (setLabel text), ?_⟩
  intro n
  split
  · unfold setLabel
    split
    · rename_i hkind
      exact ⟨rfl, fun _ => hkind⟩
    · exact ⟨rfl, fun hne => absurd rfl hne⟩
  · exact ⟨rfl, fun hne => absurd rfl hne⟩

theorem relabels_updateSource (h : g.ids.Nodup) (target : NodeId) (kind : EdgeKind) (text : String) :
    Relabels g (g.updateSource target kind text) := by
  unfold updateSource
  split
  · exact relabels_updateLiteral h _ text
  · exact .refl g

theorem Relabels.ids (h : Relabels g g') : g'.ids = g.ids := by
  obtain ⟨f, hf, hkeeps⟩ := h
  rw [Graph.ids, hf, List.map_map]
  apply List.map_congr_left
  intro n _
  rw [Function.comp_apply, (hkeeps n).1]

theorem relabels_updateDictPair (h : g.ids.Nodup) (dict : NodeId) (index : Nat)
    (key value : Option String) : Relabels g (g.updateDictPair dict index key value) := by
  have hkey : Relabels g (g.updateDictPair dict index key none) := by
    cases key with
    | none => exact .refl g
    | some text => exact relabels_updateSource h ..
  cases value with
  | none => exact hkey
  | some text =>
    apply hkey.trans
    exact relabels_updateSource (hkey.ids ▸ h) dict (.dictValue index) text

theorem Relabels.effect (h : Relabels g g') (e : Edit) : e.Effect g g' := by
  obtain ⟨f, hf, hkeeps⟩ := h
  refine .changes f hf ?_
  intro n _
  obtain ⟨hn, hlabel⟩ := hkeeps n
  have hpayload : (f n).payload = n.payload := by rw [hn]
  refine ⟨by rw [hn], by rw [hn], congrArg Payload.kind hpayload, hlabel, ?_⟩
  intro hne
  exact absurd hpayload hne

theorem keeps_mapSite {n : Node} {f : CallSite → CallSite}
    (h : ∀ site, n.payload = .call site → e.Resites n.id site (f site)) :
    e.Keeps n (n.mapSite f) := by
  obtain ⟨id, label, world, payload⟩ := n
  cases payload with
  | call site =>
    refine ⟨rfl, rfl, rfl, fun hne => absurd rfl hne, ?_⟩
    intro _
    exact ⟨site, f site, rfl, rfl, h site rfl⟩
  | _ => exact .refl e _

theorem keeps_settled (g : Graph) (n : Node) : Keeps .link n (g.settled n) := by
  unfold settled
  split
  · apply keeps_mapSite
    intro site _
    rfl
  · unfold hydratedBy
    split
    · apply keeps_mapSite
      intro site _
      rfl
    · exact .refl .link n

theorem effect_setParam (h : g.ids.Nodup) (call : NodeId) (param text : String) :
    Effect (.setParam call param text) g (g.setParam call param text) := by
  refine .changes _ (nodes_modifyNode h call _) ?_
  intro n _
  split
  · rename_i hid
    apply keeps_mapSite
    intro site _
    refine ⟨hid, rfl, Overrides.get?_insert_self .., ?_⟩
    intro name hname
    exact Overrides.get?_insert_of_ne _ hname text
  · exact .refl _ n

theorem effect_graft {supply : Supply} (h : g.ids.Nodup)
    (hspent : ∀ n ∈ g.nodes, supply.Spent n.id) (stmts : List Stmt) (w : World) (e : Edit) :
    e.Effect g (g.grafted supply stmts w) := by
  obtain ⟨new, hnew, hbare⟩ := nodes_graft hspent stmts w h
  refine .adds new hnew ?_
  intro n hn hold
  obtain ⟨m, hm, hid⟩ := List.mem_map.mp hold
  obtain ⟨made, hmade, hmid, -⟩ := Node.exists_alike hbare.symm hn
  exact (joined_snippet h hspent stmts w).id_ne hm hmade (hid.trans hmid.symm)

theorem nodes_removeNodes (g : Graph) (ids : List NodeId) :
    (g.removeNodes ids).nodes = g.nodes.filter fun n => n.id ∉ ids := by
  unfold removeNodes
  induction ids generalizing g with
  | nil => simp
  | cons id ids ih =>
    rw [List.foldl_cons, ih, removeNode, List.filter_filter]
    apply List.filter_congr
    intro n _
    simp [Bool.and_comm]

end Graph

namespace Workspace

open ScopedFlow.Graph ScopedFlow.Edit

variable {s s' : Workspace}

theorem nodes_insertLiteral (s : Workspace) (text : String) (w : World) (target : NodeId)
    (kind : EdgeKind) : (s.insertLiteral text w target kind).graph.nodes =
      s.graph.nodes ++ [⟨Supply.idOf .literal s.supply.next, text, w, .literal⟩] :=
  Graph.nodes_addEdge ..

theorem nodes_insertPair (s : Workspace) (key value : String) (w : World) (dict : NodeId)
    (index : Nat) : (s.insertPair key value w dict index).graph.nodes = s.graph.nodes ++
      [⟨Supply.idOf .literal s.supply.next, key, w, .literal⟩,
        ⟨Supply.idOf .literal (s.supply.next + 1), value, w, .literal⟩] := by
  refine (Graph.nodes_addEdge ..).trans ((Graph.nodes_addEdge ..).trans ?_)
  exact List.append_assoc ..

section Fresh

variable (hfresh : ∀ id ∈ s.graph.ids, s.supply.Spent id)

include hfresh

theorem not_mem_ids {serial : Nat} (h : s.supply.next ≤ serial) (kind : NodeKind) :
    Supply.idOf kind serial ∉ s.graph.ids :=
  fun hmem => hfresh _ hmem kind serial h rfl

theorem effect_next {g' : Graph} {n : Node} (hnodes : g'.nodes = s.graph.nodes ++ [n])
    {kind : NodeKind} (hid : n.id = Supply.idOf kind s.supply.next) (e : Edit) :
    e.Effect s.graph g' := by
  refine .adds [n] hnodes ?_
  intro m hm
  rw [List.mem_singleton.mp hm, hid]
  exact not_mem_ids hfresh (Nat.le_refl _) kind

theorem effect_addNode (kind : NodeKind) (label : String) (w : World) (e : Edit) :
    e.Effect s.graph (s.addNode kind label w).2.graph := by
  unfold Workspace.addNode
  split
  · exact effect_next hfresh rfl rfl e
  · exact .same rfl

theorem effect_setSlot (hids : s.graph.ids.Nodup) (call : NodeId) (slot value : String) (e : Edit) :
    e.Effect s.graph (s.setSlot call slot value).graph := by
  unfold Workspace.setSlot
  split
  · exact .same rfl
  · dsimp only
    split
    · exact effect_next hfresh (nodes_insertLiteral ..) rfl e
    · split
      · exact (relabels_updateLiteral hids _ _).effect e
      · exact effect_next hfresh (nodes_insertLiteral (s.mapGraph _) ..) rfl e

theorem effect_addListItem {list : NodeId} {text : String} (h : s.addListItem list text = .ok s')
    (e : Edit) : e.Effect s.graph s'.graph := by
  rcases addListItem_cases h with ⟨-, rfl⟩ | ⟨n, i, -, -, rfl⟩
  · exact .same rfl
  · exact effect_next hfresh (nodes_insertLiteral ..) rfl e

theorem effect_addDictPair {dict : NodeId} {key value : String}
    (h : s.addDictPair dict key value = .ok s') (e : Edit) : e.Effect s.graph s'.graph := by
  rcases addDictPair_cases h with ⟨-, rfl⟩ | ⟨n, i, -, -, rfl⟩
  · exact .same rfl
  refine .adds _ (nodes_insertPair ..) ?_
  intro m hm
  rcases List.mem_cons.mp hm with rfl | hm
  · exact not_mem_ids hfresh (Nat.le_refl _) .literal
  · obtain rfl := List.mem_singleton.mp hm
    exact not_mem_ids hfresh (Nat.le_succ _) .literal

theorem effect_inject (hids : s.graph.ids.Nodup) (text : String) (w : World) (e : Edit) :
    e.Effect s.graph (s.inject text w).graph := by
  unfold Workspace.inject
  split
  · rename_i g count rest hinject
    obtain ⟨-, stmts, -, rfl, -⟩ := inject_ok hinject
    apply effect_graft hids
    intro n hn
    exact hfresh n.id (List.mem_map_of_mem hn)
  · exact .same rfl

theorem effect_of_apply (hids : s.graph.ids.Nodup) (h : s.apply e = .ok s') :
    e.Effect s.graph s'.graph := by
  cases e with
  | addNode kind label w => cases h; exact effect_addNode hfresh kind label w _
  | removeNodes ids => cases h; exact .removes ids rfl (nodes_removeNodes ..)
  | updateLiteral id text => cases h; exact (relabels_updateLiteral hids id text).effect _
  | addEdge source target kind =>
    cases h
    refine .same ?_
    show (s.graph.addEdgeBetween source target kind).nodes = _
    unfold Graph.addEdgeBetween
    split
    · exact Graph.nodes_addEdge ..
    · rfl
  | removeEdges source target kind => cases h; exact .same rfl
  | setParam call param text => cases h; exact effect_setParam hids call param text
  | setSlot call slot value => cases h; exact effect_setSlot hfresh hids call slot value _
  | addListItem list text => exact effect_addListItem hfresh h _
  | updateListItem list index text => cases h; exact (relabels_updateSource hids ..).effect _
  | addDictPair dict key value => exact effect_addDictPair hfresh h _
  | updateDictPair dict index key value =>
    cases h
    exact (relabels_updateDictPair hids dict index key value).effect _
  | link => cases h; exact .changes _ (nodes_link hids) fun n _ => keeps_settled s.graph n
  | inject text w => cases h; exact effect_inject hfresh hids text w _

end Fresh

/-- The nodes that an edit keeps stay in their order before all that it adds, each with its id, its
world and its kind. Only the removal of nodes takes nodes away, only labels of literals change, and
only linking and texts for parameters change a payload, at the sites of calls. -/
theorem apply_keeps {e : Edit} (hids : s.graph.ids.Nodup)
    (hfresh : ∀ id ∈ s.graph.ids, s.supply.Spent id) (h : s.apply e = .ok s') :
    ∃ kept added, s'.graph.nodes = kept ++ added ∧
      List.Forall₂ e.Keeps (s.graph.nodes.filter fun n => n.id ∈ s'.graph.ids) kept ∧
      (∀ n ∈ added, n.id ∉ s.graph.ids) ∧
      ∀ n ∈ s.graph.nodes, n.id ∉ s'.graph.ids → ∃ ids, e = .removeNodes ids ∧ n.id ∈ ids := by
  have hall (hstay : ∀ n ∈ s.graph.nodes, n.id ∈ s'.graph.ids) :
      (s.graph.nodes.filter fun n => n.id ∈ s'.graph.ids) = s.graph.nodes := by
    apply List.filter_eq_self.mpr
    intro n hn
    exact decide_eq_true (hstay n hn)
  cases effect_of_apply hfresh hids h with
  | changes f hnodes hkeeps =>
    have hstay : ∀ n ∈ s.graph.nodes, n.id ∈ s'.graph.ids := by
      intro n hn
      rw [Graph.ids, hnodes, ← (hkeeps n hn).id]
      exact List.mem_map_of_mem (List.mem_map_of_mem hn)
    refine ⟨s'.graph.nodes, [], (List.append_nil _).symm, ?_, List.forall_mem_nil _, ?_⟩
    · rw [hall hstay, hnodes, List.forall₂_map_right_iff, List.forall₂_same]
      exact hkeeps
    · intro n hn hgone
      exact absurd (hstay n hn) hgone
  | removes ids hedit hnodes =>
    have hstay : ∀ n ∈ s.graph.nodes, n.id ∈ s'.graph.ids ↔ n.id ∉ ids := by
      intro n hn
      rw [Graph.ids, hnodes]
      constructor
      · intro hmem
        obtain ⟨m, hm, hid⟩ := List.mem_map.mp hmem
        rw [← hid]
        exact of_decide_eq_true (List.mem_filter.mp hm).2
      · intro hout
        exact List.mem_map_of_mem (List.mem_filter.mpr ⟨hn, decide_eq_true hout⟩)
    refine ⟨s'.graph.nodes, [], (List.append_nil _).symm, ?_, List.forall_mem_nil _, ?_⟩
    · have hsame : (s.graph.nodes.filter fun n => n.id ∈ s'.graph.ids) = s'.graph.nodes := by
        rw [hnodes]
        apply List.filter_congr
        intro n hn
        exact decide_eq_decide.mpr (hstay n hn)
      rw [hsame, List.forall₂_same]
      intro n _
      exact .refl e n
    · intro n hn hgone
      refine ⟨ids, hedit, ?_⟩
      by_contra hout
      exact hgone ((hstay n hn).mpr hout)
  | adds new hnodes hnew =>
    have hstay : ∀ n ∈ s.graph.nodes, n.id ∈ s'.graph.ids := by
      intro n hn
      rw [Graph.ids, hnodes, List.map_append]
      exact List.mem_append_left _ (List.mem_map_of_mem hn)
    refine ⟨s.graph.nodes, new, hnodes, ?_, hnew, ?_⟩
    · rw [hall hstay, List.forall₂_same]
      intro n _
      exact .refl e n
    · intro n hn hgone
      exact absurd (hstay n hn) hgone

/-- A text for the second parameter of a linked call, next to an override of the first one. -/
theorem apply_keeps_override :
    let call := Supply.idOf .call 3
    let edit := Edit.setParam call "b" "2"
    ∃ s s' : Workspace, s.graph.ids.Nodup ∧ (∀ id ∈ s.graph.ids, s.supply.Spent id) ∧
      s.apply edit = .ok s' ∧ s'.graph ≠ s.graph ∧
      ∃ kept added, s'.graph.nodes = kept ++ added ∧
        List.Forall₂ edit.Keeps (s.graph.nodes.filter fun n => n.id ∈ s'.graph.ids) kept ∧
        (∀ n ∈ added, n.id ∉ s.graph.ids) ∧
        ∀ n ∈ s.graph.nodes, n.id ∉ s'.graph.ids → ∃ ids, edit = .removeNodes ids ∧ n.id ∈ ids := by
  intro call edit
  have hgeneral {s : Workspace} (hids : s.graph.ids.Nodup)
      (hfresh : ∀ id ∈ s.graph.ids, s.supply.Spent id) :=
    apply_keeps hids hfresh (e := edit) rfl
  let module : List Stmt := [.function "f" [.required "a", .required "b"] [.skip], .eval (.call "f" [])]
  let parsed : Workspace := ⟨(build ⟨0⟩ module).1.link.1, (build ⟨0⟩ module).2⟩
  have hsource : ofSourceLinked ⟨0⟩ "def f(a, b):\n    pass\nf()\n" =
      .ok (parsed.graph, parsed.supply) := by
    decide +kernel
  have hreached : Reached 0 parsed.graph parsed.supply := .parsed hsource
  have hsame : (parsed.graph.setParam call "a" "1").ids = parsed.graph.ids := by decide +kernel
  have hids : (parsed.graph.setParam call "a" "1").ids.Nodup := by
    rw [hsame]
    exact hreached.consistent.ids
  have hfresh : ∀ id ∈ (parsed.graph.setParam call "a" "1").ids, parsed.supply.Spent id := by
    rw [hsame]
    exact List.forall_mem_map.mpr hreached.sound.spent
  have hchanged : (parsed.graph.setParam call "a" "1").setParam call "b" "2" ≠
      parsed.graph.setParam call "a" "1" := by
    decide +kernel
  exact ⟨⟨_, parsed.supply⟩, _, hids, hfresh, rfl, hchanged, hgeneral hids hfresh⟩

end Workspace

end ScopedFlow
