import Mathlib.Data.List.Nodup
import ScopedFlow.Proofs.Snippets

/-!
# Edges that a run adds behind the nodes of a graph

Each edge that a run of the builder adds leads into a node of the run. It comes from a node of the
run too, or from an earlier one that has a name. So the new edges can be put behind those of the
graph, and a consistent graph stays consistent.
-/

namespace ScopedFlow

variable {e : Edge}

theorem exists_of_map_eq_ok {ε α β : Type} {x : Except ε α} {f : α → β} {b : β}
    (h : x.map f = .ok b) : ∃ a, x = .ok a ∧ f a = b := by
  cases x with
  | error d => cases h
  | ok a => exact ⟨a, rfl, Except.ok.inj h⟩

namespace Graph

/-- Ids and edges are there once, and edges join nodes that are there. -/
structure Consistent (g : Graph) : Prop where
  ids : g.ids.Nodup
  edges : g.edges.Nodup
  ends : ∀ e ∈ g.edges, e.source ∈ g.ids ∧ e.target ∈ g.ids

/-- Exactly the imports live among the imports. -/
def Tidy (ns : List Node) : Prop := ∀ n ∈ ns, n.kind = .importStmt ↔ n.world = .imports

theorem mem_addEdge_iff {g : Graph} {d : Edge} : d ∈ (g.addEdge e).edges ↔ d ∈ g.edges ∨ d = e := by
  unfold addEdge
  split
  · constructor
    · exact Or.inl
    · rintro (hd | rfl)
      · exact hd
      · assumption
  · rw [List.mem_append, List.mem_singleton]

theorem nodup_addEdge {g : Graph} (h : g.edges.Nodup) (e : Edge) : (g.addEdge e).edges.Nodup := by
  unfold addEdge
  split
  · exact h
  · apply List.nodup_append.mpr
    refine ⟨h, List.nodup_singleton e, ?_⟩
    intro d hd d' hd' he
    rw [List.mem_singleton.mp hd'] at he
    exact absurd (he ▸ hd) ‹_›

end Graph

namespace Builder
open ScopedFlow.Graph

variable {id : NodeId}

/-- The edge leads into one of the nodes `ns`, from one of them or from a named one before them. It
stays within a world unless it says what a node stands in for. -/
def Joins (base ns : List Node) (e : Edge) : Prop :=
  ∃ s ∈ base ++ ns, ∃ t ∈ ns, s.id = e.source ∧ t.id = e.target ∧
    (Tidy base → e.kind ≠ .closureOf → s.world = t.world) ∧
    (s ∈ ns ∨ s.payload.isName = true)

theorem Joins.mono {base ns ms : List Node} (h : Joins base ns e) (hs : ns ⊆ ms) :
    Joins base ms e := by
  obtain ⟨s, hsmem, t, htmem, hsid, htid, hworld, hkind⟩ := h
  refine ⟨s, ?_, t, hs htmem, hsid, htid, hworld, hkind.imp_left fun hn => hs hn⟩
  rcases List.mem_append.mp hsmem with hm | hm
  · exact List.mem_append_left _ hm
  · exact List.mem_append_right _ (hs hm)

/-- A run behind the nodes `base`: its ids are new, all names in scope are those of nodes, and so
are the stand-ins. -/
structure Joined (base : List Node) (b : Builder) : Prop where
  ids : ((base ++ b.graph.nodes).map (·.id)).Nodup
  spent : ∀ n ∈ base ++ b.graph.nodes, b.supply.Spent n.id
  names : b.symbols.All fun _ id v => ∃ n ∈ base ++ b.graph.nodes, n.id = id ∧
    n.payload.isName = true ∧ (Tidy base → n.world = v)
  proxies : b.Backed base
  once : b.graph.edges.Nodup
  edges : ∀ e ∈ b.graph.edges, Joins base b.graph.nodes e

def Lives (w : World) (id : NodeId) (b : Builder) : Prop :=
  ∃ n ∈ b.graph.nodes, n.id = id ∧ n.world = w

theorem Lives.mono {w : World} {b b' : Builder} (h : b.Lives w id)
    (hn : b.graph.nodes <+: b'.graph.nodes) : b'.Lives w id := by
  obtain ⟨n, hm, hrest⟩ := h
  exact ⟨n, hn.subset hm, hrest⟩

theorem Holds.lives {w : World} {b : Builder} (h : b.Holds w id) : b.Lives w id := by
  obtain ⟨n, hm, hid, hw, -⟩ := h
  exact ⟨n, hm, hid, hw⟩

theorem Lives.wire {w : World} {b : Builder} (h : b.Lives w id) (source target : NodeId)
    (kind : EdgeKind) : (b.wire source target kind).Lives w id := by
  unfold Lives
  rw [nodes_wire]
  exact h

theorem lives_add (b : Builder) (payload : Payload) (label : String) (w : World) :
    (b.add payload label w).Lives w (b.fresh payload.kind) :=
  ⟨_, List.mem_append_right _ List.mem_cons_self, rfl, rfl⟩

theorem lives_place (b : Builder) (payload : Payload) (label : String) (w : World) (slot : Slot) :
    (b.place payload label w (some slot)).Lives w (b.fresh payload.kind) :=
  (lives_add b payload label w).wire ..

theorem mem_append_add {base : List Node} {b : Builder} {n : Node} (h : n ∈ base ++ b.graph.nodes)
    (payload : Payload) (label : String) (w : World) :
    n ∈ base ++ (b.add payload label w).graph.nodes := by
  rcases List.mem_append.mp h with hm | hm
  · exact List.mem_append_left _ hm
  · exact List.mem_append_right _ (List.mem_append_left _ hm)

theorem mem_standIn (base : List Node) (b : Builder) (name : String) (binding : Binding)
    (w : World) : ⟨b.fresh .variable, name, w,
      .variable (.closureRead binding.node binding.world)⟩ ∈
        base ++ (b.standIn name binding w).graph.nodes := by
  rw [nodes_standIn]
  exact List.mem_append_right _ (List.mem_append_right _ List.mem_cons_self)

namespace Joined

variable {base : List Node} {w : World} {b b' : Builder} {n : Node} {target : NodeId}
  {xs : List WrittenCall}

theorem fresh_ne (h : Joined base b) (hn : n ∈ base ++ b.graph.nodes) (kind : NodeKind) :
    n.id ≠ b.fresh kind := h.spent n hn kind b.supply.next (Nat.le_refl _)

theorem eq_of_id (h : Joined base b) {m : Node} (hn : n ∈ base ++ b.graph.nodes)
    (hm : m ∈ base ++ b.graph.nodes) (hid : n.id = m.id) : n = m :=
  List.inj_on_of_nodup_map h.ids hn hm hid

theorem id_ne (h : Joined base b) {m : Node} (hn : n ∈ base) (hm : m ∈ b.graph.nodes) :
    n.id ≠ m.id := by
  have hids := h.ids
  rw [List.map_append, List.nodup_append] at hids
  exact hids.2.2 _ (List.mem_map_of_mem hn) _ (List.mem_map_of_mem hm)

theorem add (h : Joined base b) (payload : Payload) (label : String) (v : World) :
    Joined base (b.add payload label v) := by
  have hnodes : base ++ (b.add payload label v).graph.nodes =
      (base ++ b.graph.nodes) ++ [⟨b.fresh payload.kind, label, v, payload⟩] :=
    (List.append_assoc ..).symm
  have hsub : b.graph.nodes ⊆ (b.add payload label v).graph.nodes := List.subset_append_left ..
  refine ⟨?_, ?_, ?_, h.proxies.mono rfl hsub, h.once, fun e he => (h.edges e he).mono hsub⟩
  · rw [hnodes, List.map_append]
    apply List.nodup_append.mpr
    refine ⟨h.ids, List.nodup_singleton _, ?_⟩
    intro id hid id' hid'
    obtain ⟨n, hn, rfl⟩ := List.mem_map.mp hid
    rw [List.mem_singleton.mp hid']
    exact h.fresh_ne hn payload.kind
  · intro n hn
    rw [hnodes] at hn
    rcases List.mem_append.mp hn with hm | hm
    · exact (h.spent n hm).mono (Nat.le_succ _)
    · rw [List.mem_singleton.mp hm]
      exact (Grows.issued_fresh b payload label v).spent
  · refine h.names.mono ?_
    intro name id u hknown
    obtain ⟨n, hn, hrest⟩ := hknown
    rw [hnodes]
    exact ⟨n, List.mem_append_left _ hn, hrest⟩

theorem wire (h : Joined base b) {source : NodeId} {kind : EdgeKind}
    (he : Joins base b.graph.nodes ⟨source, target, kind⟩) :
    Joined base (b.wire source target kind) := by
  have hnodes := nodes_wire b source target kind
  refine ⟨?_, ?_, ?_, h.proxies.mono rfl ?_, nodup_addEdge h.once _, ?_⟩
  · rw [hnodes]
    exact h.ids
  · rw [hnodes]
    exact h.spent
  · rw [hnodes]
    exact h.names
  · rw [hnodes]
    exact List.Subset.refl _
  · intro e hmem
    rw [hnodes]
    rcases mem_addEdge_iff.mp hmem with hmem | rfl
    · exact h.edges e hmem
    · exact he

theorem define (h : Joined base b) {name : String} {v : World} (hn : n ∈ b.graph.nodes)
    (hid : n.id = id) (hname : n.payload.isName = true) (hv : n.world = v) :
    Joined base (b.define name id v) :=
  ⟨h.ids, h.spent, h.names.write ⟨n, List.mem_append_right _ hn, hid, hname, fun _ => hv⟩,
    h.proxies, h.once, h.edges⟩

theorem defineAll (h : Joined base b) (hn : n ∈ b.graph.nodes) (hname : n.payload.isName = true)
    (names : List String) :
    Joined base (names.foldl (fun b name => b.define name n.id n.world) b) := by
  induction names generalizing b with
  | nil => exact h
  | cons name names ih => exact ih (h.define hn rfl hname rfl) hn

theorem enter (h : Joined base b) : Joined base b.enter :=
  ⟨h.ids, h.spent, h.names.enter, h.proxies, h.once, h.edges⟩

theorem leave (h : Joined base b) : Joined base b.leave :=
  ⟨h.ids, h.spent, h.names.leave, h.proxies, h.once, h.edges⟩

theorem connect (h : Joined base b) (hn : n ∈ base ++ b.graph.nodes)
    (hname : n.payload.isName = true) (hw : Tidy base → n.world = w) (ht : b.Lives w target)
    (kind : EdgeKind) : Joined base (b.wire n.id target kind) := by
  obtain ⟨t, htmem, htid, htw⟩ := ht
  refine h.wire ⟨n, hn, t, htmem, rfl, htid, ?_, .inr hname⟩
  intro htidy _
  exact (hw htidy).trans htw.symm

theorem isName_of_standsAt {key : World × NodeId} (h : n.standsAt? = some key) :
    n.payload.isName = true ∧ n.world = key.1 := by
  obtain ⟨o, ho, rfl⟩ := Option.map_eq_some_iff.mp h
  obtain ⟨id, label, world, payload⟩ := n
  cases payload with
  | «variable» v => exact ⟨rfl, rfl⟩
  | _ => cases ho

theorem standIn (h : Joined base b) {name : String} {binding : Binding}
    (found : b.symbols.read name = some binding) (away : binding.world ≠ w)
    (absent : b.proxies.get? (w, binding.node) = none) :
    Joined base (b.standIn name binding w) := by
  obtain ⟨n, hn, hid, hname, -⟩ := h.names.read found
  have hadd := h.add (.variable (.closureRead binding.node binding.world)) name w
  have hjoins : Joins base (b.add (.variable (.closureRead binding.node binding.world)) name
      w).graph.nodes ⟨binding.node, b.fresh .variable, .closureOf⟩ := by
    obtain ⟨t, ht, htid, -⟩ :=
      lives_add b (.variable (.closureRead binding.node binding.world)) name w
    exact ⟨n, mem_append_add hn .., t, ht, hid, htid, fun _ hk => absurd rfl hk, .inr hname⟩
  have hwire := hadd.wire hjoins
  have hbacked := h.proxies.evaluates (.standIn found away absent)
  exact ⟨hwire.ids, hwire.spent, hwire.names, hbacked, hwire.once, hwire.edges⟩

theorem read (h : Joined base b) (name : String) (ht : b.Lives w target) (kind : EdgeKind) :
    Joined base (b.read name w ⟨target, kind⟩) := by
  rcases b.read_cases name w ⟨target, kind⟩ with
    ⟨-, hr⟩ | ⟨binding, hb, ⟨hw, hr⟩ | ⟨hw, proxy, hp, hr⟩ | ⟨hw, hp, hr⟩⟩ <;> rw [hr]
  · exact h
  · obtain ⟨n, hn, hid, hname, hworld⟩ := h.names.read hb
    rw [← hid]
    exact h.connect hn hname (fun htidy => (hworld htidy).trans hw) ht kind
  · obtain ⟨n, hn, rfl, hat⟩ := h.proxies w binding.node proxy hp
    obtain ⟨hname, hworld⟩ := isName_of_standsAt hat
    exact h.connect hn hname (fun _ => hworld) ht kind
  · have hstand := h.standIn hb hw hp
    have hprefix : b.graph.nodes <+: (b.standIn name binding w).graph.nodes := by
      rw [nodes_standIn]
      exact List.prefix_append ..
    exact hstand.connect (mem_standIn ..) rfl (fun _ => rfl) (ht.mono hprefix) kind

theorem place (h : Joined base b) (payload : Payload) (label : String) (ht : b.Lives w target)
    (kind : EdgeKind) : Joined base (b.place payload label w (some ⟨target, kind⟩)) := by
  obtain ⟨t, htmem, htid, htw⟩ := ht
  refine (h.add payload label w).wire ⟨⟨b.fresh payload.kind, label, w, payload⟩, ?_, t,
    List.mem_append_left _ htmem, rfl, htid, fun _ _ => htw.symm, .inl ?_⟩
  · exact List.mem_append_right _ (List.mem_append_right _ List.mem_cons_self)
  · exact List.mem_append_right _ List.mem_cons_self

theorem fills (h : Joined base b) (hf : Fills w target xs b b') (ht : b.Lives w target) :
    Joined base b' := by
  induction hf with
  | refl => exact h
  | trans first _ ih ih' => exact ih' (ih h ht) (ht.mono first.nodes_prefix)
  | read target b name data => exact h.read name ht _
  | @node target xs b b' payload expression label kind data parts ih =>
    exact ih (h.place payload label ht kind) (lives_place ..)

theorem follow (h : Joined base b) {previous : NodeId} (hp : b.Lives w previous) (hi : b.Lives w id)
    (index : Option Nat) : Joined base (b.wire previous id (.nextClause index)) := by
  obtain ⟨s, hsmem, hsid, hsw⟩ := hp
  obtain ⟨t, htmem, htid, htw⟩ := hi
  exact h.wire ⟨s, List.mem_append_right _ hsmem, t, htmem, hsid, htid,
    fun _ _ => hsw.trans htw.symm, .inl hsmem⟩

theorem isName_of_introduces {payload : Payload} {version : Nat} (h : payload.Introduces version) :
    payload.isName = true := by
  cases payload with
  | «variable» _ | functionDef _ | classDef _ => rfl
  | _ => cases h

theorem begins {payload : Payload} {label : String} (h : Joined base b)
    (hb : Begins w payload label b xs b') : Joined base b' := by
  have hadd := h.add payload label w
  have hlives := lives_add b payload label w
  cases hb with
  | plain _ parts => exact hadd.fills parts hlives
  | @behind xs b' previous index _ _ known parts =>
    have hprevious : (b.add payload label w).Lives w previous :=
      known.lives.mono (List.prefix_append ..)
    exact (hadd.follow hprevious hlives (some index)).fills parts (hlives.wire ..)
  | @binding xs b' introduces parts =>
    refine (hadd.fills parts hlives).define (n := ⟨_, label, w, payload⟩) ?_ rfl
      (isName_of_introduces introduces) rfl
    apply parts.nodes_prefix.subset
    exact List.mem_append_right _ List.mem_cons_self

theorem performs (h : Joined base b) (hp : Performs w xs b b') : Joined base b' := by
  induction hp with
  | refl => exact h
  | trans _ _ ih ih' => exact ih' (ih h)
  | head head => exact h.begins head
  | imports w b text names =>
    exact (h.add (.importStmt names) text .imports).defineAll
      (n := ⟨b.fresh .importStmt, text, .imports, .importStmt names⟩)
      (List.mem_append_right _ List.mem_cons_self) rfl names
  | block owns head body ih => exact (ih (h.begins head).enter).leave
  | clause known owns head body ih =>
    have hblock := (ih (h.begins head).enter).leave
    refine hblock.follow ?_ (holds_block owns head body).lives none
    apply known.lives.mono
    exact ((List.prefix_append ..).trans head.nodes_prefix).trans body.nodes_prefix

end Joined

end Builder

namespace Graph
open Builder

theorem named_ofWorld (g : Graph) (w : World) :
    (Symbols.ofWorld g w).All fun _ id v => ∃ n ∈ g.nodes, n.id = id ∧
      n.payload.isName = true ∧ (Tidy g.nodes → n.world = v) := by
  refine Symbols.all_ofWorld ?_ w
  intro v e he
  obtain ⟨n, hn, hcounts, hentry⟩ := mem_scopeOf he
  obtain ⟨hid, hname, hworld⟩ := Node.binds_of_entry hentry
  refine ⟨n, hn, hid.symm, Payload.Binds.isName hname, ?_⟩
  intro htidy
  simp only [Node.countsFor, Bool.or_eq_true, Bool.and_eq_true, decide_eq_true_eq] at hcounts
  rcases hworld with ⟨hv, hk⟩ | ⟨hv, hk⟩
  · rcases hcounts with hcounts | ⟨-, hcounts⟩
    · exact hcounts.trans hv.symm
    · exact absurd ((htidy n hn).mpr hcounts) hk
  · exact ((htidy n hn).mp hk).trans hv.symm

theorem joined_snippetStart {g : Graph} {supply : Supply} (hids : g.ids.Nodup)
    (hspent : ∀ n ∈ g.nodes, supply.Spent n.id) (w : World) :
    Joined g.nodes (g.snippetStart supply w) := by
  have hnil : g.nodes ++ (g.snippetStart supply w).graph.nodes = g.nodes := List.append_nil _
  refine ⟨?_, ?_, ?_, backed_snippetStart g supply w, List.nodup_nil, nofun⟩
  · rw [hnil]
    exact hids
  · rw [hnil]
    exact hspent
  · rw [hnil]
    exact named_ofWorld g w

def snippetEnd (g : Graph) (supply : Supply) (stmts : List Stmt) (w : World) : Builder :=
  Builder.statements w stmts (g.snippetStart supply w)

theorem snippet_eq_end (g : Graph) (supply : Supply) (stmts : List Stmt) (w : World) :
    g.snippet supply stmts w =
      ((g.snippetEnd supply stmts w).graph, (g.snippetEnd supply stmts w).supply) := rfl

theorem joined_snippet {g : Graph} {supply : Supply} (hids : g.ids.Nodup)
    (hspent : ∀ n ∈ g.nodes, supply.Spent n.id) (stmts : List Stmt) (w : World) :
    Joined g.nodes (g.snippetEnd supply stmts w) :=
  (joined_snippetStart hids hspent w).performs (performs_statements w stmts _)

theorem edges_append {g h : Graph} (hnew : ∀ e ∈ h.edges, e ∉ g.edges) (honce : h.edges.Nodup) :
    (g.append h).edges = g.edges ++ h.edges := by
  have hfold : ∀ (es : List Edge) (g : Graph), (∀ e ∈ es, e ∉ g.edges) → es.Nodup →
      (es.foldl addEdge g).edges = g.edges ++ es := by
    intro es
    induction es with
    | nil => intro g _ _; exact (List.append_nil _).symm
    | cons e es ih =>
      intro g hnew honce
      obtain ⟨he, honce⟩ := List.nodup_cons.mp honce
      have hedges : (g.addEdge e).edges = g.edges ++ [e] := by
        rw [addEdge, if_neg (hnew e List.mem_cons_self)]
      rw [List.foldl_cons, ih _ ?_ honce, hedges, List.append_assoc, List.singleton_append]
      intro d hd hmem
      rcases mem_addEdge_iff.mp hmem with hmem | rfl
      · exact hnew d (List.mem_cons_of_mem _ hd) hmem
      · exact he hd
  exact hfold h.edges ⟨g.nodes ++ h.nodes, g.edges⟩ hnew honce

section Graft

variable {g : Graph} {supply : Supply} (hg : g.Consistent)
  (hspent : ∀ n ∈ g.nodes, supply.Spent n.id) (stmts : List Stmt) (w : World)

include hg hspent

theorem not_mem_of_joins (he : e ∈ (g.snippetEnd supply stmts w).graph.edges) : e ∉ g.edges := by
  intro hmem
  have hjoined := joined_snippet hg.ids hspent stmts w
  obtain ⟨s, -, t, ht, -, htid, -⟩ := hjoined.edges e he
  obtain ⟨n, hn, hnid⟩ := List.mem_map.mp (hg.ends e hmem).2
  exact hjoined.id_ne hn ht (hnid.trans htid.symm)

theorem edges_graft : (g.grafted supply stmts w).edges =
    g.edges ++ (g.snippetEnd supply stmts w).graph.edges := by
  rw [grafted, edges_linkOn]
  apply edges_append
  · intro e he
    exact not_mem_of_joins hg hspent stmts w he
  · exact (joined_snippet hg.ids hspent stmts w).once

omit hg hspent in
theorem ids_of_bare {ns ms : List Node} (h : ns.map Node.bare = ms.map Node.bare) :
    ns.map (·.id) = ms.map (·.id) := by
  have hids : ∀ ns : List Node, ns.map (·.id) = (ns.map Node.bare).map (·.id) := by
    intro ns
    rw [List.map_map]
    exact List.map_congr_left fun n _ => n.id_bare.symm
  rw [hids ns, h, ← hids ms]

omit hg hspent in
theorem ids_graft (g : Graph) (supply : Supply) (stmts : List Stmt) (w : World) :
    (g.grafted supply stmts w).ids = g.ids ++ (g.snippetEnd supply stmts w).graph.ids := by
  rw [ids, ids_of_bare (bare_grafted g supply stmts w), List.map_append]
  rfl

theorem consistent_graft : (g.grafted supply stmts w).Consistent := by
  have hjoined := joined_snippet hg.ids hspent stmts w
  constructor
  · rw [ids_graft]
    have hids := hjoined.ids
    rw [List.map_append] at hids
    exact hids
  · rw [edges_graft hg hspent]
    apply List.nodup_append.mpr
    refine ⟨hg.edges, hjoined.once, ?_⟩
    rintro e he d hd rfl
    exact not_mem_of_joins hg hspent stmts w hd he
  · intro e he
    rw [edges_graft hg hspent] at he
    rw [ids_graft]
    rcases List.mem_append.mp he with he | he
    · obtain ⟨hs, ht⟩ := hg.ends e he
      exact ⟨List.mem_append_left _ hs, List.mem_append_left _ ht⟩
    · obtain ⟨s, hs, t, ht, hsid, htid, -⟩ := hjoined.edges e he
      constructor
      · have hmem := List.mem_map_of_mem (f := (·.id)) hs
        rw [List.map_append] at hmem
        exact hsid ▸ hmem
      · exact List.mem_append_right _ (htid ▸ List.mem_map_of_mem ht)

end Graft

theorem consistent_empty : Graph.empty.Consistent := ⟨List.nodup_nil, List.nodup_nil, nofun⟩

theorem snippetStart_empty (supply : Supply) :
    Graph.empty.snippetStart supply .root = .start supply := by
  have hsymbols : Symbols.ofWorld Graph.empty .root = .empty := by
    rw [Symbols.ofWorld, WorldTree.path, WorldTree.chain]
    rcases (WorldTree.ofGraph Graph.empty).above_cases [.root] .root with habove | ⟨p, hp, -⟩
    · rw [habove]
      rfl
    · cases hp
  rw [snippetStart, hsymbols]
  rfl

theorem grafted_empty (supply : Supply) (stmts : List Stmt) :
    Graph.empty.grafted supply stmts .root =
      (Builder.statements .root stmts (.start supply)).graph.link.1 := by
  have hend : Graph.empty.snippetEnd supply stmts .root =
      Builder.statements .root stmts (.start supply) := by
    rw [snippetEnd, snippetStart_empty]
  have hspent : ∀ n ∈ Graph.empty.nodes, supply.Spent n.id := nofun
  have honce := (joined_snippet consistent_empty.ids hspent stmts .root).once
  have happend : Graph.empty.append (Graph.empty.snippetEnd supply stmts .root).graph =
      (Graph.empty.snippetEnd supply stmts .root).graph := by
    rw [Graph.mk.injEq]
    exact ⟨(append_eq ..).1, edges_append (fun _ _ => List.not_mem_nil) honce⟩
  rw [grafted, snippet_eq_end, happend, hend]
  rfl

theorem exists_ofSourceLinked {text : String} {stmts : List Stmt}
    (h : Source.parse text = .ok stmts) (supply : Supply) :
    ∃ g rest, ofSourceLinked supply text = .ok (g, rest) := by
  unfold ofSourceLinked ofSource
  rw [h]
  exact ⟨_, _, rfl⟩

/-- What holds of the empty graph and is kept by grafts holds of every graph that is reached. -/
theorem Reached.graft_induction {P : Graph → Supply → Prop} (empty : ∀ supply, P .empty supply)
    (graft : ∀ {g : Graph} {supply : Supply} {w : World} (stmts : List Stmt), P g supply →
      Sound g.nodes supply → g.accepts w = true →
      P (g.grafted supply stmts w) (g.snippetEnd supply stmts w).supply)
    {k : Nat} {g : Graph} {supply : Supply} (h : Reached k g supply) : P g supply := by
  induction h with
  | @parsed supply rest text g h =>
    obtain ⟨stmts, -, rfl, rfl⟩ := ofSourceLinked_ok h
    have hgraft := graft (w := .root) stmts (empty supply) ⟨nofun, nofun, nofun⟩ rfl
    rw [grafted_empty, snippetEnd, snippetStart_empty] at hgraft
    exact hgraft
  | injected before h ih =>
    obtain ⟨hw, stmts, -, rfl, rfl⟩ := inject_ok h
    exact graft stmts ih before.sound hw

theorem Reached.consistent {k : Nat} {g : Graph} {supply : Supply} (h : Reached k g supply) :
    g.Consistent := by
  refine h.graft_induction (P := fun g _ => g.Consistent) (fun _ => consistent_empty) ?_
  intro g supply w stmts hg hsound _
  exact consistent_graft hg hsound.spent stmts w

end Graph

end ScopedFlow
