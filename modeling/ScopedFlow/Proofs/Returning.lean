import ScopedFlow.Proofs.Editing
import ScopedFlow.Proofs.Enclosure

/-!
# Texts after edits

Whatever is edited, a node never comes to live in its own body or in that of a later node, and
clauses that the reader hangs on blocks stay in their world. So an edit can make a body contain
itself only by hanging a clause on a block of another world.
-/

namespace ScopedFlow

variable {e : Edge}

namespace Graph
open Builder

section Clauses

variable {w : World} {b b' : Builder} {target : NodeId} {xs : List WrittenCall}

theorem mem_of_mem_wire {source : NodeId} {kind : EdgeKind}
    (h : e ∈ (b.wire source target kind).graph.edges) (hne : e.kind ≠ kind) :
    e ∈ b.graph.edges := by
  rcases mem_addEdge_iff.mp h with h | rfl
  · exact h
  · exact absurd rfl hne

theorem mem_of_clause (h : Fills w target xs b b') (he : e ∈ b'.graph.edges)
    (hk : ∃ index, e.kind = .nextClause index) : e ∈ b.graph.edges := by
  have hdata : ∀ {kind : EdgeKind}, kind.isData = true → e.kind ≠ kind := by
    rintro kind hdata rfl
    obtain ⟨index, hk⟩ := hk
    rw [hk] at hdata
    cases hdata
  induction h with
  | refl => exact he
  | trans _ _ ih ih' => exact ih (ih' he)
  | read target b name data =>
    rcases b.read_cases name w ⟨target, _⟩ with
      ⟨-, hr⟩ | ⟨binding, -, ⟨-, hr⟩ | ⟨-, proxy, -, hr⟩ | ⟨-, -, hr⟩⟩ <;> rw [hr] at he
    · exact he
    · exact mem_of_mem_wire he (hdata data)
    · exact mem_of_mem_wire he (hdata data)
    · have hstand := mem_of_mem_wire he (hdata data)
      have hne : e.kind ≠ .closureOf := by
        obtain ⟨index, hk⟩ := hk
        rw [hk]
        exact nofun
      let standIn : Payload := .variable (.closureRead binding.node binding.world)
      exact mem_of_mem_wire (b := b.add standIn name w) hstand hne
  | @node target xs b b' payload _ label kind data _ ih =>
    exact mem_of_mem_wire (b := b.add payload label w) (ih he) (hdata data)

theorem ClausesLevel.fills (h : b.graph.ClausesLevel) (hf : Fills w target xs b b') :
    b'.graph.ClausesLevel := by
  intro e he hk
  exact (h e (mem_of_clause hf he hk) hk).of_subset (List.map_subset _ hf.nodes_prefix.subset)

theorem ClausesLevel.add (h : b.graph.ClausesLevel) (payload : Payload) (label : String)
    (v : World) : (b.add payload label v).graph.ClausesLevel := by
  intro e he hk
  exact (h e he hk).of_subset (List.map_subset _ (List.subset_append_left ..))

theorem ClausesLevel.follow (h : b.graph.ClausesLevel) {previous id : NodeId}
    (hp : b.Lives w previous) (hi : b.Lives w id) (index : Option Nat) :
    (b.wire previous id (.nextClause index)).graph.ClausesLevel := by
  intro e he hk
  rw [nodes_wire]
  rcases mem_addEdge_iff.mp he with he | rfl
  · exact h e he hk
  · obtain ⟨s, hs, hsid, hsw⟩ := hp
    obtain ⟨t, ht, htid, htw⟩ := hi
    exact ⟨s, hs, t, ht, hsid, htid, hsw.trans htw.symm⟩

theorem ClausesLevel.begins {payload : Payload} {label : String} (h : b.graph.ClausesLevel)
    (hb : Begins w payload label b xs b') : b'.graph.ClausesLevel := by
  have hadd := h.add payload label w
  cases hb with
  | plain _ parts => exact hadd.fills parts
  | @behind xs b' previous index _ _ known parts =>
    have hprevious : (b.add payload label w).Lives w previous :=
      known.lives.mono (List.prefix_append ..)
    exact (hadd.follow hprevious (lives_add ..) (some index)).fills parts
  | binding _ parts =>
    have hparts := hadd.fills parts
    exact hparts

theorem ClausesLevel.performs (h : b.graph.ClausesLevel) (hp : Performs w xs b b') :
    b'.graph.ClausesLevel := by
  induction hp with
  | refl => exact h
  | trans _ _ ih ih' => exact ih' (ih h)
  | head head => exact h.begins head
  | imports w b text names =>
    obtain ⟨scope, hdefine⟩ := foldl_imports b text names
    rw [hdefine]
    exact h.add (.importStmt names) text .imports
  | block _ head _ ih =>
    have hhead := h.begins head
    exact ih hhead
  | clause known owns head body ih =>
    have hhead := h.begins head
    have hblock := ih hhead
    have hclause := (holds_block owns head body).lives
    refine ClausesLevel.follow (b := Builder.leave _) hblock ?_ hclause none
    apply known.lives.mono
    exact ((List.prefix_append ..).trans head.nodes_prefix).trans body.nodes_prefix

end Clauses

theorem clausesLevel_snippet (g : Graph) (supply : Supply) (stmts : List Stmt) (w : World) :
    (g.snippetEnd supply stmts w).graph.ClausesLevel := by
  have hstart : (g.snippetStart supply w).graph.ClausesLevel := fun _ => nofun
  exact hstart.performs (performs_statements w stmts _)

theorem ownersFirst_snippet {g : Graph} {supply : Supply} (hids : g.ids.Nodup)
    (hspent : ∀ n ∈ g.nodes, supply.Spent n.id) (stmts : List Stmt) {w : World}
    (hw : g.accepts w = true) : OwnersFirst (g.snippetEnd supply stmts w).graph.nodes := by
  have hrun := performs_statements w stmts (g.snippetStart supply w)
  have hjoined := joined_snippet hids hspent stmts w
  have hnew : ((g.snippetEnd supply stmts w).graph.nodes.map (·.id)).Nodup := by
    have hall := hjoined.ids
    rw [List.map_append] at hall
    exact hall.of_append_right
  have hopened := opened_of_accepts hw
  cases w with
  | root =>
    have hnested : Nested ([] ++ (g.snippetEnd supply stmts .root).graph.nodes) :=
      nested_performs hrun nested_nil trivial
    exact hnested.ownersFirst hnew
  | imports => exact absurd rfl (ne_imports_of_accepts hw)
  | body id =>
    obtain ⟨d, hd, howns, rfl⟩ := hopened
    let owner : Node := { d with world := .root }
    have hbase : Nested ([owner] ++ (g.snippetStart supply (.body d.id)).graph.nodes) :=
      nested_nil.snoc (n := owner) trivial
    have hnested := nested_performs hrun hbase ⟨owner, List.mem_cons_self, howns, rfl⟩
    have hall : (([owner] ++ (g.snippetEnd supply stmts (.body d.id)).graph.nodes).map
        (·.id)).Nodup := by
      refine List.nodup_cons.mpr ⟨?_, hnew⟩
      intro hmem
      obtain ⟨m, hm, hid⟩ := List.mem_map.mp hmem
      exact hjoined.id_ne hd hm hid.symm
    have howners := hnested.ownersFirst hall
    exact howners.of_address ((List.sublist_cons_self ..).map _)

end Graph

namespace Workspace
open ScopedFlow.Graph Relation

variable {supply : Supply} {w : World}

/-- No node lives in its own body, in that of a later node or in one to come, and no edge but those
of `hung` leads to a clause of another world. -/
structure Housed (hung : Edge → Prop) (s : Workspace) : Prop extends Intact s where
  owners : OwnersFirst s.graph.nodes
  covers : ∀ n ∈ s.graph.nodes, s.supply.Covers n.world
  clauses : ∀ e ∈ s.graph.edges, (∃ index, e.kind = .nextClause index) →
    Level s.graph.nodes e ∨ hung e

theorem covers_of_address {ns ms : List Node} (h : ∀ n ∈ ns, supply.Covers n.world)
    (hsub : ms.map Node.address ⊆ ns.map Node.address) : ∀ m ∈ ms, supply.Covers m.world := by
  intro m hm
  obtain ⟨n, hn, he⟩ := List.mem_map.mp (hsub (List.mem_map_of_mem hm))
  exact (Prod.mk.inj he).2 ▸ h n hn

theorem ne_body_of_covers (h : supply.Covers w) {id : NodeId} (hid : ¬supply.Spent id) :
    w ≠ .body id := by
  rintro rfl
  exact hid h

namespace Housed

variable {hung : Edge → Prop} {s : Workspace} (h : s.Housed hung)
include h

theorem spent : ∀ n ∈ s.graph.nodes, s.supply.Spent n.id :=
  fun n hn => h.fresh n.id (List.mem_map_of_mem hn)

theorem relabel {g : Graph} (haddress : g.nodes.map Node.address = s.graph.nodes.map Node.address)
    (hedges : g.edges = s.graph.edges) : Housed hung ⟨g, s.supply⟩ := by
  have hchange : Change hung s ⟨g, s.supply⟩ := .relabel haddress hedges
  refine ⟨h.toIntact.change hchange, ?_, ?_, ?_⟩
  · exact h.owners.of_address (haddress ▸ .refl _)
  · exact covers_of_address h.covers (haddress ▸ List.Subset.refl _)
  · intro e he hk
    have hold : e ∈ s.graph.edges := hedges ▸ he
    exact (h.clauses e hold hk).imp_left fun hlevel =>
      hlevel.of_subset (haddress ▸ List.Subset.refl _)

theorem removeEdges (source target : NodeId) (kind : Option EdgeKind) :
    Housed hung (s.mapGraph fun g => g.removeEdges source target kind) := by
  refine ⟨h.toIntact.removeEdges source target kind, h.owners, h.covers, ?_⟩
  intro e he hk
  exact h.clauses e (List.mem_filter.mp he).1 hk

theorem removeNode (id : NodeId) : Housed hung (s.mapGraph fun g => g.removeNode id) := by
  have hsub : (s.graph.removeNode id).nodes.Sublist s.graph.nodes := List.filter_sublist
  refine ⟨h.toIntact.removeNode id, h.owners.of_address (hsub.map _), ?_, ?_⟩
  · intro n hn
    exact h.covers n (hsub.subset hn)
  · intro e he hk
    obtain ⟨he, htouch⟩ := List.mem_filter.mp he
    simp only [Edge.touches, Bool.not_eq_true', Bool.or_eq_false_iff, decide_eq_false_iff_not]
      at htouch
    refine (h.clauses e he hk).imp_left fun hlevel => hlevel.mono ?_
    intro n hn hend
    apply List.mem_map_of_mem
    refine List.mem_filter.mpr ⟨hn, decide_eq_true ?_⟩
    rcases hend with hend | hend
    · exact hend ▸ htouch.1
    · exact hend ▸ htouch.2

theorem insert (payload : Payload) (label : String)
    (hw : s.graph.hasWorld w = true ∨ ∃ n ∈ s.graph.nodes, n.world = w) :
    Housed hung (s.insert payload label w).2 := by
  have hissued : Supply.Issued s.supply (s.insert payload label w).2.supply
      (s.insert payload label w).1 :=
    ⟨payload.kind, s.supply.next, rfl, Nat.le_refl _, Nat.lt_succ_self _⟩
  have hcovers : s.supply.Covers w := by
    rcases hw with hw | ⟨n, hn, rfl⟩
    · exact covers_of_hasWorld h.spent hw
    · exact h.covers n hn
  refine ⟨h.toIntact.insert payload label w, h.owners.append ⟨?_, List.pairwise_singleton _ _⟩ ?_,
    ?_, ?_⟩
  · intro n hn
    obtain rfl := List.mem_singleton.mp hn
    exact ne_body_of_covers hcovers hissued.not_spent
  · intro n hn m hm
    obtain rfl := List.mem_singleton.mp hm
    exact ne_body_of_covers (h.covers n hn) hissued.not_spent
  · intro n hn
    rcases List.mem_append.mp hn with hn | hn
    · exact (h.covers n hn).mono (Nat.le_succ _)
    · obtain rfl := List.mem_singleton.mp hn
      exact hcovers.mono (Nat.le_succ _)
  · intro e he hk
    exact (h.clauses e he hk).imp_left fun hlevel =>
      hlevel.of_subset (List.map_subset _ (List.subset_append_left ..))

theorem wire (hs : e.source ∈ s.graph.ids) (ht : e.target ∈ s.graph.ids)
    (hhung : (∃ index, e.kind = .nextClause index) → hung e) :
    Housed hung (s.mapGraph fun g => g.addEdge e) := by
  have hnodes : (s.graph.addEdge e).nodes = s.graph.nodes := nodes_addEdge ..
  refine ⟨h.toIntact.wire hs ht, hnodes.symm ▸ h.owners, hnodes.symm ▸ h.covers, ?_⟩
  intro d hd hk
  show Level (s.graph.addEdge e).nodes d ∨ hung d
  rw [hnodes]
  rcases mem_addEdge_iff.mp hd with hd | rfl
  · exact h.clauses d hd hk
  · exact .inr (hhung hk)

theorem graft (stmts : List Stmt) (hw : s.graph.accepts w = true) :
    Housed hung ⟨s.graph.grafted s.supply stmts w, (s.graph.snippet s.supply stmts w).2⟩ := by
  have haddress := Node.address_of_bare (bare_grafted s.graph s.supply stmts w)
  have hgrows := (Builder.executes_statements w stmts (s.graph.snippetStart s.supply w)).grows
  obtain ⟨new, hnodes, hnew⟩ := hgrows.nodes
  obtain rfl : (s.graph.snippetEnd s.supply stmts w).graph.nodes = new := hnodes
  refine ⟨h.toIntact.graft stmts w, ?_, ?_, ?_⟩
  · have hown := ownersFirst_snippet h.graph.ids h.spent stmts hw
    have hall := h.owners.append hown fun n hn m hm =>
      ne_body_of_covers (h.covers n hn) (hnew m hm).1.not_spent
    exact hall.of_address (haddress ▸ .refl _)
  · have hstart : ∀ n ∈ s.graph.nodes ++ (s.graph.snippetStart s.supply w).graph.nodes,
        s.supply.Covers n.world := List.forall_mem_append.mpr ⟨h.covers, nofun⟩
    have hall := covers_grows hstart hgrows (covers_of_accepts h.spent hw)
    exact covers_of_address hall (haddress ▸ List.Subset.refl _)
  · intro e he hk
    have he : e ∈ (s.graph.grafted s.supply stmts w).edges := he
    rw [edges_graft h.graph h.spent] at he
    have hlevel : Level (s.graph.nodes ++ (s.graph.snippetEnd s.supply stmts w).graph.nodes) e ∨
        hung e := by
      rcases List.mem_append.mp he with he | he
      · exact (h.clauses e he hk).imp_left fun hlevel =>
          hlevel.of_subset (List.map_subset _ (List.subset_append_left ..))
      · have hnew := clausesLevel_snippet s.graph s.supply stmts w e he hk
        exact .inl (hnew.of_subset (List.map_subset _ (List.subset_append_right ..)))
    exact hlevel.imp_left fun hlevel =>
      hlevel.of_subset (haddress ▸ List.Subset.refl _)

theorem changes {t : Workspace} (hc : ReflTransGen (Change hung) s t) : t.Housed hung := by
  induction hc with
  | refl => exact h
  | tail _ hlast ih =>
    cases hlast with
    | relabel haddress hedges => exact ih.relabel haddress hedges
    | removeEdges source target kind => exact ih.removeEdges source target kind
    | removeNode id => exact ih.removeNode id
    | insert payload label hw => exact ih.insert payload label hw
    | wire hs ht hhung => exact ih.wire hs ht hhung
    | graft stmts hw => exact ih.graft stmts hw

end Housed

theorem housed_of_reached {k : Nat} {g : Graph} (h : Reached k g supply) (hung : Edge → Prop) :
    Housed hung ⟨g, supply⟩ := by
  have hscoped := h.wellScoped
  exact ⟨⟨hscoped.toConsistent, List.forall_mem_map.mpr h.sound.spent⟩, hscoped.ownersFirst,
    h.sound.covers, fun e he hk => .inl (hscoped.clausesLevel e he hk)⟩

theorem exists_synthesis_iff (g : Graph) (style : CodeStyle) (part : Part) :
    (∃ r, g.synthesize style part = some r) ↔ (g.partCode style part).isSome = true := by
  rw [← Option.isSome_iff_exists, synthesize, Option.isSome_map]

/-- After any edits of a text, a part is written exactly if no body that is met in it contains
itself. It is always written if the edits hung no clause on a block of another world, or such an
edge is gone. -/
theorem synthesizes_of_edits {supply rest : Supply} {text : String} {g : Graph}
    (hparse : ofSourceLinked supply text = .ok (g, rest)) {es : List Edit} {s : Workspace}
    (hedits : applyAll ⟨g, rest⟩ es = .ok s) (style : CodeStyle) (part : Part) :
    ((∃ r, s.graph.synthesize style part = some r) ↔ ∀ a ∈ s.graph.topBodies part, ∀ b,
      ReflTransGen s.graph.Contains a b → ¬TransGen s.graph.Contains b b) ∧
    ((∀ e ∈ s.graph.edges, (∃ index, e.kind = .nextClause index) →
      .addEdge e.source e.target e.kind ∈ es → Level s.graph.nodes e) →
      ∃ r, s.graph.synthesize style part = some r) := by
  refine ⟨?_, ?_⟩
  · rw [exists_synthesis_iff]
    exact partCode_isSome_iff_acyclic ..
  · intro hlevel
    have hstart := housed_of_reached (.parsed hparse) fun e =>
      .addEdge e.source e.target e.kind ∈ es
    have hend := hstart.changes (changes_of_applyAll _ hedits fun _ _ _ hmem => hmem)
    have hclauses : s.graph.ClausesLevel := fun e he hk =>
      (hend.clauses e he hk).elim id (hlevel e he hk)
    rw [exists_synthesis_iff]
    exact partCode_isSome_of_ownersFirst hend.graph.ids hend.owners hclauses style part

/-- A condition leads on to the clause that it stands in, and there is no text. Without that edge
and with more clauses, some of a snippet in the clause, every part has one. -/
theorem synthesizes_of_edits_unhung :
    let text := "if a:\n    pass\nelif b:\n    if c:\n        pass\n"
    let second := Supply.idOf .elifBlock 1
    let inner := Supply.idOf .ifBlock 2
    let hang : Edit := .addEdge inner second (.nextClause none)
    let edits := [hang, .addNode .elseBlock "else" .root,
      .addEdge second (Supply.idOf .elseBlock 3) (.nextClause none),
      .inject "if d:\n    pass\nelse:\n    e = 1\n" (.body second), .removeEdges inner second none]
    ∃ g rest s s', ofSourceLinked ⟨0⟩ text = .ok (g, rest) ∧ applyAll ⟨g, rest⟩ [hang] = .ok s ∧
      s.graph.synthesize .default .whole = none ∧ applyAll ⟨g, rest⟩ edits = .ok s' ∧
      ∀ style part, ∃ r, s'.graph.synthesize style part = some r := by
  intro text second inner hang edits
  let module : List Stmt := [.branch ⟨"a", .name "a"⟩ [.skip]
    (.elif ⟨"b", .name "b"⟩ [.branch ⟨"c", .name "c"⟩ [.skip] .done] .done)]
  obtain ⟨start, hparse, hhung, hunhung⟩ : ∃ start : Workspace,
      ofSourceLinked ⟨0⟩ text = .ok (start.graph, start.supply) ∧
      (start.applyAll [hang]).map (fun s => s.graph.synthesize .default .whole) = .ok none ∧
      (start.applyAll edits).map (fun s => decide (∀ e ∈ s.graph.edges,
        .addEdge e.source e.target e.kind ∈ edits → ∃ m ∈ s.graph.nodes, ∃ n ∈ s.graph.nodes,
          m.id = e.source ∧ n.id = e.target ∧ m.world = n.world)) = .ok true :=
    ⟨⟨(build ⟨0⟩ module).1.link.1, (build ⟨0⟩ module).2⟩, by decide +kernel⟩
  obtain ⟨s, hs, hnone⟩ := exists_of_map_eq_ok hhung
  obtain ⟨s', hs', hlevel⟩ := exists_of_map_eq_ok hunhung
  refine ⟨start.graph, start.supply, s, s', hparse, hs, hnone, hs', ?_⟩
  intro style part
  refine (synthesizes_of_edits hparse hs' style part).2 ?_
  intro e he _
  exact of_decide_eq_true hlevel e he

end Workspace

end ScopedFlow
