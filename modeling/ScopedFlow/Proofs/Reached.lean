import ScopedFlow.Proofs.Replay
import ScopedFlow.Proofs.Wiring

/-!
# Graphs that come from a text by injections

Each injection puts the nodes of a run of the builder behind those that are there, and linking
changes no more than the sites of calls, so what runs preserve and linking does not touch holds of
all these graphs.
-/

namespace ScopedFlow

def Node.bare (n : Node) : Node := n.mapSite fun _ => .function

namespace Node

variable (n : Node) {ns ms : List Node}

theorem bare_mapSite (f : CallSite → CallSite) : (n.mapSite f).bare = n.bare := by
  obtain ⟨id, label, world, payload⟩ := n
  cases payload <;> rfl

@[simp] theorem id_bare : n.bare.id = n.id := Graph.id_mapSite ..

@[simp] theorem world_bare : n.bare.world = n.world := by
  obtain ⟨id, label, world, payload⟩ := n
  cases payload <;> rfl

@[simp] theorem kind_bare : n.bare.kind = n.kind := by
  obtain ⟨id, label, world, payload⟩ := n
  cases payload <;> rfl

def address : NodeId × World := (n.id, n.world)

@[simp] theorem address_bare : n.bare.address = n.address := by
  rw [address, id_bare, world_bare, address]

theorem address_of_bare (h : ns.map bare = ms.map bare) : ns.map address = ms.map address := by
  have haddress : ∀ ns : List Node, ns.map address = (ns.map bare).map address := by
    intro ns
    rw [List.map_map]
    exact List.map_congr_left fun n _ => n.address_bare.symm
  rw [haddress ns, h, ← haddress ms]

theorem bare_of_kind {n : Node} (h : n.kind ≠ .call) : n.bare = n := by
  obtain ⟨id, label, world, payload⟩ := n
  cases payload with
  | call site => exact absurd rfl h
  | _ => rfl

theorem exists_bare (h : ns.map bare = ms.map bare) {m : Node} (hm : m ∈ ms) :
    ∃ n ∈ ns, n.bare = m.bare := by
  have hbare : m.bare ∈ ns.map bare := h ▸ List.mem_map_of_mem hm
  exact List.mem_map.mp hbare

theorem exists_alike (h : ns.map bare = ms.map bare) {m : Node} (hm : m ∈ ms) :
    ∃ n ∈ ns, n.id = m.id ∧ n.world = m.world ∧ n.kind = m.kind := by
  obtain ⟨n, hn, he⟩ := exists_bare h hm
  refine ⟨n, hn, ?_, ?_, ?_⟩
  · rw [← n.id_bare, he, m.id_bare]
  · rw [← n.world_bare, he, m.world_bare]
  · rw [← n.kind_bare, he, m.kind_bare]

theorem mem_of_bare (h : ns.map bare = ms.map bare) {n : Node} (hn : n ∈ ns) (hk : n.kind ≠ .call) :
    n ∈ ms := by
  obtain ⟨m, hm, he⟩ := exists_bare h.symm hn
  have hkind : m.kind ≠ .call := by
    rw [← m.kind_bare, he, n.kind_bare]
    exact hk
  rw [bare_of_kind hk, bare_of_kind hkind] at he
  exact he ▸ hm

end Node

namespace Graph

variable {g : Graph} {w : World} {text : String} {supply : Supply}

theorem bare_modifyNode (g : Graph) (id : NodeId) (f : CallSite → CallSite) :
    (g.modifyNode id (Node.mapSite f)).nodes.map Node.bare = g.nodes.map Node.bare := by
  simp only [modifyNode]
  induction g.nodes with
  | nil => rfl
  | cons n ns ih =>
    unfold modifyFirst
    split
    · rw [List.map_cons, List.map_cons, Node.bare_mapSite]
    · rw [List.map_cons, List.map_cons, ih]

theorem bare_hydrate (g : Graph) (id : NodeId) :
    (g.hydrate id).nodes.map Node.bare = g.nodes.map Node.bare := by
  unfold hydrate
  split
  · exact bare_modifyNode ..
  · rfl

theorem foldl_keeps {α β : Type} (view : Graph → β) {f : Graph → α → Graph}
    (hf : ∀ g a, view (f g a) = view g) (as : List α) (g : Graph) : view (as.foldl f g) = view g := by
  induction as generalizing g with
  | nil => rfl
  | cons a as ih => exact (ih (f g a)).trans (hf g a)

theorem bare_linkOn (g : Graph) (ids : List NodeId) :
    (g.linkOn ids).1.nodes.map Node.bare = g.nodes.map Node.bare := by
  have happly : ∀ (g : Graph) (l : CallLink),
      (g.applyLink l).nodes.map Node.bare = g.nodes.map Node.bare := fun g l => bare_modifyNode ..
  let view := fun g : Graph => g.nodes.map Node.bare
  exact (foldl_keeps view bare_hydrate ..).trans (foldl_keeps view happly ..)

theorem subset_addEdge (g : Graph) (e : Edge) : g.edges ⊆ (g.addEdge e).edges := by
  unfold addEdge
  split
  · exact List.Subset.refl _
  · exact List.subset_append_left ..

theorem mem_addEdge (g : Graph) (e : Edge) : e ∈ (g.addEdge e).edges := by
  unfold addEdge
  split
  · assumption
  · exact List.mem_append_right _ List.mem_cons_self

theorem append_eq (g h : Graph) : (g.append h).nodes = g.nodes ++ h.nodes ∧
    g.edges ⊆ (g.append h).edges ∧ h.edges ⊆ (g.append h).edges := by
  have hfold : ∀ (es : List Edge) (g : Graph), (es.foldl addEdge g).nodes = g.nodes ∧
      g.edges ⊆ (es.foldl addEdge g).edges ∧ es ⊆ (es.foldl addEdge g).edges := by
    intro es
    induction es with
    | nil => exact fun g => ⟨rfl, List.Subset.refl _, List.nil_subset _⟩
    | cons e es ih =>
      intro g
      obtain ⟨hn, hold, hnew⟩ := ih (g.addEdge e)
      refine ⟨hn.trans (nodes_addEdge g e), List.Subset.trans (subset_addEdge g e) hold, ?_⟩
      exact List.cons_subset.mpr ⟨hold (mem_addEdge g e), hnew⟩
  exact hfold h.edges ⟨g.nodes ++ h.nodes, g.edges⟩

def snippetStart (g : Graph) (supply : Supply) (w : World) : Builder :=
  ⟨.empty, .ofWorld g w, g.proxies, supply⟩

def grafted (g : Graph) (supply : Supply) (stmts : List Stmt) (w : World) : Graph :=
  let added := (g.snippet supply stmts w).1
  ((g.append added).linkOn ((added.nodesOfKind .call).map (·.id))).1

theorem inject_eq (hw : g.accepts w = true) {stmts : List Stmt} (hp : Source.parse text = .ok stmts)
    (supply : Supply) : g.inject supply text w = .ok (g.grafted supply stmts w,
      (g.snippet supply stmts w).1.nodes.length, (g.snippet supply stmts w).2) := by
  simp only [inject, hw, hp, if_true]
  rfl

theorem inject_ok {g' : Graph} {rest : Supply} {count : Nat}
    (h : g.inject supply text w = .ok (g', count, rest)) :
    g.accepts w = true ∧ ∃ stmts, Source.parse text = .ok stmts ∧ g' = g.grafted supply stmts w ∧
      rest = (g.snippet supply stmts w).2 := by
  cases hw : g.accepts w with
  | false => simp [inject, hw] at h
  | true =>
    cases hp : Source.parse text with
    | error d => simp [inject, hw, hp] at h
    | ok stmts =>
      rw [inject_eq hw hp, Except.ok.injEq, Prod.mk.injEq, Prod.mk.injEq] at h
      exact ⟨rfl, stmts, rfl, h.1.symm, h.2.2.symm⟩

theorem bare_grafted (g : Graph) (supply : Supply) (stmts : List Stmt) (w : World) :
    (g.grafted supply stmts w).nodes.map Node.bare =
      (g.nodes ++ (g.snippet supply stmts w).1.nodes).map Node.bare := by
  rw [grafted, bare_linkOn, (append_eq g _).1]

theorem ofSourceLinked_ok {rest : Supply} (h : ofSourceLinked supply text = .ok (g, rest)) :
    ∃ stmts, Source.parse text = .ok stmts ∧
      let b := Builder.statements .root stmts (.start supply)
      g = b.graph.link.1 ∧ rest = b.supply := by
  unfold ofSourceLinked ofSource at h
  cases hp : Source.parse text with
  | error d => simp [hp] at h
  | ok stmts =>
    simp only [hp, Except.ok.injEq, Prod.mk.injEq] at h
    exact ⟨stmts, rfl, h.1.symm, h.2.symm⟩

/-- A graph that comes from a text by so many injections, with the supply that is left. -/
inductive Reached : Nat → Graph → Supply → Prop where
  | parsed {supply rest : Supply} {text : String} {g : Graph}
    (h : ofSourceLinked supply text = .ok (g, rest)) : Reached 0 g rest
  | injected {k : Nat} {g g' : Graph} {supply rest : Supply} {text : String} {w : World} {count : Nat}
    (before : Reached k g supply) (h : g.inject supply text w = .ok (g', count, rest)) :
    Reached (k + 1) g' rest

/-- No id or body to come is among the nodes, and exactly the imports live among the imports. -/
structure Sound (ns : List Node) (supply : Supply) : Prop where
  spent : ∀ n ∈ ns, supply.Spent n.id
  covers : ∀ n ∈ ns, supply.Covers n.world
  imports : ∀ n ∈ ns, n.kind = .importStmt ↔ n.world = .imports

open Builder in
theorem covers_grows {base : List Node} {b b' : Builder}
    (h : ∀ n ∈ base ++ b.graph.nodes, b.supply.Covers n.world) (hg : Grows w b b')
    (hc : b.supply.Covers w) : ∀ n ∈ base ++ b'.graph.nodes, b'.supply.Covers n.world := by
  obtain ⟨new, hn, hnew⟩ := hg.nodes
  rw [hn, ← List.append_assoc]
  intro n hmem
  rcases List.mem_append.mp hmem with hm | hm
  · exact (h n hm).mono hg.supply
  · rcases (hnew n hm).2 with ⟨-, he⟩ | ⟨-, he | ⟨d, hd, he⟩⟩ <;> rw [he]
    · trivial
    · exact hc.mono hg.supply
    · exact (hnew d hd).1.spent

open Builder in
theorem Sound.grows {base : List Node} {b b' : Builder} (h : Sound (base ++ b.graph.nodes) b.supply)
    (hg : Grows w b b') (hw : w ≠ .imports) (hc : b.supply.Covers w) :
    Sound (base ++ b'.graph.nodes) b'.supply := by
  have hcovers := covers_grows h.covers hg hc
  obtain ⟨new, hn, hnew⟩ := hg.nodes
  refine ⟨?_, hcovers, ?_⟩ <;> rw [hn, ← List.append_assoc] <;> intro n hmem <;>
    rcases List.mem_append.mp hmem with hm | hm
  · exact (h.spent n hm).mono hg.supply
  · exact (hnew n hm).1.spent
  · exact h.imports n hm
  · rcases (hnew n hm).2 with ⟨hk, he⟩ | ⟨hk, he | ⟨d, -, he⟩⟩ <;> simp [hk, he, hw]

theorem Sound.snippetStart (h : Sound g.nodes supply) (w : World) :
    Sound (g.nodes ++ (g.snippetStart supply w).graph.nodes) (g.snippetStart supply w).supply := by
  have hnodes : g.nodes ++ (g.snippetStart supply w).graph.nodes = g.nodes := List.append_nil _
  rw [hnodes]
  exact h

theorem covers_of_hasWorld (h : ∀ n ∈ g.nodes, supply.Spent n.id) (hw : g.hasWorld w = true) :
    supply.Covers w := by
  cases w with
  | root => trivial
  | imports => trivial
  | body id =>
    simp only [hasWorld, Option.any_eq_true] at hw
    obtain ⟨n, hn, -⟩ := hw
    have hid := List.find?_some hn
    exact of_decide_eq_true hid ▸ h n (List.mem_of_find?_eq_some hn)

theorem covers_of_accepts (h : ∀ n ∈ g.nodes, supply.Spent n.id) (hw : g.accepts w = true) :
    supply.Covers w :=
  covers_of_hasWorld h (Bool.and_eq_true_iff.mp hw).1

theorem ne_imports_of_accepts (h : g.accepts w = true) : w ≠ .imports := by
  simpa using (Bool.and_eq_true_iff.mp h).2

theorem Sound.relink {ns ms : List Node} (h : Sound ns supply)
    (hb : ns.map Node.bare = ms.map Node.bare) : Sound ms supply := by
  refine ⟨?_, ?_, ?_⟩ <;> intro m hm <;> obtain ⟨n, hn, he⟩ := Node.exists_bare hb hm
  · rw [← m.id_bare, ← he, n.id_bare]
    exact h.spent n hn
  · rw [← m.world_bare, ← he, n.world_bare]
    exact h.covers n hn
  · rw [← m.world_bare, ← m.kind_bare, ← he, n.world_bare, n.kind_bare]
    exact h.imports n hn

open Builder in
theorem Reached.sound {k : Nat} (h : Reached k g supply) : Sound g.nodes supply := by
  induction h with
  | @parsed supply rest text g h =>
    obtain ⟨stmts, -, rfl, rfl⟩ := ofSourceLinked_ok h
    have hnil : Sound ([] ++ (Builder.start supply).graph.nodes) supply := ⟨nofun, nofun, nofun⟩
    have hroot : World.root ≠ .imports := nofun
    have hrun := executes_statements .root stmts (.start supply)
    exact (hnil.grows hrun.grows hroot trivial).relink (bare_linkOn ..).symm
  | @injected k g g' supply rest text w count _ h ih =>
    obtain ⟨hw, stmts, -, rfl, rfl⟩ := inject_ok h
    have hrun := executes_statements w stmts (g.snippetStart supply w)
    have hstart := ih.snippetStart w
    have hnodes := hstart.grows hrun.grows (ne_imports_of_accepts hw) (covers_of_accepts ih.spent hw)
    exact hnodes.relink (bare_grafted ..).symm

open Builder in
/-- What holds after the first run, is kept by every later one and does not look at call sites
holds of every graph that is reached. -/
theorem Reached.nodes_induction {P : Nat → List Node → Prop}
    (parse : ∀ {supply b}, Executes .root (.start supply) b → P 0 b.graph.nodes)
    (graft : ∀ {k} {g : Graph} {supply w b}, P k g.nodes → Sound g.nodes supply →
      g.accepts w = true → Executes w (g.snippetStart supply w) b →
      P (k + 1) (g.nodes ++ b.graph.nodes))
    (relink : ∀ {k ns ms}, ns.map Node.bare = ms.map Node.bare → P k ns → P k ms) {k : Nat}
    (h : Reached k g supply) : P k g.nodes := by
  induction h with
  | parsed h =>
    obtain ⟨stmts, -, rfl, rfl⟩ := ofSourceLinked_ok h
    exact relink (bare_linkOn ..).symm (parse (executes_statements .root stmts _))
  | @injected k g g' supply rest text w count before h ih =>
    obtain ⟨hw, stmts, -, rfl, rfl⟩ := inject_ok h
    have hrun := executes_statements w stmts (g.snippetStart supply w)
    exact relink (bare_grafted ..).symm (graft ih before.sound hw hrun)

end Graph

end ScopedFlow
