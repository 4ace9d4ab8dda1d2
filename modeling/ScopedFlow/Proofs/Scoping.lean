import Mathlib.Data.List.Nodup
import Mathlib.Logic.Relation
import ScopedFlow.Proofs.Joined

/-!
# Graphs are well scoped

A body is opened behind its owner, so every node lives in a world that an earlier node owns. Nodes
are finished in an order that every edge follows: what is wired into an open node is finished before
it, and a name in scope belongs to a finished node. So the edges of all kinds together have no
cycle.
-/

namespace ScopedFlow

variable {ns ms : List Node}

/-- A reserved world, or the body of one of the nodes. -/
def World.Opened (ns : List Node) : World → Prop
  | .root | .imports => True
  | .body id => ∃ d ∈ ns, d.kind.ownsWorld = true ∧ d.id = id

theorem World.Opened.mono {w : World} (h : w.Opened ns) (hs : ns ⊆ ms) : w.Opened ms := by
  cases w with
  | root => trivial
  | imports => trivial
  | body id =>
    obtain ⟨d, hd, hrest⟩ := h
    exact ⟨d, hs hd, hrest⟩

namespace Graph

/-- Each node lives in a world that was opened before it. -/
def Nested (ns : List Node) : Prop :=
  ∀ front n back, ns = front ++ n :: back → n.world.Opened front

/-- An edge of some kind leads from one id to the other. -/
def Leads (g : Graph) (source target : NodeId) : Prop :=
  ∃ e ∈ g.edges, e.source = source ∧ e.target = target

structure WellScoped (g : Graph) : Prop extends Consistent g where
  nested : Nested g.nodes
  tidy : Tidy g.nodes
  worlds : ∀ e ∈ g.edges, e.kind ≠ .closureOf → ∃ s ∈ g.nodes, ∃ t ∈ g.nodes,
    s.id = e.source ∧ t.id = e.target ∧ s.world = t.world
  acyclic : ∀ id, ¬ Relation.TransGen g.Leads id id

theorem nested_nil : Nested [] := by
  intro front n back h
  cases front <;> cases h

theorem Nested.snoc {ns : List Node} {n : Node} (h : Nested ns) (hw : n.world.Opened ns) :
    Nested (ns ++ [n]) := by
  intro front m back hsplit
  rcases back.eq_nil_or_concat with rfl | ⟨back, last, rfl⟩
  · obtain ⟨rfl, hm⟩ := List.append_inj' hsplit rfl
    obtain rfl := List.head_eq_of_cons_eq hm
    exact hw
  · have hlast : ns ++ [n] = (front ++ m :: back) ++ [last] := by
      rw [hsplit, List.concat_eq_append, List.append_assoc, List.cons_append]
    exact h front m back (List.append_inj' hlast rfl).1

theorem Nested.append {w : World} (h : Nested ns) (hw : w.Opened ns) (hm : ∀ m ∈ ms, m.world = w) :
    Nested (ns ++ ms) := by
  induction ms generalizing ns with
  | nil => rwa [List.append_nil]
  | cons m ms ih =>
    have hfirst := hm m List.mem_cons_self
    rw [List.append_cons]
    apply ih
    · exact h.snoc (hfirst ▸ hw)
    · exact hw.mono (List.subset_append_left ..)
    · exact fun n hn => hm n (List.mem_cons_of_mem _ hn)

theorem Nested.relink (h : Nested ns) (hb : ns.map Node.bare = ms.map Node.bare) : Nested ms := by
  rintro front m back rfl
  rw [List.map_append, List.map_cons] at hb
  obtain ⟨front', rest, rfl, hfront, hrest⟩ := List.map_eq_append_iff.mp hb
  obtain ⟨n, back', rfl, hn, -⟩ := List.map_eq_cons_iff.mp hrest
  have hopened := h front' n back' rfl
  rw [← n.world_bare, hn, m.world_bare] at hopened
  cases hw : m.world with
  | root => trivial
  | imports => trivial
  | body id =>
    rw [hw] at hopened
    obtain ⟨d, hd, howns, hid⟩ := hopened
    obtain ⟨d', hd', hid', -, hkind⟩ := Node.exists_alike hfront.symm hd
    exact ⟨d', hd', hkind ▸ howns, hid'.trans hid⟩

end Graph

namespace Builder
open ScopedFlow.Graph

section Worlds

variable {w : World} {target : NodeId} {xs : List WrittenCall} {b b' : Builder} {base : List Node}
  {payload : Payload} {label : String}

theorem Fills.nodes_eq (h : Fills w target xs b b') :
    ∃ new, b'.graph.nodes = b.graph.nodes ++ new ∧ ∀ n ∈ new, n.world = w := by
  induction h with
  | refl => exact ⟨[], (List.append_nil _).symm, List.forall_mem_nil _⟩
  | trans _ _ ih ih' =>
    obtain ⟨new, hn, hw⟩ := ih
    obtain ⟨new', hn', hw'⟩ := ih'
    refine ⟨new ++ new', ?_, ?_⟩
    · rw [hn', hn, List.append_assoc]
    · intro n hmem
      exact (List.mem_append.mp hmem).elim (hw n) (hw' n)
  | read target b name data =>
    rcases b.read_cases name w ⟨target, _⟩ with
      ⟨-, hr⟩ | ⟨binding, -, ⟨-, hr⟩ | ⟨-, proxy, -, hr⟩ | ⟨-, -, hr⟩⟩ <;> rw [hr]
    · exact ⟨[], (List.append_nil _).symm, List.forall_mem_nil _⟩
    · exact ⟨[], by rw [nodes_connect, List.append_nil], List.forall_mem_nil _⟩
    · exact ⟨[], by rw [nodes_connect, List.append_nil], List.forall_mem_nil _⟩
    · refine ⟨_, by rw [nodes_connect, nodes_standIn], ?_⟩
      intro n hn
      rw [List.mem_singleton.mp hn]
  | @node target xs b b' payload expression label kind data parts ih =>
    obtain ⟨new, hn, hw⟩ := ih
    refine ⟨⟨b.fresh payload.kind, label, w, payload⟩ :: new, ?_, ?_⟩
    · rw [hn, place, nodes_connect]
      exact List.append_assoc ..
    · intro n hmem
      rcases List.mem_cons.mp hmem with rfl | hmem
      · rfl
      · exact hw n hmem

theorem Begins.nodes_eq (h : Begins w payload label b xs b') :
    ∃ new, b'.graph.nodes = b.graph.nodes ++ ⟨b.fresh payload.kind, label, w, payload⟩ :: new ∧
      ∀ n ∈ new, n.world = w := by
  have hparts : ∀ {c c' : Builder} {xs}, Fills w (b.fresh payload.kind) xs c c' →
      c.graph.nodes = (b.add payload label w).graph.nodes → ∃ new, c'.graph.nodes =
        b.graph.nodes ++ ⟨b.fresh payload.kind, label, w, payload⟩ :: new ∧
        ∀ n ∈ new, n.world = w := by
    intro c c' xs parts hc
    obtain ⟨new, hn, hw⟩ := parts.nodes_eq
    refine ⟨new, ?_, hw⟩
    rw [hn, hc]
    exact List.append_assoc ..
  cases h with
  | plain _ parts => exact hparts parts rfl
  | behind _ _ _ parts => exact hparts parts (nodes_wire ..)
  | binding _ parts =>
    obtain ⟨new, hnew⟩ := hparts parts rfl
    exact ⟨new, hnew⟩

theorem nested_begins (hb : Begins w payload label b xs b') (h : Nested (base ++ b.graph.nodes))
    (hw : w.Opened (base ++ b.graph.nodes)) : Nested (base ++ b'.graph.nodes) := by
  obtain ⟨new, hn, hnew⟩ := hb.nodes_eq
  rw [hn, ← List.append_assoc]
  refine h.append hw ?_
  intro n hmem
  rcases List.mem_cons.mp hmem with rfl | hmem
  · rfl
  · exact hnew n hmem

theorem opened_begins (base : List Node) (owns : payload.kind.ownsWorld = true)
    (hb : Begins w payload label b xs b') :
    (World.body (b.fresh payload.kind)).Opened (base ++ b'.graph.nodes) := by
  refine ⟨⟨b.fresh payload.kind, label, w, payload⟩, List.mem_append_right _ ?_, owns, rfl⟩
  exact hb.nodes_prefix.subset (List.mem_append_right _ List.mem_cons_self)

theorem nested_performs (hp : Performs w xs b b') (h : Nested (base ++ b.graph.nodes))
    (hw : w.Opened (base ++ b.graph.nodes)) : Nested (base ++ b'.graph.nodes) := by
  induction hp with
  | refl => exact h
  | trans first _ ih ih' =>
    apply ih' (ih h hw)
    exact hw.mono ((List.prefix_append_right_inj base).mpr first.nodes_prefix).subset
  | head head => exact nested_begins head h hw
  | imports w b text names =>
    obtain ⟨scope, hdefine⟩ := foldl_imports b text names
    have himport := h.snoc (n := ⟨b.fresh .importStmt, text, .imports, .importStmt names⟩) trivial
    rw [List.append_assoc] at himport
    rw [hdefine]
    exact himport
  | block owns head body ih =>
    have hnested := nested_begins head h hw
    have hopened := opened_begins base owns head
    exact ih hnested hopened
  | clause known owns head body ih =>
    have hnested := nested_begins head h hw
    have hopened := opened_begins base owns head
    rw [nodes_wire]
    exact ih hnested hopened

end Worlds

/-- The ids in the order in which the nodes are finished, those of the open nodes behind. -/
structure Ordered (base : Graph) (done pending : List NodeId) (b : Builder) : Prop where
  perm : (done ++ pending).Perm (base.ids ++ b.graph.ids)
  edges : ∀ e ∈ base.edges ++ b.graph.edges, [e.source, e.target].Sublist (done ++ pending)
  names : b.symbols.All fun _ id _ => id ∈ done
  proxies : ∀ key id, b.proxies.get? key = some id → id ∈ done

namespace Ordered

variable {base : Graph} {done rest : List NodeId} {w : World} {b b' : Builder} {id target : NodeId}
  {xs : List WrittenCall}

theorem add (h : Ordered base done rest b) (payload : Payload) (label : String) (v : World) :
    Ordered base done (b.fresh payload.kind :: rest) (b.add payload label v) := by
  refine ⟨?_, ?_, h.names, h.proxies⟩
  · have hids : base.ids ++ (b.add payload label v).graph.ids =
        (base.ids ++ b.graph.ids) ++ [b.fresh payload.kind] := by
      simp only [ids, Builder.add, addNode, List.map_append, List.append_assoc]
      rfl
    rw [hids]
    apply List.perm_middle.trans
    exact (h.perm.cons _).trans (List.perm_append_singleton ..).symm
  · intro e he
    apply (h.edges e he).trans
    exact (List.sublist_cons_self ..).append_left done

theorem close (h : Ordered base done (id :: rest) b) : Ordered base (done ++ [id]) rest b := by
  refine ⟨?_, ?_, ?_, fun key i hi => List.mem_append_left _ (h.proxies key i hi)⟩
  · rw [← List.append_cons]
    exact h.perm
  · rw [← List.append_cons]
    exact h.edges
  · refine h.names.mono ?_
    intro name i v hi
    exact List.mem_append_left _ hi

theorem wire (h : Ordered base done rest b) {source : NodeId}
    (hs : [source, target].Sublist (done ++ rest)) (kind : EdgeKind) :
    Ordered base done rest (b.wire source target kind) := by
  refine ⟨?_, ?_, h.names, h.proxies⟩
  · have hids : (b.wire source target kind).graph.ids = b.graph.ids := by
      rw [ids, ids, nodes_wire]
    rw [hids]
    exact h.perm
  · intro e he
    rcases List.mem_append.mp he with he | he
    · exact h.edges e (List.mem_append_left _ he)
    · rcases mem_addEdge_iff.mp he with he | rfl
      · exact h.edges e (List.mem_append_right _ he)
      · exact hs

theorem feed (h : Ordered base done (id :: rest) b) {source : NodeId} (hs : source ∈ done)
    (kind : EdgeKind) : Ordered base done (id :: rest) (b.wire source id kind) :=
  h.wire ((List.singleton_sublist.mpr hs).append (List.singleton_sublist.mpr List.mem_cons_self)) kind

theorem define (h : Ordered base done rest b) (hid : id ∈ done) (name : String) (v : World) :
    Ordered base done rest (b.define name id v) :=
  ⟨h.perm, h.edges, h.names.write hid, h.proxies⟩

theorem defineAll (h : Ordered base done rest b) (hid : id ∈ done) (v : World) (names : List String)
    : Ordered base done rest (names.foldl (fun b name => b.define name id v) b) := by
  induction names generalizing b with
  | nil => exact h
  | cons name names ih => exact ih (h.define hid name v)

theorem enter (h : Ordered base done rest b) : Ordered base done rest b.enter :=
  ⟨h.perm, h.edges, h.names.enter, h.proxies⟩

theorem leave (h : Ordered base done rest b) : Ordered base done rest b.leave :=
  ⟨h.perm, h.edges, h.names.leave, h.proxies⟩

theorem standIn (h : Ordered base done rest b) {name : String} {binding : Binding}
    (found : b.symbols.read name = some binding) (w : World) :
    Ordered base (done ++ [b.fresh .variable]) rest (b.standIn name binding w) := by
  have hadd := h.add (.variable (.closureRead binding.node binding.world)) name w
  have hwire := (hadd.feed (h.names.read found) .closureOf).close
  refine ⟨hwire.perm, hwire.edges, hwire.names, ?_⟩
  intro key id hid
  by_cases hkey : (w, binding.node) = key
  · have hnew : (b.standIn name binding w).proxies.get? key = some (b.fresh .variable) :=
      hkey ▸ Table.get?_insert_self ..
    obtain rfl := Option.some.inj (hnew.symm.trans hid)
    exact List.mem_append_right _ List.mem_cons_self
  · have hold : (b.standIn name binding w).proxies.get? key = b.proxies.get? key :=
      Table.get?_insert_of_ne _ hkey _
    exact List.mem_append_left _ (h.proxies key id (hold.symm.trans hid))

theorem read (h : Ordered base done (target :: rest) b) (name : String) (kind : EdgeKind) :
    ∃ new, Ordered base (done ++ new) (target :: rest) (b.read name w ⟨target, kind⟩) := by
  rcases b.read_cases name w ⟨target, kind⟩ with
    ⟨-, hr⟩ | ⟨binding, hb, ⟨-, hr⟩ | ⟨-, proxy, hp, hr⟩ | ⟨-, -, hr⟩⟩ <;> rw [hr]
  · exact ⟨[], by rwa [List.append_nil]⟩
  · exact ⟨[], by rw [List.append_nil]; exact h.feed (h.names.read hb) kind⟩
  · exact ⟨[], by rw [List.append_nil]; exact h.feed (h.proxies _ _ hp) kind⟩
  · have hstand := h.standIn hb w
    exact ⟨_, hstand.feed (List.mem_append_right _ List.mem_cons_self) kind⟩

theorem fills (hf : Fills w target xs b b') (h : Ordered base done (target :: rest) b) :
    ∃ new, Ordered base (done ++ new) (target :: rest) b' := by
  induction hf generalizing done rest with
  | refl => exact ⟨[], by rwa [List.append_nil]⟩
  | trans _ _ ih ih' =>
    obtain ⟨new, h⟩ := ih h
    obtain ⟨new', h⟩ := ih' h
    exact ⟨new ++ new', by rwa [← List.append_assoc]⟩
  | read target b name data => exact h.read name _
  | @node target xs b b' payload expression label kind data parts ih =>
    have hplace := (h.add payload label w).wire
      (List.sublist_append_of_sublist_right ((List.nil_sublist rest).cons_cons target |>.cons_cons _))
      kind
    obtain ⟨new, h⟩ := ih hplace
    exact ⟨new ++ [b.fresh payload.kind], by rw [← List.append_assoc]; exact h.close⟩

theorem finished (h : Ordered base done [] b) {n : Node} (hn : n ∈ b.graph.nodes) :
    n.id ∈ done := by
  have hmem := h.perm.symm.subset (List.mem_append_right _ (List.mem_map_of_mem hn))
  rwa [List.append_nil] at hmem

theorem begins {payload : Payload} {label : String} (hb : Begins w payload label b xs b')
    (h : Ordered base done [] b) :
    ∃ new, Ordered base (done ++ new ++ [b.fresh payload.kind]) [] b' := by
  have hadd := h.add payload label w
  cases hb with
  | plain _ parts =>
    obtain ⟨new, h⟩ := hadd.fills parts
    exact ⟨new, h.close⟩
  | behind _ _ known parts =>
    obtain ⟨s, hs, rfl, -⟩ := known
    obtain ⟨new, h⟩ := (hadd.feed (h.finished hs) _).fills parts
    exact ⟨new, h.close⟩
  | binding _ parts =>
    obtain ⟨new, h⟩ := hadd.fills parts
    exact ⟨new, h.close.define (List.mem_append_right _ List.mem_cons_self) label w⟩

theorem performs (hp : Performs w xs b b') (h : Ordered base done [] b) :
    ∃ new, Ordered base (done ++ new) [] b' := by
  induction hp generalizing done with
  | refl => exact ⟨[], by rwa [List.append_nil]⟩
  | trans _ _ ih ih' =>
    obtain ⟨new, h⟩ := ih h
    obtain ⟨new', h⟩ := ih' h
    exact ⟨new ++ new', by rwa [← List.append_assoc]⟩
  | head head =>
    obtain ⟨new, h⟩ := h.begins head
    exact ⟨new ++ [_], by rw [← List.append_assoc]; exact h⟩
  | imports w b text names =>
    have hadd := (h.add (.importStmt names) text .imports).close
    exact ⟨[b.fresh .importStmt],
      hadd.defineAll (List.mem_append_right _ List.mem_cons_self) .imports names⟩
  | block owns head body ih =>
    obtain ⟨new, h⟩ := h.begins head
    obtain ⟨new', h⟩ := ih h.enter
    exact ⟨new ++ [_] ++ new', by rw [← List.append_assoc, ← List.append_assoc]; exact h.leave⟩
  | @clause w xs ys payload label b b' b'' previous known owns head body ih =>
    obtain ⟨s, hs, rfl, -⟩ := known
    have hbefore := h.finished hs
    obtain ⟨new, h⟩ := h.begins head
    obtain ⟨new', h⟩ := ih h.enter
    refine ⟨new ++ [b.fresh payload.kind] ++ new', ?_⟩
    rw [← List.append_assoc, ← List.append_assoc]
    refine h.leave.wire ?_ (.nextClause none)
    apply List.sublist_append_of_sublist_left
    apply List.sublist_append_of_sublist_left
    apply (List.singleton_sublist.mpr (List.mem_append_left new hbefore)).append
    exact List.Sublist.refl _

end Ordered

end Builder

namespace Graph
open Builder

/-- The ids can be put in an order that all edges follow. -/
def Sorted (g : Graph) : Prop :=
  ∃ order : List NodeId, order.Perm g.ids ∧ ∀ e ∈ g.edges, [e.source, e.target].Sublist order

theorem acyclic_of_sorted {g : Graph} (h : g.Sorted) (hids : g.ids.Nodup) (id : NodeId) :
    ¬ Relation.TransGen g.Leads id id := by
  obtain ⟨order, hperm, hedges⟩ := h
  have hnodup : order.Nodup := hperm.nodup_iff.mpr hids
  have hrank : order.Pairwise fun s t => order.idxOf s < order.idxOf t := by
    apply List.pairwise_iff_getElem.mpr
    intro i j hi hj hij
    rw [hnodup.idxOf_getElem, hnodup.idxOf_getElem]
    exact hij
  have hpath : ∀ {s t : NodeId}, Relation.TransGen g.Leads s t →
      order.idxOf s < order.idxOf t := by
    intro s t hst
    induction hst with
    | single hlead =>
      obtain ⟨e, he, rfl, rfl⟩ := hlead
      exact List.pairwise_iff_forall_sublist.mp hrank (hedges e he)
    | tail _ hlead ih =>
      obtain ⟨e, he, rfl, rfl⟩ := hlead
      exact ih.trans (List.pairwise_iff_forall_sublist.mp hrank (hedges e he))
  intro hcycle
  exact Nat.lt_irrefl _ (hpath hcycle)

theorem opened_of_accepts {g : Graph} {w : World} (h : g.accepts w = true) : w.Opened g.nodes := by
  cases w with
  | root => trivial
  | imports => trivial
  | body id =>
    have hhas : g.hasWorld (.body id) = true := (Bool.and_eq_true_iff.mp h).1
    simp only [hasWorld, Option.any_eq_true] at hhas
    obtain ⟨d, hd, howns⟩ := hhas
    have hid := List.find?_some hd
    exact ⟨d, List.mem_of_find?_eq_some hd, howns, of_decide_eq_true hid⟩

section Graft

variable {g : Graph} {supply : Supply} (stmts : List Stmt) (w : World)

theorem nested_graft (h : Nested g.nodes) (hw : g.accepts w = true) :
    Nested (g.grafted supply stmts w).nodes := by
  have hnil : g.nodes ++ (g.snippetStart supply w).graph.nodes = g.nodes := List.append_nil _
  have hrun := performs_statements w stmts (g.snippetStart supply w)
  have hstart : Nested (g.nodes ++ (g.snippetStart supply w).graph.nodes) := by rwa [hnil]
  have hnested := nested_performs hrun hstart (by rw [hnil]; exact opened_of_accepts hw)
  exact hnested.relink (bare_grafted g supply stmts w).symm

variable (hg : g.Consistent) (hspent : ∀ n ∈ g.nodes, supply.Spent n.id)
include hg hspent

theorem sorted_graft (h : g.Sorted) : (g.grafted supply stmts w).Sorted := by
  obtain ⟨order, hperm, hedges⟩ := h
  have hknown : ∀ n ∈ g.nodes, n.id ∈ order := fun n hn =>
    hperm.symm.subset (List.mem_map_of_mem hn)
  have hstart : Ordered g order [] (g.snippetStart supply w) := by
    refine ⟨?_, ?_, ?_, ?_⟩
    · rw [List.append_nil]
      exact hperm.trans (List.append_nil _ ▸ .refl _)
    · intro e he
      rw [List.append_nil]
      exact hedges e ((List.mem_append.mp he).elim id nofun)
    · refine (named_ofWorld g w).mono ?_
      rintro name id v ⟨n, hn, rfl, -⟩
      exact hknown n hn
    · rintro ⟨v, origin⟩ id hid
      obtain ⟨n, hn, rfl, -⟩ := backed_snippetStart g supply w v origin id hid
      exact hknown n ((List.mem_append.mp hn).elim id nofun)
  obtain ⟨new, hend⟩ := hstart.performs (performs_statements w stmts _)
  refine ⟨order ++ new, ?_, ?_⟩
  · rw [ids_graft, ← List.append_nil (order ++ new)]
    exact hend.perm
  · intro e he
    rw [edges_graft hg hspent] at he
    have hedge := hend.edges e he
    rwa [List.append_nil] at hedge

/-- The edge joins nodes of one world. -/
def Level (ns : List Node) (e : Edge) : Prop :=
  ∃ s ∈ ns, ∃ t ∈ ns, s.id = e.source ∧ t.id = e.target ∧ s.world = t.world

omit hg hspent in
theorem Level.mono {e : Edge} (h : Level ns e)
    (hsub : ∀ n ∈ ns, n.id = e.source ∨ n.id = e.target → n.address ∈ ms.map Node.address) :
    Level ms e := by
  obtain ⟨s, hs, t, ht, hsid, htid, hw⟩ := h
  obtain ⟨s', hs', hsa⟩ := List.mem_map.mp (hsub s hs (.inl hsid))
  obtain ⟨t', ht', hta⟩ := List.mem_map.mp (hsub t ht (.inr htid))
  obtain ⟨hsid', hsw⟩ := Prod.mk.inj hsa
  obtain ⟨htid', htw⟩ := Prod.mk.inj hta
  exact ⟨s', hs', t', ht', hsid'.trans hsid, htid'.trans htid, hsw.trans (hw.trans htw.symm)⟩

omit hg hspent in
theorem Level.of_subset {e : Edge} (h : Level ns e)
    (hsub : ns.map Node.address ⊆ ms.map Node.address) : Level ms e := by
  apply h.mono
  intro n hn _
  exact hsub (List.mem_map_of_mem hn)

theorem level_graft (htidy : Tidy g.nodes)
    (h : ∀ e ∈ g.edges, e.kind ≠ .closureOf → Level g.nodes e) :
    ∀ e ∈ (g.grafted supply stmts w).edges, e.kind ≠ .closureOf →
      Level (g.grafted supply stmts w).nodes e := by
  intro e he hk
  rw [edges_graft hg hspent] at he
  have hlevel : Level (g.nodes ++ (g.snippet supply stmts w).1.nodes) e := by
    rcases List.mem_append.mp he with he | he
    · exact (h e he hk).of_subset (List.map_subset _ (List.subset_append_left ..))
    · obtain ⟨s, hs, t, ht, hsid, htid, hworld, -⟩ :=
        (joined_snippet hg.ids hspent stmts w).edges e he
      exact ⟨s, hs, t, List.mem_append_right _ ht, hsid, htid, hworld htidy hk⟩
  have haddress := Node.address_of_bare (bare_grafted g supply stmts w)
  exact hlevel.of_subset (haddress ▸ List.Subset.refl _)

end Graft

theorem Reached.wellScoped {k : Nat} {g : Graph} {supply : Supply} (h : Reached k g supply) :
    g.WellScoped := by
  let Scoped := fun (g : Graph) (_ : Supply) => g.Consistent ∧ Nested g.nodes ∧ g.Sorted ∧
    ∀ e ∈ g.edges, e.kind ≠ .closureOf → Level g.nodes e
  have hscoped : Scoped g supply := by
    refine h.graft_induction (P := Scoped) ?_ ?_
    · intro supply
      exact ⟨consistent_empty, nested_nil, ⟨[], .refl _, nofun⟩, nofun⟩
    · intro g supply w stmts hg hsound hw
      obtain ⟨hconsistent, hnested, hsorted, hlevel⟩ := hg
      have hspent := hsound.spent
      exact ⟨consistent_graft hconsistent hspent stmts w, nested_graft stmts w hnested hw,
        sorted_graft stmts w hconsistent hspent hsorted,
        level_graft stmts w hconsistent hspent hsound.imports hlevel⟩
  obtain ⟨hconsistent, hnested, hsorted, hlevel⟩ := hscoped
  exact ⟨hconsistent, hnested, h.sound.imports, hlevel,
    acyclic_of_sorted hsorted hconsistent.ids⟩

/-- Every text that can be read has a well scoped graph. -/
theorem wellScoped_ofSource {text : String} {stmts : List Stmt} (h : Source.parse text = .ok stmts)
    (supply : Supply) : ∃ g rest, ofSourceLinked supply text = .ok (g, rest) ∧ g.WellScoped := by
  obtain ⟨g, rest, hg⟩ := exists_ofSourceLinked h supply
  exact ⟨g, rest, hg, (Reached.parsed hg).wellScoped⟩

/-- A handler that reads an import and a parameter of the function around it. -/
theorem wellScoped_handler :
    let text := "import m\ndef f(a):\n    try:\n        f(a)\n    except E as e:\n        a = [m, e, a]\n"
    ∃ stmts, Source.parse text = .ok stmts ∧
      ∃ g rest, ofSourceLinked ⟨0⟩ text = .ok (g, rest) ∧ g.WellScoped := by
  intro text
  have hread : (Source.parse text).map List.length = .ok 2 := by decide +kernel
  obtain ⟨stmts, h, -⟩ := exists_of_map_eq_ok hread
  exact ⟨stmts, h, wellScoped_ofSource h ⟨0⟩⟩

end Graph

end ScopedFlow
