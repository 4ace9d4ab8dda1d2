import Mathlib.Data.List.Nodup
import ScopedFlow.Proofs.Run
import ScopedFlow.Proofs.Supply

/-!
# Ids of a run

Every node that a run adds takes a serial number of its own, so its nodes have distinct ids and
distinct places are distinct worlds. What stands in for a node is made once and then kept.
-/

namespace ScopedFlow

@[simp] theorem Graph.nodes_addEdge (g : Graph) (e : Edge) : (g.addEdge e).nodes = g.nodes := by
  unfold Graph.addEdge
  split <;> rfl

namespace Graph

variable {n : Node}

theorem find_of_mem {ns : List Node} (h : (ns.map (·.id)).Nodup) (hn : n ∈ ns) :
    ns.find? (fun m => m.id = n.id) = some n := by
  induction ns with
  | nil => cases hn
  | cons m ns ih =>
    rw [List.map_cons, List.nodup_cons] at h
    rcases List.mem_cons.mp hn with rfl | hn
    · simp
    · have hne : m.id ≠ n.id := fun he => h.1 (List.mem_map.mpr ⟨n, hn, he.symm⟩)
      simp only [List.find?_cons, hne, decide_false]
      exact ih h.2 hn

theorem node?_of_mem {g : Graph} (h : g.ids.Nodup) (hn : n ∈ g.nodes) :
    g.node? n.id = some n := find_of_mem h hn

theorem lookup_of_mem {g : Graph} (h : g.ids.Nodup) (hn : n ∈ g.nodes) :
    g.lookup n.id = some n := by
  refine find_of_mem ?_ (List.mem_reverse.mpr hn)
  rw [List.map_reverse]
  exact List.nodup_reverse.mpr h

end Graph

namespace Builder

@[simp] theorem nodes_connect (b : Builder) (source : NodeId) (slot : Option Slot) :
    (b.connect source slot).graph.nodes = b.graph.nodes := by
  cases slot with
  | none => rfl
  | some slot => exact Graph.nodes_addEdge ..

@[simp] theorem supply_connect (b : Builder) (source : NodeId) (slot : Option Slot) :
    (b.connect source slot).supply = b.supply := by
  cases slot <;> rfl

@[simp] theorem symbols_connect (b : Builder) (source : NodeId) (slot : Option Slot) :
    (b.connect source slot).symbols = b.symbols := by
  cases slot <;> rfl

@[simp] theorem proxies_connect (b : Builder) (source : NodeId) (slot : Option Slot) :
    (b.connect source slot).proxies = b.proxies := by
  cases slot <;> rfl

/-- A node that stands in for the node of a binding, with the edge that says so. -/
def standIn (b : Builder) (name : String) (binding : Binding) (w : World) : Builder :=
  let proxy := b.fresh .variable
  let b := b.add (.variable (.closureRead binding.node binding.world)) name w
  let b := b.wire binding.node proxy .closureOf
  { b with proxies := b.proxies.insert (w, binding.node) proxy }

theorem read_cases (b : Builder) (name : String) (w : World) (slot : Slot) :
    (b.symbols.read name = none ∧ b.read name w slot = b) ∨
    ∃ binding, b.symbols.read name = some binding ∧
      ((binding.world = w ∧ b.read name w slot = b.connect binding.node slot) ∨
      (binding.world ≠ w ∧ ∃ proxy, b.proxies.get? (w, binding.node) = some proxy ∧
        b.read name w slot = b.connect proxy slot) ∨
      (binding.world ≠ w ∧ b.proxies.get? (w, binding.node) = none ∧
        b.read name w slot = (b.standIn name binding w).connect (b.fresh .variable) slot)) := by
  cases hb : b.symbols.read name with
  | none => exact .inl ⟨rfl, by simp only [read, hb]⟩
  | some binding =>
    refine .inr ⟨binding, rfl, ?_⟩
    by_cases hw : binding.world = w
    · exact .inl ⟨hw, by simp only [read, hb, if_pos hw]⟩
    · cases hp : b.proxies.get? (w, binding.node) with
      | some proxy => exact .inr (.inl ⟨hw, proxy, rfl, by simp only [read, hb, if_neg hw, hp]⟩)
      | none =>
        refine .inr (.inr ⟨hw, rfl, ?_⟩)
        simp only [read, hb, if_neg hw, hp]
        rfl

/-- The nodes have the serial numbers from `base` on, in their order. -/
structure Serial (base : Nat) (b : Builder) : Prop where
  next : b.supply.next = base + b.graph.nodes.length
  ids : ∀ i n, b.graph.nodes[i]? = some n → n.id = Supply.idOf n.kind (base + i)

namespace Serial

variable {base : Nat} {b : Builder}

theorem add (h : Serial base b) (payload : Payload) (label : String) (w : World) :
    Serial base (b.add payload label w) := by
  have hnext := h.next
  refine ⟨?_, ?_⟩
  · simp only [Builder.add, Graph.addNode, Supply.mint, List.length_append, List.length_singleton]
    omega
  · intro i n hn
    simp only [Builder.add, Graph.addNode] at hn
    rcases Nat.lt_or_ge i b.graph.nodes.length with hi | hi
    · rw [List.getElem?_append_left hi] at hn
      exact h.ids i n hn
    · rw [List.getElem?_append_right hi] at hn
      obtain ⟨hi', rfl⟩ := List.getElem?_eq_some_iff.mp hn
      have hlen : i = b.graph.nodes.length := by
        rw [List.length_singleton] at hi'
        omega
      simp only [List.getElem_singleton, fresh, Supply.mint, Node.kind, hnext, hlen]

theorem connect (h : Serial base b) (source : NodeId) (slot : Option Slot) :
    Serial base (b.connect source slot) := by
  refine ⟨?_, ?_⟩
  · rw [supply_connect, nodes_connect, h.next]
  · rw [nodes_connect]
    exact h.ids

theorem read (h : Serial base b) (name : String) (w : World) (slot : Slot) :
    Serial base (b.read name w slot) := by
  rcases b.read_cases name w slot with ⟨-, hr⟩ | ⟨binding, -, ⟨-, hr⟩ | ⟨-, proxy, -, hr⟩ | ⟨-, -, hr⟩⟩
  · rwa [hr]
  · rw [hr]
    exact h.connect _ _
  · rw [hr]
    exact h.connect _ _
  · rw [hr]
    have h1 := (h.add (.variable (.closureRead binding.node binding.world)) name w).connect
      binding.node (some ⟨b.fresh .variable, .closureOf⟩)
    have h2 : Serial base (b.standIn name binding w) := ⟨h1.next, h1.ids⟩
    exact h2.connect _ _

theorem nodup (h : Serial base b) : b.graph.ids.Nodup := by
  refine List.pairwise_iff_getElem.mpr fun i j hi hj hij he => ?_
  simp only [Graph.ids, List.length_map] at hi hj
  simp only [Graph.ids, List.getElem_map] at he
  have hi' := h.ids i _ (List.getElem?_eq_getElem hi)
  have hj' := h.ids j _ (List.getElem?_eq_getElem hj)
  rw [he, hj'] at hi'
  have := Supply.serial_eq_of_idOf_eq hi'
  omega

end Serial

end Builder

namespace Run
open Builder

variable {r : Run}

theorem serial_step {base : Nat} (h : Serial base r.builder) (s : Step) :
    Serial base (r.step s).builder := by
  cases s with
  | node sketch => exact h.add _ _ _
  | wire source port => exact h.connect (r.nodeId source) (some (r.slot port))
  | read name w outer port => exact h.read _ _ _
  | bind name body node home => exact ⟨h.next, h.ids⟩
  | enter body => exact ⟨h.next, h.ids⟩
  | leave => exact ⟨h.next, h.ids⟩

theorem serial_all {base : Nat} (h : Serial base r.builder) (ss : List Step) :
    Serial base (r.all ss).builder := by
  induction ss generalizing r with
  | nil => exact h
  | cons s ss ih => exact ih (serial_step h s)

theorem serial_start (supply : Supply) : Serial supply.next (Run.start supply).builder :=
  ⟨rfl, fun i n hn => by simp [Run.start, Builder.start, Graph.empty] at hn⟩

theorem ids_nodup (supply : Supply) (ss : List Step) :
    ((Run.start supply).all ss).builder.graph.ids.Nodup :=
  (serial_all (serial_start supply) ss).nodup

theorem ids_read (b : Builder) (name : String) (w : World) (slot : Slot) :
    b.graph.ids.Sublist (b.read name w slot).graph.ids := by
  rcases b.read_cases name w slot with ⟨-, hr⟩ | ⟨binding, -, ⟨-, hr⟩ | ⟨-, proxy, -, hr⟩ | ⟨-, -, hr⟩⟩
  · rw [hr]
  · rw [hr, Graph.ids, Graph.ids, nodes_connect]
  · rw [hr, Graph.ids, Graph.ids, nodes_connect]
  · rw [hr, Graph.ids, Graph.ids, nodes_connect]
    simp [standIn, Builder.wire, Builder.add, Graph.addNode]

theorem made_sublist (h : r.made.Sublist r.builder.graph.ids) (ss : List Step) :
    (r.all ss).made.Sublist (r.all ss).builder.graph.ids := by
  induction ss generalizing r with
  | nil => exact h
  | cons s ss ih =>
    apply ih
    cases s with
    | node sketch =>
      simp only [step, Builder.add, Graph.addNode, Graph.ids, List.map_append, List.map_cons,
        List.map_nil]
      exact h.append (List.Sublist.refl _)
    | wire source port => simpa only [step, Graph.ids, nodes_connect] using h
    | read name w outer port => exact h.trans (ids_read ..)
    | bind name body node home => exact h
    | enter body => exact h
    | leave => exact h

theorem made_nodup (supply : Supply) (ss : List Step) : ((Run.start supply).all ss).made.Nodup :=
  (ids_nodup supply ss).sublist (made_sublist (List.Sublist.refl _) ss)

theorem nodeId_inj (h : r.made.Nodup) {i j : Nat} (hi : i < r.made.length) (hj : j < r.made.length)
    (he : r.nodeId i = r.nodeId j) : i = j := by
  simp only [nodeId, List.getElem?_eq_getElem hi, List.getElem?_eq_getElem hj,
    Option.getD_some] at he
  exact (h.getElem_inj_iff).mp he

theorem world_inj (h : r.made.Nodup) {p q : Place} (hp : p.Below r.made.length)
    (hq : q.Below r.made.length) (he : r.world p = r.world q) : p = q := by
  cases p <;> cases q <;> simp only [world, Place.world, reduceCtorEq, World.body.injEq] at he
  case body.body i j => exact congrArg Place.body (nodeId_inj h hp hq he)
  all_goals rfl

/-- A later run knows the numbered nodes of an earlier one, and what stands in for them. -/
structure Extends (r q : Run) : Prop where
  continues : Continues r q
  proxies : ∀ key proxy, r.builder.proxies.get? key = some proxy →
    q.builder.proxies.get? key = some proxy

theorem Extends.refl (r : Run) : Extends r r := ⟨.refl r, fun _ _ h => h⟩

theorem Extends.trans {q p : Run} (h : Extends r q) (h' : Extends q p) : Extends r p :=
  ⟨h.continues.trans h'.continues, fun key proxy hk => h'.proxies key proxy (h.proxies key proxy hk)⟩

theorem extends_step (r : Run) (s : Step) : Extends r (r.step s) := by
  refine ⟨continues_step r s, fun key proxy hk => ?_⟩
  cases s with
  | node sketch => exact hk
  | wire source port => rwa [step, proxies_connect]
  | read name w outer port =>
    simp only [step]
    rcases r.builder.read_cases name (r.world w) (r.slot port) with
      ⟨-, hr⟩ | ⟨binding, -, ⟨-, hr⟩ | ⟨-, other, -, hr⟩ | ⟨-, hn, hr⟩⟩
    · rwa [hr]
    · rwa [hr, proxies_connect]
    · rwa [hr, proxies_connect]
    · rw [hr, proxies_connect]
      have hne : (r.world w, binding.node) ≠ key := by
        rintro rfl
        rw [hn] at hk
        cases hk
      simpa only [standIn, Builder.wire, Builder.add, Table.get?_insert_of_ne _ hne] using hk
  | bind name body node home => exact hk
  | enter body => exact hk
  | leave => exact hk

theorem extends_all (r : Run) (ss : List Step) : Extends r (r.all ss) := by
  induction ss generalizing r with
  | nil => exact .refl r
  | cons s ss ih => exact (extends_step r s).trans (ih (r.step s))

end Run

end ScopedFlow
