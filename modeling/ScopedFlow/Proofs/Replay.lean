import ScopedFlow.Inject
import ScopedFlow.Proofs.Callee

/-!
# The names in scope at the end of a world of a graph

They are entered again from the nodes of the world and of the worlds around it: a name stands for
the node that was entered for it last, in the innermost world that has one.
-/

namespace ScopedFlow

variable {v : World}

/-- A name with the node that it is entered for. -/
structure Entry where
  name : String
  node : NodeId
  world : World

namespace Symbols

def writeAll (s : Symbols) (es : List Entry) : Symbols :=
  es.foldl (fun s e => s.write e.name e.node e.world) s

/-- The table of a scope that had nothing else written. -/
def tableOf (es : List Entry) : Table String Binding := (Symbols.empty.writeAll es).innermost

theorem writeAll_eq (s : Symbols) (es : List Entry) :
    s.writeAll es = ⟨(writeAll ⟨s.innermost, []⟩ es).innermost, s.outer⟩ := by
  induction es generalizing s with
  | nil => rfl
  | cons e es ih => exact ih (s.write e.name e.node e.world)

/-- How often a name was written in the innermost scope. -/
def version (s : Symbols) (name : String) : Nat :=
  ((s.innermost.get? name).map (·.version)).getD 0

theorem nextVersion_eq (s : Symbols) (name : String) : s.nextVersion name = s.version name + 1 := by
  unfold nextVersion version
  cases s.innermost.get? name <;> rfl

theorem version_write (s : Symbols) (name : String) (node : NodeId) (v : World) (other : String) :
    (s.write name node v).version other =
      s.version other + if name = other then 1 else 0 := by
  by_cases h : name = other
  · subst h
    rw [if_pos rfl, ← nextVersion_eq]
    simp [version, write]
  · simp [version, write, Table.get?_insert_of_ne _ h, h]

@[simp] theorem version_empty (name : String) : Symbols.empty.version name = 0 := rfl

def entriesOf (es : List Entry) (name : String) : List Entry := es.filter fun e => e.name = name

theorem entriesOf_append (es fs : List Entry) (name : String) :
    entriesOf (es ++ fs) name = entriesOf es name ++ entriesOf fs name :=
  List.filter_append ..

theorem get?_tableOf (es : List Entry) (name : String) : (tableOf es).get? name =
    (entriesOf es name).getLast?.map fun e => ⟨e.node, (entriesOf es name).length, e.world⟩ := by
  induction es using List.reverseRecOn with
  | nil => rfl
  | append_singleton es e ih =>
    have hsnoc : tableOf (es ++ [e]) = (tableOf es).insert e.name
        ⟨e.node, (Symbols.empty.writeAll es).nextVersion e.name, e.world⟩ := by
      simp only [tableOf, writeAll, List.foldl_append, List.foldl_cons, List.foldl_nil, write]
    rw [hsnoc]
    by_cases h : e.name = name
    · subst h
      have hversion : (Symbols.empty.writeAll es).version e.name = (entriesOf es e.name).length := by
        change (((tableOf es).get? e.name).map (·.version)).getD 0 = _
        rw [ih]
        cases hl : (entriesOf es e.name).getLast? with
        | none => simp [List.getLast?_eq_none_iff.mp hl]
        | some l => rfl
      simp [entriesOf, List.filter_append, nextVersion_eq, hversion]
    · rw [Table.get?_insert_of_ne _ h, ih]
      simp [entriesOf, List.filter_append, h]

theorem read_writeAll (outer : List (Table String Binding)) (es : List Entry) (name : String) :
    (writeAll ⟨.empty, outer⟩ es).read name =
      ((tableOf es).get? name).or (outer.findSome? fun scope => scope.get? name) := by
  have htable : writeAll ⟨.empty, outer⟩ es = ⟨tableOf es, outer⟩ := writeAll_eq ..
  rw [htable, read, List.findSome?_cons]
  cases (tableOf es).get? name <;> rfl

def All (P : String → NodeId → World → Prop) (s : Symbols) : Prop :=
  ∀ t ∈ s.innermost :: s.outer, ∀ name b, t.get? name = some b → P name b.node b.world

namespace All

variable {P Q : String → NodeId → World → Prop} {s : Symbols}

theorem empty : All P .empty := by
  intro t ht name b hb
  obtain rfl := List.mem_singleton.mp ht
  cases hb

theorem mono (h : All P s) (hPQ : ∀ name node v, P name node v → Q name node v) : All Q s :=
  fun t ht name b hb => hPQ _ _ _ (h t ht name b hb)

theorem write (h : All P s) {name : String} {node : NodeId} (hp : P name node v) :
    All P (s.write name node v) := by
  intro t ht other b hb
  rcases List.mem_cons.mp ht with rfl | ht
  · by_cases hn : name = other
    · subst hn
      simp only [Symbols.write, Table.get?_insert_self, Option.some.injEq] at hb
      subst hb
      exact hp
    · simp only [Symbols.write, Table.get?_insert_of_ne _ hn] at hb
      exact h _ List.mem_cons_self other b hb
  · exact h t (List.mem_cons_of_mem _ ht) other b hb

theorem enter (h : All P s) : All P s.enter := by
  intro t ht name b hb
  rcases List.mem_cons.mp ht with rfl | ht
  · cases hb
  · exact h t ht name b hb

theorem leave (h : All P s) : All P s.leave := by
  obtain ⟨innermost, outer⟩ := s
  cases outer with
  | nil => exact h
  | cons scope rest =>
    intro t ht name b hb
    exact h t (List.mem_cons_of_mem _ ht) name b hb

theorem writeAll (h : All P s) {es : List Entry} (hes : ∀ e ∈ es, P e.name e.node e.world) :
    All P (s.writeAll es) := by
  induction es generalizing s with
  | nil => exact h
  | cons e es ih =>
    exact ih (h.write (hes e List.mem_cons_self)) fun x hx => hes x (List.mem_cons_of_mem _ hx)

theorem read (h : All P s) {name : String} {b : Binding} (hb : s.read name = some b) :
    P name b.node b.world := by
  obtain ⟨t, ht, hget⟩ := List.exists_of_findSome?_eq_some hb
  exact h t ht name b hget

end All

end Symbols

namespace Node

/-- What a node enters into a scope that is kept for the world `v`. -/
def entries (v : World) (n : Node) : List Entry :=
  match n.payload with
  | .importStmt names => names.map fun name => ⟨name, n.id, .imports⟩
  | .variable _ | .functionDef _ | .classDef _ => [⟨n.label, n.id, v⟩]
  | _ => []

/-- Whether a node counts for a world; the imports count for the module. -/
def countsFor (v : World) (n : Node) : Bool := n.world = v || (v.isRoot && n.world = .imports)

theorem binds_of_entry {n : Node} {e : Entry} (h : e ∈ n.entries v) :
    e.node = n.id ∧ n.Binds e.name ∧ (e.world = v ∧ n.kind ≠ .importStmt ∨
      e.world = .imports ∧ n.kind = .importStmt) := by
  obtain ⟨id, label, world, payload⟩ := n
  cases payload with
  | importStmt names =>
    obtain ⟨name, hname, rfl⟩ := List.mem_map.mp h
    exact ⟨rfl, hname, .inr ⟨rfl, rfl⟩⟩
  | «variable» _ | functionDef _ | classDef _ =>
    obtain rfl := List.mem_singleton.mp h
    exact ⟨rfl, rfl, .inl ⟨rfl, nofun⟩⟩
  | _ => cases h

end Node

/-- The entries of the nodes of a world, in their order. -/
def scopeOf (ns : List Node) (v : World) : List Entry :=
  (ns.filter (Node.countsFor v)).flatMap (Node.entries v)

theorem scopeOf_append (ns ms : List Node) (v : World) :
    scopeOf (ns ++ ms) v = scopeOf ns v ++ scopeOf ms v := by
  rw [scopeOf, List.filter_append, List.flatMap_append]
  rfl

theorem mem_scopeOf {ns : List Node} {e : Entry} (h : e ∈ scopeOf ns v) :
    ∃ n ∈ ns, n.countsFor v = true ∧ e ∈ n.entries v := by
  obtain ⟨n, hn, he⟩ := List.mem_flatMap.mp h
  obtain ⟨hn, hc⟩ := List.mem_filter.mp hn
  exact ⟨n, hn, hc, he⟩

namespace Symbols

theorem replayNode_eq (v : World) (s : Symbols) (n : Node) :
    replayNode v s n = s.writeAll (n.entries v) := by
  obtain ⟨id, label, world, payload⟩ := n
  cases payload with
  | importStmt names => simp only [replayNode, writeAll, Node.entries, List.foldl_map]
  | _ => rfl

theorem replayWorld_eq (g : Graph) (s : Symbols) (v : World) :
    replayWorld g s v = (if v.isRoot then s else s.enter).writeAll (scopeOf g.nodes v) := by
  have hfold : ∀ (ns : List Node) (s : Symbols),
      ns.foldl (replayNode v) s = s.writeAll (ns.flatMap (Node.entries v)) := by
    intro ns
    induction ns with
    | nil => exact fun s => rfl
    | cons n ns ih =>
      intro s
      rw [List.foldl_cons, ih, replayNode_eq, List.flatMap_cons, writeAll, writeAll, writeAll,
        List.foldl_append]
  exact hfold _ _

end Symbols

theorem WorldTree.above_cases (t : WorldTree) (seen : List World) (v : World) :
    t.above seen v = [] ∨
      ∃ p, t.parent? v = some p ∧ t.above seen v = p :: t.above (p :: seen) p := by
  rw [WorldTree.above_eq]
  cases hp : t.parent? v with
  | none => exact .inl rfl
  | some p =>
    by_cases hs : p ∈ seen
    · exact .inl (if_pos hs)
    · exact .inr ⟨p, rfl, if_neg hs⟩

namespace Symbols

theorem innermost_ofWorld (g : Graph) (w : World) :
    (ofWorld g w).innermost = tableOf (scopeOf g.nodes w) := by
  rw [ofWorld, WorldTree.path, WorldTree.chain, List.reverse_cons, List.foldl_append, List.foldl_cons,
    List.foldl_nil, replayWorld_eq, writeAll_eq]
  cases w with
  | root =>
    rcases (WorldTree.ofGraph g).above_cases [.root] .root with habove | ⟨p, hp, -⟩
    · rw [habove]
      rfl
    · cases (WorldTree.parent?_root g).symm.trans hp
  | imports => rfl
  | body owner => rfl

theorem read_replayWorld (g : Graph) (v : World) (name : String) :
    (replayWorld g .empty v).read name = (tableOf (scopeOf g.nodes v)).get? name := by
  rw [replayWorld_eq]
  split
  · exact (read_writeAll ..).trans Option.or_none
  · exact (read_writeAll ..).trans Option.or_none

/-- A read finds the last entry of the name in the innermost world that has one. -/
theorem read_ofWorld (g : Graph) (w : World) (name : String) :
    (ofWorld g w).read name =
      ((WorldTree.ofGraph g).chain w).findSome? fun v => (tableOf (scopeOf g.nodes v)).get? name := by
  let t := WorldTree.ofGraph g
  have habove : ∀ vs seen v, t.above seen v = vs →
      ((v :: vs).reverse.foldl (replayWorld g) .empty).read name =
        (v :: vs).findSome? fun v => (tableOf (scopeOf g.nodes v)).get? name := by
    intro vs
    induction vs with
    | nil =>
      intro seen v _
      simpa using read_replayWorld g v name
    | cons p vs ih =>
      intro seen v hv
      rcases t.above_cases seen v with hnone | ⟨p', hp, hnext⟩
      · cases hnone.symm.trans hv
      obtain ⟨rfl, rfl⟩ := List.cons.inj (hnext.symm.trans hv)
      have hroot : v.isRoot = false := by
        cases v with
        | root => cases (WorldTree.parent?_root g).symm.trans hp
        | imports => rfl
        | body owner => rfl
      rw [List.reverse_cons, List.foldl_append, List.foldl_cons, List.foldl_nil, replayWorld_eq, hroot,
        List.findSome?_cons, ← ih (p' :: seen) p' rfl]
      exact (read_writeAll ..).trans (by cases (tableOf _).get? name <;> rfl)
  exact habove _ [w] w rfl

theorem all_ofWorld {P : String → NodeId → World → Prop} {g : Graph}
    (h : ∀ v, ∀ e ∈ scopeOf g.nodes v, P e.name e.node e.world) (w : World) :
    All P (ofWorld g w) := by
  have hfold : ∀ (vs : List World) {s : Symbols}, All P s → All P (vs.foldl (replayWorld g) s) := by
    intro vs
    induction vs with
    | nil => exact fun hs => hs
    | cons v vs ih =>
      intro s hs
      refine ih ?_
      rw [replayWorld_eq]
      split
      · exact hs.writeAll (h v)
      · exact hs.enter.writeAll (h v)
  exact hfold _ .empty

end Symbols

end ScopedFlow
