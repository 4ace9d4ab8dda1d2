import ScopedFlow.Proofs.Picture

/-!
# The definition that a call goes to

By the text alone it is found in the innermost world around the call that defines the name anywhere
in its body, and is the last definition there. The linker finds it with a table of definitions and
the tree of worlds.
-/

namespace ScopedFlow

variable {path : List Place}

theorem Definitions.local?_ofGraph (g : Graph) (w : World) (name : String) :
    (Definitions.ofGraph g).local? w name = (((g.nodes.filter fun n => n.kind.isDefinition &&
      decide (n.world = w ∧ n.label = name)).map (·.id)).getLast?) := by
  unfold Definitions.ofGraph
  induction g.nodes using List.reverseRecOn with
  | nil => rfl
  | append_singleton ns n ih =>
    rw [List.foldl_append, List.foldl_cons, List.foldl_nil, List.filter_append, List.map_append]
    cases hd : n.kind.isDefinition with
    | false => simpa [hd] using ih
    | true =>
      simp only [if_true, Definitions.define, Definitions.local?] at ih ⊢
      by_cases hk : n.world = w ∧ n.label = name
      · simp [hd, hk]
      · have hne : (n.world, n.label) ≠ (w, name) := fun he =>
          hk ⟨congrArg Prod.fst he, congrArg Prod.snd he⟩
        rw [Table.get?_insert_of_ne _ hne, ih]
        simp [hd, hk]

namespace WorldTree

/-- The owners of a world give its parent, the last of them if there are several. -/
theorem parent?_ofGraph (g : Graph) (w : World) : (ofGraph g).parent? w =
    ((g.nodes.filter fun n => n.ownWorld? = some w).map (·.world)).getLast? := by
  unfold ofGraph
  induction g.nodes using List.reverseRecOn with
  | nil => rfl
  | append_singleton ns n ih =>
    rw [List.foldl_append, List.foldl_cons, List.foldl_nil, List.filter_append, List.map_append]
    cases ho : n.ownWorld? with
    | none => simpa [ho] using ih
    | some v =>
      simp only [WorldTree.add, WorldTree.parent?] at ih ⊢
      by_cases hv : v = w
      · simp [ho, hv]
      · rw [Table.get?_insert_of_ne _ hv, ih]
        simp [ho, hv]

theorem parent?_root (g : Graph) : (ofGraph g).parent? .root = none := by
  have hnone : g.nodes.filter (fun n => n.ownWorld? = some .root) = [] := by
    refine List.filter_eq_nil_iff.mpr fun n hn => ?_
    simp only [Node.ownWorld?]
    split <;> simp
  rw [parent?_ofGraph, hnone]
  rfl

theorem parent?_body {g : Graph} (hg : g.ids.Nodup) {n : Node} (hn : n ∈ g.nodes)
    (ho : n.kind.ownsWorld = true) : (ofGraph g).parent? (.body n.id) = some n.world := by
  have hown : n.ownWorld? = some (.body n.id) := if_pos ho
  have hlast : ((g.nodes.filter fun m => m.ownWorld? = some (.body n.id)).map (·.world)) ≠ [] := by
    simp only [ne_eq, List.map_eq_nil_iff]
    exact List.ne_nil_of_mem (List.mem_filter.mpr ⟨hn, by simpa using hown⟩)
  rw [parent?_ofGraph, List.getLast?_eq_some_getLast hlast, Option.some_inj]
  obtain ⟨m, hm, hw⟩ := List.mem_map.mp (List.getLast_mem hlast)
  obtain ⟨hm, ho'⟩ := List.mem_filter.mp hm
  have hid : m.id = n.id := by
    simp only [Node.ownWorld?] at ho'
    split at ho'
    · simpa using ho'
    · cases ho'
  rw [← hw, List.inj_on_of_nodup_map hg hm hn hid]

end WorldTree

def Sketch.isDefinition (sketch : Sketch) : Bool := (sketch.content.payload 0).kind.isDefinition

theorem Sketch.content_of_isDefinition {sketch : Sketch} (h : sketch.isDefinition = true) :
    (∃ params, sketch.content = .plain (.functionDef params)) ∨
      ∃ bases, sketch.content = .plain (.classDef bases) := by
  obtain ⟨home, label, content⟩ := sketch
  cases content with
  | plain payload =>
    cases payload with
    | functionDef params => exact .inl ⟨params, rfl⟩
    | classDef bases => exact .inr ⟨bases, rfl⟩
    | _ => cases h
  | _ => cases h

namespace Steps

/-- Each world of a path is the body of a node of the next one, and the last is the module. -/
inductive Ladder (all : List Step) : List Place → Prop where
  | root : Ladder all [.root]
  | body {k : Nat} {sketch : Sketch} {rest : List Place}
    (hk : (sketches all)[k]? = some sketch) (owns : sketch.Owns)
    (h : Ladder all (sketch.home :: rest)) : Ladder all (.body k :: sketch.home :: rest)

theorem Ladder.append {ss : List Step} (h : Ladder ss path) (ts : List Step) :
    Ladder (ss ++ ts) path := by
  induction h with
  | root => exact .root
  | body hk owns _ ih => exact .body (sketch_append hk ts) owns ih

theorem WellFormed.ladder {ss : List Step} (h : WellFormed ss) : Ladder ss (openPath ss) := by
  induction h with
  | nil => exact .root
  | @snoc ss s _ ha ih =>
    have ih' := ih.append [s]
    rw [openPath_snoc]
    cases ha with
    | enter path hk home owns once =>
      subst home
      rw [path] at ih' ⊢
      exact .body (sketch_append hk _) owns ih'
    | leave path =>
      rw [path] at ih' ⊢
      cases ih' with
      | body hk owns hrest => exact hrest
    | _ => exact ih'

namespace Ladder

variable {all : List Step}

theorem below_of_head (hw : WellFormed all) (h : Ladder all path) {m : Nat}
    (hm : ∀ p ∈ path.head?, p.Below m) : ∀ p ∈ path, p.Below m := by
  induction h generalizing m with
  | root => exact List.forall_mem_singleton.mpr trivial
  | @body k sketch rest hk _ _ ih =>
    have hkm : k < m := hm _ rfl
    have hrest := @ih k fun p hp => Option.some.inj hp ▸ hw.home_below hk
    exact List.forall_mem_cons.mpr ⟨hkm, fun p hp => (hrest p hp).mono (Nat.le_of_lt hkm)⟩

theorem nodup (hw : WellFormed all) (h : Ladder all path) : path.Nodup := by
  induction h with
  | root => exact List.nodup_singleton _
  | @body k sketch rest hk _ h ih =>
    refine List.nodup_cons.mpr ⟨fun hmem => ?_, ih⟩
    have hlt : k < k := h.below_of_head hw (fun p hp => Option.some.inj hp ▸ hw.home_below hk) _ hmem
    exact Nat.lt_irrefl k hlt

theorem head_below (h : Ladder all path) : ∀ p ∈ path.head?, p.Below (count all) := by
  intro p hp
  cases h with
  | root => exact Option.some.inj hp ▸ trivial
  | body hk => exact Option.some.inj hp ▸ (List.getElem?_eq_some_iff.mp hk).1

theorem getLast?_eq (h : Ladder all path) : path.getLast? = some .root := by
  induction h with
  | root => rfl
  | body _ _ _ ih => rw [List.getLast?_cons_cons, ih]

end Ladder

/-- The definitions of a name that a body makes, in the order of the text. -/
def definitions (all : List Step) (body : Place) (name : String) : List Nat :=
  ((sketches all).zipIdx.filter fun s => s.1.isDefinition &&
    decide (s.1.home = body ∧ s.1.label = name)).map (·.2)

theorem definitions_node (ss : List Step) (sketch : Sketch) (body : Place) (name : String) :
    definitions (ss ++ [.node sketch]) body name = definitions ss body name ++
      if sketch.isDefinition && decide (sketch.home = body ∧ sketch.label = name) then [count ss]
      else [] := by
  simp only [definitions, sketches_append, sketches_cons, sketch?, Option.toList_some, sketches_nil,
    List.append_nil, List.zipIdx_append, List.zipIdx_singleton, List.filter_append, List.map_append]
  rw [List.filter_singleton]
  cases sketch.isDefinition && decide (sketch.home = body ∧ sketch.label = name) <;> simp [count]

theorem definitions_skip (ss : List Step) {s : Step} (hs : sketch? s = none) (body : Place)
    (name : String) : definitions (ss ++ [s]) body name = definitions ss body name := by
  simp only [definitions, sketches_append, sketches_cons, hs, Option.toList_none, sketches_nil,
    List.append_nil]

theorem findSome?_congr {α β : Type} {f f' : α → Option β} {xs : List α}
    (h : ∀ x ∈ xs, f x = f' x) : xs.findSome? f = xs.findSome? f' := by
  induction xs with
  | nil => rfl
  | cons x xs ih =>
    rw [List.findSome?_cons, List.findSome?_cons, h x List.mem_cons_self,
      ih fun y hy => h y (List.mem_cons_of_mem _ hy)]

/-- The definition that a call in the innermost world of a path goes to. -/
def callee? (all : List Step) (path : List Place) (name : String) : Option Nat :=
  path.findSome? fun body => (definitions all body name).getLast?

theorem sketch_of_callee {all : List Step} {name : String} {d : Nat}
    (h : callee? all path name = some d) :
    ∃ sketch, (sketches all)[d]? = some sketch ∧ sketch.isDefinition = true := by
  obtain ⟨body, -, hd⟩ := List.exists_of_findSome?_eq_some h
  obtain ⟨⟨sketch, i⟩, hs, rfl⟩ := List.mem_map.mp (List.mem_of_getLast? hd)
  obtain ⟨hs, hdef⟩ := List.mem_filter.mp hs
  exact ⟨sketch, List.mk_mem_zipIdx_iff_getElem?.mp hs, (Bool.and_eq_true_iff.mp hdef).1⟩

def formals (all : List Step) (d : Nat) : List Param :=
  match (sketches all)[d]?.map Sketch.content with
  | some (.plain (.functionDef params)) => params
  | _ => []

/-- The parameters that the arguments of a call are bound to: those of the definition that it goes
to, or else those that the arguments suggest. -/
def boundParams (all : List Step) (path : List Place) (isMethod : Bool) (name : String)
    (suggested : List Param) : List Param :=
  match if isMethod then none else callee? all path name with
  | some d => formals all d
  | none => suggested

end Steps

namespace Run
open Steps

theorem label_draw (q : Run) (item : Item) : (q.draw item).label = item.label := by
  cases item <;> rfl

theorem kind_draw (q : Run) (k : Nat) (sketch : Sketch) (version : Nat) :
    (q.draw (.made k sketch version)).kind = (sketch.content.payload 0).kind := by
  obtain ⟨home, label, content⟩ := sketch
  cases content <;> rfl

namespace Draws

variable {q : Run} {all : List Step} {w : Place} {outer : List Place} {before after : List Step}

theorem above_eq (h : Draws q all) (hl : Ladder all (w :: outer)) (hn : (w :: outer).Nodup)
    (hb : ∀ p ∈ w :: outer, p.Below (count all)) {seen : List World}
    (hs : ∀ p ∈ outer, q.world p ∉ seen) :
    (WorldTree.ofGraph q.builder.graph).above seen (q.world w) = outer.map q.world := by
  generalize hpath : w :: outer = path at hl
  induction hl generalizing w outer seen with
  | root =>
    obtain ⟨rfl, rfl⟩ := List.cons.inj hpath
    have hroot : (WorldTree.ofGraph q.builder.graph).parent? (q.world .root) = none :=
      WorldTree.parent?_root _
    rw [WorldTree.above_eq, hroot]
    rfl
  | @body k sketch rest hk owns _ ih =>
    obtain ⟨rfl, rfl⟩ := List.cons.inj hpath
    obtain ⟨version, hm⟩ := h.reflects.node_of_sketch hk
    have hparent : (WorldTree.ofGraph q.builder.graph).parent? (q.world (.body k)) =
        some (q.world sketch.home) :=
      WorldTree.parent?_body h.ids hm ((kind_draw q k sketch version).symm ▸ owns)
    have hseen : q.world sketch.home ∉ seen := hs _ List.mem_cons_self
    have hrest : (WorldTree.ofGraph q.builder.graph).above (q.world sketch.home :: seen)
        (q.world sketch.home) = rest.map q.world := by
      refine ih (List.nodup_cons.mp hn).2 (fun p hp => hb p (List.mem_cons_of_mem _ hp))
        (fun p hp he => ?_) rfl
      rcases List.mem_cons.mp he with he | he
      · have heq := h.reflects.world_inj (hb p (by simp [hp])) (hb sketch.home (by simp)) he
        exact (List.nodup_cons.mp (List.nodup_cons.mp hn).2).1 (heq ▸ hp)
      · exact hs p (List.mem_cons_of_mem _ hp) he
    rw [WorldTree.above_eq, hparent, Option.elim_some, if_neg hseen, hrest]
    rfl

theorem chain_of_ladder (h : Draws q all) (hl : Ladder all (w :: outer)) :
    (WorldTree.ofGraph q.builder.graph).chain (q.world w) = (w :: outer).map q.world := by
  have hn := hl.nodup h.wellFormed
  have hb := hl.below_of_head h.wellFormed hl.head_below
  rw [WorldTree.chain, h.above_eq hl hn hb]
  · rfl
  · intro p hp he
    have heq := h.reflects.world_inj (hb p (List.mem_cons_of_mem _ hp)) (hb w (by simp))
      (List.mem_singleton.mp he)
    exact (List.nodup_cons.mp hn).1 (heq ▸ hp)

theorem chain_eq (h : Draws q all) (hall : all = before ++ after)
    (path : openPath before = w :: outer) :
    (WorldTree.ofGraph q.builder.graph).chain (q.world w) = (w :: outer).map q.world := by
  have hwf : WellFormed before := (hall ▸ h.wellFormed).of_append
  exact h.chain_of_ladder (hall ▸ path ▸ hwf.ladder.append after)

theorem definitions_eq (h : Draws q all) {body : Place} (hb : body.Below (count all))
    (name : String) :
    ((q.builder.graph.nodes.filter fun n => n.kind.isDefinition &&
      decide (n.world = q.world body ∧ n.label = name)).map (·.id)) =
      (definitions all body name).map q.nodeId := by
  have hworld : ∀ item ∈ items all, (q.world item.home = q.world body ↔ item.home = body) :=
    fun item hi => ⟨h.reflects.world_inj (h.below_home hi) hb, fun he => he ▸ rfl⟩
  rw [h.reflects.nodes]
  clear hb h
  induction all using List.reverseRecOn with
  | nil => rfl
  | append_singleton ss s ih =>
    rw [items_snoc] at hworld ⊢
    have hss := ih fun item hi => hworld item (List.mem_append_left _ hi)
    rw [List.map_append, List.filter_append, List.map_append, hss]
    have hskip (hi : ∀ item ∈ asks ss s, ∃ p, item = .proxy p) :
        (((asks ss s).map q.draw).filter fun n => n.kind.isDefinition &&
          decide (n.world = q.world body ∧ n.label = name)) = [] := by
      refine List.filter_eq_nil_iff.mpr fun n hn => ?_
      obtain ⟨item, hitem, rfl⟩ := List.mem_map.mp hn
      obtain ⟨p, rfl⟩ := hi item hitem
      simp [draw, Node.kind, Payload.kind, NodeKind.isDefinition]
    cases s with
    | node sketch =>
      have hhome := hworld _ (List.mem_append_right _ List.mem_cons_self)
      rw [definitions_node, List.map_append]
      refine congrArg _ ?_
      simp only [asks, List.map_cons, List.map_nil, List.filter_singleton, kind_draw, world_draw,
        label_draw, hhome]
      change List.map _ (bif sketch.isDefinition && decide (sketch.home = body ∧ sketch.label = name)
        then _ else _) = _
      cases sketch.isDefinition && decide (sketch.home = body ∧ sketch.label = name) <;> rfl
    | read name' w outer port =>
      rw [hskip fun item hi => ?_, definitions_skip ss rfl, List.map_nil, List.append_nil]
      obtain ⟨p, -, rfl⟩ := List.mem_map.mp hi
      exact ⟨p, rfl⟩
    | _ =>
      rw [definitions_skip ss rfl]
      exact List.append_nil _

theorem lookup_callee (h : Draws q all) (hall : all = before ++ after)
    (path : openPath before = w :: outer) (name : String) :
    (Definitions.ofGraph q.builder.graph).lookup (WorldTree.ofGraph q.builder.graph) (q.world w)
      name = (callee? all (w :: outer) name).map q.nodeId := by
  have hwf : WellFormed before := (hall ▸ h.wellFormed).of_append
  rw [Definitions.lookup, h.chain_eq hall path, List.findSome?_map, callee?, List.map_findSome?]
  refine findSome?_congr fun p hp => ?_
  have hb : p.Below (count all) := (hwf.below_path (path ▸ hp)).mono (by simp [hall])
  simp only [Function.comp, Definitions.local?_ofGraph, h.definitions_eq hb, List.getLast?_map]

theorem params_callee (h : Draws q all) {name : String} {d : Nat}
    (hd : callee? all path name = some d) (isMethod : Bool) :
    q.linked.callParams ⟨isMethod, some (.body (q.nodeId d)),
      ((q.builder.graph.node? (q.nodeId d)).map Node.params).getD [], .empty⟩ = formals all d := by
  obtain ⟨sketch, hs, hdef⟩ := sketch_of_callee hd
  obtain ⟨version, hi⟩ := Reflects.made_mem_items hs
  have hnode : q.builder.graph.node? (q.nodeId d) = some (q.draw (.made d sketch version)) :=
    Graph.node?_of_mem h.ids (h.reflects.mem_nodes hi)
  have hlookup : q.linked.lookup (q.nodeId d) = some (q.finished (.made d sketch version)) :=
    h.lookup hi
  obtain ⟨home, label, content⟩ := sketch
  rcases Sketch.content_of_isDefinition hdef with ⟨params, hc⟩ | ⟨bases, hc⟩
  · obtain rfl : content = .plain (.functionDef params) := hc
    rw [finished, Graph.settled_of_site rfl] at hlookup
    simp only [Graph.callParams, Option.bind_some, World.owner?, hlookup, formals, hs]
    rfl
  · obtain rfl : content = .plain (.classDef bases) := hc
    rw [finished, Graph.settled_of_site rfl] at hlookup
    simp only [Graph.callParams, Option.bind_some, World.owner?, hlookup, hnode, formals, hs]
    rfl

theorem finished_call (h : Draws q all) {label : String} {isMethod : Bool} {args : List Arg}
    (path : openPath before = w :: outer)
    (hall : all = before ++ .node ⟨w, label, .call isMethod args⟩ :: after) (version : Nat) :
    ∃ site, q.finished (.made (count before) ⟨w, label, .call isMethod args⟩ version) =
        ⟨q.nodeId (count before), label, q.world w, .call site⟩ ∧
      site.isMethod = isMethod ∧ site.overrides = .empty ∧
      q.linked.callParams site = boundParams all (w :: outer) isMethod label
        (q.builder.graph.suggestedParams (q.nodeId (count before))) := by
  have hlookup := h.lookup_callee hall path label
  cases isMethod with
  | true => exact ⟨_, Graph.hydratedBy_fresh .., rfl, rfl, rfl⟩
  | false =>
    cases hc : callee? all (w :: outer) label with
    | none =>
      refine ⟨⟨false, none, q.builder.graph.suggestedParams (q.nodeId (count before)), .empty⟩, ?_,
        rfl, rfl, ?_⟩
      · simp only [finished, draw, Content.payload, Graph.settled, Graph.linkOf, Node.site?,
          CallSite.function, hlookup, hc, Option.map_none, Bool.false_eq_true, if_false]
        exact Graph.hydratedBy_fresh ..
      · simp only [boundParams, Bool.false_eq_true, if_false, hc]
        rfl
    | some d =>
      refine ⟨⟨false, some (.body (q.nodeId d)),
        ((q.builder.graph.node? (q.nodeId d)).map Node.params).getD [], .empty⟩, ?_, rfl, rfl, ?_⟩
      · simp only [finished, draw, Content.payload, Graph.settled, Graph.linkOf, Node.site?,
          CallSite.function, hlookup, hc, Option.map_some, Bool.false_eq_true, if_false]
        rfl
      · simp only [boundParams, Bool.false_eq_true, if_false, hc]
        exact h.params_callee hc false

end Draws

end Run

end ScopedFlow
