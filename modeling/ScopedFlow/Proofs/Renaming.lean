import Mathlib.Data.List.Basic
import Mathlib.Data.Prod.Basic
import ScopedFlow.Link
import ScopedFlow.Synthesis.Source

/-!
# Renaming of ids

Ids are only ever compared for equality, so that what is found in a graph is found in the renamed
graph under its new name. Linking calls and renaming ids can be done in either order, and the report
of the links stays the same.
-/

namespace ScopedFlow

section Rename

variable (r : NodeId → NodeId)

def World.rename : World → World
  | .root => .root
  | .imports => .imports
  | .body owner => .body (r owner)

def VariableMode.rename : VariableMode → VariableMode
  | .closureRead origin world => .closureRead (r origin) (world.rename r)
  | mode => mode

def CallSite.rename (site : CallSite) : CallSite :=
  { site with target := site.target.map (World.rename r) }

def Payload.rename : Payload → Payload
  | .variable v => .variable { v with mode := v.mode.rename r }
  | .call site => .call (site.rename r)
  | payload => payload

def Node.rename (n : Node) : Node := ⟨r n.id, n.label, n.world.rename r, n.payload.rename r⟩

def Edge.rename (e : Edge) : Edge := ⟨r e.source, r e.target, e.kind⟩

/-- The graph with all ids renamed: those of nodes, of the ends of edges, of the owners of bodies, of
the targets of calls and of the origins of stand-ins. -/
def Graph.rename (g : Graph) : Graph := ⟨g.nodes.map (Node.rename r), g.edges.map (Edge.rename r)⟩

def Part.rename : Part → Part
  | .whole => .whole
  | .world w => .world (w.rename r)
  | .node id => .node (r id)

def Defect.rename (d : Defect) : Defect := { d with node := r d.node }

def Synthesis.rename (s : Synthesis) : Synthesis :=
  { s with incomplete := s.incomplete.map (Defect.rename r) }

namespace Node

variable (n : Node)

@[simp] theorem id_rename : (n.rename r).id = r n.id := rfl

@[simp] theorem label_rename : (n.rename r).label = n.label := rfl

@[simp] theorem world_rename : (n.rename r).world = n.world.rename r := rfl

@[simp] theorem payload_rename : (n.rename r).payload = n.payload.rename r := rfl

@[simp] theorem kind_rename : (n.rename r).kind = n.kind := by
  obtain ⟨id, label, world, payload⟩ := n
  cases payload <;> rfl

@[simp] theorem params_rename : (n.rename r).params = n.params := by
  obtain ⟨id, label, world, payload⟩ := n
  cases payload <;> rfl

@[simp] theorem site?_rename : (n.rename r).site? = n.site?.map (CallSite.rename r) := by
  obtain ⟨id, label, world, payload⟩ := n
  cases payload <;> rfl

theorem ownWorld?_rename : (n.rename r).ownWorld? = n.ownWorld?.map (World.rename r) := by
  unfold ownWorld?
  rw [kind_rename]
  split <;> rfl

theorem mapSite_rename {f f' : CallSite → CallSite}
    (h : ∀ site, f' (site.rename r) = (f site).rename r) :
    (n.rename r).mapSite f' = (n.mapSite f).rename r := by
  obtain ⟨id, label, world, payload⟩ := n
  cases payload with
  | call site => exact congrArg (fun s => Node.mk (r id) label (world.rename r) (.call s)) (h site)
  | _ => rfl

end Node

@[simp] theorem Edge.source_rename (e : Edge) : (e.rename r).source = r e.source := rfl

@[simp] theorem Edge.target_rename (e : Edge) : (e.rename r).target = r e.target := rfl

@[simp] theorem Edge.kind_rename (e : Edge) : (e.rename r).kind = e.kind := rfl

@[simp] theorem Graph.nodes_rename (g : Graph) :
    (g.rename r).nodes = g.nodes.map (Node.rename r) := rfl

@[simp] theorem Graph.edges_rename (g : Graph) :
    (g.rename r).edges = g.edges.map (Edge.rename r) := rfl

end Rename

theorem World.rename_id (w : World) : w.rename id = w := by
  cases w <;> rfl

theorem Payload.rename_id (p : Payload) : p.rename id = p := by
  cases p with
  | «variable» v =>
    obtain ⟨mode, version, optional⟩ := v
    cases mode with
    | closureRead origin world =>
      simp only [Payload.rename, VariableMode.rename, World.rename_id, id]
    | _ => rfl
  | call site =>
    obtain ⟨isMethod, target, params, overrides⟩ := site
    cases target with
    | none => rfl
    | some w => simp only [Payload.rename, CallSite.rename, Option.map_some, World.rename_id]
  | _ => rfl

theorem Graph.rename_id (g : Graph) : g.rename id = g := by
  have hnode : Node.rename id = id := by
    funext n
    simp only [Node.rename, World.rename_id, Payload.rename_id, id]
  have hedge : Edge.rename id = id := rfl
  rw [Graph.rename, hnode, hedge, List.map_id, List.map_id]

theorem World.rename_injective {r : NodeId → NodeId} (hr : Function.Injective r) :
    Function.Injective (World.rename r) := by
  intro v w h
  cases v <;> cases w <;> simp_all [World.rename, hr.eq_iff]

theorem foldl_rename {α β σ τ : Type} {f : α → β} (h : σ → τ) {step : σ → α → σ}
    {step' : τ → β → τ} (hstep : ∀ s a, step' (h s) (f a) = h (step s a)) (as : List α) (s : σ) :
    (as.map f).foldl step' (h s) = h (as.foldl step s) := by
  rw [List.foldl_map]
  exact List.foldl_hom h hstep

theorem Graph.distinct_map {α β : Type} [DecidableEq α] [DecidableEq β] {f : α → β}
    (hf : Function.Injective f) (as : List α) : distinct (as.map f) = (distinct as).map f := by
  refine foldl_rename (List.map f) ?_ as []
  intro seen a
  simp only [List.mem_map_of_injective hf]
  split
  · rfl
  · rw [List.map_append, List.map_singleton]

namespace Table

variable {κ κ' α α' : Type} [DecidableEq κ] [DecidableEq κ']

/-- The table with other keys and values. -/
def rename (f : κ → κ') (h : α → α') (t : Table κ α) : Table κ' α' :=
  ⟨t.entries.map (Prod.map f h)⟩

variable {f : κ → κ'} (hf : Function.Injective f) (h : α → α')

include hf

theorem get?_rename (t : Table κ α) (k : κ) : (t.rename f h).get? (f k) = (t.get? k).map h := by
  obtain ⟨es⟩ := t
  simp only [rename, get?]
  induction es with
  | nil => rfl
  | cons e es ih =>
    obtain ⟨j, a⟩ := e
    simp only [List.map_cons, Prod.map_apply, find, hf.eq_iff]
    split
    · rfl
    · exact ih

theorem insert_rename (t : Table κ α) (k : κ) (a : α) :
    (t.rename f h).insert (f k) (h a) = (t.insert k a).rename f h := by
  obtain ⟨es⟩ := t
  simp only [rename, insert, Table.mk.injEq]
  induction es with
  | nil => rfl
  | cons e es ih =>
    obtain ⟨j, b⟩ := e
    simp only [List.map_cons, Prod.map_apply, put, hf.eq_iff]
    split
    · rfl
    · rw [List.map_cons, ih]
      rfl

end Table

namespace Graph

variable {r : NodeId → NodeId} (hr : Function.Injective r) (g : Graph)

theorem ids_rename : (g.rename r).ids = g.ids.map r := by
  simp only [ids, nodes_rename, List.map_map]
  rfl

include hr

theorem node?_rename (id : NodeId) :
    (g.rename r).node? (r id) = (g.node? id).map (Node.rename r) := by
  rw [node?, nodes_rename, List.find?_map, node?]
  simp only [Function.comp_def, Node.id_rename, hr.eq_iff]

theorem lookup_rename (id : NodeId) :
    (g.rename r).lookup (r id) = (g.lookup id).map (Node.rename r) := by
  rw [lookup, nodes_rename, ← List.map_reverse, List.find?_map, lookup]
  simp only [Function.comp_def, Node.id_rename, hr.eq_iff]

theorem nodesIn_rename (w : World) :
    (g.rename r).nodesIn (w.rename r) = (g.nodesIn w).map (Node.rename r) := by
  rw [nodesIn, nodes_rename, List.filter_map, nodesIn]
  simp only [Function.comp_def, Node.world_rename, (World.rename_injective hr).eq_iff]

theorem edgesTo_rename (id : NodeId) :
    (g.rename r).edgesTo (r id) = (g.edgesTo id).map (Edge.rename r) := by
  rw [edgesTo, edges_rename, List.filter_map, edgesTo]
  simp only [Function.comp_def, Edge.target_rename, hr.eq_iff]

theorem edgesFrom_rename (id : NodeId) :
    (g.rename r).edgesFrom (r id) = (g.edgesFrom id).map (Edge.rename r) := by
  rw [edgesFrom, edges_rename, List.filter_map, edgesFrom]
  simp only [Function.comp_def, Edge.source_rename, hr.eq_iff]

theorem input_rename (id : NodeId) (p : EdgeKind → Bool) :
    (g.rename r).input (r id) p = (g.input id p).map r := by
  rw [input, edgesTo_rename hr, List.find?_map, input, Option.map_map, Option.map_map]
  rfl

theorem modifyNode_rename (id : NodeId) {f f' : Node → Node}
    (h : ∀ n : Node, f' (n.rename r) = (f n).rename r) :
    (g.rename r).modifyNode (r id) f' = (g.modifyNode id f).rename r := by
  simp only [modifyNode, rename, Graph.mk.injEq, and_true]
  induction g.nodes with
  | nil => rfl
  | cons n ns ih =>
    simp only [List.map_cons, modifyFirst, Node.id_rename, hr.eq_iff, decide_eq_true_eq]
    split
    · rw [List.map_cons, h]
    · rw [List.map_cons, ih]

end Graph

section Scope

variable {r : NodeId → NodeId}

def WorldTree.rename (r : NodeId → NodeId) (t : WorldTree) : WorldTree :=
  ⟨t.parents.rename (World.rename r) (World.rename r)⟩

def Definitions.rename (r : NodeId → NodeId) (d : Definitions) : Definitions :=
  ⟨d.table.rename (Prod.map (World.rename r) id) r⟩

variable (hr : Function.Injective r)
include hr

theorem WorldTree.ofGraph_rename (g : Graph) :
    WorldTree.ofGraph (g.rename r) = (WorldTree.ofGraph g).rename r := by
  refine foldl_rename (WorldTree.rename r) ?_ g.nodes .empty
  intro t n
  rw [Node.ownWorld?_rename]
  cases n.ownWorld? with
  | none => rfl
  | some w => exact congrArg WorldTree.mk (Table.insert_rename (World.rename_injective hr) _ ..)

theorem WorldTree.parent?_rename (t : WorldTree) (w : World) :
    (t.rename r).parent? (w.rename r) = (t.parent? w).map (World.rename r) :=
  Table.get?_rename (World.rename_injective hr) ..

theorem WorldTree.above_rename (t : WorldTree) (seen : List World) (w : World) :
    (t.rename r).above (seen.map (World.rename r)) (w.rename r) =
      (t.above seen w).map (World.rename r) := by
  have hmem : ∀ p, p.rename r ∈ seen.map (World.rename r) ↔ p ∈ seen := fun p =>
    List.mem_map_of_injective (World.rename_injective hr)
  induction seen, w using WorldTree.above.induct t with
  | case1 seen w h => rw [above_eq, above_eq, t.parent?_rename hr, h]; rfl
  | case2 seen w p h hs =>
    rw [above_eq, above_eq, t.parent?_rename hr, h]
    simp only [Option.map_some, Option.elim_some, hmem, if_pos hs, List.map_nil]
  | case3 seen w p h hs _ ih =>
    rw [above_eq, above_eq, t.parent?_rename hr, h]
    simp only [Option.map_some, Option.elim_some, hmem, if_neg hs, List.map_cons]
    have hmem' : ∀ q, q.rename r ∈ (p :: seen).map (World.rename r) ↔ q ∈ p :: seen := fun q =>
      List.mem_map_of_injective (World.rename_injective hr)
    exact congrArg (_ :: ·) (ih hmem')

theorem Definitions.ofGraph_rename (g : Graph) :
    Definitions.ofGraph (g.rename r) = (Definitions.ofGraph g).rename r := by
  have hkeys : Function.Injective (Prod.map (World.rename r) (id : String → String)) :=
    .prodMap (World.rename_injective hr) Function.injective_id
  refine foldl_rename (Definitions.rename r) ?_ g.nodes .empty
  intro d n
  simp only [Node.kind_rename]
  split
  · exact congrArg Definitions.mk (Table.insert_rename hkeys r d.table (n.world, n.label) n.id)
  · rfl

theorem Definitions.lookup_rename (d : Definitions) (t : WorldTree) (w : World) (name : String) :
    (d.rename r).lookup (t.rename r) (w.rename r) name = (d.lookup t w name).map r := by
  have hkeys : Function.Injective (Prod.map (World.rename r) (id : String → String)) :=
    .prodMap (World.rename_injective hr) Function.injective_id
  have hlocal : ∀ v : World, (d.rename r).local? (v.rename r) name = (d.local? v name).map r :=
    fun v => Table.get?_rename hkeys r d.table (v, name)
  have hchain : (t.rename r).chain (w.rename r) = (t.chain w).map (World.rename r) := by
    rw [WorldTree.chain, WorldTree.chain, List.map_cons, ← t.above_rename hr]
    rfl
  rw [lookup, lookup, hchain, List.findSome?_map, List.map_findSome?]
  exact congrArg (List.findSome? · _) (funext hlocal)

end Scope

def CallLink.rename (r : NodeId → NodeId) (l : CallLink) : CallLink :=
  ⟨r l.call, l.target.rename r, l.params⟩

namespace Graph

variable {r : NodeId → NodeId} (hr : Function.Injective r)
include hr

theorem linkOf_rename (g : Graph) (t : WorldTree) (d : Definitions) (n : Node) :
    (g.rename r).linkOf (t.rename r) (d.rename r) (n.rename r) =
      (g.linkOf t d n).map (CallLink.rename r) := by
  unfold linkOf
  rw [Node.site?_rename]
  cases hs : n.site? with
  | none => rfl
  | some site =>
    simp only [Option.map_some, Node.world_rename, Node.label_rename, d.lookup_rename hr]
    have hmethod : (site.rename r).isMethod = site.isMethod := rfl
    rw [hmethod]
    split
    · rfl
    · cases hd : d.lookup t n.world n.label with
      | none => rfl
      | some definition =>
        have hparams : ((g.rename r).node? (r definition)).map Node.params =
            (g.node? definition).map Node.params := by
          rw [g.node?_rename hr, Option.map_map]
          exact congrArg (Option.map · _) (funext (Node.params_rename r))
        simp only [Option.map_some, hparams]
        rfl

theorem isCall_rename (g : Graph) (id : NodeId) : (g.rename r).isCall (r id) = g.isCall id := by
  simp only [isCall, g.node?_rename hr, Option.any_map, Node.site?_rename,
    Option.isSome_map]

theorem applyLink_rename (g : Graph) (l : CallLink) :
    (g.rename r).applyLink (l.rename r) = (g.applyLink l).rename r := by
  apply g.modifyNode_rename hr
  intro n
  exact n.mapSite_rename r fun _ => rfl

theorem needsParams_rename (g : Graph) (id : NodeId) :
    (g.rename r).needsParams (r id) = g.needsParams id := by
  simp only [needsParams, g.node?_rename hr, Option.any_map, Node.site?_rename,
    CallSite.rename, Option.isNone_map]

theorem suggestedParams_rename (g : Graph) (id : NodeId) :
    (g.rename r).suggestedParams (r id) = g.suggestedParams id := by
  have hindices : ∀ es : List Edge, argumentIndices (es.map (Edge.rename r)) = argumentIndices es := by
    intro es
    rw [argumentIndices, List.filterMap_map, argumentIndices]
    rfl
  have hkeywords : ∀ es : List Edge,
      argumentKeywords (es.map (Edge.rename r)) = argumentKeywords es := by
    intro es
    rw [argumentKeywords, List.filterMap_map, argumentKeywords]
    rfl
  simp only [suggestedParams, g.edgesTo_rename hr, hindices, hkeywords]

theorem hydrates_rename (g : Graph) (id : NodeId) :
    (g.rename r).hydrates (r id) = g.hydrates id := by
  rw [hydrates, g.needsParams_rename hr, g.suggestedParams_rename hr, hydrates]

theorem hydrate_rename (g : Graph) (id : NodeId) :
    (g.rename r).hydrate (r id) = (g.hydrate id).rename r := by
  rw [hydrate, g.hydrates_rename hr, g.suggestedParams_rename hr, hydrate]
  split
  · apply g.modifyNode_rename hr
    intro n
    exact n.mapSite_rename r fun _ => rfl
  · rfl

theorem linkOn_rename (g : Graph) (ids : List NodeId) :
    (g.rename r).linkOn (ids.map r) = ((g.linkOn ids).1.rename r, (g.linkOn ids).2) := by
  have hmembers : (g.nodes.map (Node.rename r)).filter (fun n => n.id ∈ (distinct ids).map r) =
      (g.nodes.filter fun n => n.id ∈ distinct ids).map (Node.rename r) := by
    rw [List.filter_map]
    simp only [Function.comp_def, Node.id_rename, List.mem_map_of_injective hr]
  have hlinks : ∀ ns : List Node, (ns.map (Node.rename r)).filterMap
      ((g.rename r).linkOf (WorldTree.ofGraph (g.rename r)) (Definitions.ofGraph (g.rename r))) =
      (ns.filterMap (g.linkOf (WorldTree.ofGraph g) (Definitions.ofGraph g))).map
        (CallLink.rename r) := by
    intro ns
    rw [List.filterMap_map, List.map_filterMap, WorldTree.ofGraph_rename hr,
      Definitions.ofGraph_rename hr]
    exact congrArg (List.filterMap · ns) (funext fun n => g.linkOf_rename hr _ _ n)
  have happly : ∀ ls : List CallLink, (ls.map (CallLink.rename r)).foldl applyLink (g.rename r) =
      (ls.foldl applyLink g).rename r := fun ls =>
    foldl_rename (Graph.rename r) (applyLink_rename hr) ls g
  have hhydrate : ∀ (h : Graph) (is : List NodeId), (is.map r).foldl hydrate (h.rename r) =
      (is.foldl hydrate h).rename r := fun h is =>
    foldl_rename (Graph.rename r) (hydrate_rename hr) is h
  have hcall : ∀ l : CallLink, (g.rename r).isCall (l.rename r).call = g.isCall l.call :=
    fun l => g.isCall_rename hr l.call
  have hmethod : ∀ n : Node, isMethodCall (n.rename r) = isMethodCall n := by
    intro n
    rw [isMethodCall, Node.site?_rename, Option.any_map, isMethodCall]
    rfl
  simp only [linkOn, distinct_map hr, nodes_rename, hmembers, hlinks, happly, hhydrate,
    List.length_map, List.countP_map, Function.comp_def, hydrates_rename hr, hcall, hmethod]

theorem link_rename (g : Graph) : (g.rename r).link = (g.link.1.rename r, g.link.2) := by
  have hids : ((g.rename r).nodesOfKind .call).map (·.id) = ((g.nodesOfKind .call).map (·.id)).map r := by
    rw [nodesOfKind, nodes_rename, List.filter_map, nodesOfKind, List.map_map, List.map_map]
    simp only [Function.comp_def, Node.kind_rename, Node.id_rename]
  rw [link, hids, g.linkOn_rename hr, link]

end Graph

end ScopedFlow
