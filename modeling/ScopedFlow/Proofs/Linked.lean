import ScopedFlow.Link
import ScopedFlow.Proofs.Distinct
import ScopedFlow.Proofs.Identity

/-!
# Linking touches each call once and nothing else

In a graph with distinct ids the links and the suggested parameters can be read off the graph before
linking, so that linking is one change of every node by itself.
-/

namespace ScopedFlow

namespace Graph

variable {ns : List Node} {n : Node}

theorem modifyFirst_eq_map (h : (ns.map (·.id)).Nodup) (id : NodeId) (f : Node → Node) :
    modifyFirst (fun n => n.id = id) f ns = ns.map fun n => if n.id = id then f n else n := by
  induction ns with
  | nil => rfl
  | cons m ns ih =>
    rw [List.map_cons, List.nodup_cons] at h
    by_cases hm : m.id = id
    · have hrest : ns.map (fun n => if n.id = id then f n else n) = ns.map fun n => n :=
        List.map_congr_left fun n hn => by
          have hne : n.id ≠ id := fun he => h.1 (List.mem_map.mpr ⟨n, hn, he.trans hm.symm⟩)
          rw [if_neg hne]
      simp [modifyFirst, hm, hrest]
    · simp [modifyFirst, hm, ih h.2]

theorem modifyFirst_congr {p : Node → Bool} {f f' : Node → Node}
    (h : ∀ n, ns.find? p = some n → f n = f' n) : modifyFirst p f ns = modifyFirst p f' ns := by
  induction ns with
  | nil => rfl
  | cons m ns ih =>
    cases hm : p m with
    | true => simp [modifyFirst, hm, h m (by simp [hm])]
    | false =>
      simp only [modifyFirst, hm, Bool.false_eq_true, if_false]
      rw [ih fun n hn => h n (by simp [hm, hn])]

theorem modifyFirst_id (p : Node → Bool) (ns : List Node) : modifyFirst p id ns = ns := by
  induction ns with
  | nil => rfl
  | cons m ns ih => cases hm : p m <;> simp [modifyFirst, hm, ih]

theorem modifyNode_congr {g : Graph} {id : NodeId} {f f' : Node → Node}
    (h : ∀ n, g.node? id = some n → f n = f' n) : g.modifyNode id f = g.modifyNode id f' :=
  congrArg (fun ns => (⟨ns, g.edges⟩ : Graph)) (modifyFirst_congr h)

theorem modifyNode_keep {g : Graph} {id : NodeId} {f : Node → Node}
    (h : ∀ n, g.node? id = some n → f n = n) : g.modifyNode id f = g :=
  (modifyNode_congr h).trans
    (congrArg (fun ns => (⟨ns, g.edges⟩ : Graph)) (modifyFirst_id _ g.nodes))

theorem nodes_modifyNode {g : Graph} (h : g.ids.Nodup) (id : NodeId) (f : Node → Node) :
    (g.modifyNode id f).nodes = g.nodes.map fun n => if n.id = id then f n else n :=
  modifyFirst_eq_map h id f

theorem ids_modifyNode {g : Graph} (h : g.ids.Nodup) (id : NodeId) {f : Node → Node}
    (hf : ∀ n, (f n).id = n.id) : (g.modifyNode id f).ids = g.ids := by
  rw [ids, nodes_modifyNode h, List.map_map]
  refine List.map_congr_left fun n hn => ?_
  simp only [Function.comp]
  split
  · exact hf n
  · rfl

section Changes

variable {β : Type} (key : β → NodeId) {f : β → Node → Node}

theorem nodes_foldl_modify (hf : ∀ b n, (f b n).id = n.id) {bs : List β}
    (hb : (bs.map key).Nodup) {g : Graph} (hg : g.ids.Nodup) :
    (bs.foldl (fun g b => g.modifyNode (key b) (f b)) g).nodes =
      g.nodes.map fun n => ((bs.find? fun b => key b = n.id).map (f · n)).getD n := by
  induction bs generalizing g with
  | nil => simp
  | cons b bs ih =>
    rw [List.map_cons, List.nodup_cons] at hb
    have hids := ids_modifyNode hg (key b) (hf b)
    rw [List.foldl_cons, ih hb.2 (hids ▸ hg), nodes_modifyNode hg, List.map_map]
    refine List.map_congr_left fun n hn => ?_
    by_cases hk : n.id = key b
    · have hnone : bs.find? (fun c => key c = key b) = none := by
        refine List.find?_eq_none.mpr fun c hc => ?_
        simpa using fun he : key c = key b => hb.1 (List.mem_map.mpr ⟨c, hc, he⟩)
      simp [hk, hf, hnone]
    · simp [hk, Ne.symm hk]

theorem edges_foldl_modify (bs : List β) (g : Graph) :
    (bs.foldl (fun g b => g.modifyNode (key b) (f b)) g).edges = g.edges := by
  induction bs generalizing g with
  | nil => rfl
  | cons b bs ih => rw [List.foldl_cons, ih, modifyNode]

end Changes

@[simp] theorem id_mapSite (f : CallSite → CallSite) (n : Node) : (n.mapSite f).id = n.id := by
  unfold Node.mapSite
  split <;> rfl

def linkedBy (l : CallLink) : Node → Node :=
  Node.mapSite fun s => { s with target := some l.target, params := l.params }

def hydratedBy (suggested : List Param) (n : Node) : Node :=
  if (n.site?.any fun s => s.target.isNone && s.params.isEmpty) && !suggested.isEmpty then
    n.mapSite fun s => { s with params := suggested }
  else n

def settled (g : Graph) (n : Node) : Node :=
  match g.linkOf (WorldTree.ofGraph g) (Definitions.ofGraph g) n with
  | some l => linkedBy l n
  | none => hydratedBy (g.suggestedParams n.id) n

@[simp] theorem id_linkedBy (l : CallLink) (n : Node) : (linkedBy l n).id = n.id := id_mapSite ..

@[simp] theorem id_hydratedBy (suggested : List Param) (n : Node) :
    (hydratedBy suggested n).id = n.id := by
  unfold hydratedBy
  split
  · exact id_mapSite ..
  · rfl

theorem hydratedBy_linkedBy (suggested : List Param) {l : CallLink} (h : n.site?.isSome) :
    hydratedBy suggested (linkedBy l n) = linkedBy l n := by
  obtain ⟨id, label, world, payload⟩ := n
  cases payload <;> simp [Node.site?] at h
  simp [hydratedBy, linkedBy, Node.mapSite, Node.site?]

theorem hydratedBy_of_site {suggested : List Param} (h : n.site? = none) :
    hydratedBy suggested n = n := by
  simp [hydratedBy, h]

theorem hydratedBy_fresh (suggested : List Param) (id : NodeId) (label : String) (w : World)
    (isMethod : Bool) : hydratedBy suggested ⟨id, label, w, .call ⟨isMethod, none, [], .empty⟩⟩ =
      ⟨id, label, w, .call ⟨isMethod, none, suggested, .empty⟩⟩ := by
  cases suggested <;> rfl

theorem linkOf_eq_some {g : Graph} {t : WorldTree} {d : Definitions} {l : CallLink}
    (h : g.linkOf t d n = some l) : l.call = n.id ∧ n.site?.isSome := by
  unfold linkOf at h
  split at h
  · cases h
  · rename_i site hs
    split at h
    · cases h
    · split at h
      · cases h
      · obtain rfl := Option.some.inj h
        exact ⟨rfl, by simp [hs]⟩

theorem hydrate_eq {g g' : Graph} (h : g'.edges = g.edges) (id : NodeId) :
    g'.hydrate id = g'.modifyNode id (hydratedBy (g.suggestedParams id)) := by
  have hs : g'.suggestedParams id = g.suggestedParams id := by
    simp only [suggestedParams, edgesTo, h]
  unfold hydrate hydrates needsParams
  rw [hs]
  split
  · rename_i hc
    refine modifyNode_congr fun n hn => ?_
    rw [hn, Option.any_some] at hc
    rw [hydratedBy, if_pos hc]
  · rename_i hc
    refine (modifyNode_keep fun n hn => ?_).symm
    rw [hn, Option.any_some] at hc
    rw [hydratedBy, if_neg hc]

theorem foldl_hydrate_eq {g g' : Graph} (h : g'.edges = g.edges) (ids : List NodeId) :
    ids.foldl hydrate g' =
      ids.foldl (fun g' id => g'.modifyNode id (hydratedBy (g.suggestedParams id))) g' := by
  induction ids generalizing g' with
  | nil => rfl
  | cons id ids ih =>
    rw [List.foldl_cons, List.foldl_cons, hydrate_eq h]
    exact ih h

variable {g : Graph}

@[simp] theorem id_settled (g : Graph) (n : Node) : (g.settled n).id = n.id := by
  unfold settled
  split <;> simp

theorem exists_mapSite (g : Graph) (n : Node) : ∃ f, g.settled n = n.mapSite f := by
  have hid : n = n.mapSite id := by
    unfold Node.mapSite
    split
    · rename_i site hs
      rw [id_eq, ← hs]
    · rfl
  unfold settled
  split
  · exact ⟨_, rfl⟩
  · unfold hydratedBy
    split
    · exact ⟨_, rfl⟩
    · exact ⟨id, hid⟩

@[simp] theorem world_settled (g : Graph) (n : Node) : (g.settled n).world = n.world := by
  obtain ⟨f, hf⟩ := exists_mapSite g n
  rw [hf]
  unfold Node.mapSite
  split <;> rfl

@[simp] theorem label_settled (g : Graph) (n : Node) : (g.settled n).label = n.label := by
  obtain ⟨f, hf⟩ := exists_mapSite g n
  rw [hf]
  unfold Node.mapSite
  split <;> rfl

theorem settled_of_site (h : n.site? = none) : g.settled n = n := by
  unfold settled
  split
  · rename_i l hl
    obtain ⟨site, hs⟩ := Option.isSome_iff_exists.mp (linkOf_eq_some hl).2
    rw [h] at hs
    cases hs
  · exact hydratedBy_of_site h

theorem site?_isSome_iff (n : Node) : n.site?.isSome ↔ n.kind = .call := by
  obtain ⟨id, label, world, payload⟩ := n
  cases payload <;> simp [Node.site?, Node.kind, Payload.kind]

/-- The links of the given calls, as they are found in the graph. -/
def linksOn (g : Graph) (ids : List NodeId) : List CallLink :=
  (g.nodes.filter fun n => n.id ∈ distinct ids).filterMap
    (g.linkOf (WorldTree.ofGraph g) (Definitions.ofGraph g))

/-- The graph with these links, before any parameters are suggested. -/
def targeted (g : Graph) (ids : List NodeId) : Graph := (g.linksOn ids).foldl applyLink g

theorem linkOn_eq (g : Graph) (ids : List NodeId) :
    (g.linkOn ids).1 = (distinct ids).foldl hydrate (g.targeted ids) := rfl

theorem find_link (hns : (ns.map (·.id)).Nodup) {L : Node → Option CallLink}
    (hL : ∀ n l, L n = some l → l.call = n.id) (hn : n ∈ ns) :
    (ns.filterMap L).find? (fun l => l.call = n.id) = L n := by
  induction ns with
  | nil => cases hn
  | cons m ns ih =>
    rw [List.map_cons, List.nodup_cons] at hns
    rcases List.mem_cons.mp hn with rfl | hn
    · have hrest : (ns.filterMap L).find? (fun l => l.call = n.id) = none := by
        refine List.find?_eq_none.mpr fun l hl => ?_
        obtain ⟨m, hm, hlm⟩ := List.mem_filterMap.mp hl
        have hne : m.id ≠ n.id := fun he => hns.1 (List.mem_map.mpr ⟨m, hm, he⟩)
        simpa [hL m l hlm] using hne
      cases hl : L n with
      | none => rw [List.filterMap_cons_none hl, hrest]
      | some l => simp [hl, hL n l hl]
    · have hne : m.id ≠ n.id := fun he => hns.1 (List.mem_map.mpr ⟨n, hn, he.symm⟩)
      cases hl : L m with
      | none => rw [List.filterMap_cons_none hl, ih hns.2 hn]
      | some l => simp [hl, hL m l hl, hne, ih hns.2 hn]

theorem calls_sublist {L : Node → Option CallLink} (hL : ∀ n l, L n = some l → l.call = n.id)
    (ns : List Node) : ((ns.filterMap L).map (·.call)).Sublist (ns.map (·.id)) := by
  induction ns with
  | nil => exact .slnil
  | cons n ns ih =>
    cases hl : L n with
    | none =>
      rw [List.filterMap_cons_none hl]
      exact ih.cons _
    | some l =>
      rw [List.filterMap_cons_some hl, List.map_cons, List.map_cons, hL n l hl]
      exact ih.cons_cons _

theorem nodup_linksOn (hg : g.ids.Nodup) (ids : List NodeId) :
    ((g.linksOn ids).map (·.call)).Nodup := by
  refine List.Nodup.sublist (calls_sublist (fun n l h => (linkOf_eq_some h).1) _) ?_
  exact hg.sublist (List.filter_sublist.map _)

theorem find_linksOn (hg : g.ids.Nodup) (ids : List NodeId) (hn : n ∈ g.nodes) :
    (g.linksOn ids).find? (fun l => l.call = n.id) =
      if n.id ∈ ids then g.linkOf (WorldTree.ofGraph g) (Definitions.ofGraph g) n else none := by
  have hL : ∀ m l, g.linkOf (WorldTree.ofGraph g) (Definitions.ofGraph g) m = some l →
      l.call = m.id := fun m l h => (linkOf_eq_some h).1
  by_cases hc : n.id ∈ ids
  · rw [if_pos hc]
    refine find_link ?_ hL (List.mem_filter.mpr ⟨hn, by simpa [mem_distinct] using hc⟩)
    exact hg.sublist (List.filter_sublist.map _)
  · rw [if_neg hc]
    refine List.find?_eq_none.mpr fun l hl => ?_
    obtain ⟨m, hm, hlm⟩ := List.mem_filterMap.mp hl
    have hm' : m.id ∈ ids := by simpa [mem_distinct] using (List.mem_filter.mp hm).2
    have hne : m.id ≠ n.id := fun he => hc (he ▸ hm')
    simpa [hL m l hlm] using hne

@[simp] theorem edges_targeted (g : Graph) (ids : List NodeId) :
    (g.targeted ids).edges = g.edges := edges_foldl_modify CallLink.call ..

theorem nodes_targeted (hg : g.ids.Nodup) (ids : List NodeId) :
    (g.targeted ids).nodes = g.nodes.map fun n => if n.id ∈ ids then
      ((g.linkOf (WorldTree.ofGraph g) (Definitions.ofGraph g) n).map (linkedBy · n)).getD n
    else n := by
  have hnodes : (g.targeted ids).nodes = g.nodes.map fun n =>
      (((g.linksOn ids).find? fun l => l.call = n.id).map (linkedBy · n)).getD n :=
    nodes_foldl_modify CallLink.call id_linkedBy (nodup_linksOn hg ids) hg
  rw [hnodes]
  refine List.map_congr_left fun n hn => ?_
  rw [find_linksOn hg ids hn]
  split <;> rfl

theorem ids_targeted (hg : g.ids.Nodup) (ids : List NodeId) : (g.targeted ids).ids = g.ids := by
  rw [Graph.ids, nodes_targeted hg, List.map_map]
  refine List.map_congr_left fun n hn => ?_
  simp only [Function.comp]
  split
  · cases g.linkOf (WorldTree.ofGraph g) (Definitions.ofGraph g) n <;> simp
  · rfl

theorem edges_linkOn (g : Graph) (ids : List NodeId) : (g.linkOn ids).1.edges = g.edges := by
  rw [linkOn_eq, foldl_hydrate_eq (edges_targeted g ids), edges_foldl_modify (fun id => id),
    edges_targeted]

theorem nodes_linkOn (hg : g.ids.Nodup) (ids : List NodeId) :
    (g.linkOn ids).1.nodes = g.nodes.map fun n => if n.id ∈ ids then g.settled n else n := by
  have hcalls : ((distinct ids).map fun id => id).Nodup := by
    rw [List.map_id']
    exact nodup_distinct _
  have hfind : ∀ id, (distinct ids).find? (fun c => c = id) = if id ∈ ids then some id else none := by
    intro id
    rw [find?_distinct]
    split
    · rename_i hid
      cases hf : ids.find? (fun c => c = id) with
      | none => exact absurd (List.find?_eq_none.mp hf _ hid) (by simp)
      | some c => exact congrArg some (by simpa using List.find?_some hf)
    · rename_i hid
      exact List.find?_eq_none.mpr fun c hc => by simpa using fun he : c = id => hid (he ▸ hc)
  rw [linkOn_eq, foldl_hydrate_eq (edges_targeted g ids),
    nodes_foldl_modify (fun id => id) (fun _ _ => id_hydratedBy ..) hcalls
      ((ids_targeted hg ids).symm ▸ hg), nodes_targeted hg, List.map_map]
  refine List.map_congr_left fun n hn => ?_
  simp only [Function.comp, hfind]
  by_cases hid : n.id ∈ ids
  · simp only [if_pos hid, settled]
    cases hl : g.linkOf (WorldTree.ofGraph g) (Definitions.ofGraph g) n with
    | some l => simp [hid, hydratedBy_linkedBy _ (linkOf_eq_some hl).2]
    | none => simp [hid]
  · simp [hid]

theorem ids_linkOn (hg : g.ids.Nodup) (ids : List NodeId) : (g.linkOn ids).1.ids = g.ids := by
  rw [Graph.ids, nodes_linkOn hg, List.map_map]
  refine List.map_congr_left fun n _ => ?_
  simp only [Function.comp]
  split
  · exact id_settled g n
  · rfl

@[simp] theorem edges_link (g : Graph) : g.link.1.edges = g.edges := edges_linkOn ..

theorem nodes_link (hg : g.ids.Nodup) : g.link.1.nodes = g.nodes.map g.settled := by
  rw [link, nodes_linkOn hg]
  refine List.map_congr_left fun n hn => ?_
  split
  · rfl
  · rename_i hid
    have hs : n.site? = none := by
      rw [← Option.not_isSome_iff_eq_none, site?_isSome_iff]
      exact fun hk => hid (List.mem_map.mpr ⟨n, List.mem_filter.mpr ⟨hn, by simpa using hk⟩, rfl⟩)
    rw [settled_of_site hs]

theorem ids_link (hg : g.ids.Nodup) : g.link.1.ids = g.ids := ids_linkOn hg _

theorem lookup_link (hg : g.ids.Nodup) (hn : n ∈ g.nodes) :
    g.link.1.lookup n.id = some (g.settled n) := by
  have hm : g.settled n ∈ g.link.1.nodes := by
    rw [nodes_link hg]
    exact List.mem_map.mpr ⟨n, hn, rfl⟩
  have hl := lookup_of_mem (ids_link hg ▸ hg) hm
  rwa [id_settled] at hl

end Graph

end ScopedFlow
