import Mathlib.Data.Set.Card
import ScopedFlow.Proofs.Replay

/-!
# Which definition a call goes to in a graph

Said of the graph alone: the last definition of its name in the first world outward that has one.
Linking sends each of the given calls there, infers parameters for those that are left without,
touches nothing else and counts what it does.
-/

namespace ScopedFlow

variable {t : WorldTree} {seen : List World}

theorem WorldTree.above_of_new {w p : World} (hp : t.parent? w = some p) (hs : p ∉ seen) :
    t.above seen w = p :: t.above (p :: seen) p := by
  rw [WorldTree.above]
  split
  · rename_i hnone
    cases hnone.symm.trans hp
  · rename_i q hq
    obtain rfl := Option.some.inj (hq.symm.trans hp)
    exact dif_neg hs

namespace Graph

variable {id : NodeId}

/-- The definitions of a name in a world, in the order of the graph. -/
def definitionsIn (g : Graph) (w : World) (name : String) : List Node :=
  g.nodes.filter fun n => n.kind.isDefinition && decide (n.world = w ∧ n.label = name)

/-- The owner of the world `w` lives in the world `p`. -/
def Around (g : Graph) (w p : World) : Prop :=
  ∃ n ∈ g.nodes, n.ownWorld? = some w ∧ n.world = p

/-- A name in the world `w` means the definition `d`: the last one in the first world outward that
defines the name. -/
inductive Sees (g : Graph) (name : String) : World → Node → Prop where
  | here {w : World} {d : Node} (last : (g.definitionsIn w name).getLast? = some d) :
    Sees g name w d
  | outward {w p : World} {d : Node} (absent : g.definitionsIn w name = []) (around : g.Around w p)
    (further : Sees g name p d) : Sees g name w d

variable {g : Graph} {w p : World} {name : String} {d : Node}

theorem Sees.mem (h : g.Sees name w d) : d ∈ g.nodes ∧ d.kind.isDefinition = true := by
  induction h with
  | here last =>
    obtain ⟨hd, hk⟩ := List.mem_filter.mp (List.mem_of_getLast? last)
    rw [Bool.and_eq_true] at hk
    exact ⟨hd, hk.1⟩
  | outward _ _ _ ih => exact ih

theorem exists_sees_iff : (∃ d, g.Sees name w d) ↔
    ∃ p, Relation.ReflTransGen g.Around w p ∧ g.definitionsIn p name ≠ [] := by
  constructor
  · rintro ⟨d, h⟩
    induction h with
    | @here w d last => exact ⟨w, .refl, fun hnil => by simp [hnil] at last⟩
    | outward _ around _ ih =>
      obtain ⟨p, hp, hne⟩ := ih
      exact ⟨p, .head around hp, hne⟩
  · rintro ⟨p, hp, hne⟩
    induction hp using Relation.ReflTransGen.head_induction_on with
    | refl => exact ⟨_, .here (List.getLast?_eq_some_getLast hne)⟩
    | @head w v around _ ih =>
      by_cases hnil : g.definitionsIn w name = []
      · obtain ⟨d, hd⟩ := ih
        exact ⟨d, .outward hnil around hd⟩
      · exact ⟨_, .here (List.getLast?_eq_some_getLast hnil)⟩

theorem local?_eq (g : Graph) (w : World) (name : String) : (Definitions.ofGraph g).local? w name =
    (g.definitionsIn w name).getLast?.map (·.id) := by
  rw [Definitions.local?_ofGraph, List.getLast?_map]
  rfl

theorem parent?_iff (hg : g.ids.Nodup) : (WorldTree.ofGraph g).parent? w = some p ↔ g.Around w p := by
  constructor
  · intro h
    rw [WorldTree.parent?_ofGraph] at h
    obtain ⟨n, hn, hp⟩ := List.mem_map.mp (List.mem_of_getLast? h)
    obtain ⟨hn, ho⟩ := List.mem_filter.mp hn
    exact ⟨n, hn, by simpa using ho, hp⟩
  · rintro ⟨n, hn, ho, rfl⟩
    unfold Node.ownWorld? at ho
    split at ho
    · rename_i howns
      rw [← Option.some.inj ho]
      exact WorldTree.parent?_body hg hn howns
    · cases ho

theorem sees_of_found (hg : g.ids.Nodup) {w : World}
    (h : (w :: (WorldTree.ofGraph g).above seen w).findSome?
      (fun v => (Definitions.ofGraph g).local? v name) = some id) :
    ∃ d, g.Sees name w d ∧ d.id = id := by
  generalize hvs : (WorldTree.ofGraph g).above seen w = vs at h
  induction vs generalizing seen w with
  | nil =>
    rw [List.findSome?_singleton, local?_eq, Option.map_eq_some_iff] at h
    obtain ⟨d, last, hid⟩ := h
    exact ⟨d, .here last, hid⟩
  | cons v vs ih =>
    rcases (WorldTree.ofGraph g).above_cases seen w with hnone | ⟨p, hp, hnext⟩
    · cases hnone.symm.trans hvs
    obtain ⟨rfl, rfl⟩ := List.cons.inj (hnext.symm.trans hvs)
    rw [List.findSome?_cons, local?_eq] at h
    cases hlast : (g.definitionsIn w name).getLast? with
    | some d =>
      rw [hlast] at h
      exact ⟨d, .here hlast, Option.some.inj h⟩
    | none =>
      rw [hlast] at h
      obtain ⟨d, hd, hid⟩ := ih rfl h
      exact ⟨d, .outward (List.getLast?_eq_none_iff.mp hlast) ((parent?_iff hg).mp hp) hd, hid⟩

theorem not_sees_of_closed {ws : List World} (absent : ∀ v ∈ ws, g.definitionsIn v name = [])
    (closed : ∀ v ∈ ws, ∀ p, g.Around v p → p ∈ ws) (hw : w ∈ ws) : ¬ g.Sees name w d := by
  intro h
  induction h with
  | here last =>
    rw [absent _ hw] at last
    cases last
  | outward _ around _ ih => exact ih (closed _ hw _ around)

/-- The chain of worlds finds what is in sight. Behind `w` the chain has passed the worlds `seen`:
none of them defines the name, and each leads to another one of them. -/
theorem found_of_sees (hg : g.ids.Nodup) (hw : w ∈ seen)
    (absent : ∀ v ∈ seen, v ≠ w → g.definitionsIn v name = [])
    (passed : ∀ v ∈ seen, v ≠ w → ∀ p, g.Around v p → p ∈ seen) (h : g.Sees name w d) :
    (w :: (WorldTree.ofGraph g).above seen w).findSome?
      (fun v => (Definitions.ofGraph g).local? v name) = some d.id := by
  induction h generalizing seen with
  | here last => rw [List.findSome?_cons, local?_eq, last, Option.map_some]
  | @outward w p d habsent around further ih =>
    have hp : (WorldTree.ofGraph g).parent? w = some p := (parent?_iff hg).mpr around
    have habsent' : ∀ v ∈ seen, g.definitionsIn v name = [] := by
      intro v hv
      by_cases hvw : v = w
      · exact hvw ▸ habsent
      · exact absent v hv hvw
    have hpassed : ∀ v ∈ seen, ∀ q, g.Around v q → q = p ∨ q ∈ seen := by
      intro v hv q hq
      by_cases hvw : v = w
      · rw [hvw, ← parent?_iff hg, hp] at hq
        exact .inl (Option.some.inj hq).symm
      · exact .inr (passed v hv hvw q hq)
    have hnew : p ∉ seen := by
      intro hin
      refine not_sees_of_closed habsent' (fun v hv q hq => ?_) hin further
      rcases hpassed v hv q hq with rfl | hq
      · exact hin
      · exact hq
    rw [List.findSome?_cons, local?_eq, habsent, List.getLast?_nil, Option.map_none,
      WorldTree.above_of_new hp hnew]
    refine ih List.mem_cons_self (fun v hv hvp => ?_) (fun v hv hvp q hq => ?_)
    · exact habsent' v ((List.mem_cons.mp hv).resolve_left hvp)
    · exact List.mem_cons.mpr (hpassed v ((List.mem_cons.mp hv).resolve_left hvp) q hq)

theorem lookup_eq_some_iff (hg : g.ids.Nodup) :
    (Definitions.ofGraph g).lookup (WorldTree.ofGraph g) w name = some id ↔
      ∃ d, g.Sees name w d ∧ d.id = id := by
  refine ⟨sees_of_found hg, ?_⟩
  rintro ⟨d, h, rfl⟩
  refine found_of_sees hg (List.mem_singleton.mpr rfl) ?_ ?_ h
  · intro v hv hne
    exact absurd (List.mem_singleton.mp hv) hne
  · intro v hv hne
    exact absurd (List.mem_singleton.mp hv) hne

/-- Some argument with an index or a keyword is wired to the node. -/
def HasArguments (g : Graph) (id : NodeId) : Prop :=
  ∃ e ∈ g.edgesTo id, ∃ index keyword, e.kind = .argument index keyword ∧
    (index ≠ none ∨ keyword ≠ none)

/-- The parameters `arg0`, .. up to the largest index, and then the keywords in the order of the
edges, each once. -/
def inferredParams (g : Graph) (id : NodeId) : List Param :=
  let es := g.edgesTo id
  ((argumentIndices es).max?.elim [] fun last =>
    (List.range (last + 1)).map fun i => .required ("arg" ++ toString i)) ++
  (argumentKeywords es).eraseDups.map .required

theorem foldl_max_succ (is : List Nat) (m : Nat) :
    is.foldl (fun m i => max m (i + 1)) (m + 1) = is.foldl max m + 1 := by
  induction is generalizing m with
  | nil => rfl
  | cons i is ih => rw [List.foldl_cons, List.foldl_cons, ← ih, Nat.add_max_add_right]

theorem distinct_eq_eraseDups {α : Type} [DecidableEq α] (xs : List α) :
    distinct xs = xs.eraseDups := by
  induction xs using List.reverseRecOn with
  | nil => rfl
  | append_singleton xs x ih =>
    rw [distinct_snoc, List.eraseDups_append, List.removeAll, List.filter_singleton, ← ih]
    by_cases hx : x ∈ xs
    · simp [hx, mem_distinct]
    · simp [hx, mem_distinct, List.eraseDups_cons]

theorem suggestedParams_eq_inferred (g : Graph) (id : NodeId) :
    g.suggestedParams id = g.inferredParams id := by
  simp only [suggestedParams, inferredParams, distinct_eq_eraseDups]
  cases argumentIndices (g.edgesTo id) with
  | nil => rfl
  | cons i is =>
    rw [List.foldl_cons, Nat.zero_max, foldl_max_succ, List.max?_cons']
    rfl

theorem argumentIndices_eq_nil {es : List Edge} : argumentIndices es = [] ↔
    ∀ e ∈ es, ∀ index keyword, e.kind = .argument index keyword → index = none := by
  rw [argumentIndices, List.filterMap_eq_nil_iff]
  refine forall₂_congr fun e _ => ?_
  cases e.kind <;> simp

theorem argumentKeywords_eq_nil {es : List Edge} : argumentKeywords es = [] ↔
    ∀ e ∈ es, ∀ index keyword, e.kind = .argument index keyword → keyword = none := by
  rw [argumentKeywords, List.filterMap_eq_nil_iff]
  refine forall₂_congr fun e _ => ?_
  cases e.kind <;> simp

theorem inferredParams_eq_nil : g.inferredParams id = [] ↔
    argumentIndices (g.edgesTo id) = [] ∧ argumentKeywords (g.edgesTo id) = [] := by
  rw [inferredParams, List.append_eq_nil_iff, List.map_eq_nil_iff, ← distinct_eq_eraseDups]
  refine and_congr ?_ ?_
  · cases argumentIndices (g.edgesTo id) with
    | nil => simp
    | cons i is => simp [List.range_succ]
  · simp only [List.eq_nil_iff_forall_not_mem, mem_distinct]

theorem inferredParams_ne_nil_iff : g.inferredParams id ≠ [] ↔ g.HasArguments id := by
  rw [← not_iff_not, not_not, inferredParams_eq_nil, argumentIndices_eq_nil,
    argumentKeywords_eq_nil]
  constructor
  · rintro ⟨hi, hk⟩ ⟨e, he, index, keyword, hkind, h | h⟩
    · exact h (hi e he index keyword hkind)
    · exact h (hk e he index keyword hkind)
  · intro h
    refine ⟨fun e he index keyword hkind => ?_, fun e he index keyword hkind => ?_⟩
    · by_contra hne
      exact h ⟨e, he, index, keyword, hkind, .inl hne⟩
    · by_contra hne
      exact h ⟨e, he, index, keyword, hkind, .inr hne⟩

/-- A call of a function whose name means the definition `d`. -/
def Calls (g : Graph) (n d : Node) : Prop :=
  ∃ site, n.payload = .call site ∧ site.isMethod = false ∧ g.Sees n.label n.world d

/-- A call of a function with a definition of its name in its world or in a world outward. -/
def Defined (g : Graph) (n : Node) : Prop :=
  ∃ site, n.payload = .call site ∧ site.isMethod = false ∧
    ∃ p, Relation.ReflTransGen g.Around n.world p ∧ g.definitionsIn p n.label ≠ []

/-- Any other call, when it has neither target nor parameters but arguments. -/
def Unbound (g : Graph) (n : Node) : Prop :=
  ∃ site, n.payload = .call site ∧ ¬ g.Defined n ∧ site.target = none ∧ site.params = [] ∧
    g.HasArguments n.id

/-- What a node becomes when the calls `ids` are linked. -/
inductive Relinks (g : Graph) (ids : List NodeId) : Node → Node → Prop where
  | linked {n d : Node} {site : CallSite} (given : n.id ∈ ids) (call : n.payload = .call site)
    (function : site.isMethod = false) (sees : g.Sees n.label n.world d) :
    Relinks g ids n { n with
      payload := .call { site with target := some (.body d.id), params := d.params } }
  | hydrated {n : Node} {site : CallSite} (given : n.id ∈ ids) (call : n.payload = .call site)
    (unbound : g.Unbound n) :
    Relinks g ids n { n with payload := .call { site with params := g.inferredParams n.id } }
  | kept {n : Node} (other : n.id ∈ ids → ¬ g.Defined n ∧ ¬ g.Unbound n) : Relinks g ids n n

variable {n : Node} {ids : List NodeId}

theorem payload_of_site {site : CallSite} (h : n.site? = some site) : n.payload = .call site := by
  unfold Node.site? at h
  split at h
  · rename_i hp
    rw [hp, Option.some.inj h]
  · cases h

theorem defined_iff : g.Defined n ↔ ∃ d, g.Calls n d := by
  constructor
  · rintro ⟨site, hn, hm, hp⟩
    obtain ⟨d, hd⟩ := exists_sees_iff.mpr hp
    exact ⟨d, site, hn, hm, hd⟩
  · rintro ⟨d, site, hn, hm, hd⟩
    exact ⟨site, hn, hm, exists_sees_iff.mp ⟨d, hd⟩⟩

theorem linkOf_iff (hg : g.ids.Nodup) {l : CallLink} :
    g.linkOf (WorldTree.ofGraph g) (Definitions.ofGraph g) n = some l ↔
      ∃ d, g.Calls n d ∧ l = ⟨n.id, .body d.id, d.params⟩ := by
  constructor
  · intro h
    unfold linkOf at h
    split at h
    · cases h
    · rename_i site hs
      split at h
      · cases h
      · rename_i hm
        split at h
        · cases h
        · rename_i id hid
          obtain ⟨d, hd, rfl⟩ := (lookup_eq_some_iff hg).mp hid
          rw [node?_of_mem hg hd.mem.1] at h
          exact ⟨d, ⟨site, payload_of_site hs, by simpa using hm, hd⟩, (Option.some.inj h).symm⟩
  · rintro ⟨d, ⟨site, hn, hm, hd⟩, rfl⟩
    have hid := (lookup_eq_some_iff hg).mpr ⟨d, hd, rfl⟩
    have hs : n.site? = some site := by rw [Node.site?, hn]
    simp [linkOf, hs, hm, hid, node?_of_mem hg hd.mem.1]

theorem linkOf_eq_none_iff (hg : g.ids.Nodup) :
    g.linkOf (WorldTree.ofGraph g) (Definitions.ofGraph g) n = none ↔ ¬ g.Defined n := by
  rw [defined_iff, ← not_iff_not, not_not, ← ne_eq, Option.ne_none_iff_exists']
  constructor
  · rintro ⟨l, hl⟩
    obtain ⟨d, hd, -⟩ := (linkOf_iff hg).mp hl
    exact ⟨d, hd⟩
  · rintro ⟨d, hd⟩
    exact ⟨_, (linkOf_iff hg).mpr ⟨d, hd, rfl⟩⟩

theorem settled_of_calls (hg : g.ids.Nodup) (h : g.Calls n d) :
    g.settled n = linkedBy ⟨n.id, .body d.id, d.params⟩ n := by
  rw [settled, (linkOf_iff hg).mpr ⟨d, h, rfl⟩]

theorem settled_of_not_defined (hg : g.ids.Nodup) (h : ¬ g.Defined n) :
    g.settled n = hydratedBy (g.inferredParams n.id) n := by
  rw [settled, (linkOf_eq_none_iff hg).mpr h, suggestedParams_eq_inferred]

theorem unbound_iff : g.Unbound n ↔ ¬ g.Defined n ∧
    ((n.site?.any fun s => s.target.isNone && s.params.isEmpty) &&
      !(g.inferredParams n.id).isEmpty) = true := by
  have hargs : (!(g.inferredParams n.id).isEmpty) = true ↔ g.HasArguments n.id := by
    rw [← inferredParams_ne_nil_iff]
    simp
  rw [Bool.and_eq_true, hargs]
  constructor
  · rintro ⟨site, hn, hd, ht, hp, ha⟩
    exact ⟨hd, by simp [Node.site?, hn, ht, hp], ha⟩
  · rintro ⟨hd, hs, ha⟩
    obtain ⟨site, hs, hbare⟩ := (Option.any_eq_true ..).mp hs
    simp at hbare
    exact ⟨site, payload_of_site hs, hd, hbare.1, hbare.2, ha⟩

theorem relinks_settled (hg : g.ids.Nodup) (hid : n.id ∈ ids) : g.Relinks ids n (g.settled n) := by
  by_cases hd : g.Defined n
  · obtain ⟨d, hcalls⟩ := defined_iff.mp hd
    rw [settled_of_calls hg hcalls]
    obtain ⟨site, hn, hm, hsees⟩ := hcalls
    have hmap : linkedBy ⟨n.id, .body d.id, d.params⟩ n = { n with
        payload := .call { site with target := some (.body d.id), params := d.params } } := by
      rw [linkedBy, Node.mapSite, hn]
    rw [hmap]
    exact .linked hid hn hm hsees
  · rw [settled_of_not_defined hg hd]
    by_cases hu : g.Unbound n
    · rw [hydratedBy, if_pos (unbound_iff.mp hu).2]
      obtain ⟨site, hn, -⟩ := id hu
      rw [Node.mapSite, hn]
      exact .hydrated hid hn hu
    · rw [hydratedBy, if_neg fun h => hu (unbound_iff.mpr ⟨hd, h⟩)]
      exact .kept fun _ => ⟨hd, hu⟩

theorem relinks_linkOn (hg : g.ids.Nodup) (ids : List NodeId) :
    List.Forall₂ (g.Relinks ids) g.nodes (g.linkOn ids).1.nodes := by
  rw [nodes_linkOn hg, List.forall₂_map_right_iff, List.forall₂_same]
  intro n hn
  split
  · rename_i hid
    exact relinks_settled hg hid
  · rename_i hid
    exact .kept fun h => absurd h hid

theorem ncard_eq_countP {α : Type} [DecidableEq α] {xs : List α} (h : xs.Nodup) {q : α → Bool}
    {P : α → Prop} (hP : ∀ x, P x ↔ x ∈ xs ∧ q x = true) : {x | P x}.ncard = xs.countP q := by
  have hset : {x | P x} = ((xs.filter q).toFinset : Set α) := by
    ext x
    simp [hP x]
  rw [hset, Set.ncard_coe_finset, List.toFinset_card_of_nodup (h.filter q),
    List.countP_eq_length_filter]

theorem nodup_nodes (hg : g.ids.Nodup) : g.nodes.Nodup := List.Nodup.of_map _ hg

theorem total_linkOn (g : Graph) (ids : List NodeId) :
    (g.linkOn ids).2.total = {id | id ∈ ids}.ncard := by
  have htrue : ∀ id, id ∈ ids ↔ id ∈ distinct ids ∧ (fun _ => true) id = true := by
    simp [mem_distinct]
  rw [ncard_eq_countP (nodup_distinct ids) htrue, List.countP_true]
  rfl

theorem linked_linkOn (hg : g.ids.Nodup) (ids : List NodeId) : (g.linkOn ids).2.linked =
    {n | n ∈ g.nodes ∧ n.id ∈ ids ∧ g.Defined n}.ncard := by
  let L := g.linkOf (WorldTree.ofGraph g) (Definitions.ofGraph g)
  have happlied : (g.linksOn ids).countP (fun l => g.isCall l.call) = (g.linksOn ids).length := by
    refine List.countP_eq_length.mpr fun l hl => ?_
    obtain ⟨n, hn, hlink⟩ := List.mem_filterMap.mp hl
    obtain ⟨hcall, hs⟩ := linkOf_eq_some hlink
    rw [hcall, isCall, node?_of_mem hg (List.mem_filter.mp hn).1, Option.any_some, hs]
  have hlinked : (g.linkOn ids).2.linked =
      g.nodes.countP fun n => (L n).isSome && decide (n.id ∈ distinct ids) := by
    refine happlied.trans ?_
    rw [linksOn, List.length_filterMap_eq_countP, List.countP_filter]
  rw [hlinked, ncard_eq_countP (nodup_nodes hg) fun n => ?_]
  rw [Bool.and_eq_true, decide_eq_true_iff, mem_distinct, and_comm (b := n.id ∈ ids),
    Option.isSome_iff_ne_none, ne_eq, linkOf_eq_none_iff hg, not_not]

theorem methods_linkOn (hg : g.ids.Nodup) (ids : List NodeId) : (g.linkOn ids).2.methods =
    {n | n ∈ g.nodes ∧ n.id ∈ ids ∧ isMethodCall n = true}.ncard := by
  have hmethods : (g.linkOn ids).2.methods =
      g.nodes.countP fun n => isMethodCall n && decide (n.id ∈ distinct ids) := List.countP_filter ..
  rw [hmethods, ncard_eq_countP (nodup_nodes hg) fun n => ?_]
  rw [Bool.and_eq_true, decide_eq_true_iff, mem_distinct, and_comm (b := n.id ∈ ids)]

theorem suggestedParams_targeted (g : Graph) (ids : List NodeId) (id : NodeId) :
    (g.targeted ids).suggestedParams id = g.inferredParams id := by
  rw [← suggestedParams_eq_inferred]
  simp only [suggestedParams, edgesTo, edges_targeted]

theorem hydrates_targeted (hg : g.ids.Nodup) (hn : n ∈ g.nodes) (hid : n.id ∈ ids) :
    (g.targeted ids).hydrates n.id = true ↔ g.Unbound n := by
  let m := ((g.linkOf (WorldTree.ofGraph g) (Definitions.ofGraph g) n).map (linkedBy · n)).getD n
  have hm : m ∈ (g.targeted ids).nodes := by
    rw [nodes_targeted hg]
    exact List.mem_map.mpr ⟨n, hn, if_pos hid⟩
  have hmid : m.id = n.id := by
    cases hl : g.linkOf (WorldTree.ofGraph g) (Definitions.ofGraph g) n <;> simp [m, hl]
  have hnode : (g.targeted ids).node? n.id = some m :=
    hmid ▸ node?_of_mem ((ids_targeted hg ids).symm ▸ hg) hm
  rw [hydrates, needsParams, hnode, Option.any_some, suggestedParams_targeted, unbound_iff]
  by_cases hd : g.Defined n
  · obtain ⟨d, hcalls⟩ := defined_iff.mp hd
    have hlink : m = linkedBy ⟨n.id, .body d.id, d.params⟩ n := by
      simp only [m, (linkOf_iff hg).mpr ⟨d, hcalls, rfl⟩, Option.map_some, Option.getD_some]
    obtain ⟨site, hp, -⟩ := hcalls
    simp [hd, hlink, linkedBy, Node.mapSite, hp, Node.site?]
  · have hkeep : m = n := by
      simp only [m, (linkOf_eq_none_iff hg).mpr hd, Option.map_none, Option.getD_none]
    rw [hkeep]
    exact (and_iff_right hd).symm

theorem mem_ids_of_hydrates (h : g.hydrates id = true) : id ∈ g.ids := by
  rw [hydrates, needsParams, Bool.and_eq_true] at h
  obtain ⟨n, hn, -⟩ := (Option.any_eq_true ..).mp h.1
  have hid : n.id = id := by simpa using List.find?_some hn
  exact List.mem_map.mpr ⟨n, List.mem_of_find?_eq_some hn, hid⟩

theorem hydrated_linkOn (hg : g.ids.Nodup) (ids : List NodeId) : (g.linkOn ids).2.hydrated =
    {n | n ∈ g.nodes ∧ n.id ∈ ids ∧ g.Unbound n}.ncard := by
  have hids : {n | n ∈ g.nodes ∧ n.id ∈ ids ∧ g.Unbound n}.ncard =
      {id | ∃ n, (n ∈ g.nodes ∧ n.id ∈ ids ∧ g.Unbound n) ∧ n.id = id}.ncard :=
    (Set.InjOn.ncard_image fun n hn m hm => List.inj_on_of_nodup_map hg hn.1 hm.1).symm
  rw [hids, ncard_eq_countP (nodup_distinct ids) fun id => ?_]
  · rfl
  rw [mem_distinct]
  constructor
  · rintro ⟨n, ⟨hn, hid, hu⟩, rfl⟩
    exact ⟨hid, (hydrates_targeted hg hn hid).mpr hu⟩
  · rintro ⟨hid, hh⟩
    obtain ⟨n, hn, rfl⟩ := List.mem_map.mp (ids_targeted hg ids ▸ mem_ids_of_hydrates hh)
    exact ⟨n, ⟨hn, hid, (hydrates_targeted hg hn hid).mp hh⟩, rfl⟩

theorem linked_add_methods_le (hg : g.ids.Nodup) (ids : List NodeId) :
    (g.linkOn ids).2.linked + (g.linkOn ids).2.methods ≤ (g.linkOn ids).2.total := by
  have hfinite : ∀ P : Node → Prop, {n | n ∈ g.nodes ∧ P n}.Finite := fun P =>
    (List.finite_toSet g.nodes).subset fun n hn => hn.1
  have hdisjoint : Disjoint {n | n ∈ g.nodes ∧ n.id ∈ ids ∧ g.Defined n}
      {n | n ∈ g.nodes ∧ n.id ∈ ids ∧ isMethodCall n = true} := by
    rw [Set.disjoint_left]
    rintro n ⟨-, -, site, hp, hm, -⟩ ⟨-, -, hmethod⟩
    simp [isMethodCall, Node.site?, hp, hm] at hmethod
  have hids : Set.InjOn (·.id) ({n | n ∈ g.nodes ∧ n.id ∈ ids ∧ g.Defined n} ∪
      {n | n ∈ g.nodes ∧ n.id ∈ ids ∧ isMethodCall n = true}) := by
    rintro n hn m hm
    exact List.inj_on_of_nodup_map hg (hn.elim (·.1) (·.1)) (hm.elim (·.1) (·.1))
  rw [linked_linkOn hg, methods_linkOn hg, total_linkOn,
    ← Set.ncard_union_eq hdisjoint (hfinite _) (hfinite _), ← hids.ncard_image]
  refine Set.ncard_le_ncard ?_ (List.finite_toSet ids)
  rintro id ⟨n, hn, rfl⟩
  exact hn.elim (·.2.1) (·.2.1)

/-- What linking the calls `ids` has to do: the nodes become what they should and the edges stay.
The report counts the ids, the calls with a definition in sight, the calls that take inferred
parameters and the methods; the other calls are what is left. -/
structure LinksAs (g : Graph) (ids : List NodeId) (g' : Graph) (r : LinkReport) : Prop where
  nodes : List.Forall₂ (g.Relinks ids) g.nodes g'.nodes
  edges : g'.edges = g.edges
  total : r.total = {id | id ∈ ids}.ncard
  linked : r.linked = {n | n ∈ g.nodes ∧ n.id ∈ ids ∧ g.Defined n}.ncard
  hydrated : r.hydrated = {n | n ∈ g.nodes ∧ n.id ∈ ids ∧ g.Unbound n}.ncard
  methods : r.methods = {n | n ∈ g.nodes ∧ n.id ∈ ids ∧ isMethodCall n = true}.ncard
  external : ∃ others, r.external = some others ∧ r.total = r.linked + r.methods + others

/-- Linking is correct in every graph with distinct ids, also where worlds lie around each other. -/
theorem linksAs_linkOn (hg : g.ids.Nodup) (ids : List NodeId) :
    LinksAs g ids (g.linkOn ids).1 (g.linkOn ids).2 where
  nodes := relinks_linkOn hg ids
  edges := edges_linkOn g ids
  total := total_linkOn g ids
  linked := linked_linkOn hg ids
  hydrated := hydrated_linkOn hg ids
  methods := methods_linkOn hg ids
  external := by
    have hle := linked_add_methods_le hg ids
    exact ⟨_, if_pos hle, by rw [Nat.sub_sub]; exact (Nat.add_sub_cancel' hle).symm⟩

/-- Two functions that live in the body of each other, the inner one defined twice; calls of both
and of a name that nothing defines, and a method. -/
def entwined : Graph where
  nodes := [
    ⟨⟨"f"⟩, "f", .body ⟨"g"⟩, .functionDef [.required "x"]⟩,
    ⟨⟨"g"⟩, "g", .body ⟨"f"⟩, .functionDef []⟩,
    ⟨⟨"h"⟩, "g", .body ⟨"f"⟩, .functionDef [.required "y"]⟩,
    ⟨⟨"inner"⟩, "g", .body ⟨"f"⟩, .call .function⟩,
    ⟨⟨"outer"⟩, "f", .body ⟨"f"⟩, .call .function⟩,
    ⟨⟨"free"⟩, "print", .body ⟨"f"⟩, .call .function⟩,
    ⟨⟨"method"⟩, "f", .body ⟨"f"⟩, .call .method⟩]
  edges := [⟨⟨"inner"⟩, ⟨"free"⟩, .positional 1⟩, ⟨⟨"outer"⟩, ⟨"free"⟩, .keyword "sep"⟩]

def entwinedCalls : List NodeId := [⟨"inner"⟩, ⟨"outer"⟩, ⟨"free"⟩, ⟨"method"⟩, ⟨"free"⟩]

theorem linksAs_entwined : entwined.ids.Nodup ∧
    (entwined.linkOn entwinedCalls).1.nodes.filterMap Node.site? =
      [⟨false, some (.body ⟨"h"⟩), [.required "y"], .empty⟩,
        ⟨false, some (.body ⟨"f"⟩), [.required "x"], .empty⟩,
        ⟨false, none, [.required "arg0", .required "arg1", .required "sep"], .empty⟩,
        ⟨true, none, [], .empty⟩] ∧
    (entwined.linkOn entwinedCalls).2 = ⟨4, 2, 1, 1, some 1⟩ ∧
    LinksAs entwined entwinedCalls (entwined.linkOn entwinedCalls).1 (entwined.linkOn entwinedCalls).2 :=
  ⟨by decide, by decide +kernel, by decide +kernel, linksAs_linkOn (by decide) entwinedCalls⟩

section Again

theorem kind_mapSite (f : CallSite → CallSite) (n : Node) : (n.mapSite f).kind = n.kind := by
  obtain ⟨id, label, world, payload⟩ := n
  cases payload <;> rfl

theorem kind_settled (g : Graph) (n : Node) : (g.settled n).kind = n.kind := by
  obtain ⟨f, hf⟩ := exists_mapSite g n
  rw [hf, kind_mapSite]

theorem settled_of_isDefinition (h : n.kind.isDefinition = true) : g.settled n = n := by
  refine settled_of_site (Option.not_isSome_iff_eq_none.mp ?_)
  rw [site?_isSome_iff]
  intro hk
  rw [hk] at h
  cases h

theorem definitionsIn_linkOn (hg : g.ids.Nodup) (ids : List NodeId) (w : World) (name : String) :
    (g.linkOn ids).1.definitionsIn w name = g.definitionsIn w name := by
  have hsame : ∀ n : Node, ((fun m : Node => m.kind.isDefinition &&
      decide (m.world = w ∧ m.label = name)) ∘ fun m => if m.id ∈ ids then g.settled m else m) n =
      (n.kind.isDefinition && decide (n.world = w ∧ n.label = name)) := by
    intro n
    simp only [Function.comp]
    split
    · rw [kind_settled, world_settled, label_settled]
    · rfl
  rw [definitionsIn, nodes_linkOn hg, List.filter_map, definitionsIn, funext hsame]
  refine (List.map_congr_left fun n hn => ?_).trans (List.map_id _)
  have hk := (List.mem_filter.mp hn).2
  rw [Bool.and_eq_true] at hk
  rw [settled_of_isDefinition hk.1, ite_self, id_eq]

theorem around_linkOn (hg : g.ids.Nodup) (ids : List NodeId) {w p : World} :
    (g.linkOn ids).1.Around w p ↔ g.Around w p := by
  have hown : ∀ n, (g.settled n).ownWorld? = n.ownWorld? := fun n => by
    rw [Node.ownWorld?, kind_settled, id_settled, Node.ownWorld?]
  simp only [Around, nodes_linkOn hg, List.mem_map, exists_exists_and_eq_and]
  refine exists_congr fun n => and_congr_right fun _ => ?_
  split
  · rw [hown, world_settled]
  · rfl

theorem Sees.transfer {g' : Graph} (hd : ∀ w, g'.definitionsIn w name = g.definitionsIn w name)
    (ha : ∀ w p, g.Around w p → g'.Around w p) (h : g.Sees name w d) : g'.Sees name w d := by
  induction h with
  | here last => exact .here ((hd _).symm ▸ last)
  | outward absent around _ ih => exact .outward ((hd _).trans absent) (ha _ _ around) ih

theorem sees_linkOn (hg : g.ids.Nodup) (ids : List NodeId) :
    (g.linkOn ids).1.Sees name w d ↔ g.Sees name w d :=
  ⟨Sees.transfer (fun w => (definitionsIn_linkOn hg ids w name).symm)
      fun _ _ => (around_linkOn hg ids).mp,
    Sees.transfer (fun w => definitionsIn_linkOn hg ids w name)
      fun _ _ => (around_linkOn hg ids).mpr⟩

theorem settled_linkOn (hg : g.ids.Nodup) (ids : List NodeId) (n : Node) :
    (g.linkOn ids).1.settled n = g.settled n := by
  have hg' : (g.linkOn ids).1.ids.Nodup := (ids_linkOn hg ids).symm ▸ hg
  have hlink : (g.linkOn ids).1.linkOf (WorldTree.ofGraph (g.linkOn ids).1)
      (Definitions.ofGraph (g.linkOn ids).1) n =
      g.linkOf (WorldTree.ofGraph g) (Definitions.ofGraph g) n := by
    refine Option.ext fun l => ?_
    simp only [linkOf_iff hg', linkOf_iff hg, Calls, sees_linkOn hg]
  have hparams : (g.linkOn ids).1.suggestedParams n.id = g.suggestedParams n.id := by
    simp only [suggestedParams, edgesTo, edges_linkOn]
  rw [settled, hlink, hparams, settled]

theorem linkOf_mapSite {ds : Definitions} {f : CallSite → CallSite}
    (hf : ∀ s, (f s).isMethod = s.isMethod) (n : Node) :
    g.linkOf t ds (n.mapSite f) = g.linkOf t ds n := by
  obtain ⟨id, label, world, payload⟩ := n
  cases payload with
  | call site => simp only [linkOf, Node.mapSite, Node.site?, hf]
  | _ => rfl

theorem linkedBy_linkedBy (l : CallLink) (n : Node) : linkedBy l (linkedBy l n) = linkedBy l n := by
  obtain ⟨id, label, world, payload⟩ := n
  cases payload <;> rfl

theorem linkOf_hydratedBy {ds : Definitions} (suggested : List Param) (n : Node) :
    g.linkOf t ds (hydratedBy suggested n) = g.linkOf t ds n := by
  unfold hydratedBy
  split
  · exact linkOf_mapSite (by intro s; rfl) n
  · rfl

theorem hydratedBy_hydratedBy (suggested : List Param) (n : Node) :
    hydratedBy suggested (hydratedBy suggested n) = hydratedBy suggested n := by
  by_cases hc : ((n.site?.any fun s => s.target.isNone && s.params.isEmpty) &&
      !suggested.isEmpty) = true
  · obtain ⟨id, label, world, payload⟩ := n
    cases payload with
    | call site =>
      rw [hydratedBy, hydratedBy, if_pos hc]
      rw [Bool.and_eq_true] at hc
      simp [Node.mapSite, Node.site?]
    | _ => rfl
  · have hkeep : hydratedBy suggested n = n := if_neg hc
    rw [hkeep, hkeep]

theorem settled_settled (g : Graph) (n : Node) : g.settled (g.settled n) = g.settled n := by
  cases hl : g.linkOf (WorldTree.ofGraph g) (Definitions.ofGraph g) n with
  | some l =>
    have hn : g.settled n = linkedBy l n := by rw [settled, hl]
    have hagain : g.linkOf (WorldTree.ofGraph g) (Definitions.ofGraph g) (linkedBy l n) = some l :=
      (linkOf_mapSite (by intro s; rfl) n).trans hl
    rw [hn, settled, hagain]
    exact linkedBy_linkedBy l n
  | none =>
    have hn : g.settled n = hydratedBy (g.suggestedParams n.id) n := by rw [settled, hl]
    rw [hn, settled, linkOf_hydratedBy, hl, id_hydratedBy]
    exact hydratedBy_hydratedBy _ n

theorem linkOn_linkOn (hg : g.ids.Nodup) (first second : List NodeId) :
    ((g.linkOn first).1.linkOn second).1 = (g.linkOn (first ++ second)).1 := by
  have hg' : (g.linkOn first).1.ids.Nodup := (ids_linkOn hg first).symm ▸ hg
  refine eq_of_parts ?_ (by simp only [edges_linkOn])
  rw [nodes_linkOn hg', nodes_linkOn hg, nodes_linkOn hg, List.map_map]
  refine List.map_congr_left fun n _ => ?_
  simp only [Function.comp, settled_linkOn hg, List.mem_append]
  by_cases hfirst : n.id ∈ first
  · simp [hfirst, settled_settled]
  · simp [hfirst]

theorem linkOn_congr (hg : g.ids.Nodup) {ids ids' : List NodeId} (h : ∀ id, id ∈ ids' ↔ id ∈ ids) :
    (g.linkOn ids').1 = (g.linkOn ids).1 := by
  refine eq_of_parts ?_ (by simp only [edges_linkOn])
  simp only [nodes_linkOn hg, h]

theorem link_link (hg : g.ids.Nodup) : g.link.1.link.1 = g.link.1 := by
  refine eq_of_parts ?_ (by simp only [edges_link])
  have hsettled : ∀ n, g.link.1.settled n = g.settled n := settled_linkOn hg _
  rw [nodes_link ((ids_link hg).symm ▸ hg), nodes_link hg, List.map_map]
  refine List.map_congr_left fun n _ => ?_
  rw [Function.comp, hsettled, settled_settled]

/-- Linking some calls and then others does what linking all of them should do and gives the same
graph as that, in any order of the ids. Linking a linked graph changes nothing. -/
theorem linkOn_again (hg : g.ids.Nodup) (first second : List NodeId) :
    List.Forall₂ (g.Relinks (first ++ second)) g.nodes ((g.linkOn first).1.linkOn second).1.nodes ∧
    (∀ ids, (∀ id, id ∈ ids ↔ id ∈ first ∨ id ∈ second) →
      (g.linkOn ids).1 = ((g.linkOn first).1.linkOn second).1) ∧
    g.link.1.link.1 = g.link.1 := by
  rw [linkOn_linkOn hg]
  refine ⟨relinks_linkOn hg _, fun ids h => linkOn_congr hg fun id => ?_, link_link hg⟩
  rw [h, List.mem_append]

/-- The calls among the two functions, one of them linked twice. -/
theorem linkOn_again_entwined : entwined.ids.Nodup ∧
    (entwined.linkOn [⟨"free"⟩, ⟨"inner"⟩]).1 ≠ entwined ∧
    (entwined.linkOn [⟨"method"⟩, ⟨"outer"⟩, ⟨"inner"⟩, ⟨"free"⟩]).1 =
      ((entwined.linkOn [⟨"free"⟩, ⟨"inner"⟩]).1.linkOn [⟨"inner"⟩, ⟨"outer"⟩, ⟨"method"⟩]).1 := by
  refine ⟨by decide, by decide +kernel, ?_⟩
  refine (linkOn_again (by decide) [⟨"free"⟩, ⟨"inner"⟩] [⟨"inner"⟩, ⟨"outer"⟩, ⟨"method"⟩]).2.1 _ ?_
  intro id
  simp only [List.mem_cons, List.not_mem_nil, or_false]
  tauto

end Again

end Graph

end ScopedFlow
