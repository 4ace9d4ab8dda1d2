import ScopedFlow.Proofs.CallBinding
import ScopedFlow.Proofs.Consumers
import ScopedFlow.Proofs.Containers
import ScopedFlow.Proofs.Linking

/-!
# What a call passes on after one of its slots is set

The edge that is written is one of the call's arguments, and no other argument changes: the values
of the others do not hang on it. So the parameter of the slot gets the text exactly if that argument
belongs to it.
-/

namespace ScopedFlow

open Relation

variable {i : Nat} {id : NodeId}

namespace Wiring

theorem keywords_filter (es : List Edge) (key : ArgKey) :
    (ofEdges es).keywords.filter (fun k => ArgKey.keyword k.1 ≠ key) =
      (ofEdges (es.filter fun e => e.kind.argKey? ≠ some key)).keywords := by
  induction es using List.reverseRecOn with
  | nil => rfl
  | append_singleton es e ih =>
    have hadd (es : List Edge) : ofEdges (es ++ [e]) = (ofEdges es).add e := List.foldl_concat ..
    rw [List.filter_append, hadd]
    obtain ⟨source, target, kind⟩ := e
    have hskip (h : ∀ name, kind.argKey? ≠ some (.keyword name)) (w : Wiring) :
        (w.add ⟨source, target, kind⟩).keywords = w.keywords := by
      cases kind with
      | argument index keyword =>
        cases keyword with
        | some name => exact absurd rfl (h name)
        | none => cases index <;> rfl
      | _ => rfl
    by_cases hkey : kind.argKey? = some key
    · rw [List.filter_cons_of_neg (by simpa using hkey), List.filter_nil, List.append_nil, ← ih]
      cases key with
      | position i =>
        rw [hskip (by simp [hkey])]
      | keyword name =>
        obtain ⟨index, rfl⟩ : ∃ index, kind = .argument index (some name) := by
          rcases kind with ⟨_ | index, _ | other⟩ | _ <;> simp_all [EdgeKind.argKey?]
        simp only [add]
        split
        · rfl
        · simp [List.filter_append]
    · rw [List.filter_cons_of_pos (by simpa using hkey), List.filter_nil, hadd]
      by_cases hname : ∃ name, kind.argKey? = some (.keyword name)
      · obtain ⟨name, hname⟩ := hname
        obtain ⟨index, rfl⟩ : ∃ index, kind = .argument index (some name) := by
          rcases kind with ⟨_ | index, _ | other⟩ | _ <;> simp_all [EdgeKind.argKey?]
        have hne : ArgKey.keyword name ≠ key := fun h => hkey (congrArg some h)
        have hany : ((ofEdges es).keywords.any fun k => k.1 = name) =
            ((ofEdges (es.filter fun e => e.kind.argKey? ≠ some key)).keywords.any
              fun k => k.1 = name) := by
          rw [← ih, Bool.eq_iff_iff]
          simp only [List.any_eq_true, List.mem_filter, decide_eq_true_eq]
          constructor
          · rintro ⟨k, hk, rfl⟩
            exact ⟨k, ⟨hk, hne⟩, rfl⟩
          · rintro ⟨k, ⟨hk, -⟩, rfl⟩
            exact ⟨k, hk, rfl⟩
        simp only [add]
        rw [← hany]
        split
        · exact ih
        · rw [List.filter_append, ih]
          simp [hne]
      · have hskip := hskip fun name h => hname ⟨name, h⟩
        rw [hskip, hskip, ih]

theorem Sorted.map_drop_positional {α : Type} {w : Wiring} {count : Nat} (hw : w.Sorted)
    (hpositions : ∀ i, (w.get? (.position i)).isSome = true ↔ i < count) (k : Nat)
    (f : NodeId → α) : (w.positional.drop k).map (fun p => f p.2) =
      ((List.range count).drop k).filterMap fun i => (w.get? (.position i)).map f := by
  have hnodup : (w.positional.map Prod.fst).Nodup := by
    rw [hw.map_fst_eq_range hpositions]
    exact List.nodup_range
  rw [← hw.map_fst_eq_range hpositions, ← List.map_drop, List.filterMap_map, ← List.filterMap_eq_map]
  apply List.filterMap_congr
  intro p hp
  have hfind : w.positional? p.1 = some p.2 :=
    (find?_fst_iff hnodup).mpr (List.mem_of_mem_drop hp)
  show some (f p.2) = (w.positional? p.1).map f
  rw [hfind, Option.map_some]

end Wiring

namespace Param

variable {params : List Param} {q : Seat}

theorem le_slot_of_mem_seatsFrom {slash star : Bool} {slot : Nat}
    (hq : q ∈ seatsFrom slash star slot params) (hi : q.slot = some i) : slot ≤ i := by
  induction params generalizing slash star slot with
  | nil => cases hq
  | cons p params ih =>
    unfold seatsFrom at hq
    cases hk : p.kind with
    | positional =>
      simp only [hk] at hq
      rcases List.mem_cons.mp hq with rfl | hq
      · cases star with
        | true => cases hi
        | false => exact Nat.le_of_eq (Option.some.inj hi)
      · have hle := ih hq
        split at hle <;> omega
    | _ =>
      simp only [hk] at hq
      exact ih hq

theorem pairwise_slot (params : List Param) (slash star : Bool) (slot : Nat) :
    (seatsFrom slash star slot params).Pairwise fun a b => ∀ i, a.slot = some i → b.slot ≠ some i := by
  induction params generalizing slash star slot with
  | nil => exact .nil
  | cons p params ih =>
    unfold seatsFrom
    cases hk : p.kind with
    | positional =>
      refine List.pairwise_cons.mpr ⟨?_, ih ..⟩
      intro q hq i hi hqi
      have hle := le_slot_of_mem_seatsFrom hq hqi
      cases star with
      | true => cases hi
      | false =>
        obtain rfl := Option.some.inj hi
        simp at hle
    | _ => exact ih ..

theorem seat_eq_of_slot {q' : Seat} (hq : q ∈ seats params) (hq' : q' ∈ seats params)
    (hi : q.slot = some i) (hi' : q'.slot = some i) : q' = q := by
  by_contra hne
  have hsymm : Std.Symm fun a b : Seat => ∀ i, a.slot = some i → b.slot ≠ some i :=
    ⟨fun a b hab i hb ha => hab i ha hb⟩
  exact (pairwise_slot params (hasSlash params) false 0).forall hq' hq hne i hi' hi

theorem slotFrom_eq {slash star : Bool} {slot : Nat} (hq : q ∈ seatsFrom slash star slot params)
    (hnames : ((seatsFrom slash star slot params).map (·.param.name)).Nodup) :
    (if star then none else slotFrom q.param.name params slot) = q.slot := by
  induction params generalizing slash star slot with
  | nil => cases hq
  | cons p params ih =>
    unfold seatsFrom at hq hnames
    unfold slotFrom
    cases hk : p.kind with
    | positional =>
      simp only [hk, List.map_cons, List.nodup_cons] at hq hnames
      rcases List.mem_cons.mp hq with rfl | hq
      · simp
      · have hne : p.name ≠ q.param.name := by
          intro heq
          exact hnames.1 (heq ▸ List.mem_map_of_mem hq)
        rw [← ih hq hnames.2]
        cases star with
        | true => rfl
        | false => simp [hne]
    | varArgs =>
      simp only [hk] at hq hnames
      rw [← ih hq hnames]
      simp
    | keywordOnly =>
      simp only [hk] at hq hnames
      rw [← ih hq hnames]
      simp
    | positionalOnly =>
      simp only [hk] at hq hnames
      rw [← ih hq hnames]
    | kwArgs =>
      simp only [hk] at hq hnames
      rw [← ih hq hnames]

theorem positionalSlot_eq (hq : q ∈ seats params)
    (hnames : ((seats params).map (·.param.name)).Nodup) :
    positionalSlot params q.param.name = q.slot := by
  have hslot := slotFrom_eq hq hnames
  rwa [if_neg Bool.false_ne_true] at hslot

theorem seat_eq_of_holds (hnames : ((seats params).map (·.param.name)).Nodup) {q' : Seat}
    (hq : q ∈ seats params) (hq' : q' ∈ seats params) {key : ArgKey} (h : q.Holds key)
    (h' : q'.Holds key) : q' = q := by
  cases key with
  | position i => exact seat_eq_of_slot hq hq' h h'
  | keyword name => exact List.inj_on_of_nodup_map hnames hq' hq (h'.2.trans h.2.symm)

/-- Arguments still fit after one of them is wired anew, or a keyword more than before. -/
theorem Fits.rewire {wired wired' : ArgKey → Option NodeId} {count : Nat}
    (h : Fits params wired count) {key : ArgKey} (hother : ∀ k, k ≠ key → wired' k = wired k)
    (hkey : (wired' key).isSome = true)
    (hposition : ∀ i, key = .position i → (wired key).isSome = true)
    (hplaced : (∃ q ∈ seats params, q.Holds key) ∨ ∃ p ∈ params, p.kind = key.collector)
    (hsingle : ∀ q ∈ seats params, q.Holds key → key = .keyword q.param.name →
      ∀ i, q.slot = some i → wired (.position i) = none) : Fits params wired' count := by
  have hpositions (i : Nat) : (wired' (.position i)).isSome = (wired (.position i)).isSome := by
    by_cases hi : .position i = key
    · rw [hi, hkey, hposition i hi.symm]
    · rw [hother _ hi]
  refine ⟨?_, ?_, ?_⟩
  · intro i
    rw [hpositions, h.positions]
  · intro k hk
    by_cases heq : k = key
    · exact heq ▸ hplaced
    · exact h.placed k (hother k heq ▸ hk)
  · intro q hq i hi hslot hname
    by_cases heq : .keyword q.param.name = key
    · have hholds : q.Holds key := heq ▸ ⟨hname, rfl⟩
      have hnone := hsingle q hq hholds heq.symm i hslot
      have hsome := (h.positions i).mpr hi
      rw [hnone] at hsome
      cases hsome
    · rw [hother _ heq]
      exact h.single q hq i hi hslot hname

end Param

namespace Graph

variable {g g' : Graph}

theorem Passes.leads {s t : NodeId} (h : g.Passes s t) : g.Leads s t := by
  obtain ⟨e, he, hs, ht, -⟩ := h
  exact ⟨e, he, hs, ht⟩

theorem lookup_snoc {m : Node} (hnodes : g'.nodes = g.nodes ++ [m]) (id : NodeId) :
    g'.lookup id = if m.id = id then some m else g.lookup id := by
  rw [lookup, hnodes, List.reverse_append, List.reverse_singleton, List.singleton_append,
    List.find?_cons]
  by_cases hid : m.id = id <;> simp [hid, lookup]

theorem lookup_map {f : Node → Node} (hf : ∀ m, (f m).id = m.id) (hnodes : g'.nodes = g.nodes.map f)
    (id : NodeId) : g'.lookup id = (g.lookup id).map f := by
  rw [lookup, hnodes, ← List.map_reverse, List.find?_map]
  simp only [Function.comp_def, hf]
  rfl

theorem eq_of_argKey {es : List Edge} (hkeys : (es.filterMap fun e => e.kind.argKey?).Nodup)
    {e e' : Edge} (he : e ∈ es) (he' : e' ∈ es) {key : ArgKey} (hkey : e.kind.argKey? = some key)
    (hkey' : e'.kind.argKey? = some key) : e = e' := by
  by_contra hne
  have hsymm : Std.Symm fun a a' : Edge => ∀ b, a.kind.argKey? = some b →
      ∀ b', a'.kind.argKey? = some b' → b ≠ b' :=
    ⟨fun a a' h b hb b' hb' => (h b' hb' b hb).symm⟩
  exact (List.pairwise_filterMap.mp hkeys).forall he he' hne key hkey key hkey' rfl

theorem find?_argKey {es : List Edge} (hkeys : (es.filterMap fun e => e.kind.argKey?).Nodup)
    {e : Edge} (he : e ∈ es) {key : ArgKey} (hkey : e.kind.argKey? = some key) :
    es.find? (fun e => e.kind.argKey? = some key) = some e := by
  cases hf : es.find? fun e => e.kind.argKey? = some key with
  | none => exact absurd (decide_eq_true hkey) (List.find?_eq_none.mp hf e he)
  | some d =>
    have hd := List.find?_some hf
    rw [eq_of_argKey hkeys (List.mem_of_find?_eq_some hf) he (of_decide_eq_true hd) hkey]

end Graph

namespace Workspace.Fed

open ScopedFlow.Graph

variable {s s' : Workspace} {n : Node} {slot text : String} {e : Edge}

theorem exists_key (h : Fed s n slot text e s') : ∃ key, e.kind.argKey? = some key ∧
    (key = .keyword slot ∨ ∃ i, key = .position i ∧ Param.positionalSlot n.params slot = some i) := by
  have hslot := h.isSlot_kind
  rcases hk : e.kind with ⟨index, _ | name⟩ | _
  · rcases index with _ | index
    · simp [hk, isSlot] at hslot
    · refine ⟨.position index, rfl, Or.inr ⟨index, rfl, ?_⟩⟩
      simpa [hk, isSlot] using hslot
  · refine ⟨.keyword name, rfl, Or.inl ?_⟩
    rw [hk] at hslot
    exact congrArg ArgKey.keyword (of_decide_eq_true hslot)
  all_goals simp [hk, isSlot] at hslot

section Edges

variable (hg : s.graph.Consistent) (hfresh : ∀ id ∈ s.graph.ids, s.supply.Spent id)

include hg hfresh

theorem edges_insertLiteral {g : Graph} (hsub : g.edges ⊆ s.graph.edges) (text : String) (w : World)
    (kind : EdgeKind) : (insertLiteral ⟨g, s.supply⟩ text w n.id kind).graph.edges =
      g.edges ++ [⟨Supply.idOf .literal s.supply.next, n.id, kind⟩] := by
  refine edges_addEdge_of_source (g := (insert ⟨g, s.supply⟩ .literal text w).2.graph) rfl ?_ n.id kind
  intro e he
  exact source_ne hg.ends (not_mem_ids hfresh (Nat.le_refl _) .literal) e (hsub he)

/-- The edge of the slot is there already, or it comes behind all others, perhaps in place of one. -/
theorem edges_cases (h : Fed s n slot text e s') :
    s'.graph.edges = s.graph.edges ∧ e ∈ s.graph.edgesTo n.id ∨
    (∃ old ∈ s.graph.edgesTo n.id, old.kind = e.kind ∧ e.target = n.id ∧ s'.graph.edges =
      s.graph.edges.filter (fun x => !joins old.source n.id (some e.kind) x) ++ [e]) ∨
    s.slotEdge? n slot = none ∧ e.kind = .keyword slot ∧ e.target = n.id ∧
      s'.graph.edges = s.graph.edges ++ [e] := by
  cases h with
  | relabelled found literal => exact Or.inl ⟨rfl, List.mem_of_find?_eq_some found⟩
  | @replaced old found other =>
    refine Or.inr (Or.inl ⟨old, List.mem_of_find?_eq_some found, rfl, rfl, ?_⟩)
    exact edges_insertLiteral hg hfresh (List.filter_subset_self _) text n.world old.kind
  | added free =>
    refine Or.inr (Or.inr ⟨free, rfl, rfl, ?_⟩)
    exact edges_insertLiteral hg hfresh (List.Subset.refl _) text n.world (.keyword slot)

theorem edgesTo_of_ne (h : Fed s n slot text e s') (hid : id ≠ n.id) :
    s'.graph.edgesTo id = s.graph.edgesTo id := by
  rw [edgesTo, edgesTo]
  rcases h.edges_cases hg hfresh with ⟨hsame, -⟩ | ⟨old, -, -, htarget, hedges⟩ |
    ⟨-, -, htarget, hedges⟩
  · rw [hsame]
  · rw [hedges, List.filter_append, List.filter_cons_of_neg (by simpa [htarget] using hid.symm),
      List.filter_nil, List.append_nil, List.filter_filter]
    apply List.filter_congr
    intro x _
    by_cases hx : x.target = id
    · have hne : x.target ≠ n.id := by rw [hx]; exact hid
      simp [hx, joins, hx ▸ hne]
    · simp [hx]
  · rw [hedges, List.filter_append, List.filter_cons_of_neg (by simpa [htarget] using hid.symm),
      List.filter_nil, List.append_nil]

variable (hkeys : ((s.graph.edgesTo n.id).filterMap fun e => e.kind.argKey?).Nodup) {key : ArgKey}
  (hkey : e.kind.argKey? = some key)

omit hg hfresh in
theorem argKey_ne_of_free (hfree : s.slotEdge? n slot = none) {x : Edge}
    (hx : x ∈ s.graph.edgesTo n.id) : x.kind.argKey? ≠ some (.keyword slot) := by
  intro hname
  apply List.find?_eq_none.mp hfree x hx
  rcases hk : x.kind with ⟨_ | index, _ | name⟩ | _ <;> simp_all [EdgeKind.argKey?, isSlot]

include hkey in
theorem filter_edgesTo (h : Fed s n slot text e s') :
    (s'.graph.edgesTo n.id).filter (fun x => x.kind.argKey? ≠ some key) =
      (s.graph.edgesTo n.id).filter fun x => x.kind.argKey? ≠ some key := by
  have hnew : [e].filter (fun x => decide (x.kind.argKey? ≠ some key)) = [] :=
    List.filter_cons_of_neg (by simpa using hkey)
  rw [edgesTo, edgesTo]
  rcases h.edges_cases hg hfresh with ⟨hsame, -⟩ | ⟨old, hold, hkind, htarget, hedges⟩ |
    ⟨-, -, htarget, hedges⟩
  · rw [hsame]
  · rw [hedges, List.filter_append, List.filter_cons_of_pos (by simpa using htarget), List.filter_nil,
      List.filter_append, hnew, List.append_nil, List.filter_filter, List.filter_filter,
      List.filter_filter]
    apply List.filter_congr
    intro x _
    by_cases hx : joins old.source n.id (some e.kind) x = true
    · have hsame : x.kind = e.kind := by
        simp only [joins, Bool.and_eq_true, Option.all_some, decide_eq_true_eq] at hx
        exact hx.2
      simp [hsame, hkey]
    · simp [hx]
  · rw [hedges, List.filter_append, List.filter_cons_of_pos (by simpa using htarget), List.filter_nil,
      List.filter_append, hnew, List.append_nil]

include hkeys hkey in
theorem wired_key (h : Fed s n slot text e s') : s'.graph.wired n.id key = some e.source := by
  have hnew (es : List Edge) (hes : ∀ x ∈ es, x.kind.argKey? ≠ some key) :
      (es ++ [e]).find? (fun x => x.kind.argKey? = some key) = some e := by
    rw [List.find?_append, List.find?_eq_none.mpr (by simpa using hes), Option.none_or,
      List.find?_cons_of_pos (by simpa using hkey)]
  have hfind : (s'.graph.edgesTo n.id).find? (fun x => x.kind.argKey? = some key) = some e := by
    rcases h.edges_cases hg hfresh with ⟨hsame, hmem⟩ | ⟨old, hold, hkind, htarget, hedges⟩ |
      ⟨hfree, hkind, htarget, hedges⟩
    · rw [edgesTo, hsame]
      exact find?_argKey hkeys hmem hkey
    · rw [edgesTo, hedges, List.filter_append, List.filter_cons_of_pos (by simpa using htarget),
        List.filter_nil]
      apply hnew
      intro x hx hxk
      obtain ⟨hx, hxt⟩ := List.mem_filter.mp hx
      obtain ⟨hx, hjoins⟩ := List.mem_filter.mp hx
      have heq := eq_of_argKey hkeys (List.mem_filter.mpr ⟨hx, hxt⟩) hold hxk (hkind ▸ hkey)
      have hxt : x.target = n.id := of_decide_eq_true hxt
      simp [joins, heq ▸ hxt, heq, hkind] at hjoins
    · rw [edgesTo, hedges, List.filter_append, List.filter_cons_of_pos (by simpa using htarget),
        List.filter_nil]
      apply hnew
      intro x hx
      have hslot : key = .keyword slot := by
        rw [hkind] at hkey
        exact (Option.some.inj hkey).symm
      rw [hslot]
      exact argKey_ne_of_free hfree hx
  rw [wired, input, hfind, Option.map_some]

include hkey in
theorem wired_of_ne (h : Fed s n slot text e s') {k : ArgKey} (hk : k ≠ key) :
    s'.graph.wired n.id k = s.graph.wired n.id k := by
  have hfilter (es : List Edge) : es.find? (fun x => x.kind.argKey? = some k) =
      (es.filter fun x => x.kind.argKey? ≠ some key).find? fun x => x.kind.argKey? = some k := by
    rw [List.find?_filter]
    congr 1
    funext x
    by_cases hx : x.kind.argKey? = some k
    · simp [hx, hk]
    · simp [hx]
  rw [wired, wired, input, input, hfilter, h.filter_edgesTo hg hfresh hkey, ← hfilter]

end Edges

section Values

variable (hids : s.graph.ids.Nodup) (hfresh : ∀ id ∈ s.graph.ids, s.supply.Spent id)

include hids

theorem nodes_cases (h : Fed s n slot text e s') :
    (∃ m ∈ s.graph.nodes, m.id = e.source ∧ m.kind = .literal ∧ s'.graph.edges = s.graph.edges ∧
      s'.graph.nodes = s.graph.nodes.map fun m => if m.id = e.source then setLabel text m else m) ∨
    s'.graph.nodes = s.graph.nodes ++ [⟨Supply.idOf .literal s.supply.next, text, n.world, .literal⟩] := by
  cases h with
  | @relabelled _ m found literal =>
    obtain ⟨hm, hkind⟩ := Option.filter_eq_some_iff.mp literal
    exact Or.inl ⟨m, List.mem_of_find?_eq_some hm, id_eq_of_node? hm, of_decide_eq_true hkind, rfl,
      nodes_relabelled hids⟩
  | replaced found other => exact Or.inr (nodes_insertLiteral ..)
  | added free => exact Or.inr (nodes_insertLiteral ..)

omit hids in
theorem id_relabel (m : Node) : (if m.id = e.source then setLabel text m else m).id = m.id := by
  split
  · unfold setLabel
    split <;> rfl
  · rfl

include hfresh

theorem callParams_eq (h : Fed s n slot text e s') (site : CallSite) :
    s'.graph.callParams site = s.graph.callParams site := by
  apply callParams_congr
  intro id
  rcases h.nodes_cases hids with ⟨m, hm, hid, hkind, -, hnodes⟩ | hnodes
  · rw [lookup_map id_relabel hnodes]
    cases hl : s.graph.lookup id with
    | none => rfl
    | some d =>
      by_cases hd : d.id = e.source
      · have hsame : d = m := List.inj_on_of_nodup_map hids (mem_of_lookup hl) hm (hd.trans hid.symm)
        have hrelabelled : (setLabel text d).kind = .literal := by
          rw [hsame, setLabel, if_pos hkind]
          exact hkind
        rw [Option.map_some, if_pos hd, Option.filter_some, Option.filter_some, hrelabelled, hsame,
          hkind]
        rfl
      · rw [Option.map_some, if_neg hd]
  · rw [lookup_snoc hnodes]
    split
    · rename_i hid
      have hnone : s.graph.lookup id = none := by
        cases hl : s.graph.lookup id with
        | none => rfl
        | some d =>
          have hid : Supply.idOf .literal s.supply.next = id := hid
          have hmem := mem_ids_of_lookup hl
          exact absurd (hid ▸ hmem) (not_mem_ids hfresh (Nat.le_refl _) .literal)
      rw [hnone]
      rfl
    · rfl

theorem source_ne (h : Fed s n slot text e s') (hn : n ∈ s.graph.nodes) (hcall : n.kind = .call) :
    e.source ≠ n.id := by
  cases h with
  | @relabelled _ m found literal =>
    obtain ⟨hm, hkind⟩ := Option.filter_eq_some_iff.mp literal
    intro heq
    have hsame : m = n := List.inj_on_of_nodup_map hids (List.mem_of_find?_eq_some hm) hn
      ((id_eq_of_node? hm).trans heq)
    rw [hsame, hcall] at hkind
    cases hkind
  | replaced found other =>
    intro (heq : Supply.idOf .literal s.supply.next = n.id)
    exact not_mem_ids hfresh (Nat.le_refl _) .literal (heq ▸ List.mem_map_of_mem hn)
  | added free =>
    intro (heq : Supply.idOf .literal s.supply.next = n.id)
    exact not_mem_ids hfresh (Nat.le_refl _) .literal (heq ▸ List.mem_map_of_mem hn)

theorem resolve_source (h : Fed s n slot text e s') (hn : n ∈ s.graph.nodes) (hcall : n.kind = .call)
    (style : CodeStyle) :
    s'.graph.resolve style [n.id] e.source = .plain (Literal.text text) := by
  obtain ⟨m, hm, hid, hp, rfl⟩ := h.exists_literal hids
  have hne : e.source ∉ [n.id] := by
    rw [List.mem_singleton]
    exact h.source_ne hids hfresh hn hcall
  rw [← hid] at hne ⊢
  rw [resolve_node (lookup_of_mem (h.ids_nodup hids hfresh) hm) hne, renderNode, hp]

end Values

theorem resolve_other (hg : s.graph.WellScoped) (hfresh : ∀ id ∈ s.graph.ids, s.supply.Spent id)
    (honce : ∀ m ∈ s.graph.nodes, m.kind = .literal → (s.graph.outputs m.id).length ≤ 1)
    (h : Fed s n slot text e s') {key : ArgKey} (hkey : e.kind.argKey? = some key) {x : Edge}
    (hx : x ∈ s.graph.edgesTo n.id) (hdata : x.kind.isData = true)
    (hother : x.kind.argKey? ≠ some key) (style : CodeStyle) (visiting : List NodeId) :
    s'.graph.resolve style visiting x.source = s.graph.resolve style visiting x.source := by
  obtain ⟨hxmem, hxtarget⟩ := List.mem_filter.mp hx
  have hxtarget : x.target = n.id := of_decide_eq_true hxtarget
  have hends : ∀ d ∈ s.graph.edges, d.source ∈ s.graph.ids := fun d hd => (hg.ends d hd).1
  have hparams := h.callParams_eq hg.ids hfresh
  have hcall : ¬ ReflTransGen s.graph.Passes n.id x.source := by
    intro hpath
    have hpath := ReflTransGen.mono (fun _ _ => Passes.leads) _ _ hpath
    exact hg.acyclic n.id (TransGen.tail' hpath ⟨x, hxmem, rfl, hxtarget⟩)
  rcases h.nodes_cases hg.ids with ⟨m, hm, hid, hkind, hedges, hnodes⟩ | hnodes
  · apply resolve_frame (t := e.source) hg.ids hends _ _ hparams visiting (hends x hxmem)
    · right
      have hmem : e ∈ s.graph.edgesTo n.id := by
        have := h.mem_edgesTo
        rwa [edgesTo, hedges] at this
      obtain ⟨hemem, hetarget⟩ := List.mem_filter.mp hmem
      have hetarget : e.target = n.id := of_decide_eq_true hetarget
      have hedata : e.kind.isData = true := by
        rcases hk : e.kind with _ | _ <;> simp_all [EdgeKind.argKey?, EdgeKind.isData]
      have hunique {d : Edge} (hd : d ∈ s.graph.edges) (hs : d.source = e.source)
          (hdd : d.kind.isData = true) : d = e := by
        have hone := honce m hm hkind
        rw [hid] at hone
        have hd' := mem_outputs.mpr ⟨hd, hs, hdd⟩
        have he' := mem_outputs.mpr ⟨hemem, rfl, hedata⟩
        cases ho : s.graph.outputs e.source with
        | nil =>
          rw [ho] at he'
          cases he'
        | cons a as =>
          rw [ho, List.length_cons] at hone
          have has : as = [] := List.eq_nil_of_length_eq_zero (by omega)
          rw [ho, has, List.mem_singleton] at hd' he'
          exact hd'.trans he'.symm
      intro hpath
      rcases hpath.cases_head with heq | ⟨y, ⟨d, hd, hs, ht, hdd⟩, hrest⟩
      · exact hother (hunique hxmem heq.symm hdata ▸ hkey)
      · have hy : y = n.id := by rw [← ht, hunique hd hs hdd, hetarget]
        exact hcall (hy ▸ hrest)
    · intro id _ hne
      rw [lookup_map id_relabel hnodes]
      cases hl : s.graph.lookup id with
      | none => rfl
      | some d => rw [Option.map_some, if_neg (id_eq_of_lookup hl ▸ hne)]
    · intro id _ _
      rw [edgesTo, hedges]
      rfl
  · apply resolve_frame (t := n.id) hg.ids hends _ _ hparams visiting (hends x hxmem) (.inr hcall)
    · intro id hid _
      rw [lookup_snoc hnodes, if_neg]
      rintro rfl
      exact not_mem_ids hfresh (Nat.le_refl _) .literal hid
    · intro id _ hne
      exact h.edgesTo_of_ne hg.toConsistent hfresh hne

end Workspace.Fed

/-- Gives a plain parameter another value. -/
def Bound.update {α : Type} (b : Bound α) (name : String) (value : α) : Bound α :=
  { b with plain := b.plain.map fun p => if p.1 = name then (p.1, value) else p }

namespace Graph

def bound (g : Graph) (style : CodeStyle) (n : Node) (site : CallSite) : Option (Bound Rendered) :=
  Param.bindCall (g.callParams site) Rendered.plain
    (g.givenArguments style (g.resolve style [n.id]) n site)

variable {g g' : Graph} {style : CodeStyle} {n : Node} {site : CallSite}

theorem bound_eq {sig : Signature} (hparams : g.callParams site = sig.params) {count : Nat}
    (hfits : Param.Fits sig.params (g.wired n.id) count) : g.bound style n site =
      some ⟨(Param.seats sig.params).map fun q =>
          (q.param.name, g.argumentFor style (g.resolve style [n.id]) n site q),
        ((List.range count).drop (Param.slotCount sig.params)).filterMap fun i =>
          (g.wired n.id (.position i)).map (g.resolve style [n.id]),
        (Param.unnamed sig.params (Wiring.ofEdges (g.edgesTo n.id)).keywords).map fun k =>
          (k.1, g.resolve style [n.id] k.2)⟩ := by
  have hw := Wiring.sorted_ofEdges (g.edgesTo n.id)
  have hget : (Wiring.ofEdges (g.edgesTo n.id)).get? = g.wired n.id :=
    funext (Wiring.get?_edgesTo g n.id)
  rw [← hget] at hfits
  have hbound := sig.bindCall_written hw site.overrides hfits
    (renderSource style (g.resolve style [n.id]) n) Rendered.plain fun _ => rfl
  have hrest := hw.map_drop_positional hfits.positions (Param.slotCount sig.params)
    (g.resolve style [n.id])
  simp only [renderSource_filled] at hbound
  rw [bound, givenArguments, callArguments, hparams, ← hget, ← hrest]
  exact hbound

theorem bound_eq_none {params : List Param} (hparams : g.callParams site = params) {name : String}
    (hwired : (g.wired n.id (.keyword name)).isSome = true)
    (hseat : ¬ ∃ q ∈ Param.seats params, q.Holds (.keyword name))
    (hrest : ¬ ∃ p ∈ params, p.kind = .kwArgs) : g.bound style n site = none := by
  let w := Wiring.ofEdges (g.edgesTo n.id)
  let final := params.foldl (Placement.bind w site.overrides) (.start params)
  have htally := Placement.tally_foldl w site.overrides params params
  have hunused : ¬ final.Used (.keyword name) := by
    intro hused
    obtain ⟨q, hq, hsome, hname⟩ := (htally.keywords name).mp hused
    obtain ⟨id, hid⟩ := Option.isSome_iff_exists.mp hsome
    exact hseat ⟨q, hq, (Seat.keyword_eq_some_iff.mp hid).1, hname⟩
  rw [← Wiring.get?_edgesTo] at hwired
  obtain ⟨k, hk, rfl⟩ := List.mem_map.mp (Wiring.keyword?_isSome.mp hwired)
  have hwritten : ⟨some k.1, .node k.2⟩ ∈ writtenArguments params w site.overrides := by
    apply List.mem_append_right
    refine List.mem_map.mpr ⟨k, List.mem_filter.mpr ⟨hk, ?_⟩, rfl⟩
    simpa [Placement.Used] using hunused
  rw [bound, Param.bindCall, if_neg]
  rintro ⟨-, -, -, hempty | hsome⟩
  · rw [hparams, List.isEmpty_iff, Param.unnamed, List.filter_eq_nil_iff] at hempty
    refine hempty (k.1, g.resolve style [n.id] k.2) ?_ (decide_eq_true hseat)
    rw [givenArguments, callArguments, hparams]
    exact List.mem_filterMap.mpr ⟨_, List.mem_map_of_mem hwritten, rfl⟩
  · exact hrest (hparams ▸ hsome)

section Arguments

variable {key : ArgKey} {sub sub' : NodeId → Rendered} {q : Seat}

theorem argumentFor_of_not_holds (hq : ¬ q.Holds key)
    (hwired : ∀ k, k ≠ key → g'.wired n.id k = g.wired n.id k)
    (hsub : ∀ k, k ≠ key → ∀ id, g.wired n.id k = some id → sub' id = sub id) :
    g'.argumentFor style sub' n site q = g.argumentFor style sub n site q := by
  have hname (h : q.byName = true) : ArgKey.keyword q.param.name ≠ key := by
    rintro rfl
    exact hq ⟨h, rfl⟩
  have hslot {i : Nat} (h : q.slot = some i) : ArgKey.position i ≠ key := by
    rintro rfl
    exact hq h
  have hkeyword : (if q.byName then g'.wired n.id (.keyword q.param.name) else none) =
      if q.byName then g.wired n.id (.keyword q.param.name) else none := by
    split
    · rename_i h
      exact hwired _ (hname h)
    · rfl
  have hposition : (q.slot.bind fun i => g'.wired n.id (.position i)) =
      q.slot.bind fun i => g.wired n.id (.position i) := by
    cases h : q.slot with
    | none => rfl
    | some i => exact hwired _ (hslot h)
  unfold argumentFor
  rw [hkeyword, hposition]
  cases site.overrides.get? q.param.name with
  | some text => rfl
  | none =>
    cases hk : if q.byName then g.wired n.id (.keyword q.param.name) else none with
    | some id =>
      split at hk
      · rename_i h
        exact hsub _ (hname h) id hk
      · cases hk
    | none =>
      cases hp : q.slot.bind fun i => g.wired n.id (.position i) with
      | some id =>
        obtain ⟨i, hi, hid⟩ := Option.bind_eq_some_iff.mp hp
        exact hsub _ (hslot hi) id hid
      | none => rfl

theorem argumentFor_of_holds (hq : q.Holds key) (hfree : site.overrides.get? q.param.name = none)
    (hid : g.wired n.id key = some id) (hsingle : ∀ i, key = .position i → q.byName = true →
      g.wired n.id (.keyword q.param.name) = none) : g.argumentFor style sub n site q = sub id := by
  unfold argumentFor
  rw [hfree]
  cases key with
  | keyword name =>
    obtain ⟨hname, rfl⟩ := hq
    rw [if_pos hname, hid]
  | position i =>
    have hslot : q.slot = some i := hq
    have hnone : (if q.byName then g.wired n.id (.keyword q.param.name) else none) = none := by
      split
      · rename_i h
        exact hsingle i rfl h
      · rfl
    rw [hnone, hslot, Option.bind_some, hid]

end Arguments

section Parsed

variable {supply rest : Supply} {source : String}
  (hparse : ofSourceLinked supply source = .ok (g, rest))

include hparse

theorem params_of_target (hn : n ∈ g.nodes) (hcall : n.payload = .call site) {d : Node}
    (hd : d ∈ g.nodes) (htarget : site.target = some (.body d.id)) : n.params = d.params := by
  have hgids := (Reached.parsed hparse).consistent.ids
  obtain ⟨stmts, -, hg, -⟩ := ofSourceLinked_ok hparse
  generalize hb : Builder.statements .root stmts (.start supply) = b at hg
  have hunlinked : Builder.Unlinked b :=
    hb ▸ .performs (Builder.performs_statements .root stmts (.start supply)) (List.forall_mem_nil _)
  have hids : b.graph.ids.Nodup := by
    have hsame : b.graph.link.1.ids = b.graph.ids := ids_of_bare (bare_linkOn ..)
    rwa [← hsame, ← hg]
  have hnodes : g.nodes = b.graph.nodes.map b.graph.settled := hg ▸ nodes_link hids
  rw [hnodes] at hn
  obtain ⟨m, hm, rfl⟩ := List.mem_map.mp hn
  have hrelinks : b.graph.Relinks [m.id] m (b.graph.settled m) :=
    relinks_settled hids List.mem_cons_self
  generalize b.graph.settled m = n at hcall hrelinks ⊢
  cases hrelinks with
  | @linked d' before given call function sees =>
    obtain rfl := Payload.call.inj hcall
    have hd' : d' ∈ g.nodes := by
      rw [hnodes]
      exact List.mem_map.mpr ⟨d', sees.mem.1, settled_of_isDefinition sees.mem.2⟩
    have hid : d'.id = d.id := World.body.inj (Option.some.inj htarget)
    rw [← List.inj_on_of_nodup_map hgids hd' hd hid]
    rfl
  | @hydrated before given call unbound =>
    obtain rfl := Payload.call.inj hcall
    cases htarget.symm.trans (hunlinked m hm before call)
  | kept other => cases htarget.symm.trans (hunlinked m hm site hcall)

theorem outputs_literal (m : Node) (hm : m ∈ g.nodes) (hkind : m.kind = .literal) :
    (g.outputs m.id).length ≤ 1 := by
  obtain ⟨stmts, hstmts, -⟩ := ofSourceLinked_ok hparse
  have haccounts := (Composed.parsed hstmts hparse).accounts
  exact (haccounts.once _ (List.mem_map_of_mem (List.mem_filter.mpr ⟨hm, by rw [hkind]; rfl⟩))).1

end Parsed

end Graph

namespace Workspace

open ScopedFlow.Graph

section Kinds

variable {s s' : Workspace} {n : Node} {slot text : String} {e : Edge}

theorem Fed.kind_eq (h : Fed s n slot text e s') {d : Edge} (hd : s.slotEdge? n slot = some d) :
    e.kind = d.kind := by
  cases h with
  | relabelled found literal => rw [Option.some.inj (found.symm.trans hd)]
  | @replaced old found other =>
    rw [← Option.some.inj (found.symm.trans hd)]
  | added free => cases free.symm.trans hd

theorem Fed.kind_of_free (h : Fed s n slot text e s') (hd : s.slotEdge? n slot = none) :
    e.kind = .keyword slot := by
  cases h with
  | relabelled found literal => cases found.symm.trans hd
  | replaced found other => cases found.symm.trans hd
  | added free => rfl

theorem Fed.position_iff (h : Fed s n slot text e s') : e.kind.argKey? = some (.position i) ↔
      ∃ d, s.slotEdge? n slot = some d ∧ d.kind.argKey? = some (.position i) := by
  constructor
  · intro hkey
    cases hd : s.slotEdge? n slot with
    | none =>
      rw [h.kind_of_free hd] at hkey
      cases hkey
    | some d => exact ⟨d, rfl, h.kind_eq hd ▸ hkey⟩
  · rintro ⟨d, hd, hkey⟩
    rw [h.kind_eq hd, hkey]

end Kinds

section Binding

variable {s s' : Workspace} {n : Node} {slot text : String} {e : Edge} {key : ArgKey}
  {site : CallSite} {sig : Signature} {count : Nat} {style : CodeStyle} {q : Seat}
  (hg : s.graph.WellScoped) (hfresh : ∀ id ∈ s.graph.ids, s.supply.Spent id)
  (honce : ∀ m ∈ s.graph.nodes, m.kind = .literal → (s.graph.outputs m.id).length ≤ 1)
  (h : Fed s n slot text e s') (hkey : e.kind.argKey? = some key)

include hg hfresh honce h hkey

theorem Fed.value_other {k : ArgKey} (hk : k ≠ key) (hid : s.graph.wired n.id k = some id) :
    s'.graph.resolve style [n.id] id = s.graph.resolve style [n.id] id := by
  obtain ⟨x, hx, rfl⟩ := Option.map_eq_some_iff.mp hid
  have hxk : x.kind.argKey? = some k := by
    have hfound := List.find?_some hx
    exact of_decide_eq_true hfound
  have hdata : x.kind.isData = true := by
    rcases hkind : x.kind with _ | _ <;> simp_all [EdgeKind.argKey?, EdgeKind.isData]
  apply h.resolve_other hg hfresh honce hkey (List.mem_of_find?_eq_some hx) hdata
  rw [hxk]
  exact fun heq => hk (Option.some.inj heq)

theorem Fed.extra_eq {params : List Param}
    (hheld : ∀ name, key = .keyword name → ∃ q ∈ Param.seats params, q.Holds key) :
    ((Param.unnamed params (Wiring.ofEdges (s'.graph.edgesTo n.id)).keywords).map fun k =>
        (k.1, s'.graph.resolve style [n.id] k.2)) =
      (Param.unnamed params (Wiring.ofEdges (s.graph.edgesTo n.id)).keywords).map fun k =>
        (k.1, s.graph.resolve style [n.id] k.2) := by
  have hunnamed (es : List Edge) : Param.unnamed params (Wiring.ofEdges es).keywords =
      Param.unnamed params
        (Wiring.ofEdges (es.filter fun x => x.kind.argKey? ≠ some key)).keywords := by
    rw [← Wiring.keywords_filter, Param.unnamed, Param.unnamed, List.filter_filter]
    apply List.filter_congr
    intro k _
    by_cases hname : ArgKey.keyword k.1 = key
    · have hsome := hheld k.1 hname.symm
      simp [hname, hsome]
    · simp [hname]
  rw [hunnamed, hunnamed (s.graph.edgesTo n.id), h.filter_edgesTo hg.toConsistent hfresh hkey]
  apply List.map_congr_left
  intro k hk
  obtain ⟨x, hx, hdata, hxs⟩ := Wiring.mem_sources
    (List.mem_append_right _ (List.mem_map_of_mem (f := Prod.snd) (List.mem_filter.mp hk).1))
  obtain ⟨hx, hne⟩ := List.mem_filter.mp hx
  rw [← hxs, h.resolve_other hg hfresh honce hkey hx hdata (of_decide_eq_true hne)]

theorem Fed.rest_eq {k : Nat} (hlt : ∀ i, key = .position i → i < k) :
    (((List.range count).drop k).filterMap fun i =>
        (s'.graph.wired n.id (.position i)).map (s'.graph.resolve style [n.id])) =
      ((List.range count).drop k).filterMap fun i =>
        (s.graph.wired n.id (.position i)).map (s.graph.resolve style [n.id]) := by
  apply List.filterMap_congr
  intro i hi
  have hne : ArgKey.position i ≠ key := by
    intro heq
    have := hlt i heq.symm
    obtain ⟨j, hj, hij⟩ := List.mem_iff_getElem.mp hi
    rw [List.getElem_drop, List.getElem_range] at hij
    omega
  rw [h.wired_of_ne hg.toConsistent hfresh hkey hne]
  cases hid : s.graph.wired n.id (.position i) with
  | none => rfl
  | some id => rw [Option.map_some, Option.map_some, h.value_other hg hfresh honce hkey hne hid]

variable (hkeys : ((s.graph.edgesTo n.id).filterMap fun e => e.kind.argKey?).Nodup)
  (hparams : s.graph.callParams site = sig.params)
  (hfits : Param.Fits sig.params (s.graph.wired n.id) count) (hslot : q.param.name = slot)
  (hposition : Param.positionalSlot n.params slot = q.slot) (hq : q ∈ Param.seats sig.params)

include hkeys hfits hslot hposition hq

omit honce in
theorem Fed.fits (hplaced : q.Holds key ∨ ∃ p ∈ sig.params, p.kind = key.collector) :
    Param.Fits sig.params (s'.graph.wired n.id) count := by
  have hnames := sig.nodup_names
  have hwired := h.wired_key hg.toConsistent hfresh hkeys hkey
  have hfound {d : Edge} (hd : s.slotEdge? n slot = some d) (hdk : d.kind.argKey? = some key) :
      (s.graph.wired n.id key).isSome = true := by
    rw [wired, input, find?_argKey hkeys (List.mem_of_find?_eq_some hd) hdk]
    rfl
  apply hfits.rewire (fun k hk => h.wired_of_ne hg.toConsistent hfresh hkey hk)
  · rw [hwired]
    rfl
  · rintro i rfl
    obtain ⟨d, hd, hdk⟩ := h.position_iff.mp hkey
    exact hfound hd hdk
  · exact hplaced.imp_left fun hholds => ⟨q, hq, hholds⟩
  · intro q' hq' hholds hname i hi
    have hsame : q' = q := by
      obtain ⟨key', hkey', hcases⟩ := h.exists_key
      obtain rfl := Option.some.inj (hkey'.symm.trans hkey)
      rcases hcases with hword | ⟨j, hword, -⟩
      · have hword : q'.param.name = slot := by
          rw [hname] at hword
          exact ArgKey.keyword.inj hword
        exact List.inj_on_of_nodup_map hnames hq' hq (hword.trans hslot.symm)
      · rw [hname] at hword
        cases hword
    subst hsame
    by_contra hsome
    obtain ⟨id, hid⟩ := Option.ne_none_iff_exists'.mp hsome
    have hcount : i < count := (hfits.positions i).mp (by rw [hid]; rfl)
    have hnone := hfits.single q' hq i hcount hi (hname ▸ hholds).1
    obtain ⟨x, hx, -⟩ := Option.map_eq_some_iff.mp hid
    have hxk : x.kind.argKey? = some (.position i) := by
      have hmatch := List.find?_some hx
      exact of_decide_eq_true hmatch
    have hxslot : isSlot slot (Param.positionalSlot n.params slot) x.kind = true := by
      rw [hposition, hi]
      rcases hkind : x.kind with ⟨_ | index, _ | name⟩ | _ <;> simp_all [EdgeKind.argKey?, isSlot]
    cases hd : s.slotEdge? n slot with
    | none => exact List.find?_eq_none.mp hd x (List.mem_of_find?_eq_some hx) hxslot
    | some d =>
      have hsome := hfound hd (h.kind_eq hd ▸ hkey)
      rw [hname, hnone] at hsome
      cases hsome

variable (hn : n ∈ s.graph.nodes) (hcall : n.kind = .call)
  (hfree : site.overrides.get? q.param.name = none)

include honce hparams hn hcall hfree

/-- If the argument belongs to the parameter of the slot, nothing but its value changes. -/
theorem Fed.bound_of_holds (hholds : q.Holds key) {before : Bound Rendered}
    (hbefore : s.graph.bound style n site = some before) :
    s'.graph.bound style n site =
      some (before.update q.param.name (.plain (Literal.text text))) := by
  have hnames := sig.nodup_names
  have hfits' := h.fits hg hfresh hkey hkeys hfits hslot hposition hq (Or.inl hholds)
  have hwired := h.wired_key hg.toConsistent hfresh hkeys hkey
  have hother {k : ArgKey} (hk : k ≠ key) := h.wired_of_ne hg.toConsistent hfresh hkey hk
  have hget : Param.Fits sig.params (Wiring.get? (.ofEdges (s.graph.edgesTo n.id))) count := by
    rw [funext (Wiring.get?_edgesTo s.graph n.id)]
    exact hfits
  obtain ⟨front, behind, c, hlayout⟩ :=
    sig.exists_layout (Wiring.sorted_ofEdges (s.graph.edgesTo n.id)) site.overrides hget
  have hlt : ∀ i, key = .position i → i < Param.slotCount sig.params := by
    rintro i rfl
    have hi : q.slot = some i := hholds
    rw [hlayout.seats] at hq
    rcases List.mem_append.mp hq with hq | hq
    · obtain ⟨j, hj, hslot⟩ := Seat.slot_of_mem hlayout.slots hq
      rw [hlayout.slotCount_eq]
      obtain rfl := Option.some.inj (hi.symm.trans hslot)
      exact hj
    · cases hi.symm.trans (hlayout.behind_seats q hq).1
  have hplain : ∀ q' ∈ Param.seats sig.params,
      s'.graph.argumentFor style (s'.graph.resolve style [n.id]) n site q' =
        if q'.param.name = q.param.name then .plain (Literal.text text)
        else s.graph.argumentFor style (s.graph.resolve style [n.id]) n site q' := by
    intro q' hq'
    split
    · rename_i hname
      obtain rfl := List.inj_on_of_nodup_map hnames hq' hq hname
      rw [argumentFor_of_holds hholds hfree hwired]
      · exact h.resolve_source hg.ids hfresh hn hcall style
      · rintro i rfl hbyName
        have hi : i < count := (hfits'.positions i).mp (by rw [hwired]; rfl)
        exact hfits'.single q' hq i hi hholds hbyName
    · rename_i hname
      have hnot : ¬ q'.Holds key := by
        intro hholds'
        exact hname (congrArg (·.param.name) (Param.seat_eq_of_holds hnames hq hq' hholds hholds'))
      apply argumentFor_of_not_holds hnot
      · exact fun k hk => hother hk
      · exact fun k hk id hid => h.value_other hg hfresh honce hkey hk hid
  rw [bound_eq hparams hfits] at hbefore
  obtain rfl := Option.some.inj hbefore
  rw [bound_eq ((h.callParams_eq hg.ids hfresh site).trans hparams) hfits',
    h.rest_eq hg hfresh honce hkey hlt,
    h.extra_eq hg hfresh honce hkey fun name _ => ⟨q, hq, hholds⟩, Bound.update]
  simp only [List.map_map]
  congr 2
  apply List.map_congr_left
  intro q' hq'
  rw [hplain q' hq', Function.comp_apply]
  split <;> rfl

omit hn hcall hfree in
/-- If it does not, the parameter keeps its value, where the call is accepted at all. -/
theorem Fed.bound_of_not_holds (hword : key = .keyword slot) (hname : q.byName = false)
    {after : Bound Rendered} (hafter : s'.graph.bound style n site = some after) :
    (q.param.name, s.graph.argumentFor style (s.graph.resolve style [n.id]) n site q) ∈
      after.plain := by
  have hnames := sig.nodup_names
  have hparams' := (h.callParams_eq hg.ids hfresh site).trans hparams
  have hunheld : ∀ q' ∈ Param.seats sig.params, ¬ q'.Holds key := by
    rintro q' hq' hholds
    rw [hword] at hholds
    obtain rfl := List.inj_on_of_nodup_map hnames hq' hq (hholds.2.trans hslot.symm)
    cases hholds.1.symm.trans hname
  by_cases hrest : ∃ p ∈ sig.params, p.kind = .kwArgs
  · have hcollected : ∃ p ∈ sig.params, p.kind = key.collector := by
      rw [hword]
      exact hrest
    have hfits' := h.fits hg hfresh hkey hkeys hfits hslot hposition hq (Or.inr hcollected)
    rw [bound_eq hparams' hfits'] at hafter
    obtain rfl := Option.some.inj hafter
    refine List.mem_map.mpr ⟨q, hq, ?_⟩
    rw [argumentFor_of_not_holds (hunheld q hq)]
    · exact fun k hk => h.wired_of_ne hg.toConsistent hfresh hkey hk
    · exact fun k hk id hid => h.value_other hg hfresh honce hkey hk hid
  · have hwired := h.wired_key hg.toConsistent hfresh hkeys hkey
    rw [hword] at hwired hunheld
    have hnone : s'.graph.bound style n site = none := by
      apply bound_eq_none hparams' (by rw [hwired]; rfl) _ hrest
      rintro ⟨q', hq', hholds⟩
      exact hunheld q' hq' hholds
    cases hnone.symm.trans hafter

end Binding

/-- Setting a slot binds its parameter. In a text with a call whose arguments fit the header of its
function, the written call is accepted after a slot is set, gives the parameter of the slot the text
and all others what they had, exactly if the parameter can be named or it is its position that is found
for the slot. -/
theorem setSlot_binds {supply rest : Supply} {source : String} {g : Graph}
    (hparse : ofSourceLinked supply source = .ok (g, rest)) {n : Node} (hn : n ∈ g.nodes)
    {site : CallSite} (hcall : n.payload = .call site) {d : Node} (hd : d ∈ g.nodes)
    (htarget : site.target = some (.body d.id)) {sig : Signature}
    (hdef : d.payload = .functionDef sig.params) {count : Nat}
    (hfits : Param.Fits sig.params (g.wired n.id) count)
    (hkeys : ((g.edgesTo n.id).filterMap fun e => e.kind.argKey?).Nodup) {q : Seat}
    (hq : q ∈ Param.seats sig.params) (hfree : site.overrides.get? q.param.name = none)
    (style : CodeStyle) :
    let s : Workspace := ⟨g, rest⟩
    ∃ before, g.bound style n site = some before ∧
      ((∀ value, (s.setSlot n.id q.param.name value).graph.bound style n site =
        some (before.update q.param.name (.plain (Literal.text (unquote value))))) ↔
      q.byName = true ∨
        ∃ e i, s.slotEdge? n q.param.name = some e ∧ e.kind.argKey? = some (.position i)) := by
  intro s
  have hreached : Reached 0 g rest := .parsed hparse
  have hscoped : s.graph.WellScoped := hreached.wellScoped
  have hfresh : ∀ id ∈ s.graph.ids, s.supply.Spent id :=
    List.forall_mem_map.mpr hreached.sound.spent
  have honce := outputs_literal hparse
  have hkind : n.kind = .call := by rw [Node.kind, hcall]; rfl
  have hdkind : d.kind = .functionDef := by rw [Node.kind, hdef]; rfl
  have hdparams : d.params = sig.params := by rw [Node.params, hdef]
  have hnode : s.graph.nodeOfKind? n.id .call = some n := by
    rw [nodeOfKind?, node?_of_mem hscoped.ids hn, Option.filter_some, hkind]
    rfl
  have hparams : s.graph.callParams site = sig.params := by
    rw [callParams, htarget]
    simp only [Option.bind_some, World.owner?, lookup_of_mem hscoped.ids hd, if_pos hdkind, hdparams]
  have hposition : Param.positionalSlot n.params q.param.name = q.slot := by
    rw [params_of_target hparse hn hcall hd htarget, hdparams]
    exact Param.positionalSlot_eq hq sig.nodup_names
  refine ⟨_, bound_eq hparams hfits, ?_, ?_⟩
  · intro hall
    by_contra hneither
    rw [not_or, Bool.not_eq_true] at hneither
    obtain ⟨hname, hnofound⟩ := hneither
    have hkept (value : String) : s.graph.argumentFor style (s.graph.resolve style [n.id]) n site q =
        .plain (Literal.text (unquote value)) := by
      obtain ⟨e, hfed⟩ := setSlot_fed hnode q.param.name value
      obtain ⟨key, hkey, hword⟩ := hfed.exists_key
      have hword : key = .keyword q.param.name := by
        rcases hword with hword | ⟨i, rfl, -⟩
        · exact hword
        · obtain ⟨d, hd, hdk⟩ := hfed.position_iff.mp hkey
          exact absurd ⟨d, i, hd, hdk⟩ hnofound
      have hmem := hfed.bound_of_not_holds hscoped hfresh honce hkey hkeys hparams hfits rfl hposition hq
        hword hname (hall value)
      obtain ⟨p, hp, heq⟩ := List.mem_map.mp hmem
      split at heq
      · exact (congrArg Prod.snd heq).symm
      · rename_i hne
        exact absurd (congrArg Prod.fst heq) hne
    have hsame := (hkept "0").symm.trans (hkept "1")
    exact absurd hsame (by decide +kernel)
  · intro hcases value
    obtain ⟨e, hfed⟩ := setSlot_fed hnode q.param.name value
    obtain ⟨key, hkey, hword⟩ := hfed.exists_key
    have hholds : q.Holds key := by
      rcases hword with rfl | ⟨i, rfl, hi⟩
      · rcases hcases with hname | ⟨d, i, hd, hdk⟩
        · exact ⟨hname, rfl⟩
        · have hpos := hfed.position_iff.mpr ⟨d, hd, hdk⟩
          cases hkey.symm.trans hpos
      · exact hposition.symm.trans hi
    exact hfed.bound_of_holds hscoped hfresh honce hkey hkeys hparams hfits rfl hposition hq hn hkind hfree
      hholds (bound_eq hparams hfits)

/-- In `f(1, c=9)` with the header `f(a, b=2, /, c=3)`, the parameter `a` is found by its position and
`c` can be named; `b` is neither. -/
theorem setSlot_binds_leftOut :
    let sig : Signature :=
      ⟨[.required "a", .withDefault "b" "2"], some (.separator .positionalOnly), [.withDefault "c" "3"],
        none, [], none, nofun, fun _ => rfl, by decide, by decide, by decide, by decide, by decide,
        by decide, by decide⟩
    ∃ (g : Graph) (rest : Supply) (n : Node) (site : CallSite),
      ofSourceLinked ⟨0⟩ "def f(a, b=2, /, c=3):\n    pass\nf(1, c=9)\n" = .ok (g, rest) ∧
        n.label = "f" ∧ n.payload = .call site ∧ ∀ q ∈ Param.seats sig.params, ∀ style,
          let s : Workspace := ⟨g, rest⟩
          ∃ before, g.bound style n site = some before ∧
            ((∀ value, (s.setSlot n.id q.param.name value).graph.bound style n site =
              some (before.update q.param.name (.plain (Literal.text (unquote value))))) ↔
            q.byName = true ∨
              ∃ e i, s.slotEdge? n q.param.name = some e ∧ e.kind.argKey? = some (.position i)) := by
  intro sig
  let module : List Stmt := [.function "f" sig.params [.skip],
    .eval (.call "f" [.positional (.literal "1"), .keyword "c" (.literal "9")])]
  let g : Graph := (build ⟨0⟩ module).1.link.1
  let d : Node := ⟨Supply.idOf .functionDef 0, "f", .root, .functionDef sig.params⟩
  let site : CallSite := ⟨false, some (.body d.id), sig.params, .empty⟩
  let n : Node := ⟨Supply.idOf .call 4, "f", .root, .call site⟩
  have hparse : ofSourceLinked ⟨0⟩ "def f(a, b=2, /, c=3):\n    pass\nf(1, c=9)\n" =
      .ok (g, (build ⟨0⟩ module).2) := by
    decide +kernel
  have hn : n ∈ g.nodes := by decide +kernel
  have hd : d ∈ g.nodes := by decide +kernel
  have hedges : (g.edgesTo n.id).filterMap (fun e => e.kind.argKey?) = [.position 0, .keyword "c"] := by
    decide +kernel
  have hwired (key : ArgKey) : (g.wired n.id key).isSome = true ↔
      key ∈ [ArgKey.position 0, .keyword "c"] := by
    rw [← mem_argKeys, argKeys, hedges, mem_distinct]
  have hfits : Param.Fits sig.params (g.wired n.id) 1 := by
    refine ⟨?_, ?_, by decide +kernel⟩
    · intro i
      rw [hwired]
      simp
    · intro key hkey
      rw [hwired] at hkey
      revert key
      decide +kernel
  refine ⟨g, _, n, site, hparse, rfl, rfl, ?_⟩
  intro q hq style
  exact setSlot_binds hparse hn rfl hd rfl rfl hfits (by rw [hedges]; decide) hq rfl style

end Workspace

end ScopedFlow
