import ScopedFlow.Proofs.Chains

/-!
# The order in which the nodes of a world are written

A clause is written behind the block that leads to it and not at its own place. In a graph whose
clauses are chained this moves nodes around but neither drops nor repeats one, and a clause stands
right behind its predecessor.
-/

namespace ScopedFlow

namespace Graph

variable {id : NodeId}

/-- What is written where a node stands: the node and the clauses behind it. A clause is written
elsewhere. -/
def unitsOf (g : Graph) (n : Node) : List Node :=
  if n.payload.isClause then [] else n :: g.clausesOf n

/-- The nodes of a world in the order in which they are written. -/
def unitsIn (g : Graph) (w : World) : List Node := (g.nodesIn w).flatMap g.unitsOf

variable {g : Graph} {m n c : Node}

theorem clausesOf_condition (h : n.kind = .ifBlock) :
    g.clausesOf n = g.clausesFrom [n.id] n.id := by
  obtain ⟨id, label, world, payload⟩ := n
  cases payload with
  | ifBlock => rfl
  | _ => cases h

theorem clausesOf_attempt (h : n.kind = .tryBlock) : g.clausesOf n = g.handlersOf n.id := by
  obtain ⟨id, label, world, payload⟩ := n
  cases payload with
  | tryBlock => rfl
  | _ => cases h

theorem kind_of_mem_clausesOf (h : c ∈ g.clausesOf n) :
    (n.kind = .ifBlock ∧ (c.kind = .elifBlock ∨ c.kind = .elseBlock)) ∨
      (n.kind = .tryBlock ∧ c.kind = .exceptBlock) := by
  obtain ⟨id, label, world, payload⟩ := n
  cases payload with
  | ifBlock =>
    refine .inl ⟨rfl, ?_⟩
    exact clausesFrom_induction (P := fun c => c.kind = .elifBlock ∨ c.kind = .elseBlock)
      (fun c d _ hd => (leadsOn_of_nextClause hd).2) (fun c hc => (leadsOn_of_nextClause hc).2) c h
  | tryBlock => exact .inr ⟨rfl, (leadsOn_of_handlersOf h).2⟩
  | _ => cases h

theorem isClause_iff : n.payload.isClause = true ↔
    n.kind = .elifBlock ∨ n.kind = .elseBlock ∨ n.kind = .exceptBlock := by
  obtain ⟨id, label, world, payload⟩ := n
  cases payload <;> simp [Node.kind, Payload.kind, Payload.isClause]

theorem not_clause_of_head (h : n.kind = .ifBlock ∨ n.kind = .tryBlock) :
    n.payload.isClause = false := by
  refine Bool.eq_false_iff.mpr fun htrue => ?_
  rw [isClause_iff] at htrue
  rcases h with h | h <;> rw [h] at htrue <;> simp at htrue

theorem isClause_of_mem_clausesOf (h : c ∈ g.clausesOf n) : c.payload.isClause = true := by
  rw [isClause_iff]
  exact kind_of_clausesOf h

theorem LeadsOn.mem (h : g.LeadsOn id c) : c ∈ g.nodes := by
  obtain ⟨e, -, -, -, hl⟩ := h
  exact mem_of_lookup hl

theorem mem_nodes_of_clausesOf (h : c ∈ g.clausesOf n) : c ∈ g.nodes :=
  clausesOf_induction (P := (· ∈ g.nodes)) (fun _ hc => hc.mem) (fun _ _ _ hd => hd.mem) c h

theorem mem_leadingTo {e : Edge} :
    e ∈ g.leadingTo id ↔ e ∈ g.edges ∧ e.target = id ∧ e.kind.isClause = true := by
  simp only [leadingTo, edgesTo, List.mem_filter, decide_eq_true_eq, and_assoc]

theorem mem_leadingFrom {e : Edge} :
    e ∈ g.leadingFrom id ↔ e ∈ g.edges ∧ e.source = id ∧ e.kind.isClause = true := by
  simp only [leadingFrom, edgesFrom, List.mem_filter, decide_eq_true_eq, and_assoc]

theorem LeadsOn.source_eq {source : NodeId} {kind : EdgeKind} (h : g.LeadsOn id c)
    (hlead : g.leadingTo c.id = [⟨source, c.id, kind⟩]) : id = source := by
  obtain ⟨e, he, hs, ⟨index, hk⟩, hl⟩ := h
  have hmem : e ∈ g.leadingTo c.id :=
    mem_leadingTo.mpr ⟨he, (id_eq_of_lookup hl).symm, by rw [hk]; rfl⟩
  rw [hlead] at hmem
  rw [← hs, List.mem_singleton.mp hmem]

theorem idxOf_lt_of_sublist (hids : g.ids.Nodup) (h : [m, c].Sublist g.nodes) :
    g.ids.idxOf m.id < g.ids.idxOf c.id := by
  have hsub : [m.id, c.id].Sublist g.ids := h.map Node.id
  obtain ⟨front, back, hsplit, hmem, hc⟩ := List.cons_sublist_iff.mp hsub
  have hcmem := List.singleton_sublist.mp hc
  rw [hsplit] at hids ⊢
  have hnot : c.id ∉ front := fun hf => (List.nodup_append.mp hids).2.2 _ hf _ hcmem rfl
  rw [List.idxOf_append_of_mem hmem, List.idxOf_append_of_notMem hnot]
  have hlt := List.idxOf_lt_length_of_mem hmem
  omega

theorem exists_split {seen : List NodeId} :
    ∀ n : Node, n.id = id → ∀ c ∈ g.clausesFrom seen id, ∃ front m back,
      n :: g.clausesFrom seen id = front ++ m :: c :: back ∧ g.nextClause m.id = some c := by
  induction seen, id using clausesFrom.induct g with
  | case1 seen id hnone =>
    rw [clausesFrom_done hnone]
    intro n _ c hc
    cases hc
  | case2 seen id d hd hs =>
    rw [clausesFrom_seen hd hs]
    intro n _ c hc
    cases hc
  | case3 seen id d hd hs hk =>
    rw [clausesFrom_otherwise hd hs hk]
    intro n hn c hc
    obtain rfl := List.mem_singleton.mp hc
    exact ⟨[], n, [], rfl, hn ▸ hd⟩
  | case4 seen id d hd hs hk hdec ih =>
    rw [clausesFrom_elif hd hs hk]
    intro n hn c hc
    rcases List.mem_cons.mp hc with rfl | hc
    · exact ⟨[], n, _, rfl, hn ▸ hd⟩
    · obtain ⟨front, m, back, hsplit, hnext⟩ := ih d rfl c hc
      exact ⟨n :: front, m, back, congrArg (n :: ·) hsplit, hnext⟩

theorem handlersOf_of_leadingFrom (hids : g.ids.Nodup) {cs : List Node}
    (hsub : (m :: cs).Sublist g.nodes)
    (hkinds : ∀ c ∈ cs, c.kind = .exceptBlock ∧ c.world = m.world)
    (hfrom : g.leadingFrom m.id =
      cs.zipIdx.map fun p => ⟨m.id, p.1.id, .nextClause (some p.2)⟩) :
    g.handlersOf m.id = cs := by
  have hskip (f : Edge → Option (Nat × Node)) (hf : ∀ e, e.kind.isClause = false → f e = none) :
      (g.edgesFrom m.id).filterMap f = (g.leadingFrom m.id).filterMap f := by
    rw [leadingFrom, List.filterMap_filter]
    refine List.filterMap_congr fun e _ => ?_
    cases hk : e.kind.isClause with
    | true => simp
    | false => simp [hf e hk]
  have hlookup : ∀ p ∈ cs.zipIdx, g.lookup p.1.id = some p.1 ∧ p.1.kind = .exceptBlock := by
    intro p hp
    have hc := List.fst_mem_of_mem_zipIdx hp
    exact ⟨lookup_of_mem hids (hsub.subset (List.mem_cons_of_mem _ hc)), (hkinds _ hc).1⟩
  have hsorted : (cs.zipIdx.map fun p => (p.2, p.1)).Pairwise fun a b => a.1 ≤ b.1 := by
    have hnumbers : (cs.zipIdx.map Prod.snd).Pairwise (· ≤ ·) := by
      rw [List.zipIdx_map_snd]
      exact List.pairwise_le_range' ..
    exact List.pairwise_map.mpr (List.pairwise_map.mp hnumbers)
  unfold handlersOf
  rw [hskip _ ?_, hfrom, List.filterMap_map]
  · have hnodes : (cs.zipIdx.map fun p => (p.2, p.1)).map (·.2) = cs := by
      rw [List.map_map]
      exact List.zipIdx_map_fst 0 cs
    have hsort : (cs.zipIdx.map fun p => (p.2, p.1)).mergeSort (fun a b => a.1 ≤ b.1) =
        cs.zipIdx.map fun p => (p.2, p.1) := List.mergeSort_of_pairwise (by simpa using hsorted)
    refine Eq.trans ?_ ((congrArg (List.map (·.2)) hsort).trans hnodes)
    refine congrArg (fun xs : List (Nat × Node) =>
      (xs.mergeSort fun a b => a.1 ≤ b.1).map (·.2)) ?_
    rw [← List.filterMap_eq_map]
    refine List.filterMap_congr fun p hp => ?_
    simp [(hlookup p hp).1, (hlookup p hp).2]
  · intro e he
    cases hk : e.kind with
    | nextClause index =>
      rw [hk] at he
      cases he
    | _ => rfl

namespace Chained

variable (hg : g.Chained) (hids : g.ids.Nodup)
include hg hids

theorem nextClause_of_leadingTo (hm : m ∈ g.nodes) (hmk : m.kind = .ifBlock ∨ m.kind = .elifBlock)
    (hc : c ∈ g.nodes) (hck : c.kind = .elifBlock ∨ c.kind = .elseBlock)
    (hlead : g.leadingTo c.id = [⟨m.id, c.id, .nextClause none⟩]) :
    g.nextClause m.id = some c := by
  have hto : ⟨m.id, c.id, .nextClause none⟩ ∈ g.leadingTo c.id := hlead ▸ List.mem_cons_self
  have hedge := (mem_leadingTo.mp hto).1
  have hfrom : g.leadingFrom m.id = [⟨m.id, c.id, .nextClause none⟩] := by
    have hmem := mem_leadingFrom.mpr ⟨hedge, rfl, rfl⟩
    have hlen := hg.single m hm hmk
    cases hl : g.leadingFrom m.id with
    | nil =>
      rw [hl] at hmem
      cases hmem
    | cons e es =>
      rw [hl] at hmem hlen
      obtain rfl : es = [] := List.eq_nil_of_length_eq_zero (by simpa using hlen)
      rw [List.mem_singleton.mp hmem]
  have hnext : (g.edgesFrom m.id).filter (fun e => e.kind = .nextClause none) =
      [⟨m.id, c.id, .nextClause none⟩] := by
    calc (g.edgesFrom m.id).filter (fun e => e.kind = .nextClause none)
        = (g.leadingFrom m.id).filter fun e => e.kind = .nextClause none := by
          rw [leadingFrom, List.filter_filter]
          refine List.filter_congr fun e _ => ?_
          by_cases hk : e.kind = .nextClause none <;> simp [hk, EdgeKind.isClause]
      _ = [⟨m.id, c.id, .nextClause none⟩] := by simp [hfrom]
  rw [nextClause, hnext]
  simp [lookup_of_mem hids hc, hck]

theorem of_nextClause (h : g.nextClause id = some c) :
    ∃ m ∈ g.nodes, m.id = id ∧ (m.kind = .ifBlock ∨ m.kind = .elifBlock) ∧
      g.ids.idxOf id < g.ids.idxOf c.id := by
  obtain ⟨hlead, hkind⟩ := leadsOn_of_nextClause h
  obtain ⟨m, hmk, -, hsub, hto⟩ := hg.alternative c hlead.mem hkind
  obtain rfl := hlead.source_eq hto
  exact ⟨m, hsub.subset List.mem_cons_self, rfl, hmk, idxOf_lt_of_sublist hids hsub⟩

theorem mem_clausesFrom {seen : List NodeId} (hseen : ∀ s ∈ seen, g.ids.idxOf s ≤ g.ids.idxOf id) :
    ∀ n : Node, n.id = id → ∀ m ∈ n :: g.clausesFrom seen id, g.nextClause m.id = some c →
      c ∈ g.clausesFrom seen id := by
  induction seen, id using clausesFrom.induct g with
  | case1 seen id hnone =>
    rw [clausesFrom_done hnone]
    intro n hn m hm hc
    obtain rfl := List.mem_singleton.mp hm
    rw [hn, hnone] at hc
    cases hc
  | case2 seen id d hd hs =>
    obtain ⟨-, -, -, -, hlt⟩ := hg.of_nextClause hids hd
    exact absurd (hseen _ hs) (Nat.not_le.mpr hlt)
  | case3 seen id d hd hs hk =>
    rw [clausesFrom_otherwise hd hs hk]
    intro n hn m hm hc
    rcases List.mem_cons.mp hm with rfl | hm
    · rw [hn, hd] at hc
      exact List.mem_singleton.mpr (Option.some.inj hc).symm
    · obtain rfl := List.mem_singleton.mp hm
      obtain ⟨m', hm', hid, hkind, -⟩ := hg.of_nextClause hids hc
      obtain rfl := List.inj_on_of_nodup_map hids hm' (leadsOn_of_nextClause hd).1.mem hid
      rw [hk] at hkind
      rcases hkind with hkind | hkind <;> cases hkind
  | case4 seen id d hd hs hk hdec ih =>
    obtain ⟨-, -, -, -, hlt⟩ := hg.of_nextClause hids hd
    have hlater : ∀ s ∈ d.id :: seen, g.ids.idxOf s ≤ g.ids.idxOf d.id := by
      refine List.forall_mem_cons.mpr ⟨Nat.le_refl _, fun s hmem => ?_⟩
      exact Nat.le_of_lt (Nat.lt_of_le_of_lt (hseen s hmem) hlt)
    rw [clausesFrom_elif hd hs hk]
    intro n hn m hm hc
    rcases List.mem_cons.mp hm with rfl | hm
    · rw [hn, hd] at hc
      exact Option.some.inj hc ▸ List.mem_cons_self
    · exact List.mem_cons_of_mem _ (ih hlater d rfl m hm hc)

theorem clausesFrom_sorted (seen : List NodeId) (id : NodeId) :
    (id :: (g.clausesFrom seen id).map (·.id)).Pairwise fun a b => g.ids.idxOf a < g.ids.idxOf b := by
  induction seen, id using clausesFrom.induct g with
  | case1 seen id hnone =>
    rw [clausesFrom_done hnone]
    exact List.pairwise_singleton ..
  | case2 seen id d hd hs =>
    rw [clausesFrom_seen hd hs]
    exact List.pairwise_singleton ..
  | case3 seen id d hd hs hk =>
    obtain ⟨-, -, -, -, hlt⟩ := hg.of_nextClause hids hd
    rw [clausesFrom_otherwise hd hs hk]
    simpa using hlt
  | case4 seen id d hd hs hk hdec ih =>
    obtain ⟨-, -, -, -, hlt⟩ := hg.of_nextClause hids hd
    rw [clausesFrom_elif hd hs hk, List.map_cons]
    refine .cons (List.forall_mem_cons.mpr ⟨hlt, fun a ha => ?_⟩) ih
    exact Nat.lt_trans hlt ((List.pairwise_cons.mp ih).1 a ha)

end Chained

section Heads

variable (hg : g.Chained) (hids : g.ids.Nodup)
include hg hids

theorem Chained.exists_condition (hc : c ∈ g.nodes)
    (hk : c.kind = .elifBlock ∨ c.kind = .elseBlock) :
    ∃ n ∈ g.nodes, n.kind = .ifBlock ∧ n.world = c.world ∧ c ∈ g.clausesOf n := by
  induction hrank : g.ids.idxOf c.id using Nat.strong_induction_on generalizing c with
  | _ rank ih =>
    obtain ⟨m, hmk, hworld, hsub, hto⟩ := hg.alternative c hc hk
    have hm := hsub.subset List.mem_cons_self
    have hnext := hg.nextClause_of_leadingTo hids hm hmk hc hk hto
    have hlt := idxOf_lt_of_sublist hids hsub
    have hstart : ∀ n : Node, ∀ s ∈ [n.id], g.ids.idxOf s ≤ g.ids.idxOf n.id := by
      intro n s hs
      rw [List.mem_singleton.mp hs]
    rcases hmk with hmk | hmk
    · refine ⟨m, hm, hmk, hworld, ?_⟩
      rw [clausesOf_condition hmk]
      exact hg.mem_clausesFrom hids (hstart m) m rfl m List.mem_cons_self hnext
    · obtain ⟨n, hn, hnk, hnw, hmem⟩ := ih _ (hrank ▸ hlt) hm (.inl hmk) rfl
      refine ⟨n, hn, hnk, hnw.trans hworld, ?_⟩
      rw [clausesOf_condition hnk] at hmem ⊢
      exact hg.mem_clausesFrom hids (hstart n) n rfl m (List.mem_cons_of_mem _ hmem) hnext

theorem Chained.exists_attempt (hc : c ∈ g.nodes) (hk : c.kind = .exceptBlock) :
    ∃ n ∈ g.nodes, n.kind = .tryBlock ∧ n.world = c.world ∧ c ∈ g.clausesOf n := by
  obtain ⟨m, hm, hmk, hworld, index, hto⟩ := hg.handler c hc hk
  refine ⟨m, hm, hmk, hworld, ?_⟩
  obtain ⟨cs, hsub, hkinds, hfrom⟩ := hg.numbered m hm hmk
  rw [clausesOf_attempt hmk, handlersOf_of_leadingFrom hids hsub hkinds hfrom]
  have hedge : ⟨m.id, c.id, .nextClause (some index)⟩ ∈ g.leadingTo c.id :=
    hto ▸ List.mem_cons_self
  have hmem := mem_leadingFrom.mpr ⟨(mem_leadingTo.mp hedge).1, rfl, rfl⟩
  rw [hfrom] at hmem
  obtain ⟨p, hp, he⟩ := List.mem_map.mp hmem
  have hpc := List.fst_mem_of_mem_zipIdx hp
  have hid : p.1.id = c.id := congrArg Edge.target he
  exact List.inj_on_of_nodup_map hids (hsub.subset (List.mem_cons_of_mem _ hpc)) hc hid ▸ hpc

theorem Chained.condition_unique {n' : Node} (hn : n ∈ g.nodes) (hk : n.kind = .ifBlock)
    (hn' : n' ∈ g.nodes) (hk' : n'.kind = .ifBlock) (h : c ∈ g.clausesOf n)
    (h' : c ∈ g.clausesOf n') : n = n' := by
  induction hrank : g.ids.idxOf c.id using Nat.strong_induction_on generalizing c with
  | _ rank ih =>
    have hclause : ∀ {a b : Node}, b ∈ g.clausesOf a → a.kind = .ifBlock →
        b.kind = .elifBlock ∨ b.kind = .elseBlock := by
      intro a b hb ha
      rcases kind_of_mem_clausesOf hb with ⟨-, hb⟩ | ⟨hb, -⟩
      · exact hb
      · rw [ha] at hb
        cases hb
    obtain ⟨p, -, -, hsub, hto⟩ := hg.alternative c (mem_nodes_of_clausesOf h) (hclause h hk)
    have hp := hsub.subset List.mem_cons_self
    have hbefore : ∀ {a : Node}, a ∈ g.nodes → a.kind = .ifBlock → c ∈ g.clausesOf a →
        p = a ∨ p ∈ g.clausesOf a := by
      intro a ha hak hmem
      rw [clausesOf_condition hak] at hmem ⊢
      obtain ⟨front, m, back, hsplit, hnext⟩ := exists_split a rfl c hmem
      have hm : m ∈ a :: g.clausesFrom [a.id] a.id := by simp [hsplit]
      have hmg : m ∈ g.nodes := by
        rcases List.mem_cons.mp hm with rfl | hm
        · exact ha
        · exact mem_nodes_of_clausesOf (n := a) (clausesOf_condition hak ▸ hm)
      have hid := (leadsOn_of_nextClause hnext).1.source_eq hto
      obtain rfl := List.inj_on_of_nodup_map hids hmg hp hid
      exact List.mem_cons.mp hm
    rcases hbefore hn hk h with rfl | hmem
    · rcases hbefore hn' hk' h' with rfl | hmem'
      · rfl
      · have hkind := hclause hmem' hk'
        rw [hk] at hkind
        rcases hkind with hkind | hkind <;> cases hkind
    · rcases hbefore hn' hk' h' with rfl | hmem'
      · have hkind := hclause hmem hk
        rw [hk'] at hkind
        rcases hkind with hkind | hkind <;> cases hkind
      · exact ih _ (hrank ▸ idxOf_lt_of_sublist hids hsub) hmem hmem' rfl

theorem Chained.head_unique {n' : Node} (hn : n ∈ g.nodes) (hn' : n' ∈ g.nodes)
    (h : c ∈ g.clausesOf n) (h' : c ∈ g.clausesOf n') : n = n' := by
  rcases kind_of_mem_clausesOf h with ⟨hk, hc⟩ | ⟨hk, hc⟩
  · rcases kind_of_mem_clausesOf h' with ⟨hk', -⟩ | ⟨-, hc'⟩
    · exact hg.condition_unique hids hn hk hn' hk' h h'
    · rw [hc'] at hc
      rcases hc with hc | hc <;> cases hc
  · rcases kind_of_mem_clausesOf h' with ⟨-, hc'⟩ | ⟨hk', -⟩
    · rw [hc] at hc'
      rcases hc' with hc' | hc' <;> cases hc'
    · rw [clausesOf_attempt hk] at h
      rw [clausesOf_attempt hk'] at h'
      have hlead := (leadsOn_of_handlersOf h).1
      obtain ⟨m, -, -, -, index, hto⟩ := hg.handler c hlead.mem hc
      have hid : n.id = n'.id :=
        (hlead.source_eq hto).trans ((leadsOn_of_handlersOf h').1.source_eq hto).symm
      exact List.inj_on_of_nodup_map hids hn hn' hid

theorem Chained.nodup_clausesOf (hn : n ∈ g.nodes) : (g.clausesOf n).Nodup := by
  by_cases hk : n.kind = .ifBlock
  · rw [clausesOf_condition hk]
    have hsorted := (List.pairwise_cons.mp (hg.clausesFrom_sorted hids [n.id] n.id)).2
    refine List.Nodup.of_map Node.id (hsorted.imp ?_)
    rintro a b hlt rfl
    exact Nat.lt_irrefl _ hlt
  · by_cases hk' : n.kind = .tryBlock
    · obtain ⟨cs, hsub, hkinds, hfrom⟩ := hg.numbered n hn hk'
      rw [clausesOf_attempt hk', handlersOf_of_leadingFrom hids hsub hkinds hfrom]
      have hnodes : g.nodes.Nodup := List.Nodup.of_map _ hids
      exact (List.nodup_cons.mp (hnodes.sublist hsub)).2
    · have hnil : g.clausesOf n = [] := by
        refine List.eq_nil_iff_forall_not_mem.mpr fun c hc => ?_
        rcases kind_of_mem_clausesOf hc with ⟨h, -⟩ | ⟨h, -⟩
        · exact hk h
        · exact hk' h
      rw [hnil]
      exact List.nodup_nil

end Heads

theorem unitsOf_of_not_clause (h : n.payload.isClause = false) :
    g.unitsOf n = n :: g.clausesOf n := by
  rw [unitsOf, h, if_neg Bool.false_ne_true]

theorem mem_unitsOf (h : c ∈ g.unitsOf n) :
    n.payload.isClause = false ∧ (c = n ∨ c ∈ g.clausesOf n) := by
  unfold unitsOf at h
  split at h
  · cases h
  · rename_i hclause
    exact ⟨Bool.not_eq_true _ ▸ hclause, List.mem_cons.mp h⟩

theorem unitsIn_split {w : World} (hn : n ∈ g.nodesIn w) (hc : n.payload.isClause = false) :
    ∃ front back, g.unitsIn w = front ++ (n :: g.clausesOf n) ++ back := by
  obtain ⟨before, after, hsplit⟩ := List.append_of_mem hn
  refine ⟨before.flatMap g.unitsOf, after.flatMap g.unitsOf, ?_⟩
  rw [unitsIn, hsplit, List.flatMap_append, List.flatMap_cons, unitsOf_of_not_clause hc,
    List.append_assoc]

section Units

variable (hg : g.Chained) (hids : g.ids.Nodup) (hlevel : g.ClausesLevel)
include hg hids

theorem Chained.nodup_unitsIn (w : World) : (g.unitsIn w).Nodup := by
  have hnodes : (g.nodesIn w).Nodup := (List.Nodup.of_map _ hids).filter _
  refine List.nodup_flatMap.mpr ⟨fun n hn => ?_, hnodes.imp_of_mem ?_⟩
  · unfold unitsOf
    split
    · exact List.nodup_nil
    · rename_i hclause
      refine List.nodup_cons.mpr ⟨fun hmem => hclause (isClause_of_mem_clausesOf hmem), ?_⟩
      exact hg.nodup_clausesOf hids (List.mem_filter.mp hn).1
  · intro n n' hn hn' hne c hc hc'
    obtain ⟨hclause, hc⟩ := mem_unitsOf hc
    obtain ⟨hclause', hc'⟩ := mem_unitsOf hc'
    rcases hc with rfl | hc
    · rcases hc' with rfl | hc'
      · exact hne rfl
      · rw [isClause_of_mem_clausesOf hc'] at hclause
        cases hclause
    · rcases hc' with rfl | hc'
      · rw [isClause_of_mem_clausesOf hc] at hclause'
        cases hclause'
      · exact hne (hg.head_unique hids (List.mem_filter.mp hn).1 (List.mem_filter.mp hn').1 hc hc')

include hlevel

theorem Chained.mem_unitsIn_iff {w : World} : n ∈ g.unitsIn w ↔ n ∈ g.nodesIn w := by
  constructor
  · intro h
    obtain ⟨m, hm, hmem⟩ := List.mem_flatMap.mp h
    rcases (mem_unitsOf hmem).2 with rfl | hc
    · exact hm
    · obtain ⟨hmg, hw⟩ := List.mem_filter.mp hm
      obtain ⟨hng, hworld⟩ := clausesOf_world hids hlevel hmg hc
      exact List.mem_filter.mpr ⟨hng, by simpa [hworld] using hw⟩
  · intro h
    obtain ⟨hng, hw⟩ := List.mem_filter.mp h
    have hworld : n.world = w := by simpa using hw
    cases hclause : n.payload.isClause with
    | false =>
      exact List.mem_flatMap.mpr ⟨n, h, unitsOf_of_not_clause hclause ▸ List.mem_cons_self⟩
    | true =>
      have hhead : ∃ m ∈ g.nodes, m.payload.isClause = false ∧ m.world = n.world ∧
          n ∈ g.clausesOf m := by
        rcases isClause_iff.mp hclause with hk | hk | hk
        · obtain ⟨m, hm, hmk, hmw, hmem⟩ := hg.exists_condition hids hng (.inl hk)
          exact ⟨m, hm, not_clause_of_head (.inl hmk), hmw, hmem⟩
        · obtain ⟨m, hm, hmk, hmw, hmem⟩ := hg.exists_condition hids hng (.inr hk)
          exact ⟨m, hm, not_clause_of_head (.inl hmk), hmw, hmem⟩
        · obtain ⟨m, hm, hmk, hmw, hmem⟩ := hg.exists_attempt hids hng hk
          exact ⟨m, hm, not_clause_of_head (.inr hmk), hmw, hmem⟩
      obtain ⟨m, hm, hmc, hmw, hmem⟩ := hhead
      refine List.mem_flatMap.mpr ⟨m, List.mem_filter.mpr ⟨hm, by simp [hmw, hworld]⟩, ?_⟩
      rw [unitsOf_of_not_clause hmc]
      exact List.mem_cons_of_mem _ hmem

end Units

/-- The block that a clause comes behind: the one that leads to it, or the handler with the number
before. -/
inductive Precedes (g : Graph) : Node → Node → Prop where
  | alternative {m c : Node} (edge : ⟨m.id, c.id, .nextClause none⟩ ∈ g.edges) : Precedes g m c
  | first {m c : Node} (edge : ⟨m.id, c.id, .nextClause (some 0)⟩ ∈ g.edges) : Precedes g m c
  | next {m c d : Node} {index : Nat} (edge : ⟨m.id, c.id, .nextClause (some index)⟩ ∈ g.edges)
    (later : ⟨m.id, d.id, .nextClause (some (index + 1))⟩ ∈ g.edges) : Precedes g c d

/-- A block that may stand before a clause; a `try` has a handler then. -/
def Leading (g : Graph) (m : Node) : Prop :=
  m.kind.ownsWorld = true ∧ (m.kind = .tryBlock → g.handlersOf m.id ≠ [])

theorem leading_of_ne (ho : m.kind.ownsWorld = true) (hk : m.kind ≠ .tryBlock) : g.Leading m :=
  ⟨ho, fun ht => absurd ht hk⟩

theorem exists_adjacent {α : Type} {x y : α} {xs : List α} (h : y ∈ xs) :
    ∃ front z back, x :: xs = front ++ z :: y :: back ∧
      ((front = [] ∧ z = x ∧ xs[0]? = some y) ∨
        ∃ i, xs[i]? = some z ∧ xs[i + 1]? = some y) := by
  induction xs generalizing x with
  | nil => cases h
  | cons a xs ih =>
    rcases List.mem_cons.mp h with rfl | h
    · exact ⟨[], x, xs, rfl, .inl ⟨rfl, rfl, rfl⟩⟩
    · obtain ⟨front, z, back, hsplit, hplace⟩ := ih (x := a) h
      refine ⟨x :: front, z, back, congrArg (x :: ·) hsplit, .inr ?_⟩
      rcases hplace with ⟨-, rfl, hy⟩ | ⟨i, hz, hy⟩
      · exact ⟨0, rfl, hy⟩
      · exact ⟨i + 1, hz, hy⟩

section Predecessors

variable (hg : g.Chained) (hids : g.ids.Nodup)
include hg hids

theorem Chained.precedes_condition (hc : c ∈ g.nodes)
    (hk : c.kind = .elifBlock ∨ c.kind = .elseBlock) :
    ∃ m ∈ g.nodes, g.Precedes m c ∧ g.Leading m ∧
      ∃ front back, g.unitsIn c.world = front ++ m :: c :: back := by
  obtain ⟨m, hmk, -, hsub, hto⟩ := hg.alternative c hc hk
  have hedge : ⟨m.id, c.id, .nextClause none⟩ ∈ g.leadingTo c.id := hto ▸ List.mem_cons_self
  have hm := hsub.subset List.mem_cons_self
  have hleading : g.Leading m := by
    rcases hmk with hmk | hmk
    · exact leading_of_ne (by rw [hmk]; rfl) (by rw [hmk]; simp)
    · exact leading_of_ne (by rw [hmk]; rfl) (by rw [hmk]; simp)
  refine ⟨m, hm, .alternative (mem_leadingTo.mp hedge).1, hleading, ?_⟩
  obtain ⟨n, hn, hnk, hnw, hmem⟩ := hg.exists_condition hids hc hk
  rw [clausesOf_condition hnk] at hmem
  obtain ⟨front, m', back, hsplit, hnext⟩ := exists_split n rfl c hmem
  have hm' : m' ∈ n :: g.clausesFrom [n.id] n.id := by simp [hsplit]
  have hmg' : m' ∈ g.nodes := by
    rcases List.mem_cons.mp hm' with rfl | hm'
    · exact hn
    · exact mem_nodes_of_clausesOf (n := n) (clausesOf_condition hnk ▸ hm')
  obtain rfl := List.inj_on_of_nodup_map hids hmg' hm ((leadsOn_of_nextClause hnext).1.source_eq hto)
  obtain ⟨before, after, hunits⟩ := unitsIn_split (w := c.world)
    (List.mem_filter.mpr ⟨hn, by simp [hnw]⟩) (not_clause_of_head (.inl hnk))
  refine ⟨before ++ front, back ++ after, ?_⟩
  rw [hunits, clausesOf_condition hnk, hsplit]
  simp

theorem Chained.precedes_attempt (hc : c ∈ g.nodes) (hk : c.kind = .exceptBlock) :
    ∃ m ∈ g.nodes, g.Precedes m c ∧ g.Leading m ∧
      ∃ front back, g.unitsIn c.world = front ++ m :: c :: back := by
  obtain ⟨n, hn, hnk, hnw, hmem⟩ := hg.exists_attempt hids hc hk
  obtain ⟨cs, hsub, hkinds, hfrom⟩ := hg.numbered n hn hnk
  rw [clausesOf_attempt hnk, handlersOf_of_leadingFrom hids hsub hkinds hfrom] at hmem
  have hedge : ∀ {i : Nat} {d : Node}, cs[i]? = some d →
      ⟨n.id, d.id, .nextClause (some i)⟩ ∈ g.edges := by
    intro i d hd
    have hmem : ⟨n.id, d.id, .nextClause (some i)⟩ ∈ g.leadingFrom n.id := by
      rw [hfrom]
      exact List.mem_map.mpr ⟨(d, i), List.mk_mem_zipIdx_iff_getElem?.mpr hd, rfl⟩
    exact (mem_leadingFrom.mp hmem).1
  obtain ⟨front, m, back, hsplit, hplace⟩ := exists_adjacent (x := n) hmem
  obtain ⟨before, after, hunits⟩ := unitsIn_split (w := c.world)
    (List.mem_filter.mpr ⟨hn, by simp [hnw]⟩) (not_clause_of_head (.inr hnk))
  have hm : m ∈ g.nodes := hsub.subset (by simp [hsplit])
  have hhandlers := handlersOf_of_leadingFrom hids hsub hkinds hfrom
  refine ⟨m, hm, ?_, ?_, before ++ front, back ++ after, ?_⟩
  · rcases hplace with ⟨-, rfl, hc⟩ | ⟨i, hm, hc⟩
    · exact .first (hedge hc)
    · exact .next (hedge hm) (hedge hc)
  · rcases hplace with ⟨-, rfl, hc⟩ | ⟨i, hm, -⟩
    · refine ⟨by rw [hnk]; rfl, fun _ => ?_⟩
      rw [hhandlers]
      exact List.ne_nil_of_mem (List.mem_of_getElem? hc)
    · have hmk := (hkinds m (List.mem_of_getElem? hm)).1
      exact leading_of_ne (by rw [hmk]; rfl) (by rw [hmk]; simp)
  · rw [hunits, clausesOf_attempt hnk, hhandlers, hsplit]
    simp

theorem Chained.exists_predecessor (hc : c ∈ g.nodes) (hk : c.payload.isClause = true) :
    ∃ m ∈ g.nodes, g.Precedes m c ∧ g.Leading m ∧
      ∃ front back, g.unitsIn c.world = front ++ m :: c :: back := by
  rcases isClause_iff.mp hk with hk | hk | hk
  · exact hg.precedes_condition hids hc (.inl hk)
  · exact hg.precedes_condition hids hc (.inr hk)
  · exact hg.precedes_attempt hids hc hk

end Predecessors

end Graph

end ScopedFlow
