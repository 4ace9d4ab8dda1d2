import Mathlib.Logic.Relation
import ScopedFlow.Proofs.Clauses
import ScopedFlow.Proofs.Lines
import ScopedFlow.Proofs.Scoping

/-!
# Which bodies are written inside which

A statement is written with its own body and with those of its clauses. A part of a graph has a text
exactly if none of the bodies that are met while it is written contains itself. This is so for every
part if owners come before what lives in their bodies and clauses live where the blocks before them
do.
-/

namespace ScopedFlow

theorem Code.concat_isSome_iff {xs : List (Option Code)} :
    (Code.concat xs).isSome = true ↔ ∀ x ∈ xs, x.isSome = true := by
  induction xs with
  | nil => simp [Code.concat]
  | cons x xs ih => cases x <;> simp [Code.concat, ih]

namespace Graph

variable {id b owner : NodeId} {style : CodeStyle}

theorem headed_isSome (line : Code) (body : Option Code) :
    (headed line body).isSome = body.isSome := Option.isSome_map

def LeadsOn (g : Graph) (id : NodeId) (c : Node) : Prop :=
  ∃ e ∈ g.edges, e.source = id ∧ (∃ index, e.kind = .nextClause index) ∧
    g.lookup e.target = some c

theorem leadsOn_of_nextClause {g : Graph} {c : Node} (h : g.nextClause id = some c) :
    g.LeadsOn id c ∧ (c.kind = .elifBlock ∨ c.kind = .elseBlock) := by
  have hkind := List.find?_some h
  obtain ⟨e, he, hl⟩ := List.mem_filterMap.mp (List.mem_of_find?_eq_some h)
  obtain ⟨he, hk⟩ := List.mem_filter.mp he
  obtain ⟨he, hs⟩ := List.mem_filter.mp he
  exact ⟨⟨e, he, of_decide_eq_true hs, ⟨none, of_decide_eq_true hk⟩, hl⟩, by simpa using hkind⟩

theorem leadsOn_of_handlersOf {g : Graph} {c : Node} (h : c ∈ g.handlersOf id) :
    g.LeadsOn id c ∧ c.kind = .exceptBlock := by
  obtain ⟨x, hx, rfl⟩ := List.mem_map.mp h
  obtain ⟨e, he, hsome⟩ := List.mem_filterMap.mp (List.mem_mergeSort.mp hx)
  obtain ⟨he, hs⟩ := List.mem_filter.mp he
  split at hsome
  · rename_i index hk
    split at hsome
    · rename_i m hl
      split at hsome
      · rename_i hkind
        cases hsome
        exact ⟨⟨e, he, of_decide_eq_true hs, ⟨_, hk⟩, hl⟩, hkind⟩
      · cases hsome
    · cases hsome
  · cases hsome

theorem clausesFrom_induction {g : Graph} {P : Node → Prop}
    (hnext : ∀ c d, P c → g.nextClause c.id = some d → P d) {seen : List NodeId}
    (hfirst : ∀ c, g.nextClause id = some c → P c) : ∀ c ∈ g.clausesFrom seen id, P c := by
  induction seen, id using clausesFrom.induct g with
  | case1 seen id hnone =>
    rw [clausesFrom_done hnone]
    exact nofun
  | case2 seen id m hm hs =>
    rw [clausesFrom_seen hm hs]
    exact nofun
  | case3 seen id m hm hs hk =>
    rw [clausesFrom_otherwise hm hs hk]
    exact List.forall_mem_singleton.mpr (hfirst m hm)
  | case4 seen id m hm hs hk hdec ih =>
    rw [clausesFrom_elif hm hs hk]
    exact List.forall_mem_cons.mpr ⟨hfirst m hm, ih (hnext m · (hfirst m hm))⟩

theorem clausesOf_induction {g : Graph} {P : Node → Prop} {n : Node}
    (hfirst : ∀ c, g.LeadsOn n.id c → P c) (hnext : ∀ c d, P c → g.LeadsOn c.id d → P d) :
    ∀ c ∈ g.clausesOf n, P c := by
  unfold clausesOf
  split
  · apply clausesFrom_induction
    · exact fun c d hc hd => hnext c d hc (leadsOn_of_nextClause hd).1
    · exact fun c hc => hfirst c (leadsOn_of_nextClause hc).1
  · exact fun c hc => hfirst c (leadsOn_of_handlersOf hc).1
  · exact nofun

theorem mem_ids_of_clausesOf {g : Graph} {n c : Node} (h : c ∈ g.clausesOf n) : c.id ∈ g.ids := by
  have hlead : ∀ {id : NodeId} (c : Node), g.LeadsOn id c → c.id ∈ g.ids := by
    rintro id c ⟨e, -, -, -, hl⟩
    rw [id_eq_of_lookup hl]
    exact mem_ids_of_lookup hl
  exact clausesOf_induction hlead (fun c d _ hd => hlead d hd) c h

theorem kind_of_clausesOf {g : Graph} {n c : Node} (h : c ∈ g.clausesOf n) :
    c.kind = .elifBlock ∨ c.kind = .elseBlock ∨ c.kind = .exceptBlock := by
  unfold clausesOf at h
  split at h
  · have hkind := clausesFrom_induction (P := fun c => c.kind = .elifBlock ∨ c.kind = .elseBlock)
      (fun c d _ hd => (leadsOn_of_nextClause hd).2) (fun c hc => (leadsOn_of_nextClause hc).2) c h
    exact hkind.imp_right .inl
  · exact .inr (.inr (leadsOn_of_handlersOf h).2)
  · cases h

theorem clauseFrom_isSome_iff (line : Node → Code) (body : NodeId → Option Code) {c : Node}
    (h : c.kind = .elifBlock ∨ c.kind = .elseBlock ∨ c.kind = .exceptBlock) :
    (clauseFrom line body c).isSome = (body c.id).isSome := by
  obtain ⟨id, label, world, payload⟩ := c
  cases payload with
  | elifBlock | elseBlock | exceptBlock _ _ => exact headed_isSome ..
  | _ => rcases h with h | h | h <;> cases h

/-- The nodes whose bodies are written with a statement. -/
def bodiesOf (g : Graph) (n : Node) : List NodeId :=
  match n.payload with
  | .functionDef _ | .classDef _ | .forBlock _ | .whileBlock => [n.id]
  | .ifBlock | .tryBlock => n.id :: (g.clausesOf n).map (·.id)
  | _ => []

def bodiesIn (g : Graph) (w : World) : List NodeId := (g.nodesIn w).flatMap g.bodiesOf

/-- The body of one node is written in that of another. -/
def Contains (g : Graph) (outer inner : NodeId) : Prop := inner ∈ g.bodiesIn (.body outer)

theorem assembled_isSome_iff (g : Graph) (line : Node → Code) (body : NodeId → Option Code)
    (n : Node) : (g.assembled line body n).isSome = true ↔
      ∀ b ∈ g.bodiesOf n, (body b).isSome = true := by
  have hclauses : (∀ x ∈ (g.clausesOf n).map (clauseFrom line body), x.isSome = true) ↔
      ∀ b ∈ (g.clausesOf n).map (·.id), (body b).isSome = true := by
    rw [List.forall_mem_map, List.forall_mem_map]
    refine forall_congr' fun c => forall_congr' fun hc => ?_
    rw [clauseFrom_isSome_iff line body (kind_of_clausesOf hc)]
  unfold assembled bodiesOf
  cases n.payload with
  | functionDef _ | classDef _ | forBlock _ | whileBlock =>
    simp only [headed_isSome, List.mem_singleton, forall_eq]
  | ifBlock =>
    simp only [Code.concat_isSome_iff, List.forall_mem_cons, headed_isSome, hclauses]
  | tryBlock =>
    simp only [Code.concat_isSome_iff, List.forall_mem_cons, headed_isSome, ← hclauses]
    refine and_congr_right fun _ => ?_
    split
    · rename_i hnone
      rw [List.isEmpty_iff.mp hnone]
      simp [Code.block]
    · simp [Code.concat_isSome_iff]
  | _ => simp

theorem worldCode_isSome_iff (g : Graph) (style : CodeStyle) (body : NodeId → Option Code)
    (w : World) : (g.worldCode style body w).isSome = true ↔
      ∀ b ∈ g.bodiesIn w, (body b).isSome = true := by
  simp only [worldCode, Code.concat_isSome_iff, List.forall_mem_map, statementCode_eq,
    assembled_isSome_iff, bodiesIn, List.forall_mem_flatMap]

theorem bodyCode_isSome_iff (g : Graph) (style : CodeStyle) (opened : List NodeId)
    (owner : NodeId) : (g.bodyCode style opened owner).isSome = true ↔
      (owner ∈ g.ids ∧ owner ∉ opened) ∧
        ∀ b, g.Contains owner b → (g.bodyCode style (owner :: opened) b).isSome = true := by
  rw [bodyCode]
  split
  · rename_i hopen
    rw [Option.isSome_map, worldCode_isSome_iff]
    exact (and_iff_right hopen).symm
  · rename_i hclosed
    simp only [Option.isSome_none, Bool.false_eq_true, false_iff]
    exact fun h => hclosed h.1

theorem mem_ids_of_bodiesOf {g : Graph} {n : Node} (hn : n ∈ g.nodes) (h : b ∈ g.bodiesOf n) :
    b ∈ g.ids := by
  have hhead : n.id ∈ g.ids := List.mem_map_of_mem hn
  unfold bodiesOf at h
  split at h
  · exact List.mem_singleton.mp h ▸ hhead
  · exact List.mem_singleton.mp h ▸ hhead
  · exact List.mem_singleton.mp h ▸ hhead
  · exact List.mem_singleton.mp h ▸ hhead
  · rcases List.mem_cons.mp h with rfl | h
    · exact hhead
    · obtain ⟨c, hc, rfl⟩ := List.mem_map.mp h
      exact mem_ids_of_clausesOf hc
  · rcases List.mem_cons.mp h with rfl | h
    · exact hhead
    · obtain ⟨c, hc, rfl⟩ := List.mem_map.mp h
      exact mem_ids_of_clausesOf hc
  · cases h

theorem mem_ids_of_bodiesIn {g : Graph} {w : World} (h : b ∈ g.bodiesIn w) : b ∈ g.ids := by
  obtain ⟨n, hn, hb⟩ := List.mem_flatMap.mp h
  exact mem_ids_of_bodiesOf (List.mem_filter.mp hn).1 hb

open Relation

/-- A body without a text leads to one that contains itself. The open bodies are those on the way. -/
theorem exists_cycle_of_bodyCode {g : Graph} {opened : List NodeId} (ho : owner ∈ g.ids)
    (hopened : ∀ o ∈ opened, TransGen g.Contains o owner)
    (h : ¬(g.bodyCode style opened owner).isSome = true) :
    ∃ b, ReflTransGen g.Contains owner b ∧ TransGen g.Contains b b := by
  induction opened, owner using bodyCode.induct g with
  | case1 opened owner hopen hdec ih =>
    rw [bodyCode_isSome_iff, not_and] at h
    obtain ⟨b, hb⟩ := not_forall.mp (h hopen)
    obtain ⟨hcontains, hnone⟩ := Classical.not_imp.mp hb
    have hway : ∀ o ∈ owner :: opened, TransGen g.Contains o b := by
      intro o hmem
      rcases List.mem_cons.mp hmem with rfl | hmem
      · exact .single hcontains
      · exact (hopened o hmem).tail hcontains
    obtain ⟨c, hreach, hcycle⟩ := ih b (mem_ids_of_bodiesIn hcontains) hway hnone
    exact ⟨c, .head hcontains hreach, hcycle⟩
  | case2 opened owner hclosed =>
    have hmem : owner ∈ opened := by
      by_contra hmem
      exact hclosed ⟨ho, hmem⟩
    exact ⟨owner, .refl, hopened owner hmem⟩

theorem exists_opened_of_bodyCode {g : Graph} {opened : List NodeId}
    (h : (g.bodyCode style opened owner).isSome = true) (hreach : TransGen g.Contains owner b) :
    ∃ more, owner ∈ more ∧ (g.bodyCode style more b).isSome = true := by
  induction hreach with
  | single hcontains =>
    exact ⟨owner :: opened, List.mem_cons_self, ((bodyCode_isSome_iff ..).mp h).2 _ hcontains⟩
  | tail _ hcontains ih =>
    obtain ⟨more, hmem, hsome⟩ := ih
    exact ⟨_ :: more, List.mem_cons_of_mem _ hmem,
      ((bodyCode_isSome_iff ..).mp hsome).2 _ hcontains⟩

theorem bodyCode_isSome_iff_acyclic {g : Graph} (ho : owner ∈ g.ids) :
    (g.bodyCode style [] owner).isSome = true ↔
      ∀ b, ReflTransGen g.Contains owner b → ¬TransGen g.Contains b b := by
  constructor
  · intro h b hreach hcycle
    have hb : ∃ opened, (g.bodyCode style opened b).isSome = true := by
      rcases reflTransGen_iff_eq_or_transGen.mp hreach with rfl | hreach
      · exact ⟨[], h⟩
      · obtain ⟨more, -, hsome⟩ := exists_opened_of_bodyCode h hreach
        exact ⟨more, hsome⟩
    obtain ⟨opened, hsome⟩ := hb
    obtain ⟨more, hmem, hagain⟩ := exists_opened_of_bodyCode hsome hcycle
    exact ((bodyCode_isSome_iff ..).mp hagain).1.2 hmem
  · intro hacyclic
    by_contra hnone
    obtain ⟨b, hreach, hcycle⟩ := exists_cycle_of_bodyCode ho (List.forall_mem_nil _) hnone
    exact hacyclic b hreach hcycle

/-- The nodes whose bodies are written in a part, but in no other body of it. -/
def topBodies (g : Graph) : Part → List NodeId
  | .whole => g.bodiesIn .root
  | .world w => g.bodiesIn w
  | .node id =>
    match g.lookup id with
    | some n =>
      match n.payload with
      | .elifBlock | .elseBlock | .exceptBlock _ _ => [n.id]
      | _ => g.bodiesOf n
    | none => []

theorem nodeCode_isSome_iff {g : Graph} (style : CodeStyle) {n : Node} (h : g.lookup id = some n) :
    (g.nodeCode style n).isSome = true ↔
      ∀ b ∈ g.topBodies (.node id), (g.bodyCode style [] b).isSome = true := by
  have hstatement := g.assembled_isSome_iff (g.lineOf style) (g.bodyCode style []) n
  rw [← statementCode_eq] at hstatement
  simp only [topBodies, h, nodeCode]
  obtain ⟨nid, label, world, payload⟩ := n
  cases payload with
  | elifBlock | elseBlock | exceptBlock _ _ =>
    simp only [clauseCode_eq, clauseFrom, headed_isSome, List.mem_singleton, forall_eq]
  | «variable» v => cases hw : v.isWrite <;> simp [hw, hstatement, bodiesOf]
  | functionDef _ | classDef _ | ifBlock | forBlock _ | whileBlock | tryBlock | returnStmt
  | importStmt _ => exact hstatement
  | _ => simp [bodiesOf]

theorem partCode_isSome_iff (g : Graph) (style : CodeStyle) (part : Part) :
    (g.partCode style part).isSome = true ↔
      ∀ b ∈ g.topBodies part, (g.bodyCode style [] b).isSome = true := by
  cases part with
  | whole => rw [partCode, Option.isSome_map, worldCode_isSome_iff, topBodies]
  | world w => rw [partCode, worldCode_isSome_iff, topBodies]
  | node id =>
    cases hl : g.lookup id with
    | none => simp [partCode, topBodies, hl]
    | some n =>
      simp only [partCode, hl]
      exact nodeCode_isSome_iff style hl

theorem mem_ids_of_topBodies {g : Graph} {part : Part} (h : b ∈ g.topBodies part) : b ∈ g.ids := by
  cases part with
  | whole => exact mem_ids_of_bodiesIn h
  | world w => exact mem_ids_of_bodiesIn h
  | node id =>
    unfold topBodies at h
    cases hl : g.lookup id with
    | none => simp [hl] at h
    | some n =>
      have hn : n ∈ g.nodes := List.mem_reverse.mp (List.mem_of_find?_eq_some hl)
      simp only [hl] at h
      split at h
      · exact List.mem_singleton.mp h ▸ List.mem_map_of_mem hn
      · exact List.mem_singleton.mp h ▸ List.mem_map_of_mem hn
      · exact List.mem_singleton.mp h ▸ List.mem_map_of_mem hn
      · exact mem_ids_of_bodiesOf hn h

/-- A part has a text exactly if no body that is met in it contains itself. -/
theorem partCode_isSome_iff_acyclic (g : Graph) (style : CodeStyle) (part : Part) :
    (g.partCode style part).isSome = true ↔ ∀ a ∈ g.topBodies part, ∀ b,
      ReflTransGen g.Contains a b → ¬TransGen g.Contains b b := by
  rw [partCode_isSome_iff]
  refine forall_congr' fun a => forall_congr' fun ha => ?_
  exact bodyCode_isSome_iff_acyclic (mem_ids_of_topBodies ha)

theorem partCode_isSome_of_rank {g : Graph} (rank : NodeId → Nat)
    (h : ∀ a ∈ g.ids, ∀ b, g.Contains a b → rank a < rank b) (style : CodeStyle) (part : Part) :
    (g.partCode style part).isSome = true := by
  have hpath : ∀ {a b}, TransGen g.Contains a b → a ∈ g.ids → rank a < rank b := by
    intro a b hab ha
    induction hab with
    | single hstep => exact h a ha _ hstep
    | tail hpath hstep ih =>
      obtain ⟨c, -, hlast⟩ := TransGen.tail'_iff.mp hpath
      exact ih.trans (h _ (mem_ids_of_bodiesIn hlast) _ hstep)
  rw [partCode_isSome_iff_acyclic]
  intro a ha b hreach hcycle
  obtain ⟨c, -, hlast⟩ := TransGen.tail'_iff.mp hcycle
  exact Nat.lt_irrefl _ (hpath hcycle (mem_ids_of_bodiesIn hlast))

/-- No node lives in its own body or in that of a later node. -/
structure OwnersFirst (ns : List Node) : Prop where
  own : ∀ n ∈ ns, n.world ≠ .body n.id
  later : ns.Pairwise fun m n => m.world ≠ .body n.id

namespace OwnersFirst

variable {ns ms : List Node}

theorem of_address (h : OwnersFirst ns)
    (hsub : (ms.map Node.address).Sublist (ns.map Node.address)) : OwnersFirst ms := by
  have hlater : (ns.map Node.address).Pairwise fun p q => p.2 ≠ .body q.1 :=
    List.pairwise_map.mpr h.later
  refine ⟨?_, List.pairwise_map.mp (hlater.sublist hsub)⟩
  intro m hm
  obtain ⟨n, hn, he⟩ := List.mem_map.mp (hsub.subset (List.mem_map_of_mem hm))
  obtain ⟨hid, hw⟩ := Prod.mk.inj he
  exact hid ▸ hw ▸ h.own n hn

theorem append (h : OwnersFirst ns) (h' : OwnersFirst ms)
    (hcross : ∀ n ∈ ns, ∀ m ∈ ms, n.world ≠ .body m.id) : OwnersFirst (ns ++ ms) :=
  ⟨List.forall_mem_append.mpr ⟨h.own, h'.own⟩,
    List.pairwise_append.mpr ⟨h.later, h'.later, hcross⟩⟩

theorem idxOf_lt {g : Graph} (h : OwnersFirst g.nodes) (hids : g.ids.Nodup) {n : Node}
    (hn : n ∈ g.nodes) {o : NodeId} (ho : o ∈ g.ids) (hw : n.world = .body o) :
    g.ids.idxOf o < g.ids.idxOf n.id := by
  obtain ⟨d, hd, rfl⟩ := List.mem_map.mp ho
  obtain ⟨front, back, hsplit⟩ := List.append_of_mem hd
  have hids' : g.ids = front.map (·.id) ++ d.id :: back.map (·.id) := by
    rw [ids, hsplit, List.map_append, List.map_cons]
  have hfront : d.id ∉ front.map (·.id) := by
    rw [hids', List.nodup_append] at hids
    intro hmem
    exact hids.2.2 _ hmem _ List.mem_cons_self rfl
  have hbehind : n.id ∉ front.map (·.id) := by
    intro hmem
    obtain ⟨m, hm, hid⟩ := List.mem_map.mp hmem
    have hmg : m ∈ g.nodes := hsplit ▸ List.mem_append_left _ hm
    obtain rfl := List.inj_on_of_nodup_map hids hmg hn hid
    have hlater := h.later
    rw [hsplit, List.pairwise_append] at hlater
    exact hlater.2.2 m hm d List.mem_cons_self hw
  have hne : d.id ≠ n.id := by
    intro hid
    exact h.own n hn (hid ▸ hw)
  rw [hids', List.idxOf_append_of_notMem hfront, List.idxOf_append_of_notMem hbehind,
    List.idxOf_cons_self, List.idxOf_cons_ne _ hne]
  omega

end OwnersFirst

theorem Nested.ownersFirst {ns : List Node} (h : Nested ns) (hids : (ns.map (·.id)).Nodup) :
    OwnersFirst ns := by
  have hbehind : ∀ front n back, ns = front ++ n :: back → ∀ m ∈ n :: back,
      n.world ≠ .body m.id := by
    rintro front n back rfl m hm hw
    have hopened := h front n back rfl
    rw [hw] at hopened
    obtain ⟨d, hd, -, hid⟩ := hopened
    rw [List.map_append, List.nodup_append] at hids
    exact hids.2.2 _ (List.mem_map_of_mem hd) _ (List.mem_map_of_mem hm) hid
  constructor
  · intro n hn
    obtain ⟨front, back, hsplit⟩ := List.append_of_mem hn
    exact hbehind front n back hsplit n List.mem_cons_self
  · clear h hids
    have hsuffix : ∀ front back, ns = front ++ back →
        back.Pairwise fun m n => m.world ≠ .body n.id := by
      intro front back hsplit
      induction back generalizing front with
      | nil => exact .nil
      | cons n back ih =>
        refine .cons ?_ (ih (front ++ [n]) ?_)
        · intro m hm
          exact hbehind front n back hsplit m (List.mem_cons_of_mem _ hm)
        · rw [hsplit, List.append_assoc, List.singleton_append]
    exact hsuffix [] ns rfl

theorem mem_of_lookup {g : Graph} {n : Node} (h : g.lookup id = some n) :
    n ∈ g.nodes := List.mem_reverse.mp (List.mem_of_find?_eq_some h)

/-- Clauses live where the blocks before them do. -/
def ClausesLevel (g : Graph) : Prop :=
  ∀ e ∈ g.edges, (∃ index, e.kind = .nextClause index) → Level g.nodes e

theorem WellScoped.clausesLevel {g : Graph} (hg : g.WellScoped) : g.ClausesLevel := by
  rintro e he ⟨index, hk⟩
  refine hg.worlds e he ?_
  rw [hk]
  exact nofun

section Clauses

variable {g : Graph} (hids : g.ids.Nodup) (hlevel : g.ClausesLevel) {n c : Node} (hn : n ∈ g.nodes)
include hids hlevel hn

theorem LeadsOn.world (h : g.LeadsOn n.id c) : c ∈ g.nodes ∧ c.world = n.world := by
  obtain ⟨e, he, hs, hk, hl⟩ := h
  have hc := mem_of_lookup hl
  obtain ⟨s, hsmem, t, htmem, hsid, htid, hw⟩ := hlevel e he hk
  obtain rfl := List.inj_on_of_nodup_map hids hsmem hn (hsid.trans hs)
  obtain rfl := List.inj_on_of_nodup_map hids htmem hc (htid.trans (id_eq_of_lookup hl).symm)
  exact ⟨hc, hw.symm⟩

theorem clausesOf_world (h : c ∈ g.clausesOf n) : c ∈ g.nodes ∧ c.world = n.world := by
  refine clausesOf_induction (P := fun c => c ∈ g.nodes ∧ c.world = n.world) ?_ ?_ c h
  · intro c hc
    exact hc.world hids hlevel hn
  · rintro c d ⟨hc, hw⟩ hd
    obtain ⟨hd, hdw⟩ := hd.world hids hlevel hc
    exact ⟨hd, hdw.trans hw⟩

omit hn in
theorem Contains.world {a : NodeId} (h : g.Contains a b) :
    ∃ m ∈ g.nodes, m.id = b ∧ m.world = .body a := by
  obtain ⟨n, hn, hb⟩ := List.mem_flatMap.mp h
  obtain ⟨hn, hw⟩ := List.mem_filter.mp hn
  have hw : n.world = .body a := of_decide_eq_true hw
  have hcases : b = n.id ∨ ∃ c ∈ g.clausesOf n, c.id = b := by
    unfold bodiesOf at hb
    split at hb
    · exact .inl (List.mem_singleton.mp hb)
    · exact .inl (List.mem_singleton.mp hb)
    · exact .inl (List.mem_singleton.mp hb)
    · exact .inl (List.mem_singleton.mp hb)
    · exact (List.mem_cons.mp hb).imp_right List.mem_map.mp
    · exact (List.mem_cons.mp hb).imp_right List.mem_map.mp
    · cases hb
  rcases hcases with rfl | ⟨c, hc, rfl⟩
  · exact ⟨n, hn, rfl, hw⟩
  · obtain ⟨hmem, hcw⟩ := clausesOf_world hids hlevel hn hc
    exact ⟨c, hmem, rfl, hcw.trans hw⟩

end Clauses

/-- Every part has a text if owners come first and clauses live where the blocks before them do. -/
theorem partCode_isSome_of_ownersFirst {g : Graph} (hids : g.ids.Nodup)
    (howners : OwnersFirst g.nodes) (hlevel : g.ClausesLevel) (style : CodeStyle) (part : Part) :
    (g.partCode style part).isSome = true := by
  apply partCode_isSome_of_rank (g.ids.idxOf ·)
  intro a ha b hab
  obtain ⟨m, hm, rfl, hw⟩ := hab.world hids hlevel
  exact howners.idxOf_lt hids hm ha hw

namespace WellScoped

variable {g : Graph} (hg : g.WellScoped)
include hg

theorem ownersFirst : OwnersFirst g.nodes := hg.nested.ownersFirst hg.ids

theorem idxOf_lt {n : Node} (hn : n ∈ g.nodes) {o : NodeId} (hw : n.world = .body o) :
    g.ids.idxOf o < g.ids.idxOf n.id := by
  obtain ⟨front, back, hsplit⟩ := List.append_of_mem hn
  have hopened := hg.nested front n back hsplit
  rw [hw] at hopened
  obtain ⟨d, hd, -, rfl⟩ := hopened
  have hmem : d ∈ g.nodes := hsplit ▸ List.mem_append_left _ hd
  exact hg.ownersFirst.idxOf_lt hg.ids hn (List.mem_map_of_mem hmem) hw

theorem partCode_isSome (style : CodeStyle) (part : Part) :
    (g.partCode style part).isSome = true :=
  partCode_isSome_of_ownersFirst hg.ids hg.ownersFirst hg.clausesLevel style part

end WellScoped

end Graph

end ScopedFlow
