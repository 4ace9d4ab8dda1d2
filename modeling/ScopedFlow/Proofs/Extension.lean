import ScopedFlow.Proofs.Enclosure

/-!
# Texts of a graph that goes on

When new edges lead into new nodes only, and start at old nodes only where these are names, the old
nodes are written as before: their values are rebuilt from the edges into them, and what leaves a
call or a block has not changed. A body that is not the one where the new nodes stand keeps its
lines.
-/

namespace ScopedFlow

namespace Graph

/-- The targets of calls are bodies of the given owners. -/
def TargetsIn (known : List NodeId) (ns : List Node) : Prop :=
  ∀ n ∈ ns, ∀ site, n.payload = .call site → ∀ d, site.target = some (.body d) → d ∈ known

def Grounded (g : Graph) : Prop := TargetsIn g.ids g.nodes

/-- Nodes and edges behind those of a graph. New edges lead into new nodes, and where they start at
an old node it is a name. New nodes live in the world `w`, among the imports or in bodies of new
nodes. -/
structure Appends (g g' : Graph) (w : World) (new : List Node) (added : List Edge) : Prop where
  nodes : g'.nodes = g.nodes ++ new
  edges : g'.edges = g.edges ++ added
  targets : ∀ e ∈ added, ∃ t ∈ new, t.id = e.target
  sources : ∀ e ∈ added, ∀ n ∈ g.nodes, n.id = e.source → n.payload.isName = true
  worlds : ∀ n ∈ new, n.world = w ∨ n.world = .imports ∨ ∃ d ∈ new, n.world = .body d.id

namespace Appends

variable {g g' : Graph} {w : World} {new : List Node} {added : List Edge}
  (h : Appends g g' w new added) (hids : g'.ids.Nodup) {n : Node} {id : NodeId}

include h

theorem mem (hn : n ∈ g.nodes) : n ∈ g'.nodes := by
  rw [h.nodes]
  exact List.mem_append_left _ hn

theorem edgesFrom_eq (hn : n ∈ g.nodes) (hname : n.payload.isName = false) :
    g'.edgesFrom n.id = g.edgesFrom n.id := by
  have hnone : added.filter (fun e => e.source = n.id) = [] := by
    apply List.filter_eq_nil_iff.mpr
    intro e he hs
    have hname' := h.sources e he n hn (of_decide_eq_true hs).symm
    rw [hname] at hname'
    cases hname'
  rw [edgesFrom, h.edges, List.filter_append, hnone, List.append_nil]
  rfl

include hids

theorem id_ne {t : Node} (hn : n ∈ g.nodes) (ht : t ∈ new) : n.id ≠ t.id := by
  rw [ids, h.nodes, List.map_append, List.nodup_append] at hids
  exact hids.2.2 _ (List.mem_map_of_mem hn) _ (List.mem_map_of_mem ht)

theorem ids_nodup : g.ids.Nodup := by
  rw [ids, h.nodes, List.map_append, List.nodup_append] at hids
  exact hids.1

theorem lookup_eq (hid : id ∈ g.ids) : g'.lookup id = g.lookup id := by
  obtain ⟨n, hn, rfl⟩ := List.mem_map.mp hid
  rw [lookup_of_mem hids (h.mem hn), lookup_of_mem (h.ids_nodup hids) hn]

theorem edgesTo_eq (hid : id ∈ g.ids) : g'.edgesTo id = g.edgesTo id := by
  obtain ⟨n, hn, rfl⟩ := List.mem_map.mp hid
  have hnone : added.filter (fun e => e.target = n.id) = [] := by
    apply List.filter_eq_nil_iff.mpr
    intro e he ht
    obtain ⟨t, htmem, htid⟩ := h.targets e he
    exact h.id_ne hids hn htmem (htid.trans (of_decide_eq_true ht)).symm
  rw [edgesTo, h.edges, List.filter_append, hnone, List.append_nil]
  rfl

theorem callParams_eq (hground : g.Grounded) (hn : n ∈ g.nodes) {site : CallSite}
    (hp : n.payload = .call site) : g'.callParams site = g.callParams site := by
  have hlookup : (site.target.bind World.owner?).bind g'.lookup =
      (site.target.bind World.owner?).bind g.lookup := by
    cases ht : site.target with
    | none => rfl
    | some v =>
      cases v with
      | body d => exact h.lookup_eq hids (hground n hn site hp d ht)
      | root => rfl
      | imports => rfl
  rw [callParams, callParams, hlookup]

variable (hg : g.WellScoped) (hground : g.Grounded)
include hg

include hground in
theorem resolve_eq (style : CodeStyle) (visiting : List NodeId) (hid : id ∈ g.ids) :
    g'.resolve style visiting id = g.resolve style visiting id := by
  induction visiting, id using resolve.induct g with
  | case1 visiting id hnone =>
    obtain ⟨n, hn, rfl⟩ := List.mem_map.mp hid
    rw [lookup_of_mem hg.ids hn] at hnone
    cases hnone
  | case2 visiting id n hl hv =>
    rw [resolve_visiting hl hv, resolve_visiting ((h.lookup_eq hids hid).trans hl) hv]
  | case3 visiting id n hl hv hdec ih =>
    have hn := mem_of_lookup hl
    have hid' := id_eq_of_lookup hl
    rw [resolve_node hl hv, resolve_node ((h.lookup_eq hids hid).trans hl) hv]
    apply renderNode_congr
    · rw [hid']
      exact h.edgesTo_eq hids hid
    · intro e he hdata
      exact ih e.source (hg.ends e (List.mem_filter.mp he).1).1
    · intro site hp
      exact h.callParams_eq hids hground hn hp

include hground in
theorem value_eq (style : CodeStyle) (hid : id ∈ g.ids) :
    g'.value style id = g.value style id := h.resolve_eq hids hg hground style [] hid

omit hg in
theorem taken_eq (hn : n ∈ g.nodes) : g'.taken n = g.taken n := by
  have hinput := input_congr (h.edgesTo_eq hids (List.mem_map_of_mem hn))
  have hfeeds : ∀ site, n.payload = .call site → g'.feeds n.id = g.feeds n.id := by
    intro site hp
    rw [feeds, feeds, h.edgesFrom_eq hn (by rw [hp]; rfl)]
  unfold taken
  cases hp : n.payload with
  | call site => simp only [hfeeds site hp]
  | «variable» v => simp only [hinput]
  | forBlock _ | returnStmt | ifBlock | elifBlock | whileBlock | exceptBlock _ _ =>
    exact hinput _
  | _ => rfl

include hground in
theorem lineOf_eq (style : CodeStyle) (hn : n ∈ g.nodes) :
    g'.lineOf style n = g.lineOf style n := by
  rw [lineOf, lineOf, h.taken_eq hids hn]
  cases ht : g.taken n with
  | none => rfl
  | some id =>
    have hid : id ∈ g.ids := by
      rcases taken_cases ht with ⟨e, he, -, rfl⟩ | ⟨rfl, -⟩
      · exact (hg.ends e (List.mem_filter.mp he).1).1
      · exact List.mem_map_of_mem hn
    rw [Option.map_some, Option.map_some, h.value_eq hids hg hground style hid]

theorem nextClause_eq (hn : n ∈ g.nodes) (hname : n.payload.isName = false) :
    g'.nextClause n.id = g.nextClause n.id := by
  have hlookup : ∀ es : List Edge, es ⊆ g.edges →
      es.filterMap (fun e => g'.lookup e.target) = es.filterMap fun e => g.lookup e.target := by
    intro es hes
    apply List.filterMap_congr
    intro e he
    exact h.lookup_eq hids (hg.ends e (hes he)).2
  rw [nextClause, nextClause, h.edgesFrom_eq hn hname, hlookup]
  intro e he
  exact (List.mem_filter.mp (List.mem_filter.mp he).1).1

theorem handlersOf_eq (hn : n ∈ g.nodes) (hname : n.payload.isName = false) :
    g'.handlersOf n.id = g.handlersOf n.id := by
  unfold handlersOf
  rw [h.edgesFrom_eq hn hname]
  refine congrArg (fun xs : List (Nat × Node) => (xs.mergeSort fun a b => a.1 ≤ b.1).map (·.2)) ?_
  apply List.filterMap_congr
  intro e he
  rw [h.lookup_eq hids (hg.ends e (List.mem_filter.mp he).1).2]

theorem clausesFrom_eq {seen : List NodeId} (hn : n ∈ g.nodes) (hname : n.payload.isName = false) :
    g'.clausesFrom seen n.id = g.clausesFrom seen n.id := by
  have hclause : ∀ c : Node, c.kind = .elifBlock ∨ c.kind = .elseBlock →
      c.payload.isName = false := by
    intro c hc
    obtain ⟨id, label, world, payload⟩ := c
    cases payload with
    | «variable» _ | functionDef _ | classDef _ | importStmt _ => rcases hc with hc | hc <;> cases hc
    | _ => rfl
  generalize hid : n.id = id
  induction seen, id using clausesFrom.induct g generalizing n with
  | case1 seen id hnone =>
    subst hid
    have hnext := h.nextClause_eq hids hg hn hname
    rw [clausesFrom_done hnone, clausesFrom_done (hnext.trans hnone)]
  | case2 seen id m hm hs =>
    subst hid
    have hnext := h.nextClause_eq hids hg hn hname
    rw [clausesFrom_seen hm hs, clausesFrom_seen (hnext.trans hm) hs]
  | case3 seen id m hm hs hk =>
    subst hid
    have hnext := h.nextClause_eq hids hg hn hname
    rw [clausesFrom_otherwise hm hs hk, clausesFrom_otherwise (hnext.trans hm) hs hk]
  | case4 seen id m hm hs hk hdec ih =>
    subst hid
    have hnext := h.nextClause_eq hids hg hn hname
    obtain ⟨hlead, hkind⟩ := leadsOn_of_nextClause hm
    obtain ⟨hmem, -⟩ := hlead.world hg.ids hg.clausesLevel hn
    rw [clausesFrom_elif hm hs hk, clausesFrom_elif (hnext.trans hm) hs hk,
      ih hmem (hclause m hkind) rfl]

theorem clausesOf_eq (hn : n ∈ g.nodes) : g'.clausesOf n = g.clausesOf n := by
  unfold clausesOf
  cases hp : n.payload with
  | ifBlock => exact h.clausesFrom_eq hids hg hn (by rw [hp]; rfl)
  | tryBlock => exact h.handlersOf_eq hids hg hn (by rw [hp]; rfl)
  | _ => rfl

include hground

theorem statementCode_congr (style : CodeStyle) {body body' : NodeId → Option Code}
    (hn : n ∈ g.nodes) (hbody : ∀ m ∈ g.nodes, m.world = n.world → body' m.id = body m.id) :
    g'.statementCode style body' n = g.statementCode style body n := by
  have hline : ∀ m ∈ g.nodes, g'.lineOf style m = g.lineOf style m := fun m hm =>
    h.lineOf_eq hids hg hground style hm
  have hclauses : (g'.clausesOf n).map (clauseFrom (g'.lineOf style) body') =
      (g.clausesOf n).map (clauseFrom (g.lineOf style) body) := by
    rw [h.clausesOf_eq hids hg hn]
    apply List.map_congr_left
    intro c hc
    obtain ⟨hmem, hw⟩ := clausesOf_world hg.ids hg.clausesLevel hn hc
    rw [clauseFrom, clauseFrom, hline c hmem, hbody c hmem hw]
  have hhead : g'.hasHead n.id = g.hasHead n.id := by
    rw [hasHead, hasHead, h.edgesTo_eq hids (List.mem_map_of_mem hn)]
  rw [statementCode_eq, statementCode_eq]
  unfold assembled
  rw [hline n hn, hbody n hn rfl, hclauses, hhead, h.clausesOf_eq hids hg hn]

theorem worldCode_congr (style : CodeStyle) {body body' : NodeId → Option Code} {v : World}
    (hv : g'.nodesIn v = g.nodesIn v)
    (hbody : ∀ m ∈ g.nodes, m.world = v → body' m.id = body m.id) :
    g'.worldCode style body' v = g.worldCode style body v := by
  rw [worldCode, worldCode, hv]
  congr 1
  apply List.map_congr_left
  intro n hn
  obtain ⟨hn, hw⟩ := List.mem_filter.mp hn
  have hw : n.world = v := of_decide_eq_true hw
  exact h.statementCode_congr hids hg hground style hn fun m hm hmw =>
    hbody m hm (hmw.trans hw)

omit hg hground in
theorem nodesIn_body {o : NodeId} (ho : o ∈ g.ids) (hw : World.body o ≠ w) :
    g'.nodesIn (.body o) = g.nodesIn (.body o) := by
  obtain ⟨d, hd, rfl⟩ := List.mem_map.mp ho
  have hnone : new.filter (fun n => n.world = .body d.id) = [] := by
    apply List.filter_eq_nil_iff.mpr
    intro n hn hbody
    have hbody : n.world = .body d.id := of_decide_eq_true hbody
    rcases h.worlds n hn with hworld | hworld | ⟨t, ht, hworld⟩
    · exact hw (hbody.symm.trans hworld)
    · cases hbody.symm.trans hworld
    · have hid : d.id = t.id := World.body.inj (hbody.symm.trans hworld)
      exact h.id_ne hids hd ht hid
  rw [nodesIn, h.nodes, List.filter_append, hnone, List.append_nil]
  rfl

theorem bodyCode_eq (style : CodeStyle) (opened : List NodeId) {owner : NodeId}
    (ho : owner ∈ g.ids) (hw : ∀ o, w = .body o → g.ids.idxOf o < g.ids.idxOf owner) :
    g'.bodyCode style opened owner = g.bodyCode style opened owner := by
  have hold : ∀ id, id ∈ g.ids → id ∈ g'.ids := by
    intro id hid
    rw [ids, h.nodes, List.map_append]
    exact List.mem_append_left _ hid
  induction opened, owner using bodyCode.induct g with
  | case1 opened owner hopen hdec ih =>
    have hother : World.body owner ≠ w := by
      rintro rfl
      exact Nat.lt_irrefl _ (hw owner rfl)
    rw [bodyCode, dif_pos ⟨hold owner hopen.1, hopen.2⟩, bodyCode, dif_pos hopen]
    congr 1
    apply h.worldCode_congr hids hg hground style (h.nodesIn_body hids ho hother)
    intro m hm hmw
    apply ih m.id (List.mem_map_of_mem hm)
    intro o hwo
    exact (hw o hwo).trans (hg.idxOf_lt hm hmw)
  | case2 opened owner hclosed =>
    have hmem : owner ∈ opened := by
      by_contra hmem
      exact hclosed ⟨ho, hmem⟩
    rw [bodyCode, dif_neg fun hopen => hopen.2 hmem, bodyCode, dif_neg hclosed]

theorem partCode_eq (hg' : g'.WellScoped) (style : CodeStyle) :
    ∃ old fresh, g.partCode style (.world w) = some old ∧
      Code.concat ((new.filter fun n => n.world = w).map
        (g'.statementCode style (g'.bodyCode style []))) = some fresh ∧
      g'.partCode style (.world w) = some (old.append fresh) := by
  have hold : (g.nodesIn w).map (g'.statementCode style (g'.bodyCode style [])) =
      (g.nodesIn w).map (g.statementCode style (g.bodyCode style [])) := by
    apply List.map_congr_left
    intro n hn
    obtain ⟨hn, hw⟩ := List.mem_filter.mp hn
    apply h.statementCode_congr hids hg hground style hn
    intro m hm hmw
    apply h.bodyCode_eq hids hg hground style [] (List.mem_map_of_mem hm)
    rintro o rfl
    have hmo : m.world = .body o := hmw.trans (of_decide_eq_true hw)
    exact hg.idxOf_lt hm hmo
  have hsplit : g'.partCode style (.world w) = (g.partCode style (.world w)).bind fun old =>
      (Code.concat ((new.filter fun n => n.world = w).map
        (g'.statementCode style (g'.bodyCode style [])))).map old.append := by
    rw [partCode, partCode, worldCode, worldCode, ← hold, ← Code.concat_append, ← List.map_append,
      nodesIn, h.nodes, List.filter_append]
    rfl
  obtain ⟨all, hall⟩ := Option.isSome_iff_exists.mp (hg'.partCode_isSome style (.world w))
  rw [hsplit] at hall
  obtain ⟨old, hold', hrest⟩ := Option.bind_eq_some_iff.mp hall
  obtain ⟨fresh, hfresh, rfl⟩ := Option.map_eq_some_iff.mp hrest
  refine ⟨old, fresh, hold', hfresh, ?_⟩
  rw [hsplit, hold', hfresh]
  rfl

end Appends

end Graph

end ScopedFlow
