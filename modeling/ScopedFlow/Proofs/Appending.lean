import ScopedFlow.Proofs.Extension

/-!
# Injection only appends

The nodes and edges of a graph stay as they are in front of those of the snippet, because only calls
of the snippet are linked. The lines of the world where the snippet stands go on with those of its
nodes.
-/

namespace ScopedFlow

namespace Builder

def Unlinked (b : Builder) : Prop :=
  ∀ n ∈ b.graph.nodes, ∀ site, n.payload = .call site → site.target = none

namespace Unlinked

variable {w : World} {b b' : Builder} {xs : List WrittenCall}

theorem add (h : Unlinked b) (payload : Payload)
    (hp : ∀ site, payload = .call site → site.target = none) (label : String) (v : World) :
    Unlinked (b.add payload label v) := by
  intro n hn site hsite
  rcases List.mem_append.mp hn with hn | hn
  · exact h n hn site hsite
  · rw [List.mem_singleton.mp hn] at hsite
    exact hp site hsite

theorem of_nodes (h : Unlinked b) (hn : b'.graph.nodes = b.graph.nodes) : Unlinked b' := by
  unfold Unlinked
  rw [hn]
  exact h

theorem read (h : Unlinked b) (name : String) (slot : Slot) : Unlinked (b.read name w slot) := by
  rcases b.read_cases name w slot with
    ⟨-, hr⟩ | ⟨binding, -, ⟨-, hr⟩ | ⟨-, proxy, -, hr⟩ | ⟨-, -, hr⟩⟩ <;> rw [hr]
  · exact h
  · exact h.of_nodes (nodes_connect ..)
  · exact h.of_nodes (nodes_connect ..)
  · have hadd := h.add (.variable (.closureRead binding.node binding.world)) nofun name w
    apply hadd.of_nodes
    rw [nodes_connect, nodes_standIn]
    rfl

theorem fills {target : NodeId} (hf : Fills w target xs b b') (h : Unlinked b) : Unlinked b' := by
  induction hf with
  | refl => exact h
  | trans _ _ ih ih' => exact ih' (ih h)
  | read target b name data => exact h.read name _
  | node payload expression data parts ih =>
    apply ih
    have hsite : ∀ site, payload = .call site → site.target = none := by
      rintro site rfl
      exact Option.isNone_iff_eq_none.mp expression
    exact (h.add payload hsite _ w).of_nodes (nodes_connect ..)

theorem begins {payload : Payload} {label : String} (hb : Begins w payload label b xs b')
    (h : Unlinked b) : Unlinked b' := by
  have hsite : ∀ site, payload = .call site → site.target = none := by
    rintro site rfl
    cases hb with
    | plain plain _ => exact Option.isNone_iff_eq_none.mp plain
    | behind plain _ _ _ => exact Option.isNone_iff_eq_none.mp plain
    | binding introduces _ => cases introduces
  have hadd := h.add payload hsite label w
  cases hb with
  | plain _ parts => exact fills parts hadd
  | behind _ _ _ parts => exact fills parts (hadd.of_nodes (nodes_wire ..))
  | binding _ parts => exact (fills parts hadd).of_nodes rfl

theorem performs (hp : Performs w xs b b') (h : Unlinked b) : Unlinked b' := by
  induction hp with
  | refl => exact h
  | trans _ _ ih ih' => exact ih' (ih h)
  | head head => exact h.begins head
  | imports w b text names =>
    obtain ⟨scope, hdefine⟩ := foldl_imports b text names
    rw [hdefine]
    exact (h.add (.importStmt names) nofun text .imports).of_nodes rfl
  | block owns head body ih => exact (ih ((h.begins head).of_nodes rfl)).of_nodes rfl
  | clause known owns head body ih =>
    exact (ih ((h.begins head).of_nodes rfl)).of_nodes (nodes_wire ..)

end Unlinked

end Builder

namespace Graph
open Builder

variable {calls : List NodeId}

theorem mem_links {g : Graph} {l : CallLink}
    (h : l ∈ (g.nodes.filter fun n => n.id ∈ calls).filterMap
      (g.linkOf (WorldTree.ofGraph g) (Definitions.ofGraph g))) :
    l.call ∈ calls ∧ ∃ d ∈ g.ids, l.target = .body d := by
  obtain ⟨n, hn, hl⟩ := List.mem_filterMap.mp h
  obtain ⟨-, hcalls⟩ := List.mem_filter.mp hn
  obtain ⟨hcall, -⟩ := linkOf_eq_some hl
  refine ⟨hcall ▸ of_decide_eq_true hcalls, ?_⟩
  unfold linkOf at hl
  split at hl
  · cases hl
  · split at hl
    · cases hl
    · split at hl
      · cases hl
      · rename_i definition hfound
        obtain rfl := Option.some.inj hl
        obtain ⟨v, -, hlocal⟩ := List.exists_of_findSome?_eq_some hfound
        rw [Definitions.local?_ofGraph] at hlocal
        obtain ⟨d, hd, rfl⟩ := List.mem_map.mp (List.mem_of_getLast? hlocal)
        exact ⟨d.id, List.mem_map_of_mem (List.mem_filter.mp hd).1, rfl⟩

theorem linkOn_induction {P : Graph → Prop} {g : Graph} (start : P g)
    (apply : ∀ h l, P h → l.call ∈ calls → (∃ d ∈ g.ids, l.target = .body d) → P (h.applyLink l))
    (hydrate : ∀ h id, P h → id ∈ calls → P (h.hydrate id)) : P (g.linkOn calls).1 := by
  apply List.foldlRecOn
  · apply List.foldlRecOn
    · exact start
    · intro h hh l hl
      obtain ⟨hcall, htarget⟩ := mem_links hl
      exact apply h l hh (mem_distinct.mp hcall) htarget
  · intro h hh id hid
    exact hydrate h id hh (mem_distinct.mp hid)

theorem prefix_modifyNode {g : Graph} {ns : List Node} (h : ns <+: g.nodes) {id : NodeId}
    (hid : id ∉ ns.map (·.id)) (f : Node → Node) : ns <+: (g.modifyNode id f).nodes := by
  have hskip : ∀ ns ms : List Node, id ∉ ns.map (·.id) →
      modifyFirst (fun n => n.id = id) f (ns ++ ms) =
        ns ++ modifyFirst (fun n => n.id = id) f ms := by
    intro ns ms
    induction ns with
    | nil => exact fun _ => rfl
    | cons n ns ih =>
      intro hid
      rw [List.map_cons, List.mem_cons, not_or] at hid
      have hne : ¬ decide (n.id = id) = true := fun he => hid.1 (of_decide_eq_true he).symm
      rw [List.cons_append, modifyFirst, if_neg hne, ih hid.2, List.cons_append]
  obtain ⟨ms, hms⟩ := h
  refine ⟨modifyFirst (fun n => n.id = id) f ms, ?_⟩
  rw [modifyNode, ← hms, hskip ns ms hid]

theorem prefix_linkOn {g : Graph} {ns : List Node} (h : ns <+: g.nodes)
    (hcalls : ∀ id ∈ calls, id ∉ ns.map (·.id)) : ns <+: (g.linkOn calls).1.nodes := by
  refine linkOn_induction (P := fun g => ns <+: g.nodes) h ?_ ?_
  · intro g l hg hl _
    exact prefix_modifyNode hg (hcalls l.call hl) _
  · intro g id hg hid
    unfold hydrate
    split
    · exact prefix_modifyNode hg (hcalls id hid) _
    · exact hg

theorem mem_modifyNode {g : Graph} {id : NodeId} {f : Node → Node} {n : Node}
    (h : n ∈ (g.modifyNode id f).nodes) : n ∈ g.nodes ∨ ∃ m ∈ g.nodes, n = f m := by
  simp only [modifyNode] at h
  induction hns : g.nodes generalizing g with
  | nil =>
    rw [hns] at h
    cases h
  | cons m ns ih =>
    rw [hns, modifyFirst] at h
    split at h
    · rcases List.mem_cons.mp h with rfl | h
      · exact .inr ⟨m, List.mem_cons_self, rfl⟩
      · exact .inl (List.mem_cons_of_mem _ h)
    · rcases List.mem_cons.mp h with rfl | h
      · exact .inl List.mem_cons_self
      · rcases ih (g := ⟨ns, g.edges⟩) h rfl with h | ⟨k, hk, rfl⟩
        · exact .inl (List.mem_cons_of_mem _ h)
        · exact .inr ⟨k, List.mem_cons_of_mem _ hk, rfl⟩

theorem TargetsIn.modify {known : List NodeId} {g : Graph} (h : TargetsIn known g.nodes)
    (id : NodeId) {f : CallSite → CallSite}
    (hf : ∀ site d, (f site).target = some (.body d) → site.target = some (.body d) ∨ d ∈ known) :
    TargetsIn known (g.modifyNode id (Node.mapSite f)).nodes := by
  intro n hn site hsite d hd
  rcases mem_modifyNode hn with hn | ⟨m, hm, rfl⟩
  · exact h n hn site hsite d hd
  · cases hp : m.payload with
    | call before =>
      rw [Node.mapSite, hp] at hsite
      obtain rfl := Payload.call.inj hsite
      rcases hf before d hd with hd | hd
      · exact h m hm before hp d hd
      · exact hd
    | _ =>
      rw [Node.mapSite, hp] at hsite
      cases hp.symm.trans hsite

theorem TargetsIn.linkOn {g : Graph} (h : TargetsIn g.ids g.nodes) (calls : List NodeId) :
    TargetsIn g.ids (g.linkOn calls).1.nodes := by
  refine linkOn_induction (P := fun g' => TargetsIn g.ids g'.nodes) h ?_ ?_
  · intro g' l hg' _ htarget
    obtain ⟨d, hd, htarget⟩ := htarget
    apply hg'.modify
    intro site d' hd'
    obtain rfl := World.body.inj ((Option.some.inj hd').symm.trans htarget)
    exact .inr hd
  · intro g' id hg' _
    unfold hydrate
    split
    · exact hg'.modify id fun site d hd => .inl hd
    · exact hg'

section Graft

variable {g : Graph} {supply : Supply} (hg : g.Consistent)
  (hspent : ∀ n ∈ g.nodes, supply.Spent n.id) (stmts : List Stmt) (w : World)

theorem grounded_graft (h : g.Grounded) : (g.grafted supply stmts w).Grounded := by
  have hunlinked : Unlinked (g.snippetEnd supply stmts w) := by
    refine Unlinked.performs (performs_statements w stmts (g.snippetStart supply w)) ?_
    exact nofun
  let merged := g.append (g.snippetEnd supply stmts w).graph
  have hmerged : TargetsIn merged.ids merged.nodes := by
    intro n hn site hsite d hd
    rw [ids, (append_eq g _).1, List.map_append]
    rw [(append_eq g _).1] at hn
    rcases List.mem_append.mp hn with hn | hn
    · exact List.mem_append_left _ (h n hn site hsite d hd)
    · rw [hunlinked n hn site hsite] at hd
      cases hd
  have hids : (g.grafted supply stmts w).ids = merged.ids := ids_of_bare (bare_linkOn ..)
  rw [Grounded, hids]
  exact hmerged.linkOn _

theorem worlds_snippet {n : Node} (hn : n ∈ (g.snippetEnd supply stmts w).graph.nodes) :
    n.world = w ∨ n.world = .imports ∨
      ∃ d ∈ (g.snippetEnd supply stmts w).graph.nodes, n.world = .body d.id := by
  obtain ⟨made, hmade, hlives⟩ := (executes_statements w stmts (g.snippetStart supply w)).grows.nodes
  have hmade : (g.snippetEnd supply stmts w).graph.nodes = made := hmade
  rw [hmade] at hn ⊢
  rcases (hlives n hn).2 with ⟨-, himport⟩ | ⟨-, hhome | hbody⟩
  · exact .inr (.inl himport)
  · exact .inl hhome
  · exact .inr (.inr hbody)

include hspent

theorem nodes_graft (hids : g.ids.Nodup) : ∃ new, (g.grafted supply stmts w).nodes = g.nodes ++ new ∧
    new.map Node.bare = (g.snippetEnd supply stmts w).graph.nodes.map Node.bare := by
  have hjoined := joined_snippet hids hspent stmts w
  have hprefix : g.nodes <+: (g.grafted supply stmts w).nodes := by
    apply prefix_linkOn
    · exact ⟨_, (append_eq g _).1.symm⟩
    · intro id hid hold
      obtain ⟨n, hn, rfl⟩ := List.mem_map.mp hid
      obtain ⟨m, hm, hid⟩ := List.mem_map.mp hold
      exact hjoined.id_ne hm (List.mem_filter.mp hn).1 hid
  obtain ⟨new, hnew⟩ := hprefix
  have hall := bare_grafted g supply stmts w
  rw [← hnew, List.map_append, List.map_append] at hall
  exact ⟨new, hnew.symm, List.append_cancel_left hall⟩

include hg

theorem appends_graft :
    ∃ new, Appends g (g.grafted supply stmts w) w new (g.snippetEnd supply stmts w).graph.edges ∧
      new.length = (g.snippetEnd supply stmts w).graph.nodes.length := by
  have hjoined := joined_snippet hg.ids hspent stmts w
  obtain ⟨new, hnew, hbare⟩ := nodes_graft hspent stmts w hg.ids
  have hlength := congrArg List.length hbare
  rw [List.length_map, List.length_map] at hlength
  refine ⟨new, ⟨hnew, edges_graft hg hspent stmts w, ?_, ?_, ?_⟩, hlength⟩
  · intro e he
    obtain ⟨s, -, t, ht, -, htid, -⟩ := hjoined.edges e he
    obtain ⟨n, hn, hnid, -⟩ := Node.exists_alike hbare ht
    exact ⟨n, hn, hnid.trans htid⟩
  · intro e he n hn hs
    obtain ⟨s, hmem, t, -, hsid, -, -, hmade | hname⟩ := hjoined.edges e he
    · exact absurd (hs.trans hsid.symm) (hjoined.id_ne hn hmade)
    · obtain rfl := hjoined.eq_of_id hmem (List.mem_append_left _ hn) (hsid.trans hs.symm)
      exact hname
  · intro n hn
    obtain ⟨m, hm, -, hworld, -⟩ := Node.exists_alike hbare.symm hn
    rw [← hworld]
    rcases worlds_snippet stmts w hm with hhome | himport | ⟨d, hd, hbody⟩
    · exact .inl hhome
    · exact .inr (.inl himport)
    · obtain ⟨o, ho, hoid, -⟩ := Node.exists_alike hbare hd
      exact .inr (.inr ⟨o, ho, hoid ▸ hbody⟩)

end Graft

theorem Reached.grounded {k : Nat} {g : Graph} {supply : Supply} (h : Reached k g supply) :
    g.Grounded := by
  refine h.graft_induction (P := fun g _ => g.Grounded) (fun _ => nofun) ?_
  intro g supply w stmts hg _ _
  exact grounded_graft stmts w hg

/-- Injection appends nodes and edges to the graph, and lines to the text of the world. -/
theorem Reached.inject_appends {k : Nat} {g : Graph} {supply : Supply} (h : Reached k g supply)
    {w : World} (hw : g.hasWorld w = true) (hi : w ≠ .imports) {text : String} {stmts : List Stmt}
    (hp : Source.parse text = .ok stmts) :
    ∃ g' rest new added, g.inject supply text w = .ok (g', new.length, rest) ∧
      g'.nodes = g.nodes ++ new ∧ g'.edges = g.edges ++ added ∧
      (∀ e ∈ added, ∃ n ∈ new, n.id = e.target) ∧
      (∀ n ∈ new, n.world = w ∨ n.world = .imports ∨ ∃ d ∈ new, n.world = .body d.id) ∧
      ∀ style, ∃ old fresh, g.partCode style (.world w) = some old ∧
        Code.concat ((new.filter fun n => n.world = w).map
          (g'.statementCode style (g'.bodyCode style []))) = some fresh ∧
        g'.partCode style (.world w) = some (old.append fresh) := by
  have haccepts : g.accepts w = true := by
    rw [accepts, hw, Bool.true_and, decide_eq_true_eq]
    exact hi
  have hinject := inject_eq haccepts hp supply
  have hreached := h.injected hinject
  obtain ⟨new, happends, hlength⟩ := appends_graft h.consistent h.sound.spent stmts w
  rw [snippet_eq_end, ← hlength] at hinject
  refine ⟨_, _, new, _, hinject, happends.nodes, happends.edges, happends.targets,
    happends.worlds, ?_⟩
  intro style
  exact happends.partCode_eq hreached.consistent.ids h.wellScoped h.grounded hreached.wellScoped
    style

/-- A recursive call goes to the end of a function body. -/
theorem Reached.inject_appends_body :
    let w := World.body (Supply.idOf .functionDef 0)
    ∃ g supply g' rest new added fresh, Reached 0 g supply ∧
      g.inject supply "y = f(x)\n" w = .ok (g', new.length, rest) ∧
      g'.nodes = g.nodes ++ new ∧ g'.edges = g.edges ++ added ∧
      g.partCode .default (.world w) = some ⟨[⟨0, "x = a"⟩], []⟩ ∧
      g'.partCode .default (.world w) = some (Code.append ⟨[⟨0, "x = a"⟩], []⟩ fresh) := by
  let module : List Stmt := [.function "f" [.required "a"] [.assign "x" (.name "a")]]
  let g := (build ⟨0⟩ module).1.link.1
  let supply := (build ⟨0⟩ module).2
  let w := World.body (Supply.idOf .functionDef 0)
  have hsource : ofSourceLinked ⟨0⟩ "def f(a):\n    x = a\n" = .ok (g, supply) := by decide +kernel
  have hworld : g.hasWorld w = true := by decide +kernel
  have htext : g.partCode .default (.world w) = some ⟨[⟨0, "x = a"⟩], []⟩ := by decide +kernel
  have hreached : Reached 0 g supply := .parsed hsource
  have hread : (Source.parse "y = f(x)\n").map List.length = .ok 1 := by decide +kernel
  obtain ⟨stmts, hparse, -⟩ := exists_of_map_eq_ok hread
  obtain ⟨g', rest, new, added, hinject, hnodes, hedges, -, -, hcode⟩ :=
    hreached.inject_appends hworld (by decide) hparse
  obtain ⟨old, fresh, hold, -, hmerged⟩ := hcode .default
  obtain rfl := Option.some.inj (hold.symm.trans htext)
  exact ⟨g, supply, g', rest, new, added, fresh, hreached, hinject, hnodes, hedges, htext, hmerged⟩

end Graph

end ScopedFlow
