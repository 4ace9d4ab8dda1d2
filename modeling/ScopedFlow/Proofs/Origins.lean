import ScopedFlow.Proofs.Reached
import ScopedFlow.Proofs.StandIns

/-!
# What a stand-in stands for in the end

An injection can find a stand-in under a name and make another one for it, so stand-ins may come in
chains. A chain has at most one link more than there were injections, all its nodes carry the name,
and its last node binds the name by itself.
-/

namespace ScopedFlow

variable {payload : Payload} {v : World}

namespace Node

variable {name : String}

/-- Following stand-ins from a node leads, by so many steps, to a node that binds names by itself.
Each step goes to a node of another world that carries the name. -/
inductive Traces (ns : List Node) : Nat → Node → Node → Prop where
  | binding {n : Node} (mem : n ∈ ns) (own : n.isBinding = true) : Traces ns 0 n n
  | standIn {m : Nat} {n d e : Node} (mem : n ∈ ns) (origin : n.origin? = some (d.id, d.world))
    (away : d.world ≠ n.world) (name : d.Binds n.label) (rest : Traces ns m d e) :
    Traces ns (m + 1) n e

theorem kind_of_origin {n : Node} {o : NodeId × World} (h : n.origin? = some o) :
    n.kind = .variable := by
  obtain ⟨id, label, world, payload⟩ := n
  cases payload with
  | «variable» v => rfl
  | _ => cases h

theorem isBinding_iff {n : Node} (h : n.Binds name) : n.isBinding = true ↔ n.origin? = none := by
  obtain ⟨id, label, world, payload⟩ := n
  cases payload with
  | «variable» v => exact Option.isNone_iff_eq_none
  | functionDef _ | classDef _ | importStmt _ => exact ⟨fun _ => rfl, fun _ => rfl⟩
  | _ => cases h

theorem origin_of_nameless (h : payload.isNameless = true) (id : NodeId) (label : String)
    (w : World) : (⟨id, label, w, payload⟩ : Node).origin? = none := by
  cases payload with
  | «variable» v => cases h
  | _ => rfl

theorem kind_of_isBinding {n : Node} (h : n.isBinding = true) : n.kind ≠ .call := by
  obtain ⟨id, label, world, payload⟩ := n
  cases payload with
  | call site => cases h
  | _ => nofun

namespace Traces

variable {ns ms : List Node} {m : Nat} {n e : Node}

theorem mono (h : Traces ns m n e) (hs : ∀ n ∈ ns, n.kind ≠ .call → n ∈ ms) : Traces ms m n e := by
  induction h with
  | binding mem own => exact .binding (hs _ mem (kind_of_isBinding own)) own
  | standIn mem origin away name _ ih =>
    have hkind := kind_of_origin origin
    exact .standIn (hs _ mem (by rw [hkind]; decide)) origin away name ih

theorem binds (h : Traces ns m n e) (hn : n.Binds name) : e.Binds name := by
  induction h with
  | binding _ _ => exact hn
  | @standIn m n d e mem origin away hname _ ih =>
    have hlabel : n.label = name := by
      obtain ⟨id, label, world, payload⟩ := n
      cases payload with
      | «variable» v => exact hn
      | _ => cases origin
    exact ih (hlabel ▸ hname)

end Traces

/-- A name is entered for a node that can be followed in at most so many steps. -/
def Known (bound : Nat) (ns : List Node) (name : String) (id : NodeId) (v : World) : Prop :=
  ∃ d e m, d.id = id ∧ d.world = v ∧ d.Binds name ∧ m ≤ bound ∧ Traces ns m d e

/-- Every stand-in can be followed in at most so many steps behind the first. -/
def AllTraced (bound : Nat) (ns : List Node) : Prop :=
  ∀ n ∈ ns, n.origin?.isSome → ∃ m ≤ bound, ∃ e, Traces ns (m + 1) n e

theorem Known.mono {bound : Nat} {ns ms : List Node} {id : NodeId} (h : Known bound ns name id v)
    (hs : ns ⊆ ms) : Known bound ms name id v := by
  obtain ⟨d, e, m, hid, hw, hname, hm, ht⟩ := h
  exact ⟨d, e, m, hid, hw, hname, hm, ht.mono fun _ hn _ => hs hn⟩

end Node

open Node

namespace Builder

/-- During a run behind the nodes `base`: all names in scope and all stand-ins can be followed. -/
structure Tracing (base : List Node) (bound : Nat) (b : Builder) : Prop where
  names : b.symbols.All (Known bound (base ++ b.graph.nodes))
  standIns : AllTraced bound (base ++ b.graph.nodes)

namespace Tracing

variable {base : List Node} {bound : Nat} {w : World} {b b' : Builder}

theorem of_eq (h : Tracing base bound b) (hs : b'.symbols = b.symbols)
    (hn : b'.graph.nodes = b.graph.nodes) : Tracing base bound b' := by
  refine ⟨?_, ?_⟩
  · rw [hs, hn]
    exact h.names
  · rw [hn]
    exact h.standIns

theorem snoc (h : Tracing base bound b) (hs : b'.symbols = b.symbols) {n : Node}
    (hn : b'.graph.nodes = b.graph.nodes ++ [n])
    (ht : n.origin?.isSome → ∃ m ≤ bound, ∃ e, Traces (base ++ b'.graph.nodes) (m + 1) n e) :
    Tracing base bound b' := by
  have hsub : base ++ b.graph.nodes ⊆ base ++ b'.graph.nodes := by
    rw [hn, ← List.append_assoc]
    exact List.subset_append_left ..
  refine ⟨?_, ?_⟩
  · rw [hs]
    exact h.names.mono fun name node v hk => hk.mono hsub
  · intro x hx ho
    rw [hn, ← List.append_assoc] at hx
    rcases List.mem_append.mp hx with hx | hx
    · obtain ⟨m, hm, e, htr⟩ := h.standIns x hx ho
      exact ⟨m, hm, e, htr.mono fun _ hmem _ => hsub hmem⟩
    · obtain rfl := List.mem_singleton.mp hx
      exact ht ho

theorem add (h : Tracing base bound b) {label : String}
    (ho : (⟨b.fresh payload.kind, label, v, payload⟩ : Node).origin? = none) :
    Tracing base bound (b.add payload label v) := by
  refine h.snoc rfl rfl fun hsome => ?_
  rw [ho] at hsome
  cases hsome

theorem define (h : Tracing base bound b) {name : String} {id : NodeId}
    (hk : Known bound (base ++ b.graph.nodes) name id v) :
    Tracing base bound (b.define name id v) := ⟨h.names.write hk, h.standIns⟩

theorem evaluates (h : Tracing base bound b) (he : Evaluates w b b') : Tracing base bound b' := by
  induction he with
  | refl b => exact h
  | trans _ _ ih ih' => exact ih' (ih h)
  | add b nameless label => exact h.add (origin_of_nameless nameless ..)
  | wire b source target kind => exact h.of_eq rfl (nodes_wire ..)
  | @standIn b name binding found away absent =>
    obtain ⟨d, e, m, hid, hw, hname, hm, ht⟩ := h.names.read found
    refine h.snoc rfl (nodes_standIn ..) fun _ => ⟨m, hm, e, ?_⟩
    rw [nodes_standIn, ← List.append_assoc]
    refine .standIn (d := d) (List.mem_append_right _ List.mem_cons_self) ?_ (hw ▸ away) hname ?_
    · rw [hid, hw]
      rfl
    · exact ht.mono fun _ hmem _ => List.mem_append_left _ hmem

theorem known {n : Node} (hn : n ∈ b.graph.nodes) {name : String} (hname : n.Binds name)
    (ho : n.origin? = none) : Known bound (base ++ b.graph.nodes) name n.id n.world :=
  ⟨n, n, 0, rfl, rfl, hname, Nat.zero_le _,
    .binding (List.mem_append_right _ hn) ((isBinding_iff hname).mpr ho)⟩

theorem heads (h : Tracing base bound b) {label : String} (hh : Heads w payload label b b') :
    Tracing base bound b' := by
  cases hh with
  | plain nameless value => exact evaluates (h.add (origin_of_nameless nameless ..)) value
  | @binding b'' introduces value =>
    have hown : (⟨b.fresh payload.kind, label, w, payload⟩ : Node).origin? = none ∧
        (⟨b.fresh payload.kind, label, w, payload⟩ : Node).Binds label := by
      cases payload with
      | «variable» v =>
        obtain ⟨mode, version, optional⟩ := v
        cases mode with
        | param | write => exact ⟨rfl, rfl⟩
        | closureRead _ _ => cases introduces
      | functionDef _ | classDef _ => exact ⟨rfl, rfl⟩
      | _ => cases introduces
    obtain ⟨new, hn, -⟩ := (Grows.evaluates value).nodes
    have hmem : ⟨b.fresh payload.kind, label, w, payload⟩ ∈ b''.graph.nodes := by
      rw [hn]
      exact List.mem_append_left _ (List.mem_append_right _ List.mem_cons_self)
    exact (evaluates (h.add hown.1) value).define (known hmem hown.2 hown.1)

theorem imports (h : Tracing base bound b) (text : String) (names : List String) :
    Tracing base bound (names.foldl (fun b' name => b'.define name (b.fresh .importStmt) .imports)
      (b.add (.importStmt names) text .imports)) := by
  have hfold : ∀ (some : List String) {b' : Builder}, some ⊆ names → Tracing base bound b' →
      ⟨b.fresh .importStmt, text, .imports, .importStmt names⟩ ∈ b'.graph.nodes →
      Tracing base bound
        (some.foldl (fun b' name => b'.define name (b.fresh .importStmt) .imports) b') := by
    intro some
    induction some with
    | nil => exact fun _ hb _ => hb
    | cons name some ih =>
      intro b' hs hb hmem
      obtain ⟨hname, hs⟩ := List.cons_subset.mp hs
      exact ih hs (hb.define (known hmem hname rfl)) hmem
  exact hfold names (List.Subset.refl _) (h.add rfl) (List.mem_append_right _ List.mem_cons_self)

theorem executes (h : Tracing base bound b) (he : Executes w b b') : Tracing base bound b' := by
  induction he with
  | evaluate value => exact h.evaluates value
  | trans _ _ ih ih' => exact ih' (ih h)
  | head head => exact h.heads head
  | imports w b text names => exact h.imports text names
  | block head _ ih =>
    have hhead := h.heads head
    have hbody := ih ⟨hhead.names.enter, hhead.standIns⟩
    exact ⟨hbody.names.leave, hbody.standIns⟩

end Tracing

end Builder

namespace Graph
open Builder

theorem known_ofWorld {g : Graph} {supply : Supply} {bound : Nat} (hg : Sound g.nodes supply)
    (ht : AllTraced bound g.nodes) (w : World) :
    (Symbols.ofWorld g w).All (Known (bound + 1) g.nodes) := by
  refine Symbols.all_ofWorld ?_ w
  intro v e he
  obtain ⟨n, hn, hcounts, hentry⟩ := mem_scopeOf he
  obtain ⟨hid, hname, hworld⟩ := binds_of_entry hentry
  have hworld : n.world = e.world := by
    rcases hworld with ⟨hv, hk⟩ | ⟨hv, hk⟩
    · simp only [countsFor, Bool.or_eq_true, Bool.and_eq_true, decide_eq_true_eq] at hcounts
      rcases hcounts with hcounts | ⟨-, hcounts⟩
      · exact hcounts.trans hv.symm
      · exact absurd ((hg.imports n hn).mpr hcounts) hk
    · exact ((hg.imports n hn).mp hk).trans hv.symm
  by_cases ho : n.origin? = none
  · exact ⟨n, n, 0, hid.symm, hworld, hname, Nat.zero_le _, .binding hn ((isBinding_iff hname).mpr ho)⟩
  · obtain ⟨m, hm, e', htr⟩ := ht n hn (Option.isSome_iff_ne_none.mpr ho)
    exact ⟨n, e', m + 1, hid.symm, hworld, hname, Nat.succ_le_succ hm, htr⟩

/-- Stand-ins lead back to a node that binds the name by itself. A text makes only stand-ins of
such nodes, and every injection can put one more stand-in between. -/
theorem Reached.traces {k : Nat} {g : Graph} {supply : Supply} (h : Reached k g supply) :
    ∀ n ∈ g.nodes, n.origin?.isSome → ∃ m ≤ k, ∃ e, Traces g.nodes (m + 1) n e ∧ e.Binds n.label := by
  have hall : AllTraced k g.nodes := by
    refine h.nodes_induction ?_ ?_ ?_
    · intro supply b hb
      have hstart : Tracing [] 0 (.start supply) := ⟨.empty, List.forall_mem_nil _⟩
      exact (hstart.executes hb).standIns
    · intro k g supply w b hg hs hw hb
      have hstart : Tracing g.nodes (k + 1) (g.snippetStart supply w) := by
        refine ⟨?_, ?_⟩
        · exact (known_ofWorld hs hg w).mono fun name id v hk => hk.mono (List.subset_append_left ..)
        · intro n hn ho
          obtain ⟨m, hm, e, ht⟩ := hg n (by simpa [snippetStart, empty] using hn) ho
          exact ⟨m, Nat.le_succ_of_le hm, e, ht.mono fun _ hmem _ => List.mem_append_left _ hmem⟩
      exact (hstart.executes hb).standIns
    · intro k ns ms hbare hns n hn ho
      have hback : n ∈ ns := mem_of_bare hbare.symm hn (by
        obtain ⟨o, ho⟩ := Option.isSome_iff_exists.mp ho
        rw [kind_of_origin ho]
        decide)
      obtain ⟨m, hm, e, ht⟩ := hns n hback ho
      exact ⟨m, hm, e, ht.mono fun _ hmem hk => mem_of_bare hbare hmem hk⟩
  intro n hn ho
  obtain ⟨m, hm, e, ht⟩ := hall n hn ho
  refine ⟨m, hm, e, ht, ht.binds ?_⟩
  obtain ⟨o, ho⟩ := Option.isSome_iff_exists.mp ho
  obtain ⟨id, label, world, payload⟩ := n
  cases payload with
  | «variable» v => rfl
  | _ => cases ho

/-- A read in the branch of a function that has read the name before: the stand-in of the branch
stands for that of the function. -/
theorem Reached.traces_chain : ∃ g supply, Reached 1 g supply ∧
    (∃ n ∈ g.nodes, ∃ d ∈ g.nodes, n.origin? = some (d.id, d.world) ∧ d.origin?.isSome = true) ∧
    ∀ n ∈ g.nodes, n.origin?.isSome → ∃ m ≤ 1, ∃ e, Traces g.nodes (m + 1) n e ∧ e.Binds n.label := by
  let module : List Stmt := [.assign "x" (.literal "1"), .function "f" [] [
    .eval (.call "print" [.positional (.name "x")]), .branch ⟨"x", .name "x"⟩ [.skip] .done]]
  let g := (build ⟨0⟩ module).1.link.1
  let supply := (build ⟨0⟩ module).2
  let w := World.body (Supply.idOf .ifBlock 5)
  have hsource : ofSourceLinked ⟨0⟩ "x = 1\ndef f():\n    print(x)\n    if x:\n        pass\n" =
      .ok (g, supply) := by decide +kernel
  have hinject : g.inject supply "y = x" w =
      .ok (g.grafted supply [.assign "y" (.name "x")] w, 2, ⟨8⟩) := by decide +kernel
  have hreached := Reached.injected (.parsed hsource) hinject
  exact ⟨_, _, hreached, by decide +kernel, hreached.traces⟩

end Graph

end ScopedFlow
