import Mathlib.Logic.Relation
import ScopedFlow.Proofs.Lines

/-!
# Values that need themselves

The nodes whose texts are being written are kept in a set, which every text leaves as it found it,
so the writing ends. A node is met again inside its own text exactly if its value goes into itself.
-/

namespace ScopedFlow

open Relation

namespace Graph

variable {g : Graph} {style : CodeStyle} {visiting : List NodeId} {id : NodeId}

/-- The text of a node with the set of the nodes that are being written as a state. No more than
`depth` of them may be nested. -/
def walk (g : Graph) (style : CodeStyle) : Nat → NodeId → StateT (List NodeId) Option Rendered
  | 0, _ => failure
  | depth + 1, id => do
    match g.lookup id with
    | none => return ⟨style.placeholder, [⟨id, "", .missingNode⟩]⟩
    | some n =>
      let visiting ← get
      if id ∈ visiting then return lacking style n .cyclic
      else
        set (id :: visiting)
        let values ← (g.takes n).mapM fun s => do return (s, ← walk g style depth s)
        modify (·.erase id)
        return g.renderNode style (valueOf values) n
where
  valueOf (values : List (NodeId × Rendered)) (s : NodeId) : Rendered :=
    ((values.find? fun v => v.1 = s).map (·.2)).getD (.plain "")

theorem mapM_of_keeps {α β σ : Type} {f : α → StateT σ Option β} {r : α → β} {state : σ}
    {as : List α} (h : ∀ a ∈ as, f a state = some (r a, state)) :
    as.mapM f state = some (as.map r, state) := by
  induction as with
  | nil => rfl
  | cons a as ih =>
    obtain ⟨ha, has⟩ := List.forall_mem_cons.mp h
    rw [List.mapM_cons]
    change ((f a state).bind fun p => (as.mapM f p.2).bind fun ps => some (p.1 :: ps.1, ps.2)) = _
    rw [ha, Option.bind_some, ih has]
    rfl

theorem valueOf_map {r : NodeId → Rendered} {ss : List NodeId} {s : NodeId} (h : s ∈ ss) :
    walk.valueOf (ss.map fun s => (s, r s)) s = r s := by
  rw [walk.valueOf, List.find?_map]
  cases hf : ss.find? ((fun v : NodeId × Rendered => decide (v.1 = s)) ∘ fun s => (s, r s)) with
  | none => exact absurd (decide_eq_true rfl) (List.find?_eq_none.mp hf s h)
  | some t =>
    have hfound := List.find?_some hf
    obtain rfl : t = s := of_decide_eq_true hfound
    rfl

theorem walk_eq {depth : Nat} (h : remaining g.ids visiting < depth) :
    g.walk style depth id visiting = some (g.resolve style visiting id, visiting) := by
  induction visiting, id using resolve.induct g generalizing depth with
  | case1 visiting id hnone =>
    obtain ⟨depth, rfl⟩ := Nat.exists_eq_succ_of_ne_zero (Nat.ne_zero_of_lt h)
    rw [walk, resolve_missing hnone, hnone]
    rfl
  | case2 visiting id n hl hin =>
    obtain ⟨depth, rfl⟩ := Nat.exists_eq_succ_of_ne_zero (Nat.ne_zero_of_lt h)
    rw [walk, resolve_visiting hl hin, hl]
    exact congrFun (if_pos hin) visiting
  | case3 visiting id n hl hnot hless ih =>
    obtain ⟨depth, rfl⟩ := Nat.exists_eq_succ_of_ne_zero (Nat.ne_zero_of_lt h)
    have hvalues : (g.takes n).mapM (m := StateT (List NodeId) Option)
        (fun s => do return (s, ← g.walk style depth s)) (id :: visiting) =
          some ((g.takes n).map fun s => (s, g.resolve style (id :: visiting) s), id :: visiting) := by
      apply mapM_of_keeps
      intro s _
      exact congrArg (Option.bind · _) (ih s (Nat.lt_of_lt_of_le hless (Nat.le_of_lt_succ h)))
    rw [walk, resolve_node hl hnot, hl]
    refine (congrFun (if_neg hnot) visiting).trans ((congrArg (Option.bind · _) hvalues).trans ?_)
    rw [(woven_renderNode g style n).congr _ _ fun s hs => (valueOf_map hs).symm]
    exact congrArg (fun set => some (_, set)) (List.erase_cons_head ..)

/-- The value of the source is taken along an edge for the text of the target. -/
def Follows (g : Graph) (source target : NodeId) : Prop :=
  ∃ n, g.lookup target = some n ∧ source ∈ g.takes n ∧
    ∃ e ∈ g.edges, e.source = source ∧ e.target = target

theorem follows_of_takes {n : Node} (hl : g.lookup id = some n) {s : NodeId} (hs : s ∈ g.takes n) :
    g.Follows s id := by
  obtain ⟨e, he, -, hsource⟩ := (woven_renderNode g .default n).within s hs
  obtain ⟨hmem, htarget⟩ := List.mem_filter.mp he
  exact ⟨n, hl, hs, e, hmem, hsource, (of_decide_eq_true htarget).trans (id_eq_of_lookup hl)⟩

theorem mem_cycles {n : Node} {sub : NodeId → Rendered} {d : Defect} :
    d ∈ (g.renderNode style sub n).cycles ↔ ∃ s ∈ g.takes n, d ∈ (sub s).cycles := by
  rw [(woven_renderNode g style n).cycles, List.mem_flatMap]

theorem cycles_of_visiting {n : Node} (hl : g.lookup id = some n) (hv : id ∈ visiting) :
    (g.resolve style visiting id).cycles = [⟨id, n.label, .cyclic⟩] := by
  rw [resolve_visiting hl hv, ← id_eq_of_lookup hl]
  rfl

theorem transGen_of_cycles (hv : ∀ v ∈ visiting, TransGen g.Follows id v) {d : Defect}
    (hd : d ∈ (g.resolve style visiting id).cycles) :
    ReflTransGen g.Follows d.node id ∧ TransGen g.Follows d.node d.node := by
  induction visiting, id using resolve.induct g with
  | case1 visiting id hnone =>
    rw [resolve_missing hnone] at hd
    cases hd
  | case2 visiting id n hl hin =>
    rw [cycles_of_visiting hl hin, List.mem_singleton] at hd
    rw [hd]
    exact ⟨.refl, hv id hin⟩
  | case3 visiting id n hl hnot _ ih =>
    rw [resolve_node hl hnot] at hd
    obtain ⟨s, hs, hd⟩ := mem_cycles.mp hd
    have hfollows := follows_of_takes hl hs
    obtain ⟨hpath, hcycle⟩ := ih s (List.forall_mem_cons.mpr
      ⟨.single hfollows, fun v hin => .head hfollows (hv v hin)⟩) hd
    exact ⟨hpath.tail hfollows, hcycle⟩

theorem acc_of_cycles (h : (g.resolve style visiting id).cycles = []) : Acc g.Follows id := by
  induction visiting, id using resolve.induct g with
  | case1 visiting id hnone =>
    constructor
    rintro s ⟨n, hl, -⟩
    cases hnone.symm.trans hl
  | case2 visiting id n hl hin =>
    rw [cycles_of_visiting hl hin] at h
    cases h
  | case3 visiting id n hl hnot _ ih =>
    constructor
    rintro s ⟨m, hm, hs, -⟩
    obtain rfl := Option.some.inj (hl.symm.trans hm)
    apply ih s
    rw [List.eq_nil_iff_forall_not_mem] at h ⊢
    intro d hd
    apply h d
    rw [resolve_node hl hnot]
    exact mem_cycles.mpr ⟨s, hs, hd⟩

theorem not_transGen_of_acc {m : NodeId} (h : Acc g.Follows id) (hpath : ReflTransGen g.Follows m id) :
    ¬ TransGen g.Follows m m := by
  have hacc : Acc (TransGen g.Follows) m := by
    induction hpath using ReflTransGen.head_induction_on with
    | refl => exact h.transGen
    | head hstep _ ih => exact ih.inv (.single hstep)
  induction hacc with
  | intro m _ ih => exact fun hcycle => ih m hcycle hpath hcycle

/-- The writing of a value ends, and it leaves the set of the nodes that are being written as it found
it. A node is reported as cyclic only if its value goes into itself, and where such a node is met
on the way back along the edges, one is. -/
theorem resolve_guarded (g : Graph) (style : CodeStyle) (id : NodeId) :
    (∀ visiting depth, remaining g.ids visiting < depth →
      g.walk style depth id visiting = some (g.resolve style visiting id, visiting)) ∧
    (∀ d ∈ (g.value style id).defects, d.reason = .cyclic →
      ReflTransGen g.Follows d.node id ∧ TransGen g.Follows d.node d.node) ∧
    ((∃ d ∈ (g.value style id).defects, d.reason = .cyclic) ↔
      ∃ m, ReflTransGen g.Follows m id ∧ TransGen g.Follows m m) := by
  have hsound : ∀ d ∈ (g.value style id).defects, d.reason = .cyclic →
      ReflTransGen g.Follows d.node id ∧ TransGen g.Follows d.node d.node := by
    intro d hd hr
    exact transGen_of_cycles (List.forall_mem_nil _) (List.mem_filter.mpr ⟨hd, decide_eq_true hr⟩)
  refine ⟨fun visiting depth h => walk_eq h, hsound, ?_, ?_⟩
  · rintro ⟨d, hd, hr⟩
    exact ⟨d.node, hsound d hd hr⟩
  · rintro ⟨m, hpath, hcycle⟩
    apply Classical.byContradiction
    intro hnone
    have hcycles : (g.resolve style [] id).cycles = [] := by
      apply List.filter_eq_nil_iff.mpr
      intro d hd hr
      exact hnone ⟨d, hd, of_decide_eq_true hr⟩
    exact not_transGen_of_acc (acc_of_cycles hcycles) hpath hcycle

/-- A list that is its own item, with another item that is gone. -/
theorem resolve_guarded_knot :
    let list : NodeId := ⟨"list"⟩
    let g : Graph := ⟨[⟨list, "[]", .root, .listDisplay⟩],
      [⟨list, list, .listElement 0⟩, ⟨⟨"gone"⟩, list, .listElement 1⟩]⟩
    remaining g.ids [] < 2 ∧
      g.walk .default 2 list [] = some (g.resolve .default [] list, []) ∧
      ⟨list, "[]", .cyclic⟩ ∈ (g.value .default list).defects ∧ TransGen g.Follows list list := by
  intro list g
  have hroom : remaining g.ids [] < 2 := by decide +kernel
  have hcyclic : ⟨list, "[]", .cyclic⟩ ∈ (g.value .default list).defects := by decide +kernel
  obtain ⟨hwalk, hsound, -⟩ := resolve_guarded g .default list
  exact ⟨hroom, hwalk [] 2 hroom, hcyclic, (hsound _ hcyclic rfl).2⟩

end Graph

end ScopedFlow
