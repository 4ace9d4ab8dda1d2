import ScopedFlow.Synthesis.Source

/-!
# What the text of a node depends on

An expression is written from the values of the sources of the data edges into its node. A statement
is written from lines, one for each node, and a line takes the value of one node at most.
-/

namespace ScopedFlow

namespace Wiring

variable {w : Wiring} {id : NodeId}

def sources (w : Wiring) : List NodeId := w.positional.map (·.2) ++ w.keywords.map (·.2)

theorem mem_insertAt {index : Nat} {source : NodeId} {p : Nat × NodeId} {ps : List (Nat × NodeId)}
    (h : p ∈ insertAt index source ps) : p = (index, source) ∨ p ∈ ps := by
  induction ps with
  | nil => exact .inl (List.mem_singleton.mp h)
  | cons q ps ih =>
    unfold insertAt at h
    split at h
    · exact List.mem_cons.mp h
    · split at h
      · exact .inr h
      · rcases List.mem_cons.mp h with rfl | h
        · exact .inr List.mem_cons_self
        · exact (ih h).imp_right (List.mem_cons_of_mem _)

theorem sources_add {e : Edge} (h : id ∈ (w.add e).sources) :
    id ∈ w.sources ∨ e.kind.isData = true ∧ e.source = id := by
  obtain ⟨source, target, kind⟩ := e
  cases kind with
  | argument index keyword =>
    cases keyword with
    | some name =>
      simp only [add] at h
      split at h
      · exact .inl h
      · simp only [sources, List.map_append, List.mem_append, List.map_cons, List.map_nil,
          List.mem_singleton, ← or_assoc] at h
        rcases h with h | rfl
        · exact .inl (List.mem_append.mpr h)
        · exact .inr ⟨rfl, rfl⟩
    | none =>
      cases index with
      | none => exact .inl h
      | some index =>
        rcases List.mem_append.mp h with h | h
        · obtain ⟨p, hp, rfl⟩ := List.mem_map.mp h
          rcases mem_insertAt hp with rfl | hp
          · exact .inr ⟨rfl, rfl⟩
          · exact .inl (List.mem_append_left _ (List.mem_map_of_mem hp))
        · exact .inl (List.mem_append_right _ h)
  | _ => exact .inl h

theorem mem_sources {es : List Edge} (h : id ∈ (ofEdges es).sources) :
    ∃ e ∈ es, e.kind.isData = true ∧ e.source = id := by
  have hfold : ∀ (es : List Edge) (w : Wiring), id ∈ (es.foldl add w).sources →
      id ∈ w.sources ∨ ∃ e ∈ es, e.kind.isData = true ∧ e.source = id := by
    intro es
    induction es with
    | nil => exact fun w h => .inl h
    | cons e es ih =>
      intro w h
      rcases ih (w.add e) h with h | ⟨d, hd, hrest⟩
      · rcases sources_add h with h | h
        · exact .inl h
        · exact .inr ⟨e, List.mem_cons_self, h⟩
      · exact .inr ⟨d, List.mem_cons_of_mem _ hd, hrest⟩
  rcases hfold es ⟨[], []⟩ h with h | h
  · cases h
  · exact h

theorem keyword?_mem {name : String} (h : w.keyword? name = some id) : id ∈ w.sources := by
  obtain ⟨k, hk, rfl⟩ := Option.map_eq_some_iff.mp h
  exact List.mem_append_right _ (List.mem_map_of_mem (List.mem_of_find?_eq_some hk))

theorem positional?_mem {index : Nat} (h : w.positional? index = some id) : id ∈ w.sources := by
  obtain ⟨p, hp, rfl⟩ := Option.map_eq_some_iff.mp h
  exact List.mem_append_left _ (List.mem_map_of_mem (List.mem_of_find?_eq_some hp))

end Wiring

/-- If the argument is the value of a node, the node is wired. -/
def WrittenArgument.Wired (w : Wiring) (a : WrittenArgument) : Prop :=
  ∀ id, a.source = .node id → id ∈ w.sources

namespace Placement

variable {w : Wiring} {s : Placement}

/-- All that is written or waits is wired. -/
def Wired (w : Wiring) (s : Placement) : Prop := ∀ a ∈ s.written ++ s.pending, a.Wired w

namespace Wired

variable {source : ArgSource}

theorem write (h : Wired w s) {keyword : Option String}
    (ha : WrittenArgument.Wired w ⟨keyword, source⟩) : Wired w (s.write keyword source) := by
  intro a hmem
  simp only [Placement.write, List.mem_append, List.mem_singleton, or_assoc] at hmem
  rcases hmem with hmem | rfl | hmem
  · exact h a (List.mem_append_left _ hmem)
  · exact ha
  · exact h a (List.mem_append_right _ hmem)

theorem writeByPosition (h : Wired w s) (ha : WrittenArgument.Wired w ⟨none, source⟩) :
    Wired w (s.writeByPosition source) := by
  intro a hmem
  simp only [Placement.writeByPosition, List.append_nil] at hmem
  rcases List.mem_append.mp hmem with hmem | hmem
  · exact h a hmem
  · rw [List.mem_singleton.mp hmem]
    exact ha

theorem wait (h : Wired w s) (hs : ∀ id, source ≠ .node id) :
    Wired w { s with pending := s.pending ++ [⟨none, source⟩] } := by
  intro a hmem id hid
  rw [← List.append_assoc] at hmem
  rcases List.mem_append.mp hmem with hmem | hmem
  · exact h a hmem id hid
  · rw [List.mem_singleton.mp hmem] at hid
    exact absurd hid (hs id)

theorem drop (h : Wired w s) : Wired w { s with pending := [] } := by
  intro a hmem
  rw [List.append_nil] at hmem
  exact h a (List.mem_append_left _ hmem)

theorem takeRest (h : Wired w s) : Wired w (s.takeRest w) := by
  intro a hmem
  simp only [Placement.takeRest, List.append_nil] at hmem
  rcases List.mem_append.mp hmem with hmem | hmem
  · exact h a hmem
  · obtain ⟨p, hp, rfl⟩ := List.mem_map.mp hmem
    rintro id ⟨⟩
    exact List.mem_append_left _ (List.mem_map_of_mem (List.mem_filter.mp hp).1)

end Wired

theorem valueOf_wired {overridden : Option String} {keyword position : Option NodeId}
    (hk : ∀ id, keyword = some id → id ∈ w.sources)
    (hp : ∀ id, position = some id → id ∈ w.sources) {id : NodeId}
    (h : (valueOf overridden keyword position).1 = some (.node id)) : id ∈ w.sources := by
  cases overridden with
  | some text => cases h
  | none =>
    cases keyword with
    | some k =>
      cases h
      exact hk _ rfl
    | none =>
      cases position with
      | some p =>
        cases h
        exact hp _ rfl
      | none => cases h

theorem wired_bindPlain (h : Wired w s) (overrides : Overrides) (p : Param) :
    Wired w (s.bindPlain w overrides p) := by
  have hkeyword : ∀ id, (if s.beforeSlash then none else w.keyword? p.name) = some id →
      id ∈ w.sources := by
    intro id hid
    split at hid
    · cases hid
    · exact Wiring.keyword?_mem hid
  have hposition : ∀ id, (if s.pastStar then none else w.positional? s.slot) = some id →
      id ∈ w.sources := by
    intro id hid
    split at hid
    · cases hid
    · exact Wiring.positional?_mem hid
  have hvalue := fun id => @valueOf_wired w (overrides.get? p.name) _ _ hkeyword hposition id
  simp only [bindPlain]
  generalize (if s.beforeSlash = true then none else w.keyword? p.name) = keyword at hvalue ⊢
  generalize valueOf (overrides.get? p.name) keyword _ = value at hvalue ⊢
  obtain ⟨value, uses⟩ := value
  generalize (!s.beforeSlash && (s.byKeyword || keyword.isSome)) = named
  cases value with
  | some source =>
    have hsource : ∀ keyword, WrittenArgument.Wired w ⟨keyword, source⟩ := by
      intro keyword id hid
      exact hvalue id (congrArg some hid)
    cases named with
    | true => exact Wired.write h (hsource _)
    | false => exact Wired.writeByPosition h (hsource _)
  | none =>
    have hmissing : ∀ keyword, WrittenArgument.Wired w ⟨keyword, .missing p.name⟩ := by
      intro keyword id hid
      cases hid
    cases p.optional with
    | true =>
      cases s.beforeSlash with
      | true =>
        refine Wired.wait h ?_
        intro id hid
        cases hdefault : p.default <;> rw [hdefault] at hid <;> cases hid
      | false => exact h
    | false =>
      cases named with
      | true => exact Wired.write h (hmissing _)
      | false => exact Wired.writeByPosition h (hmissing _)

theorem wired_bind (h : Wired w s) (overrides : Overrides) (p : Param) :
    Wired w (bind w overrides s p) := by
  unfold bind
  split
  · exact h.takeRest
  · exact h.drop
  · exact h.drop
  · exact h
  · exact wired_bindPlain h overrides p

end Placement

theorem mem_writtenArguments {params : List Param} {es : List Edge} {overrides : Overrides}
    {a : WrittenArgument} (h : a ∈ writtenArguments params (.ofEdges es) overrides) {id : NodeId}
    (hid : a.source = .node id) : ∃ e ∈ es, e.kind.isData = true ∧ e.source = id := by
  have hall : ∀ (params : List Param) (s : Placement), s.Wired (.ofEdges es) →
      (params.foldl (Placement.bind (.ofEdges es) overrides) s).Wired (.ofEdges es) := by
    intro params
    induction params with
    | nil => exact fun s hs => hs
    | cons p params ih => exact fun s hs => ih _ (Placement.wired_bind hs overrides p)
  have hwired := hall params (.start params) nofun
  apply Wiring.mem_sources
  rcases List.mem_append.mp h with h | h
  · rcases List.mem_append.mp h with h | h
    · exact hwired a (List.mem_append_left _ h) id hid
    · obtain ⟨p, hp, rfl⟩ := List.mem_map.mp h
      cases hid
      exact List.mem_append_left _ (List.mem_map_of_mem (List.mem_filter.mp hp).1)
  · obtain ⟨k, hk, rfl⟩ := List.mem_map.mp h
    cases hid
    exact List.mem_append_right _ (List.mem_map_of_mem (List.mem_filter.mp hk).1)

def ArgSource.node? : ArgSource → Option NodeId
  | .node id => some id
  | _ => none

namespace Rendered

def cycles (r : Rendered) : List Defect := r.defects.filter fun d => d.reason = .cyclic

/-- A text that is woven from the values of some nodes, in this order. -/
structure Woven (P : NodeId → Prop) (F : (NodeId → Rendered) → Rendered) (ss : List NodeId) :
    Prop where
  within : ∀ s ∈ ss, P s
  congr : ∀ sub sub', (∀ s ∈ ss, sub' s = sub s) → F sub' = F sub
  cycles : ∀ sub, (F sub).cycles = ss.flatMap fun s => (sub s).cycles

namespace Woven

variable {P : NodeId → Prop} {F G : (NodeId → Rendered) → Rendered} {ss ts : List NodeId}

theorem const {r : Rendered} (h : r.cycles = []) : Woven P (fun _ => r) [] :=
  ⟨List.forall_mem_nil _, fun _ _ _ => rfl, fun _ => h⟩

theorem value {s : NodeId} (h : P s) : Woven P (fun sub => sub s) [s] :=
  ⟨List.forall_mem_singleton.mpr h, fun _ _ hsub => hsub s List.mem_cons_self,
    fun sub => (List.append_nil (sub s).cycles).symm⟩

theorem map (f : String → String) (h : Woven P F ss) : Woven P (fun sub => (F sub).map f) ss :=
  ⟨h.within, fun sub sub' hsub => congrArg (Rendered.map f) (h.congr sub sub' hsub), h.cycles⟩

theorem both (f : String → String → String) (h : Woven P F ss) (h' : Woven P G ts) :
    Woven P (fun sub => (F sub).both f (G sub)) (ss ++ ts) where
  within := List.forall_mem_append.mpr ⟨h.within, h'.within⟩
  congr sub sub' hsub := by
    obtain ⟨hss, hts⟩ := List.forall_mem_append.mp hsub
    rw [h.congr sub sub' hss, h'.congr sub sub' hts]
  cycles sub := by
    rw [List.flatMap_append, ← h.cycles, ← h'.cycles]
    exact List.filter_append ..

theorem join {α : Type} (separator : String) {l : List α} {F : α → (NodeId → Rendered) → Rendered}
    {ss : α → List NodeId} (h : ∀ a ∈ l, Woven P (F a) (ss a)) :
    Woven P (fun sub => .join separator (l.map fun a => F a sub)) (l.flatMap ss) where
  within := List.forall_mem_flatMap.mpr fun a ha => (h a ha).within
  congr sub sub' hsub := by
    refine congrArg (Rendered.join separator) (List.map_congr_left fun a ha => ?_)
    exact (h a ha).congr sub sub' (List.forall_mem_flatMap.mp hsub a ha)
  cycles sub := by
    rw [Rendered.cycles, Rendered.join, List.flatMap_map, List.filter_flatMap, List.flatMap_assoc]
    exact congrArg List.flatten (List.map_congr_left fun a ha => (h a ha).cycles sub)

end Woven

end Rendered

theorem EdgeKind.isData_of_index {kind : EdgeKind} {i : Nat} (h : kind.elementIndex? = some i ∨
    kind.keyIndex? = some i ∨ kind.valueIndex? = some i) : kind.isData = true := by
  cases kind with
  | nextClause _ | closureOf => rcases h with h | h | h <;> cases h
  | _ => rfl

namespace Graph

variable {id : NodeId}

theorem mem_edgesTo_of_input {g : Graph} {source : NodeId} {p : EdgeKind → Bool}
    (h : g.input id p = some source) : ∃ e ∈ g.edgesTo id, p e.kind = true ∧ e.source = source := by
  obtain ⟨e, he, rfl⟩ := Option.map_eq_some_iff.mp h
  have hp := List.find?_some he
  exact ⟨e, List.mem_of_find?_eq_some he, hp, rfl⟩

theorem perm_insertIndexed (entry : Nat × NodeId) (es : List (Nat × NodeId)) :
    (insertIndexed entry es).Perm (entry :: es) := by
  induction es with
  | nil => exact .refl _
  | cons e es ih =>
    unfold insertIndexed
    split
    · exact .refl _
    · exact (ih.cons e).trans (.swap entry e es)

theorem mem_indexed {g : Graph} {index : EdgeKind → Option Nat} {p : Nat × NodeId} :
    p ∈ g.indexed id index ↔ ∃ e ∈ g.edgesTo id, index e.kind = some p.1 ∧ e.source = p.2 := by
  have hfold (entries sorted : List (Nat × NodeId)) :
      (entries.foldl (fun sorted entry => insertIndexed entry sorted) sorted).Perm
        (entries ++ sorted) := by
    induction entries generalizing sorted with
    | nil => exact .refl _
    | cons entry entries ih =>
      exact (ih _).trans (((perm_insertIndexed entry sorted).append_left _).trans List.perm_middle)
  rw [indexed, (hfold _ _).mem_iff, List.append_nil, List.mem_filterMap]
  apply exists_congr
  intro e
  rw [Option.map_eq_some_iff]
  constructor
  · rintro ⟨he, i, hi, rfl⟩
    exact ⟨he, hi, rfl⟩
  · rintro ⟨he, hi, hs⟩
    exact ⟨he, p.1, hi, Prod.ext rfl hs⟩

theorem mem_edgesTo_of_keyedPairs {g : Graph} {p : NodeId × NodeId} (h : p ∈ g.keyedPairs id) :
    (∃ e ∈ g.edgesTo id, e.kind.isData = true ∧ e.source = p.1) ∧
      ∃ e ∈ g.edgesTo id, e.kind.isData = true ∧ e.source = p.2 := by
  obtain ⟨q, hq, hp⟩ := List.mem_filterMap.mp h
  obtain ⟨key, hkey, rfl⟩ := List.mem_map.mp (List.takeWhile_subset _ hq)
  obtain ⟨v, hv, rfl⟩ := Option.map_eq_some_iff.mp hp
  obtain ⟨value, hvalue, rfl⟩ := Option.map_eq_some_iff.mp hv
  have hmem := List.mem_reverse.mp (List.mem_of_find?_eq_some hvalue)
  constructor
  · obtain ⟨e, he, hk, hs⟩ := mem_indexed.mp hkey
    exact ⟨e, he, EdgeKind.isData_of_index (.inr (.inl hk)), hs⟩
  · obtain ⟨e, he, hk, hs⟩ := mem_indexed.mp hmem
    exact ⟨e, he, EdgeKind.isData_of_index (.inr (.inr hk)), hs⟩

open Rendered (Woven)

/-- The nodes whose values the text of a node is made of, in the order of that text. -/
def takes (g : Graph) (n : Node) : List NodeId :=
  let source (kind : EdgeKind) := (g.input n.id fun k => k = kind).toList
  match n.payload with
  | .operator true => source (.operand 0)
  | .operator false => source (.operand 0) ++ source (.operand 1)
  | .call site =>
    (writtenArguments (g.callParams site) (.ofEdges (g.edgesTo n.id)) site.overrides).flatMap
      (·.source.node?.toList) ++ if site.isMethod then source .attributeValue else []
  | .listDisplay => (g.indexed n.id EdgeKind.elementIndex?).flatMap fun e => [e.2]
  | .dictDisplay => (g.keyedPairs n.id).flatMap fun p => [p.1] ++ [p.2]
  | .accessor => source .accessValue ++ source .accessKey
  | .attribute => source .attributeValue
  | _ => []

variable {g g' : Graph} {style : CodeStyle} {sub sub' : NodeId → Rendered} {n : Node}

/-- An edge carries the value of a node into the other. -/
def Supplies (g : Graph) (n : Node) (s : NodeId) : Prop :=
  ∃ e ∈ g.edgesTo n.id, e.kind.isData = true ∧ e.source = s

theorem woven_required {kind : EdgeKind} (hd : kind.isData = true) {reason : Reason}
    (hr : reason ≠ .cyclic) : Woven (g.Supplies n) (fun sub => g.required style sub n kind reason)
      (g.input n.id fun k => k = kind).toList := by
  unfold required
  cases hs : g.input n.id fun k => k = kind with
  | none => exact .const (List.filter_cons_of_neg (by simpa using hr))
  | some s =>
    obtain ⟨e, he, hk, hs⟩ := mem_edgesTo_of_input hs
    exact .value ⟨e, he, of_decide_eq_true hk ▸ hd, hs⟩

theorem woven_argument {site : CallSite} {a : WrittenArgument} (ha : a ∈ writtenArguments
    (g.callParams site) (.ofEdges (g.edgesTo n.id)) site.overrides) :
    Woven (g.Supplies n) (fun sub => renderArgument style sub n a) a.source.node?.toList := by
  have hvalue : Woven (g.Supplies n) (fun sub => renderArgument style sub n ⟨none, a.source⟩)
      a.source.node?.toList := by
    cases hs : a.source with
    | node id => exact .value (mem_writtenArguments ha hs)
    | _ => exact .const rfl
  obtain ⟨keyword, source⟩ := a
  cases keyword with
  | none => exact hvalue
  | some name => exact hvalue.map _

theorem woven_renderNode (g : Graph) (style : CodeStyle) (n : Node) :
    Woven (g.Supplies n) (fun sub => g.renderNode style sub n) (g.takes n) := by
  have hrequired (kind : EdgeKind) (hd : kind.isData = true) (reason : Reason)
      (hr : reason ≠ .cyclic) : Woven (g.Supplies n)
        (fun sub => g.required style sub n kind reason) _ := woven_required hd hr
  unfold renderNode takes
  cases hp : n.payload with
  | operator unary =>
    have hoperand (i : Nat) := hrequired (.operand i) rfl (.missingOperand i) Reason.noConfusion
    cases unary with
    | true => exact (hoperand 0).map _
    | false => exact (hoperand 0).both _ (hoperand 1)
  | call site =>
    have hargs : Woven (g.Supplies n) (fun sub => g.renderArguments style sub n site) _ :=
      .join ", " fun a ha => woven_argument ha
    simp only [renderCall]
    split
    · exact hargs.both _ (hrequired .attributeValue rfl .missingReceiver Reason.noConfusion)
    · rw [List.append_nil]
      exact hargs.map _
  | listDisplay =>
    refine .map _ (.join ", " fun p hp => .value ?_)
    obtain ⟨e, he, hk, hs⟩ := mem_indexed.mp hp
    exact ⟨e, he, EdgeKind.isData_of_index (.inl hk), hs⟩
  | dictDisplay =>
    refine .map _ (.join ", " fun p hp => ?_)
    obtain ⟨hkey, hvalue⟩ := mem_edgesTo_of_keyedPairs hp
    exact .both _ (.value hkey) (.value hvalue)
  | accessor =>
    exact (hrequired .accessValue rfl .missingAccessedValue Reason.noConfusion).both _
      (hrequired .accessKey rfl .missingAccessKey Reason.noConfusion)
  | «attribute» => exact (hrequired .attributeValue rfl .missingOwner Reason.noConfusion).map _
  | _ => exact .const rfl

theorem input_congr (hedges : g'.edgesTo n.id = g.edgesTo n.id) (p : EdgeKind → Bool) :
    g'.input n.id p = g.input n.id p := by
  rw [input, input, hedges]

theorem renderNode_congr (hedges : g'.edgesTo n.id = g.edgesTo n.id)
    (hsub : ∀ e ∈ g.edgesTo n.id, e.kind.isData = true → sub' e.source = sub e.source)
    (hparams : ∀ site, n.payload = .call site → g'.callParams site = g.callParams site) :
    g'.renderNode style sub' n = g.renderNode style sub n := by
  have hsame : g'.renderNode style sub' n = g.renderNode style sub' n := by
    unfold renderNode
    cases hp : n.payload with
    | operator unary => cases unary <;> simp only [required, input_congr hedges]
    | call site =>
      simp only [renderCall, renderArguments, required, input_congr hedges, hedges, hparams site hp]
    | _ => simp only [required, input_congr hedges, indexed, keyedPairs, hedges]
  have hwoven := woven_renderNode g style n
  refine hsame.trans (hwoven.congr sub sub' fun s hs => ?_)
  obtain ⟨e, he, hdata, rfl⟩ := hwoven.within s hs
  exact hsub e he hdata

theorem resolve_missing {visiting : List NodeId} (hl : g.lookup id = none) :
    g.resolve style visiting id = ⟨style.placeholder, [⟨id, "", .missingNode⟩]⟩ := by
  rw [resolve]
  split
  · rfl
  · rename_i n hn
    cases hl.symm.trans hn

theorem resolve_eq {visiting : List NodeId} (hl : g.lookup id = some n) :
    g.resolve style visiting id = if id ∈ visiting then lacking style n .cyclic
      else g.renderNode style (fun source => g.resolve style (id :: visiting) source) n := by
  rw [resolve]
  split
  · rename_i hnone
    cases hnone.symm.trans hl
  · rename_i m hm
    obtain rfl := Option.some.inj (hl.symm.trans hm)
    split <;> rfl

theorem resolve_visiting {visiting : List NodeId} (hl : g.lookup id = some n) (hv : id ∈ visiting) :
    g.resolve style visiting id = lacking style n .cyclic := (resolve_eq hl).trans (if_pos hv)

theorem resolve_node {visiting : List NodeId} (hl : g.lookup id = some n) (hv : id ∉ visiting) :
    g.resolve style visiting id =
      g.renderNode style (fun source => g.resolve style (id :: visiting) source) n :=
  (resolve_eq hl).trans (if_neg hv)

/-- The node whose value the line of a statement or of a clause takes. A call that feeds no other
node is a line of its own value. -/
def taken (g : Graph) (n : Node) : Option NodeId :=
  match n.payload with
  | .variable v => if v.isWrite then g.input n.id fun k => k = .writesTo else none
  | .call _ => if g.feeds n.id then none else some n.id
  | .forBlock _ => g.input n.id fun k => k = .iteratesOn
  | .returnStmt | .ifBlock | .elifBlock | .whileBlock | .exceptBlock _ _ =>
    g.input n.id fun k => k = .input
  | _ => none

theorem taken_cases {g : Graph} {m : Node} (h : g.taken m = some id) :
    (∃ e ∈ g.edgesTo m.id, e.kind.isData = true ∧ e.source = id) ∨
      id = m.id ∧ g.feeds m.id = false := by
  have hinput : ∀ {kind : EdgeKind}, kind.isData = true →
      (g.input m.id fun k => k = kind) = some id →
      ∃ e ∈ g.edgesTo m.id, e.kind.isData = true ∧ e.source = id := by
    intro kind data hi
    obtain ⟨e, he, hk, hs⟩ := mem_edgesTo_of_input hi
    exact ⟨e, he, of_decide_eq_true hk ▸ data, hs⟩
  unfold taken at h
  split at h
  · split at h
    · exact .inl (hinput rfl h)
    · cases h
  · split at h
    · cases h
    · rename_i hfeeds
      exact .inr ⟨(Option.some.inj h).symm, Bool.not_eq_true _ ▸ hfeeds⟩
  · exact .inl (hinput rfl h)
  · exact .inl (hinput rfl h)
  · exact .inl (hinput rfl h)
  · exact .inl (hinput rfl h)
  · exact .inl (hinput rfl h)
  · exact .inl (hinput rfl h)
  · cases h

/-- A condition behind its keyword, where the label stands in for a value that is not there. -/
def testAround (style : CodeStyle) (n : Node) (keyword : String) (value : Option Rendered) :
    Rendered :=
  (value.getD (labelFallback style n keyword)).map fun test => keyword ++ " " ++ test ++ ":"

def loopAround (style : CodeStyle) (n : Node) (target : String) (value : Option Rendered) :
    Rendered :=
  (value.getD (labelFallback style n ("for " ++ target ++ " in"))).both
    (fun source name => "for " ++ name ++ " in " ++ source ++ ":")
    (if target = "" then lacking style n .missingTarget else .plain target)

def handlerAround (exception binding : Option String) (value : Option Rendered) : Rendered :=
  let named (text : String) := text ++ (binding.elim "" fun name => " as " ++ name) ++ ":"
  value.elim (.plain (named (exception.elim "except" fun text => "except " ++ text)))
    fun value => value.map fun text => named ("except " ++ text)

/-- The line of a statement or of a clause around the value that it takes. -/
def lineAround (style : CodeStyle) (n : Node) (value : Option Rendered) : Code :=
  match n.payload with
  | .functionDef params => .line (.plain (functionHeader n params))
  | .classDef bases => .line (.plain (classHeader n bases))
  | .variable _ => value.elim .empty fun r => .line (r.map fun t => n.label ++ " = " ++ t)
  | .call _ => value.elim .empty .line
  | .returnStmt => .line (value.elim (.plain "return") fun r => r.map fun t => "return " ++ t)
  | .ifBlock => .line (testAround style n "if" value)
  | .elifBlock => .line (testAround style n "elif" value)
  | .elseBlock => .line (.plain "else:")
  | .forBlock target => .line (loopAround style n target value)
  | .whileBlock => .line (testAround style n "while" value)
  | .tryBlock => .line (.plain "try:")
  | .exceptBlock exception binding => .line (handlerAround exception binding value)
  | .importStmt _ => .line (.plain n.label)
  | _ => .empty

def lineOf (g : Graph) (style : CodeStyle) (n : Node) : Code :=
  lineAround style n ((g.taken n).map (g.value style))

def headed (line : Code) (body : Option Code) : Option Code :=
  body.map fun b => line.append b.nest

def clauseFrom (line : Node → Code) (body : NodeId → Option Code) (n : Node) : Option Code :=
  match n.payload with
  | .elifBlock | .elseBlock | .exceptBlock _ _ => headed (line n) (body n.id)
  | _ => some .empty

/-- The clauses that are written with a block. -/
def clausesOf (g : Graph) (n : Node) : List Node :=
  match n.payload with
  | .ifBlock => g.clausesFrom [n.id] n.id
  | .tryBlock => g.handlersOf n.id
  | _ => []

def assembled (g : Graph) (line : Node → Code) (body : NodeId → Option Code) (n : Node) :
    Option Code :=
  match n.payload with
  | .functionDef _ | .classDef _ | .forBlock _ | .whileBlock => headed (line n) (body n.id)
  | .ifBlock =>
    Code.concat (headed (line n) (body n.id) :: (g.clausesOf n).map (clauseFrom line body))
  | .tryBlock =>
    Code.concat [headed (line n) (body n.id),
      if (g.clausesOf n).isEmpty then Code.block (.plain "finally:") (some (.line (.plain "pass")))
      else Code.concat ((g.clausesOf n).map (clauseFrom line body))]
  | .elifBlock | .elseBlock | .exceptBlock _ _ =>
    some (if g.hasHead n.id then .empty else ⟨[], [⟨n.id, n.label, .strayClause⟩]⟩)
  | _ => some (line n)

section Assembled

variable (g : Graph) (style : CodeStyle) (n : Node)

theorem headerValue_eq (kind : EdgeKind) (words : String) :
    g.headerValue style n kind words = ((g.input n.id fun k => k = kind).map (g.value style)).getD
      (labelFallback style n words) := by
  unfold headerValue
  cases g.input n.id fun k => k = kind <;> rfl

theorem handlerHeader_eq (exception binding : Option String) :
    g.handlerHeader style n exception binding =
      handlerAround exception binding ((g.input n.id fun k => k = .input).map (g.value style)) := by
  unfold handlerHeader handlerAround
  cases g.input n.id fun k => k = .input <;> cases exception <;> cases binding <;> rfl

theorem clauseCode_eq (body : NodeId → Option Code) :
    g.clauseCode style body n = clauseFrom (g.lineOf style) body n := by
  obtain ⟨id, label, world, payload⟩ := n
  cases payload with
  | elifBlock =>
    simp only [clauseCode, testHeader, headerValue_eq]
    rfl
  | exceptBlock exception binding =>
    simp only [clauseCode, handlerHeader_eq]
    rfl
  | _ => rfl

theorem handlersCode_eq (body : NodeId → Option Code) : g.handlersCode style body n =
    if (g.handlersOf n.id).isEmpty then
      Code.block (.plain "finally:") (some (.line (.plain "pass")))
    else Code.concat ((g.handlersOf n.id).map (clauseFrom (g.lineOf style) body)) := by
  have hclause : g.clauseCode style body = clauseFrom (g.lineOf style) body :=
    funext fun c => g.clauseCode_eq style c body
  rw [← hclause, handlersCode]
  generalize g.handlersOf n.id = clauses
  cases clauses <;> rfl

theorem statementCode_eq (body : NodeId → Option Code) :
    g.statementCode style body n = g.assembled (g.lineOf style) body n := by
  have hclause : g.clauseCode style body = clauseFrom (g.lineOf style) body :=
    funext fun c => g.clauseCode_eq style c body
  obtain ⟨id, label, world, payload⟩ := n
  cases payload with
  | «variable» v =>
    simp only [statementCode, assembled, lineOf, taken, lineAround]
    cases v.isWrite with
    | false => rfl
    | true => cases g.input id fun k => k = .writesTo <;> rfl
  | call site =>
    simp only [statementCode, assembled, lineOf, taken, lineAround]
    cases g.feeds id <;> rfl
  | returnStmt =>
    simp only [statementCode, assembled, lineOf, taken, lineAround]
    cases g.input id fun k => k = .input <;> rfl
  | ifBlock =>
    simp only [statementCode, testHeader, headerValue_eq, hclause]
    rfl
  | forBlock target =>
    simp only [statementCode, loopHeader, headerValue_eq]
    rfl
  | whileBlock =>
    simp only [statementCode, testHeader, headerValue_eq]
    rfl
  | tryBlock =>
    simp only [statementCode, handlersCode_eq]
    rfl
  | _ => rfl

end Assembled

end Graph

end ScopedFlow
