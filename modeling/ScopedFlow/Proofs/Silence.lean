import ScopedFlow.Proofs.Standing

/-!
# Nodes that are no statements of their own

A stand-in, a variable of a header, the node of an expression that is used and a clause that a block
leads to leave no line where they stand; they are written with the statement that they belong to.
-/

namespace ScopedFlow

variable {port : Port}

/-- Clauses that follow a block. -/
def Payload.isClause : Payload → Bool
  | .elifBlock | .elseBlock | .exceptBlock _ _ => true
  | _ => false

namespace Steps

variable {k : Nat}

/-- A node that is no statement, by what the steps `ss` say about it. -/
inductive Inner (ss : List Step) : Item → Prop where
  | proxy (s : StandIn) : Inner ss (.proxy s)
  | param (k : Nat) (w : Place) (label : String) (optional : Bool) (version : Nat) :
    Inner ss (.made k ⟨w, label, .param optional⟩ version)
  | part (k : Nat) (w : Place) (label : String) {payload : Payload} (hp : payload.isPart = true)
    (version : Nat) : Inner ss (.made k ⟨w, label, .plain payload⟩ version)
  /-- A call whose value is used. -/
  | call {k : Nat} (w : Place) (label : String) (isMethod : Bool) (args : List Arg) {port : Port}
    (hw : .wire k port ∈ ss) (hd : port.kind.isData = true) (version : Nat) :
    Inner ss (.made k ⟨w, label, .call isMethod args⟩ version)
  /-- A clause that a block leads to. -/
  | clause {k owner : Nat} {index : Option Nat} (w : Place) (label : String) {payload : Payload}
    (hp : payload.isClause = true) (hw : .wire owner ⟨k, .nextClause index⟩ ∈ ss) (version : Nat) :
    Inner ss (.made k ⟨w, label, .plain payload⟩ version)

theorem Inner.mono {ss ts : List Step} {item : Item} (h : Inner ss item) (hs : ss ⊆ ts) :
    Inner ts item := by
  cases h with
  | proxy s => exact .proxy s
  | param k w label optional version => exact .param k w label optional version
  | part k w label hp version => exact .part k w label hp version
  | call w label isMethod args hw hd version =>
    exact .call w label isMethod args (hs hw) hd version
  | clause w label hp hw version => exact .clause w label hp (hs hw) version

/-- Steps that ask for no statement. -/
def AllInner (before ss : List Step) : Prop := ∀ item ∈ collect asks before ss, Inner ss item

namespace AllInner

variable {before ss ts : List Step}

theorem nil (before : List Step) : AllInner before [] := fun _ hi => nomatch hi

theorem append (hs : AllInner before ss) (ht : AllInner (before ++ ss) ts) :
    AllInner before (ss ++ ts) := by
  intro item hi
  rw [collect_append] at hi
  rcases List.mem_append.mp hi with hi | hi
  · exact (hs item hi).mono (List.subset_append_left ..)
  · exact (ht item hi).mono (List.subset_append_right ..)

theorem read (before : List Step) (name : String) (w : Place) (outer : List Place) (port : Port) :
    AllInner before [.read name w outer port] := by
  intro item hi
  rw [collect_cons, collect_nil, List.append_nil] at hi
  obtain ⟨s, -, rfl⟩ := List.mem_map.mp hi
  exact .proxy s

theorem place {k : Nat} (hk : count before = k) (w : Place) (label : String) {content : Content}
    (hc : content.isPart = true) {port : Port} (hd : port.kind.isData = true) :
    AllInner before (place w label content k (some port)) := by
  intro item hi
  obtain rfl : item = .made k ⟨w, label, content⟩ _ := by
    rw [← hk]
    exact List.mem_singleton.mp hi
  cases content with
  | plain payload => exact .part k w label hc _
  | call isMethod args => exact .call w label isMethod args (by simp [Steps.place]) hd _
  | _ => cases hc

end AllInner

variable {w : Place} {outer : List Place}

theorem Feeds.inner {before ss : List Step} {owner : Nat}
    (h : Feeds w outer (·.isData = true) (some owner) k ss) (hk : count before = k) :
    AllInner before ss := by
  generalize ht : some owner = target at h
  induction h generalizing before owner with
  | nil => exact .nil before
  | append _ _ ih ih' => exact (ih hk ht).append (ih' (by rw [count_append, hk]) ht)
  | read => exact .read before _ w outer _
  | @node e label content made port hp k _ ih =>
    cases port with
    | none => cases ht
    | some port =>
      exact (AllInner.place hk w label (isPart_of_face made) (hp port rfl)).append (ih (by simp [hk]) rfl)

theorem inner_expr {before : List Step} (hk : count before = k) (hd : port.kind.isData = true)
    (e : Expr) : AllInner before (expr w outer (some port) k e) :=
  (feeds_operand (fun _ => id) port.target hd k e).inner hk

theorem inner_parts {before : List Step} (hk : count before = k + 1) (e : Expr) :
    AllInner before (parts w outer k e) :=
  (feeds_parts (fun _ => id) k e).inner hk

theorem inner_header (before : List Step) (k : Nat) (names : List (String × Bool)) :
    AllInner before (header w k names) := by
  induction names generalizing before k with
  | nil => exact .nil before
  | cons p names ih =>
    obtain ⟨name, optional⟩ := p
    refine AllInner.append (fun item hi => ?_) (ih _ _)
    obtain rfl := List.mem_singleton.mp hi
    exact .param ..

def InnerIn (w : Place) (before ss : List Step) : Prop := ∀ item ∈ itemsIn w before ss, Inner ss item

theorem AllInner.innerIn {before ss : List Step} (h : AllInner before ss) (w : Place) :
    InnerIn w before ss := fun item hi => h item (List.mem_of_mem_filter hi)

theorem InnerIn.append {w : Place} {before ss ts : List Step} (hs : InnerIn w before ss)
    (ht : InnerIn w (before ++ ss) ts) : InnerIn w before (ss ++ ts) := by
  intro item hi
  rw [itemsIn_append] at hi
  rcases List.mem_append.mp hi with hi | hi
  · exact (hs item hi).mono (List.subset_append_left ..)
  · exact (ht item hi).mono (List.subset_append_right ..)

theorem InnerIn.of_nil {w : Place} {before ss : List Step} (h : itemsIn w before ss = []) :
    InnerIn w before ss := by
  intro item hi
  rw [h] at hi
  cases hi

theorem link_of_wire {ss : List Step} (h : .wire k port ∈ ss) :
    ⟨.node k, .node port.target, port.kind⟩ ∈ links ss := by
  obtain ⟨front, back, rfl⟩ := List.append_of_mem h
  rw [links_append, collect_cons]
  exact List.mem_append_right _ (List.mem_append_left _ List.mem_cons_self)

end Steps

namespace Run
open Steps

variable {q : Run} {all : List Step} {style : CodeStyle}

namespace Draws

variable {k : Nat}

theorem edge_of_wire (h : Draws q all) (hw : .wire k port ∈ all) :
    ⟨q.nodeId k, q.nodeId port.target, port.kind⟩ ∈ q.linked.edges := by
  rw [h.edges]
  exact Graph.mem_distinct.mpr (List.mem_map.mpr ⟨_, link_of_wire hw, rfl⟩)

theorem feeds_of_wire (h : Draws q all) (hw : .wire k port ∈ all) (hd : port.kind.isData = true) :
    q.linked.feeds (q.nodeId k) = true :=
  List.any_eq_true.mpr ⟨_, List.mem_filter.mpr ⟨h.edge_of_wire hw, by simp⟩, hd⟩

theorem hasHead_of_wire (h : Draws q all) {owner : Nat} {index : Option Nat}
    (hw : .wire owner ⟨k, .nextClause index⟩ ∈ all) : q.linked.hasHead (q.nodeId k) = true :=
  List.any_eq_true.mpr ⟨_, List.mem_filter.mpr ⟨h.edge_of_wire hw, by simp⟩, rfl⟩

theorem statementCode_inner (h : Draws q all) {item : Item} (hi : Inner all item)
    (body : NodeId → Option Code) :
    q.linked.statementCode style body (q.finished item) = some .empty := by
  cases hi with
  | proxy s =>
    rw [finished, Graph.settled_of_site rfl]
    rfl
  | param k w label optional version =>
    rw [finished, Graph.settled_of_site rfl]
    rfl
  | @part k w label payload hp version =>
    cases payload with
    | literal | operator | listDisplay | dictDisplay | accessor | «attribute» =>
      rw [finished, Graph.settled_of_site rfl]
      rfl
    | _ => cases hp
  | @call k w label isMethod args port hw hd version =>
    obtain ⟨f, hf⟩ := Graph.exists_mapSite q.builder.graph
      (q.draw (.made k ⟨w, label, .call isMethod args⟩ version))
    rw [finished, hf]
    exact congrArg some (if_pos (h.feeds_of_wire hw hd))
  | @clause k owner index w label payload hp hw version =>
    cases payload with
    | elifBlock | elseBlock | exceptBlock =>
      rw [finished, Graph.settled_of_site rfl]
      exact congrArg some (if_pos (h.hasHead_of_wire hw))
    | _ => cases hp

end Draws

def codeOf (q : Run) (style : CodeStyle) (body : NodeId → Option Code) (is : List Item) :
    Option Code :=
  Code.concat (is.map fun item => q.linked.statementCode style body (q.finished item))

variable {body : NodeId → Option Code}

theorem codeOf_append (q : Run) (style : CodeStyle) (body : NodeId → Option Code)
    (is js : List Item) : codeOf q style body (is ++ js) =
      (codeOf q style body is).bind fun d => (codeOf q style body js).map d.append := by
  rw [codeOf, List.map_append, Code.concat_append]
  rfl

theorem codeOf_singleton (q : Run) (style : CodeStyle) (body : NodeId → Option Code) (item : Item) :
    codeOf q style body [item] = q.linked.statementCode style body (q.finished item) := by
  cases hn : q.linked.statementCode style body (q.finished item) with
  | none => simp [codeOf, Code.concat, hn]
  | some d => simp [codeOf, Code.concat, hn, Code.append, Code.empty]

theorem codeOf_skip_left {is : List Item} (h : codeOf q style body is = some .empty)
    (js : List Item) : codeOf q style body (is ++ js) = codeOf q style body js := by
  rw [codeOf_append, h]
  cases codeOf q style body js <;> rfl

theorem codeOf_skip_right (is : List Item) {js : List Item}
    (h : codeOf q style body js = some .empty) :
    codeOf q style body (is ++ js) = codeOf q style body is := by
  rw [codeOf_append, h]
  cases codeOf q style body is with
  | none => rfl
  | some d => simp [Code.append, Code.empty]

/-- The nodes that a piece of text adds to a world, if none of them is a statement. -/
theorem Draws.codeOf_inner (h : Draws q all) {before ss after : List Step} {w : Place}
    (hall : all = before ++ ss ++ after) (hs : InnerIn w before ss) :
    codeOf q style body (itemsIn w before ss) = some .empty := by
  refine Code.concat_of_empty fun x hx => ?_
  obtain ⟨item, hi, rfl⟩ := List.mem_map.mp hx
  refine h.statementCode_inner ((hs item hi).mono ?_) body
  rw [hall, List.append_assoc]
  exact List.Subset.trans (List.subset_append_left ss after) (List.subset_append_right before _)

end Run

end ScopedFlow
