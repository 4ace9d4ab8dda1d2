import ScopedFlow.Proofs.CallPlaces
import ScopedFlow.Proofs.Scoping
import ScopedFlow.Proofs.Seats
import ScopedFlow.Proofs.TwoRuns

/-!
# Calls that go to no definition

Their parameters are made from their arguments, `arg0`, `arg1` and so on for the positions, so such
a call is written with its arguments as they stand: positions in their order, then keywords in
theirs. Only a keyword that is the name of a position upsets it. The value of an argument is the
same inside the call as on its own, since no value is part of itself.
-/

namespace ScopedFlow

variable {visiting : List NodeId}

namespace Graph
open Relation

variable {g : Graph} {style : CodeStyle}

theorem resolve_within (hg : ∀ id, ¬ TransGen g.Leads id id) {others : List NodeId} {id : NodeId}
    (hv : ∀ v ∈ visiting, ¬ ReflTransGen g.Leads v id)
    (ho : ∀ v ∈ others, ¬ ReflTransGen g.Leads v id) :
    g.resolve style visiting id = g.resolve style others id := by
  induction visiting, id using resolve.induct g generalizing others with
  | case1 visiting id hnone =>
    rw [resolve_elim, resolve_elim, hnone, Option.elim_none, Option.elim_none]
  | case2 visiting id n hl hin => exact absurd .refl (hv id hin)
  | case3 visiting id n hl hnot _ ih =>
    rw [resolve_node hl hnot, resolve_node hl fun hin => ho id hin .refl]
    refine renderNode_congr rfl (fun e he _ => ?_) fun _ _ => rfl
    have hlead : g.Leads e.source id := by
      obtain ⟨hmem, htarget⟩ := List.mem_filter.mp he
      exact ⟨e, hmem, rfl, (of_decide_eq_true htarget).trans (id_eq_of_lookup hl)⟩
    have hpart {vs : List NodeId} (hvs : ∀ v ∈ vs, ¬ ReflTransGen g.Leads v id) :
        ∀ v ∈ id :: vs, ¬ ReflTransGen g.Leads v e.source := by
      intro v hm hpath
      rcases List.mem_cons.mp hm with rfl | hm
      · exact hg v (.tail' hpath hlead)
      · exact hvs v hm (hpath.tail hlead)
    exact ih e.source (hpart hv) (hpart ho)

theorem resolve_eq_value (hg : ∀ id, ¬ TransGen g.Leads id id) {id : NodeId}
    (hv : ∀ v ∈ visiting, TransGen g.Leads id v) : g.resolve style visiting id = g.value style id :=
  resolve_within hg (fun v hm hpath => hg v (.trans_right hpath (hv v hm))) (by simp)

theorem acyclic_build (supply : Supply) (module : List Stmt) (id : NodeId) :
    ¬ TransGen (build supply module).1.link.1.Leads id id := by
  have hspent : ∀ n ∈ Graph.empty.nodes, supply.Spent n.id := nofun
  have hsorted := sorted_graft module .root consistent_empty hspent ⟨[], .refl _, nofun⟩
  have hids := (consistent_graft consistent_empty hspent module .root).ids
  rw [grafted_empty] at hsorted hids
  exact acyclic_of_sorted hsorted hids id

end Graph

namespace Placement.Filling

variable {ps : List NodeId} {ks : List (String × NodeId)} {left : Nat} {names : List String}
  {s : Placement}

theorem byPositions {front : List String} (h : Filling ps ks false (left + front.length) names s)
    (hf : ∀ name ∈ front, name ∉ ks.map Prod.fst) :
    ∃ names', Filling ps ks false left names'
      ((front.map Param.required).foldl (bind (.of ps ks) .empty) s) := by
  induction front generalizing names s with
  | nil => exact ⟨names, h⟩
  | cons name front ih =>
    have hnext := byPosition (p := .required name) h (.inr (hf name List.mem_cons_self))
    exact ih hnext fun other ho => hf other (List.mem_cons_of_mem _ ho)

theorem written_named {p : Param} (h : Filling ps ks false left names s)
    (hp : p.name ∈ ks.map Prod.fst) : ∃ source,
      (s.bindPlain (.of ps ks) .empty p).written = s.written ++ [⟨some p.name, source⟩] := by
  obtain ⟨id, hid⟩ : ∃ id, (s.seat p).keyword (.of ps ks) = some id := by
    have hkeyword := h.keyword?_eq p
    rw [← keyword_seat, if_neg Bool.false_ne_true] at hkeyword
    cases hf : ks.find? (fun k => k.1 = p.name) with
    | none =>
      obtain ⟨k, hk, he⟩ := List.mem_map.mp hp
      exact absurd he (by simpa using List.find?_eq_none.mp hf k hk)
    | some k => exact ⟨k.2, hkeyword.trans (congrArg (Option.map Prod.snd) hf)⟩
  have hname : (s.seat p).byName = true := by simp [seat, h.beforeSlash]
  refine ⟨.node id, ?_⟩
  rw [bindPlain_written]
  simp [addition, Seat.given, Overrides.get?, Overrides.empty, named, hid, hname]

end Placement.Filling

namespace Given

variable {α : Type} {gs : List (Given α)}

theorem value_of_wires {index : Nat} {p : α × EdgeKind} (h : p ∈ wires index gs) :
    ∃ g ∈ gs, g.value = p.1 := by
  induction gs generalizing index with
  | nil => cases h
  | cons g gs ih =>
    obtain ⟨keyword, a⟩ := g
    cases keyword <;> rcases List.mem_cons.mp h with rfl | h
    all_goals first
      | exact ⟨_, List.mem_cons_self, rfl⟩
      | obtain ⟨g, hg, hv⟩ := ih h
        exact ⟨g, List.mem_cons_of_mem _ hg, hv⟩

theorem written_suggested {gs : List (Given NodeId)}
    (hrow : (gs.map (·.keyword)).Pairwise fun a b => a.isSome = true → b.isSome = true)
    (hk : ((keywords gs).map Prod.fst).Nodup)
    (hn : ∀ name ∈ positionNames gs, name ∉ (keywords gs).map Prod.fst) :
    writtenArguments (suggested gs) (.of (positional gs) (keywords gs)) .empty = gs.map written := by
  rcases writtenArguments_arranged (takes_suggested hn False) with hwritten | ⟨hfalse, -⟩
  · have harranged : arranged (Param.byKeyword (Param.hasSlash (suggested gs)) (suggested gs)) gs =
        row (positional gs) (keywords gs) := by
      rw [arranged, sorted_suggested hn hk]
      rfl
    rw [hwritten, harranged, row_self hrow]
  · exact hfalse.elim

/-- A keyword that is the name of a position is written in the place of that position. -/
theorem written_collision {ps : List NodeId} {ks : List (String × NodeId)} {front : List String}
    {name : String} (hlen : front.length < ps.length) (hfront : ∀ other ∈ front, other ∉ ks.map Prod.fst)
    (hin : name ∈ ks.map Prod.fst) (back : List String) :
    ∃ source, (ps.take front.length).map Placement.plain ++ [⟨some name, source⟩] <+:
      writtenArguments ((front ++ name :: back).map Param.required) (.of ps ks) .empty := by
  obtain ⟨left, hleft⟩ : ∃ left, ps.length = left + 1 + front.length :=
    ⟨ps.length - 1 - front.length, by omega⟩
  have hstart := Placement.filling_start ps ks ((front ++ name :: back).map Param.required)
  rw [hasSlash_required, hleft] at hstart
  obtain ⟨names, hfill⟩ := hstart.byPositions hfront
  obtain ⟨source, hnext⟩ := hfill.written_named (p := .required name) hin
  rw [hfill.written, (hfill.early (Nat.succ_pos _)).2.2.2.2, List.map_nil, List.append_nil, hleft,
    Nat.add_sub_cancel_left] at hnext
  refine ⟨source, ?_⟩
  have hrest := Placement.written_all (.of ps ks) .empty (back.map Param.required)
    (Placement.bind (.of ps ks) .empty ((front.map Param.required).foldl
      (Placement.bind (.of ps ks) .empty)
      (Placement.start ((front ++ name :: back).map Param.required))) (.required name))
  rw [← List.foldl_cons, ← List.foldl_append, ← List.map_cons, ← List.map_append] at hrest
  refine (hnext ▸ hrest).trans ?_
  rw [writtenArguments, List.append_assoc]
  exact List.prefix_append ..

/-- Arguments in a row are written as they are given exactly if no keyword is the name of a
position. -/
theorem written_suggested_iff {gs : List (Given NodeId)}
    (hrow : (gs.map (·.keyword)).Pairwise fun a b => a.isSome = true → b.isSome = true)
    (hk : ((keywords gs).map Prod.fst).Nodup) :
    writtenArguments (suggested gs) (.of (positional gs) (keywords gs)) .empty = gs.map written ↔
      ∀ i < (positional gs).length, "arg" ++ toString i ∉ (keywords gs).map Prod.fst := by
  have hnames : (∀ i < (positional gs).length, "arg" ++ toString i ∉ (keywords gs).map Prod.fst) ↔
      ∀ name ∈ positionNames gs, name ∉ (keywords gs).map Prod.fst := by
    rw [positionNames, List.forall_mem_map]
    simp only [List.mem_range]
  rw [hnames]
  refine ⟨fun hwritten => ?_, written_suggested hrow hk⟩
  cases hfind : (positionNames gs).find? fun name => name ∈ (keywords gs).map Prod.fst with
  | none =>
    intro name hm
    simpa using List.find?_eq_none.mp hfind name hm
  | some name =>
    obtain ⟨hin, front, back, hsplit, hfront⟩ := List.find?_eq_some_iff_append.mp hfind
    have hlen : front.length < (positional gs).length := by
      have hcount := congrArg List.length hsplit
      rw [positionNames, List.length_map, List.length_range, List.length_append,
        List.length_cons] at hcount
      omega
    obtain ⟨source, rest, hstarts⟩ := written_collision hlen (fun other ho => by
      simpa using hfront other ho) (by simpa using hin) (back ++ (keywords gs).map Prod.fst)
    rw [← List.cons_append, ← List.append_assoc, ← hsplit, ← suggested, hwritten] at hstarts
    have hgiven : gs.map written = (positional gs).map Placement.plain ++
        (keywords gs).map Placement.worded := by
      conv_lhs => rw [← row_self hrow]
      rw [row, List.map_append, List.map_map, List.map_map]
      rfl
    have hplace := congrArg (fun args => args[front.length]?) (hstarts.trans hgiven)
    simp [List.getElem?_append, Nat.le_of_lt hlen, hlen, Placement.plain] at hplace

example : writtenArguments (suggested [⟨none, "a"⟩, ⟨some "arg0", "b"⟩])
    (.of [⟨"a"⟩] [("arg0", ⟨"b"⟩)]) .empty =
      [⟨some "arg0", .node ⟨"b"⟩⟩, ⟨some "arg0", .node ⟨"b"⟩⟩, ⟨none, .node ⟨"a"⟩⟩] := by
  decide

theorem value_of_row {ps : List α} {ks : List (String × α)} {g : Given α} (h : g ∈ row ps ks) :
    g.value ∈ ps ++ ks.map Prod.snd := by
  rcases List.mem_append.mp h with h | h
  · obtain ⟨a, ha, rfl⟩ := List.mem_map.mp h
    exact List.mem_append_left _ ha
  · obtain ⟨k, hk, rfl⟩ := List.mem_map.mp h
    exact List.mem_append_right _ (List.mem_map_of_mem hk)

section Rows

variable {β γ : Type} {ps : List β} {ks : List (String × β)} {gs : List (Given α)} {f : α → β}
  (h : row ps ks = gs.map (map f))

include h

theorem shape_of_row (f' : α → γ) :
    (keywords (gs.map (map f'))).map Prod.fst = ks.map Prod.fst ∧
      (positional (gs.map (map f'))).length = ps.length := by
  constructor
  · rw [← keywords_row ps ks, h, keywords_map, keywords_map, List.map_map, List.map_map]
    rfl
  · rw [← positional_row ps ks, h, positional_map, positional_map, List.length_map, List.length_map]

theorem nodup_of_row (hk : (ks.map Prod.fst).Nodup) : ((keywords gs).map Prod.fst).Nodup := by
  rw [← (shape_of_row h id).1, keywords_map, List.map_map] at hk
  exact hk

end Rows

/-- An argument as it is shown, behind its keyword if it has one. -/
def shown (g : Given Rendered) : Rendered :=
  match g.keyword with
  | some name => g.value.map fun text => name ++ "=" ++ text
  | none => g.value

end Given

namespace Steps

/-- A name that is read as an argument of the node `k` has a binding. -/
def BindsArgument (k : Nat) (before : List Step) : Step → Prop
  | .read name w outer ⟨target, .argument _ _⟩ =>
    target = k → (resolve before (w :: outer) name).isSome = true
  | _ => True

/-- The expression `e` stands in the text, is read for a port and has the value `a`. -/
def Becomes (all : List Step) (port : Port) (e : Expr) (a : Ref) : Prop :=
  ∃ before after w outer, all = before ++ expr w outer (some port) (count before) e ++ after ∧
    openPath before = w :: outer ∧ root before w outer (count before) e = some a

/-- The node `k` takes the expressions `ps` by position and `ks` with keywords; `gs` has each of them
with its value. -/
structure Passes (all : List Step) (k : Nat) (ps : List Expr) (ks : List (String × Expr))
    (gs : List (Given (Expr × Ref))) : Prop where
  given : gs.map (Given.map Prod.fst) = Given.row ps ks
  values : ∀ p ∈ Given.wires 0 gs, Becomes all ⟨k, p.2⟩ p.1.1 p.1.2

end Steps

namespace Run
open Steps

variable {q : Run} {all before after : List Step} {w : Place} {outer : List Place} {k : Nat}
  {label : String} {isMethod : Bool} {args : List Arg} {port : Option Port}
  {gs : List (Given (Expr × Ref))}

theorem Standing.becomes {owner : Nat} {p : Expr × EdgeKind}
    (h : Standing q all before (expr w outer (some ⟨owner, p.2⟩) k p.1) after w outer k)
    (hp : p ∈ Given.wires 0 (Arg.givens args))
    (hform : ∀ g ∈ Arg.givens args, g.value ≠ .unsupported)
    (hbound : Every (BindsArgument owner) [] all) :
    ∃ a, root before w outer k p.1 = some a ∧ Becomes all ⟨owner, p.2⟩ p.1 a := by
  obtain ⟨g, hg, hvalue⟩ := Given.value_of_wires hp
  have hsupported : p.1 ≠ .unsupported := hvalue ▸ hform g hg
  obtain ⟨e, kind⟩ := p
  obtain ⟨a, ha⟩ : ∃ a, root before w outer k e = some a := by
    cases e with
    | unsupported => exact absurd rfl hsupported
    | name id =>
      have hall : all = before ++ .read id w outer ⟨owner, kind⟩ :: after := by
        rw [h.located.text, expr, List.append_assoc]
        rfl
      have hsome : (Steps.resolve before (w :: outer) id).isSome = true := by
        have hbinds := hbound.split hall
        rcases Given.kind_of_wires hp with ⟨i, -, rfl⟩ | ⟨name, -, rfl⟩ <;> exact hbinds rfl
      obtain ⟨o, ho⟩ := Option.isSome_iff_exists.mp hsome
      exact ⟨o.ref w, by rw [root, ho, Option.map_some]⟩
    | _ => exact ⟨_, rfl⟩
  obtain rfl := h.located.number
  exact ⟨a, ha, before, after, w, outer, h.located.text, h.path, ha⟩

theorem row_becomes {owner : Nat}
    (h : Standing q all before (row w outer owner k (Given.wires 0 (Arg.givens args))) after w outer k)
    (ho : owner < k) (hform : ∀ g ∈ Arg.givens args, g.value ≠ .unsupported)
    (hbound : Every (BindsArgument owner) [] all) :
    ∃ gs : List (Given (Expr × Ref)), Arg.givens args = gs.map (Given.map Prod.fst) ∧
      inputs owner (collect joins before (row w outer owner k (Given.wires 0 (Arg.givens args)))) =
        (Given.wires 0 gs).map (Prod.map Prod.snd id) ∧
      ∀ p ∈ Given.wires 0 gs, Becomes all ⟨owner, p.2⟩ p.1.1 p.1.2 := by
  obtain ⟨xs, hxs, hin, hbecome⟩ := row_parts (P := fun e kind a => Becomes all ⟨owner, kind⟩ e a)
    h ho fun p hp => fun hs _ => hs.becomes hp hform hbound
  obtain ⟨gs, hgs, rfl⟩ := Given.wires_lift hxs
  exact ⟨gs, hgs, hin, hbecome⟩

theorem Standing.call_inputs {e : Expr}
    (h : Standing q all before (expr w outer port k e) after w outer k)
    (hf : face e = some (label, .call isMethod args)) (hp : ∀ p ∈ port, p.target < k)
    (hform : ∀ g ∈ Arg.givens args, g.value ≠ .unsupported)
    (hbound : Every (BindsArgument k) [] all) :
    ∃ (receiver : Option Ref) (gs : List (Given (Expr × Ref))),
      Arg.givens args = gs.map (Given.map Prod.fst) ∧
      inputs k (links all) = receiver.toList.map (·, .attributeValue) ++
        (Given.wires 0 gs).map (Prod.map Prod.snd id) ∧
      ∀ p ∈ Given.wires 0 gs, Becomes all ⟨k, p.2⟩ p.1.1 p.1.2 := by
  rcases call_of_face hf with ⟨rfl, rfl⟩ | ⟨object, rfl, rfl⟩
  · rw [expr_eq_place rfl port k (.inr rfl), parts, arguments_eq_row] at h
    obtain ⟨gs, hgs, hin, hbecome⟩ := row_becomes h.behind (Nat.lt_succ_self k) hform hbound
    exact ⟨none, gs, hgs, (h.inputs_eq hp).trans hin, hbecome⟩
  · rw [expr_eq_place rfl port k (.inr rfl), parts, arguments_eq_row] at h
    obtain ⟨-, hrow⟩ := h.behind.split (quiet_expr ..) (of_mem_some (Nat.lt_succ_self k)) (feeds_row k _ _).local
      (Nat.le_refl _)
    obtain ⟨gs, hgs, hargs, hbecome⟩ := row_becomes hrow (by omega) hform hbound
    have hin := h.inputs_eq hp
    rw [collect_append, inputs_append, inputs_expr _ ⟨k, .attributeValue⟩ (Nat.lt_succ_self k),
      hargs] at hin
    exact ⟨_, gs, hgs, hin, hbecome⟩

/-- The call `n` is written with the arguments `gs`, each once and in their order. -/
structure Verbatim (q : Run) (g : Graph) (n : Node) (site : CallSite)
    (gs : List (Given (Expr × Ref))) : Prop where
  arguments : g.callArguments n site = gs.map fun a => ⟨a.keyword, .node (q.ref a.value.2)⟩
  /-- An argument is shown as on its own, wherever the value of the call is used. -/
  text : ∀ (style : CodeStyle) (visiting : List NodeId),
    (∀ v ∈ visiting, Relation.TransGen g.Leads n.id v) →
    g.renderArguments style (fun id => g.resolve style (n.id :: visiting) id) n site =
      .join ", " ((gs.map (Given.map fun x => g.value style (q.ref x.2))).map Given.shown)

/-- A call without a definition is written with its arguments as they are given exactly if no keyword
is the name of a position. -/
theorem Standing.written_call {ps : List Expr} {ks : List (String × Expr)} {rest : List Step}
    {receiver : Option Ref}
    (h : Standing q all before (place w label (.call isMethod (Arg.row ps ks)) k port ++ rest) after
      w outer k) (hext : isMethod = true ∨ callee? all (openPath before) label = none)
    (hk : (ks.map Prod.fst).Nodup) (hgs : Given.row ps ks = gs.map (Given.map Prod.fst))
    (hin : inputs k (links all) = receiver.toList.map (·, .attributeValue) ++
      (Given.wires 0 gs).map (Prod.map Prod.snd id)) :
    ∃ site, q.linked.lookup (q.nodeId k) = some ⟨q.nodeId k, label, q.world w, .call site⟩ ∧
      (q.linked.callArguments ⟨q.nodeId k, label, q.world w, .call site⟩ site =
        gs.map (fun a => ⟨a.keyword, .node (q.ref a.value.2)⟩) ↔
          ∀ i < ps.length, "arg" ++ toString i ∉ ks.map Prod.fst) := by
  have hargs : Arg.givens (Arg.row ps ks) = gs.map (Given.map Prod.fst) :=
    (Arg.givens_row ps ks).trans hgs
  obtain ⟨hkeys, hcount⟩ := Given.shape_of_row hgs fun x => q.ref x.2
  have hnodup : ((Given.keywords gs).map Prod.fst).Nodup := Given.nodup_of_row hgs hk
  obtain ⟨site, hlookup, -, hover, hparams⟩ := h.call_site hargs hin hnodup
  refine ⟨site, hlookup, ?_⟩
  have hsuggested : q.linked.callParams site =
      Given.suggested (gs.map (Given.map fun x => q.ref x.2)) := by
    have hnone : (if isMethod then none else callee? all (openPath before) label) = none := by
      rcases hext with rfl | hext
      · rfl
      · rw [hext, ite_self]
    rw [hparams, boundParams, hnone, hargs, Given.suggested_map, Given.suggested_map]
  have hrow : ((gs.map (Given.map fun x => q.ref x.2)).map (·.keyword)).Pairwise
      fun a b => a.isSome = true → b.isSome = true := by
    have hgiven := Given.pairwise_row ps ks
    rw [hgs, List.map_map] at hgiven
    rw [List.map_map]
    exact hgiven
  have hgiven : gs.map (fun a => (⟨a.keyword, .node (q.ref a.value.2)⟩ : WrittenArgument)) =
      (gs.map (Given.map fun x => q.ref x.2)).map Given.written := by
    rw [List.map_map]
    rfl
  rw [Graph.callArguments, hsuggested, hover, h.edgesTo_call hin hnodup,
    Given.ofEdges_wires _ (fun _ he => receiver_kind he) (keywords_ref hnodup), hgiven,
    Given.written_suggested_iff hrow (keywords_ref hnodup), hkeys, hcount]

theorem Standing.argument_leads {content : Content} {rest : List Step} {receiver : Option Ref}
    (h : Standing q all before (place w label content k port ++ rest) after w outer k)
    (hin : inputs k (links all) = receiver.toList.map (·, .attributeValue) ++
      (Given.wires 0 gs).map (Prod.map Prod.snd id)) (hk : ((Given.keywords gs).map Prod.fst).Nodup)
    {a : Given (Expr × Ref)} (ha : a ∈ gs) : q.linked.Leads (q.ref a.value.2) (q.nodeId k) := by
  obtain ⟨kind, hkind⟩ := Given.mem_wires (List.mem_map_of_mem ha) 0
  have hedge : (⟨q.ref a.value.2, q.nodeId k, kind⟩ : Edge) ∈ q.linked.edgesTo (q.nodeId k) := by
    rw [h.edgesTo_call hin hk]
    exact List.mem_append_right _ (List.mem_map_of_mem hkind)
  exact ⟨_, (List.mem_filter.mp hedge).1, rfl, rfl⟩

theorem renderArguments_eq {g : Graph} (hg : ∀ id, ¬ Relation.TransGen g.Leads id id) {n : Node}
    {site : CallSite} {style : CodeStyle}
    (hargs : g.callArguments n site = gs.map fun a => ⟨a.keyword, .node (q.ref a.value.2)⟩)
    (hleads : ∀ a ∈ gs, g.Leads (q.ref a.value.2) n.id)
    (hv : ∀ v ∈ visiting, Relation.TransGen g.Leads n.id v) :
    g.renderArguments style (fun id => g.resolve style (n.id :: visiting) id) n site =
      .join ", " ((gs.map (Given.map fun x => g.value style (q.ref x.2))).map Given.shown) := by
  have hrender : g.renderArguments style (fun id => g.resolve style (n.id :: visiting) id) n site =
      .join ", " ((g.callArguments n site).map (Graph.renderArgument style
        (fun id => g.resolve style (n.id :: visiting) id) n)) := rfl
  rw [hrender, hargs, List.map_map, List.map_map]
  refine congrArg (Rendered.join ", ") (List.map_congr_left fun a ha => ?_)
  have hvalue : g.resolve style (n.id :: visiting) (q.ref a.value.2) =
      g.value style (q.ref a.value.2) := by
    apply Graph.resolve_eq_value hg
    intro v hm
    rcases List.mem_cons.mp hm with rfl | hm
    · exact .single (hleads a ha)
    · exact .head (hleads a ha) (hv v hm)
  obtain ⟨keyword, e, ref⟩ := a
  cases keyword with
  | none => exact hvalue
  | some name => exact congrArg (Rendered.map fun text => name ++ "=" ++ text) hvalue

/-- A call that goes to no definition is written with its arguments as they stand exactly if no keyword
is the name that a position is given. -/
theorem external_verbatim (supply : Supply) {module : List Stmt} {before after : List Step}
    {w : Place} {label : String} {isMethod : Bool} {ps : List Expr} {ks : List (String × Expr)}
    (hcall : Steps.ofModule module =
      before ++ .node ⟨w, label, .call isMethod (Arg.row ps ks)⟩ :: after)
    (hext : isMethod = true ∨ callee? (Steps.ofModule module) (openPath before) label = none)
    (hform : ∀ e ∈ ps ++ ks.map Prod.snd, e ≠ .unsupported)
    (hbound : Every (BindsArgument (count before)) [] (Steps.ofModule module))
    (hk : (ks.map Prod.fst).Nodup) :
    let q := ofModule supply module
    let g := (build supply module).1.link.1
    let id := q.nodeId (count before)
    ∃ site gs, g.lookup id = some ⟨id, label, q.world w, .call site⟩ ∧
      Passes (Steps.ofModule module) (count before) ps ks gs ∧
      (q.Verbatim g ⟨id, label, q.world w, .call site⟩ site gs ↔
        ∀ i < ps.length, "arg" ++ toString i ∉ ks.map Prod.fst) := by
  intro q g id
  have hgraph : q.linked = g := congrArg (fun g : Graph => g.link.1) (graph_ofModule supply module)
  have hsketch : (sketches (Steps.ofModule module))[count before]? =
      some ⟨w, label, .call isMethod (Arg.row ps ks)⟩ := hcall ▸ sketch_here before _ after
  obtain ⟨front, back, outer, port, e, hf, hp, hs⟩ :=
    callStands_ofModule supply module _ _ _ _ _ hsketch
  obtain ⟨receiver, gs, hgs, hin, hbecome⟩ := hs.call_inputs hf hp
    (fun a ha => hform _ (Given.value_of_row (Arg.givens_row ps ks ▸ ha))) hbound
  rw [expr_eq_place hf port _ (.inr (isCall_of_face hf))] at hs
  obtain rfl : front = before := by
    obtain ⟨rest, hall⟩ := hs.located.node_place
    exact front_unique (hall.symm.trans hcall) hs.located.number
  rw [Arg.givens_row] at hgs
  obtain ⟨site, hlookup, hargs⟩ := hs.written_call hext hk hgs hin
  have hleads : ∀ a ∈ gs, q.linked.Leads (q.ref a.value.2) id :=
    fun a ha => hs.argument_leads hin (Given.nodup_of_row hgs hk) ha
  rw [hgraph] at hlookup hargs hleads
  refine ⟨site, gs, hlookup, ⟨hgs.symm, hbecome⟩, fun hv => hargs.mp hv.arguments, fun hn => ?_⟩
  exact ⟨hargs.mpr hn, fun style visiting hv => renderArguments_eq
    (Graph.acyclic_build supply module) (hargs.mpr hn) hleads hv⟩

/-- A call with a method call, a list and a name that is used twice among its arguments. -/
def nestedCall : List Stmt :=
  [.assign "x" (.literal "1"), .eval (.call "print" (Arg.row
    [.name "x", .methodCall (.name "x") "get" [.positional (.literal "2")]]
    [("sep", .list [.name "x"]), ("end", .name "x")]))]

theorem external_verbatim_nested :
    let ss := Steps.ofModule nestedCall
    let q := ofModule ⟨0⟩ nestedCall
    let g := (build ⟨0⟩ nestedCall).1.link.1
    let ps := [.name "x", .methodCall (.name "x") "get" [.positional (.literal "2")]]
    let ks := [("sep", .list [.name "x"]), ("end", .name "x")]
    ss = ss.take 4 ++ .node ⟨.root, "print", .call false (Arg.row ps ks)⟩ :: ss.drop 5 ∧
      callee? ss (openPath (ss.take 4)) "print" = none ∧ Every (BindsArgument 2) [] ss ∧
      ∃ site gs, g.lookup (q.nodeId 2) = some ⟨q.nodeId 2, "print", .root, .call site⟩ ∧
        Passes ss 2 ps ks gs ∧ q.Verbatim g ⟨q.nodeId 2, "print", .root, .call site⟩ site gs := by
  intro ss q g ps ks
  have hcall : ss = ss.take 4 ++ .node ⟨.root, "print", .call false (Arg.row ps ks)⟩ :: ss.drop 5 := rfl
  have hnone : callee? ss (openPath (ss.take 4)) "print" = none := by decide +kernel
  have hbound : Every (BindsArgument 2) [] ss :=
    ⟨trivial, trivial, trivial, trivial, trivial, fun _ => rfl, trivial, trivial, trivial, trivial,
      trivial, trivial, trivial, trivial, fun _ => rfl, trivial⟩
  obtain ⟨site, gs, hlookup, hpasses, hiff⟩ := external_verbatim ⟨0⟩ hcall (.inr hnone) (by simp [ps, ks])
    hbound (by decide)
  exact ⟨hcall, hnone, hbound, site, gs, hlookup, hpasses, hiff.mpr (by decide)⟩

end Run

end ScopedFlow
