import ScopedFlow.Proofs.Joined
import ScopedFlow.Proofs.Lines

/-!
# Consumers of expressions

A node that stands for an expression is wired into one node when it is made, and no edge leaves it
later. Only a call that is a statement of its own is wired nowhere. So the text of an expression is
put into one place only.
-/

namespace ScopedFlow

variable {n : Node}

namespace Graph

variable {g : Graph} {id : NodeId}

def outputs (g : Graph) (id : NodeId) : List Edge := (g.edgesFrom id).filter fun e => e.kind.isData

theorem mem_outputs {e : Edge} :
    e ∈ g.outputs id ↔ e ∈ g.edges ∧ e.source = id ∧ e.kind.isData = true := by
  simp only [outputs, edgesFrom, List.mem_filter, decide_eq_true_eq, and_assoc]

theorem feeds_eq_false_iff : g.feeds id = false ↔ g.outputs id = [] := by
  rw [feeds, outputs, List.any_eq_false, List.filter_eq_nil_iff]

theorem outputs_eq_nil (h : ∀ e ∈ g.edges, e.source ≠ id) : g.outputs id = [] := by
  apply List.eq_nil_iff_forall_not_mem.mpr
  intro e he
  obtain ⟨he, hs, -⟩ := mem_outputs.mp he
  exact h e he hs

theorem outputs_addEdge_of_ne (g : Graph) {e : Edge} (h : e.source ≠ id) :
    (g.addEdge e).outputs id = g.outputs id := by
  unfold addEdge
  split
  · rfl
  · simp [outputs, edgesFrom, h]

/-- What is counted of an expression: its kind, its label and the number of its uses. -/
structure Entry where
  kind : NodeKind
  label : String
  uses : Nat
  deriving DecidableEq, Repr

def tallyOf (g : Graph) (ns : List Node) : List Entry :=
  (ns.filter fun n => n.kind.isExpression).map fun n => ⟨n.kind, n.label, (g.outputs n.id).length⟩

def tally (g : Graph) : List Entry := g.tallyOf g.nodes

/-- The entries of a text with the given calls: all expressions are used once but for the calls that
stand alone, which are not used. -/
structure Accounts (xs : List WrittenCall) (ys : List Entry) : Prop where
  calls : (ys.filter fun y => y.kind = .call).map (fun y => ⟨y.label, y.uses = 0⟩) = xs
  once : ∀ y ∈ ys, y.uses ≤ 1 ∧ (y.kind ≠ .call → y.uses = 1)

theorem accounts_nil : Accounts [] [] := ⟨rfl, nofun⟩

theorem Accounts.append {xs xs' : List WrittenCall} {ys ys' : List Entry} (h : Accounts xs ys)
    (h' : Accounts xs' ys') : Accounts (xs ++ xs') (ys ++ ys') := by
  constructor
  · rw [List.filter_append, List.map_append, h.calls, h'.calls]
  · intro y hy
    rcases List.mem_append.mp hy with hy | hy
    · exact h.once y hy
    · exact h'.once y hy

theorem accounts_node {payload : Payload} {label : String} {alone : Bool}
    (h : payload.kind = .call ∨ alone = false) :
    Accounts (payload.written label alone) [⟨payload.kind, label, if alone then 0 else 1⟩] := by
  constructor
  · cases payload with
    | call site => cases alone <;> rfl
    | _ => rfl
  · intro y hy
    obtain rfl := List.mem_singleton.mp hy
    cases alone with
    | false => exact ⟨Nat.le_refl 1, fun _ => rfl⟩
    | true => exact ⟨Nat.zero_le 1, fun hk => absurd (h.resolve_right nofun) hk⟩

theorem tallyOf_append (g : Graph) (ns ms : List Node) :
    g.tallyOf (ns ++ ms) = g.tallyOf ns ++ g.tallyOf ms := by
  rw [tallyOf, List.filter_append, List.map_append]
  rfl

theorem tallyOf_congr {g' : Graph} {ns : List Node} (h : ∀ n ∈ ns, n.kind.isExpression = true →
    g'.outputs n.id = g.outputs n.id) : g'.tallyOf ns = g.tallyOf ns := by
  apply List.map_congr_left
  intro n hn
  obtain ⟨hn, hk⟩ := List.mem_filter.mp hn
  rw [h n hn hk]

theorem tallyOf_silent (g : Graph) (h : n.kind.isExpression = false) : g.tallyOf [n] = [] := by
  simp [tallyOf, h]

theorem tallyOf_expression (g : Graph) (h : n.kind.isExpression = true) :
    g.tallyOf [n] = [⟨n.kind, n.label, (g.outputs n.id).length⟩] := by
  simp [tallyOf, h]

end Graph

theorem Payload.not_isExpression_of_isName {payload : Payload} (h : payload.isName = true) :
    payload.kind.isExpression = false := by
  cases payload with
  | «variable» _ | functionDef _ | classDef _ | importStmt _ => rfl
  | _ => cases h

theorem NodeKind.not_isExpression_of_ownsWorld {kind : NodeKind} (h : kind.ownsWorld = true) :
    kind.isExpression = false := by
  cases kind with
  | call | literal | operator | listDisplay | dictDisplay | accessor | «attribute» => cases h
  | _ => rfl

namespace Builder
open ScopedFlow.Graph

variable {base : List Node} {w : World} {b b' : Builder} {payload : Payload} {xs : List WrittenCall}

theorem Joined.outputs_fresh (h : Joined base b) (kind : NodeKind) :
    b.graph.outputs (b.fresh kind) = [] := by
  apply outputs_eq_nil
  intro e he hs
  obtain ⟨s, hmem, t, -, hsid, -⟩ := h.edges e he
  exact h.fresh_ne hmem kind (hsid.trans hs)

theorem Joined.tally_wire (h : Joined base b) {s : Node} (hs : s ∈ base ++ b.graph.nodes)
    (hk : s.kind.isExpression = false) (target : NodeId) (kind : EdgeKind) :
    (b.wire s.id target kind).graph.tally = b.graph.tally := by
  unfold tally
  rw [nodes_wire]
  apply tallyOf_congr
  intro n hn he
  apply outputs_addEdge_of_ne
  intro hid
  obtain rfl := h.eq_of_id hs (List.mem_append_right _ hn) hid
  rw [hk] at he
  cases he

theorem tally_add (b : Builder) (payload : Payload) (label : String) (v : World) :
    (b.add payload label v).graph.tally = b.graph.tally ++
      b.graph.tallyOf [⟨b.fresh payload.kind, label, v, payload⟩] :=
  tallyOf_append b.graph b.graph.nodes _

theorem tally_add_silent (b : Builder) (h : payload.kind.isExpression = false) (label : String)
    (v : World) : (b.add payload label v).graph.tally = b.graph.tally := by
  have hnode : (⟨b.fresh payload.kind, label, v, payload⟩ : Node).kind.isExpression = false := h
  rw [tally_add, tallyOf_silent b.graph hnode, List.append_nil]

theorem Joined.tally_place (h : Joined base b) (he : payload.kind.isExpression = true)
    (label : String) (v : World) (target : NodeId) {kind : EdgeKind} (data : kind.isData = true) :
    (b.place payload label v (some ⟨target, kind⟩)).graph.tally =
      b.graph.tally ++ [⟨payload.kind, label, 1⟩] := by
  let e : Edge := ⟨b.fresh payload.kind, target, kind⟩
  have hfresh := h.outputs_fresh payload.kind
  have hnew : e ∉ b.graph.edges := by
    intro hmem
    have hout := mem_outputs.mpr ⟨hmem, rfl, data⟩
    rw [hfresh] at hout
    cases hout
  have hgraph : (b.place payload label v (some ⟨target, kind⟩)).graph =
      ⟨b.graph.nodes ++ [⟨b.fresh payload.kind, label, v, payload⟩], b.graph.edges ++ [e]⟩ :=
    if_neg hnew
  have hold : ∀ n ∈ b.graph.nodes, n.kind.isExpression = true →
      (b.place payload label v (some ⟨target, kind⟩)).graph.outputs n.id =
        b.graph.outputs n.id := by
    intro n hn hk
    apply outputs_addEdge_of_ne
    exact (h.fresh_ne (List.mem_append_right _ hn) payload.kind).symm
  have hout : (b.place payload label v (some ⟨target, kind⟩)).graph.outputs
      (b.fresh payload.kind) = [e] := by
    rw [hgraph, outputs, edgesFrom, List.filter_append, List.filter_append]
    exact congrArg₂ (· ++ ·) hfresh (by simp [e, data])
  have hnode : (⟨b.fresh payload.kind, label, v, payload⟩ : Node).kind.isExpression = true := he
  rw [tally, Builder.place, nodes_connect, ← Builder.place]
  rw [show (b.add payload label v).graph.nodes = b.graph.nodes ++ [_] from rfl, tallyOf_append,
    tallyOf_congr hold, tallyOf_expression _ hnode, hout]
  rfl

theorem Joined.tally_standIn (h : Joined base b) {name : String} {binding : Binding}
    (found : b.symbols.read name = some binding) :
    (b.standIn name binding w).graph.tally = b.graph.tally := by
  obtain ⟨n, hn, hid, hname, -⟩ := h.names.read found
  have hadd := h.add (.variable (.closureRead binding.node binding.world)) name w
  have hwire := hadd.tally_wire (mem_append_add hn ..) (Payload.not_isExpression_of_isName hname)
    (b.fresh .variable) .closureOf
  rw [hid, tally_add_silent b rfl] at hwire
  exact hwire

theorem Joined.tally_read (h : Joined base b) (name : String) (slot : Slot) :
    (b.read name w slot).graph.tally = b.graph.tally := by
  rcases b.read_cases name w slot with
    ⟨-, hr⟩ | ⟨binding, hb, ⟨-, hr⟩ | ⟨-, proxy, hp, hr⟩ | ⟨hw, hp, hr⟩⟩ <;> rw [hr]
  · obtain ⟨n, hn, hid, hname, -⟩ := h.names.read hb
    rw [← hid]
    exact h.tally_wire hn (Payload.not_isExpression_of_isName hname) ..
  · obtain ⟨n, hn, rfl, hat⟩ := h.proxies w binding.node proxy hp
    exact h.tally_wire hn (Payload.not_isExpression_of_isName (isName_of_standsAt hat).1) ..
  · have hwire := (h.standIn hb hw hp).tally_wire (mem_standIn base b name binding w) rfl
    exact (hwire ..).trans (h.tally_standIn hb)

/-- The entries of a run account for its calls. -/
def Counts (xs : List WrittenCall) (b b' : Builder) : Prop :=
  ∃ ys, b'.graph.tally = b.graph.tally ++ ys ∧ Accounts xs ys

theorem Counts.of_eq (h : b'.graph.tally = b.graph.tally) : Counts [] b b' :=
  ⟨[], by rw [h, List.append_nil], accounts_nil⟩

theorem Counts.trans {ys : List WrittenCall} {b'' : Builder} (h : Counts xs b b')
    (h' : Counts ys b' b'') : Counts (xs ++ ys) b b'' := by
  obtain ⟨zs, hz, hacc⟩ := h
  obtain ⟨zs', hz', hacc'⟩ := h'
  refine ⟨zs ++ zs', ?_, hacc.append hacc'⟩
  rw [hz', hz, List.append_assoc]

theorem counts_fills {target : NodeId} (hf : Fills w target xs b b') (h : Joined base b)
    (ht : b.Lives w target) : Counts xs b b' := by
  induction hf with
  | refl => exact .of_eq rfl
  | trans first _ ih ih' =>
    exact (ih h ht).trans (ih' (h.fills first ht) (ht.mono first.nodes_prefix))
  | read target b name data => exact .of_eq (h.tally_read name _)
  | @node target xs b b' payload expression label kind data parts ih =>
    have hplace := h.place payload label ht kind
    have hentry : Counts (payload.written label false) b
        (b.place payload label w (some ⟨target, kind⟩)) :=
      ⟨_, h.tally_place (Payload.kind_isExpression expression) label w target data,
        accounts_node (.inr rfl)⟩
    exact hentry.trans (ih hplace (lives_place ..))

theorem counts_begins {label : String} (hb : Begins w payload label b xs b') (h : Joined base b) :
    Counts xs b b' := by
  have hadd := h.add payload label w
  have hlives := lives_add b payload label w
  cases hb with
  | plain plain parts =>
    refine .trans ?_ (counts_fills parts hadd hlives)
    cases hk : payload.kind.isExpression with
    | false =>
      rw [Payload.written_of_kind (fun hc => by rw [hc] at hk; cases hk)]
      exact .of_eq (tally_add_silent b hk label w)
    | true =>
      have hcall := Payload.call_of_isPlain plain hk
      have hnode : (⟨b.fresh payload.kind, label, w, payload⟩ : Node).kind.isExpression = true := hk
      refine ⟨_, tally_add b payload label w, ?_⟩
      rw [tallyOf_expression _ hnode, h.outputs_fresh payload.kind]
      exact accounts_node (.inl hcall)
  | @behind xs b' previous index plain owns known parts =>
    have hsilent := NodeKind.not_isExpression_of_ownsWorld owns
    obtain ⟨s, hs, rfl, hw, howns⟩ := known
    have hmem : s ∈ base ++ (b.add payload label w).graph.nodes :=
      List.mem_append_right _ (List.mem_append_left _ hs)
    have hwire := hadd.tally_wire hmem (NodeKind.not_isExpression_of_ownsWorld howns)
    have hprevious : (b.add payload label w).Lives w s.id :=
      ⟨s, List.mem_append_left _ hs, rfl, hw⟩
    have hfollow := hadd.follow hprevious hlives (some index)
    exact .trans (.of_eq ((hwire ..).trans (tally_add_silent b hsilent label w)))
      (counts_fills parts hfollow (hlives.wire ..))
  | binding introduces parts =>
    have hsilent := Payload.not_isExpression introduces
    obtain ⟨ys, hys, hacc⟩ := counts_fills parts hadd hlives
    exact ⟨ys, hys.trans (congrArg (· ++ ys) (tally_add_silent b hsilent label w)), hacc⟩

theorem counts_performs (hp : Performs w xs b b') (h : Joined base b) : Counts xs b b' := by
  induction hp with
  | refl => exact .of_eq rfl
  | trans first _ ih ih' => exact (ih h).trans (ih' (h.performs first))
  | head head => exact counts_begins head h
  | imports w b text names =>
    obtain ⟨scope, hdefine⟩ := foldl_imports b text names
    rw [hdefine]
    exact .of_eq (tally_add_silent b rfl text .imports)
  | block owns head body ih =>
    exact (counts_begins head h).trans (ih (h.begins head).enter)
  | @clause w xs ys payload label b b' b'' previous known owns head body ih =>
    have hblock := (counts_begins head h).trans (ih (h.begins head).enter)
    have hjoined := ((h.begins head).enter.performs body).leave
    obtain ⟨s, hs, rfl, -, howns⟩ := known
    have hmem : s ∈ base ++ b''.leave.graph.nodes := by
      apply List.mem_append_right
      apply body.nodes_prefix.subset
      exact head.nodes_prefix.subset (List.mem_append_left _ hs)
    have hwire := hjoined.tally_wire hmem (NodeKind.not_isExpression_of_ownsWorld howns)
      (b.fresh payload.kind) (.nextClause none)
    obtain ⟨zs, hz, hacc⟩ := hblock
    exact ⟨zs, hwire.trans hz, hacc⟩

end Builder

namespace Graph
open Builder

/-- A graph that comes from texts: one that is parsed and then others that are injected. The
statements of all of them are kept in their order. -/
inductive Composed : List Stmt → Graph → Supply → Prop where
  | parsed {supply rest : Supply} {text : String} {stmts : List Stmt} {g : Graph}
    (read : Source.parse text = .ok stmts) (h : ofSourceLinked supply text = .ok (g, rest)) :
    Composed stmts g rest
  | injected {before stmts : List Stmt} {g g' : Graph} {supply rest : Supply} {text : String}
    {w : World} {count : Nat} (base : Composed before g supply)
    (read : Source.parse text = .ok stmts) (h : g.inject supply text w = .ok (g', count, rest)) :
    Composed (before ++ stmts) g' rest

theorem Composed.reached {stmts : List Stmt} {g : Graph} {supply : Supply}
    (h : Composed stmts g supply) : ∃ k, Reached k g supply := by
  induction h with
  | parsed _ h => exact ⟨0, .parsed h⟩
  | injected _ _ h ih =>
    obtain ⟨k, hreached⟩ := ih
    exact ⟨k + 1, hreached.injected h⟩

theorem callsOf_append (before after : List Stmt) :
    Stmt.callsOf (before ++ after) = Stmt.callsOf before ++ Stmt.callsOf after := by
  induction before with
  | nil => simp [Stmt.callsOf]
  | cons stmt before ih => rw [List.cons_append, Stmt.callsOf, ih, Stmt.callsOf, List.append_assoc]

theorem tallyOf_bare (g : Graph) (ns : List Node) : g.tallyOf (ns.map Node.bare) = g.tallyOf ns := by
  have hlabel : ∀ n : Node, n.bare.label = n.label := by
    intro n
    obtain ⟨id, label, world, payload⟩ := n
    cases payload <;> rfl
  rw [tallyOf, List.filter_map, List.map_map]
  simp only [tallyOf, Function.comp_def, Node.kind_bare, Node.id_bare, hlabel]

section Graft

variable {g : Graph} {supply : Supply} (hg : g.Consistent)
  (hspent : ∀ n ∈ g.nodes, supply.Spent n.id) (stmts : List Stmt) (w : World)
include hg hspent

theorem tally_graft : (g.grafted supply stmts w).tally =
    g.tally ++ (g.snippetEnd supply stmts w).graph.tally := by
  have hjoined := joined_snippet hg.ids hspent stmts w
  have hnodes := bare_grafted g supply stmts w
  have houtputs : ∀ id, (g.grafted supply stmts w).outputs id =
      g.outputs id ++ (g.snippetEnd supply stmts w).graph.outputs id := by
    intro id
    rw [outputs, edgesFrom, edges_graft hg hspent, List.filter_append, List.filter_append]
    rfl
  rw [tally, ← tallyOf_bare, hnodes, tallyOf_bare, tallyOf_append]
  congr 1
  · apply tallyOf_congr
    intro n hn hk
    have hnone : (g.snippetEnd supply stmts w).graph.outputs n.id = [] := by
      apply outputs_eq_nil
      intro e he hs
      obtain ⟨s, hmem, t, -, hsid, -, -, hnew | hname⟩ := hjoined.edges e he
      · exact hjoined.id_ne hn hnew (hs.symm.trans hsid.symm)
      · obtain rfl := hjoined.eq_of_id hmem (List.mem_append_left _ hn) (hsid.trans hs)
        exact Bool.false_ne_true ((Payload.not_isExpression_of_isName hname).symm.trans hk)
    rw [houtputs, hnone, List.append_nil]
  · apply tallyOf_congr
    intro n hn hk
    have hnone : g.outputs n.id = [] := by
      apply outputs_eq_nil
      intro e he hs
      obtain ⟨m, hm, hmid⟩ := List.mem_map.mp (hg.ends e he).1
      exact hjoined.id_ne hm hn (hmid.trans hs)
    rw [houtputs, hnone, List.nil_append]

theorem accounts_graft {before : List Stmt} (h : Accounts (Stmt.callsOf before) g.tally) :
    Accounts (Stmt.callsOf (before ++ stmts)) (g.grafted supply stmts w).tally := by
  have hjoined := joined_snippetStart hg.ids hspent w
  obtain ⟨ys, hys, hacc⟩ := counts_performs (performs_statements w stmts _) hjoined
  have hnew : (g.snippetEnd supply stmts w).graph.tally = ys := hys
  rw [tally_graft hg hspent, callsOf_append, hnew]
  exact h.append hacc

end Graft

theorem Composed.accounts {stmts : List Stmt} {g : Graph} {supply : Supply}
    (h : Composed stmts g supply) : Accounts (Stmt.callsOf stmts) g.tally := by
  induction h with
  | @parsed supply rest text stmts g read h =>
    obtain ⟨stmts', hread, rfl, -⟩ := ofSourceLinked_ok h
    obtain rfl := Except.ok.inj (read.symm.trans hread)
    rw [← grafted_empty]
    have hnil : Accounts (Stmt.callsOf []) Graph.empty.tally := accounts_nil
    exact accounts_graft consistent_empty nofun stmts .root hnil
  | injected base read h ih =>
    obtain ⟨k, hreached⟩ := base.reached
    obtain ⟨-, stmts', hread, rfl, -⟩ := inject_ok h
    obtain rfl := Except.ok.inj (read.symm.trans hread)
    exact accounts_graft hreached.consistent hreached.sound.spent _ _ ih

theorem calls_tally (g : Graph) :
    (g.tally.filter fun y => y.kind = .call).map (fun y => (⟨y.label, y.uses = 0⟩ : WrittenCall)) =
      (g.nodesOfKind .call).map fun n => ⟨n.label, (g.outputs n.id).isEmpty⟩ := by
  have hcall : ∀ n : Node, (decide (n.kind = .call) && n.kind.isExpression) =
      decide (n.kind = .call) := by
    intro n
    cases n.kind <;> rfl
  have hempty : ∀ es : List Edge, decide (es.length = 0) = es.isEmpty := by
    intro es
    cases es <;> rfl
  rw [tally, tallyOf, List.filter_map, List.map_map, List.filter_filter]
  simp only [Function.comp_def, hcall, hempty, nodesOfKind]

/-- What a node writes by itself when values are written as `text` says: its expression, and its
line if it is a statement or a clause. -/
def ownText (g : Graph) (style : CodeStyle) (text : NodeId → Rendered) (m : Node) :
    Rendered × Code :=
  (g.renderNode style text m, lineAround style m ((g.taken m).map text))

/-- What the node writes changes with the text of the value. A call that is a statement shows its
own value. -/
def Shows (g : Graph) (m : Node) (id : NodeId) : Prop :=
  ∃ style text text', (∀ other, other ≠ id → text' other = text other) ∧
    g.ownText style text' m ≠ g.ownText style text m

theorem shows_cases {g : Graph} {m : Node} {id : NodeId} (h : g.Shows m id) :
    (∃ e ∈ g.outputs id, e.target = m.id) ∨ m.id = id ∧ g.outputs id = [] := by
  obtain ⟨style, text, text', hsame, hdiff⟩ := h
  by_contra hnone
  have hedge : ∀ e ∈ g.edgesTo m.id, e.kind.isData = true → e.source ≠ id := by
    intro e he hdata hs
    obtain ⟨he, htarget⟩ := List.mem_filter.mp he
    exact hnone (.inl ⟨e, mem_outputs.mpr ⟨he, hs, hdata⟩, of_decide_eq_true htarget⟩)
  apply hdiff
  rw [ownText, ownText, Prod.mk.injEq]
  constructor
  · exact renderNode_congr rfl (fun e he hdata => hsame _ (hedge e he hdata)) fun _ _ => rfl
  · cases ht : g.taken m with
    | none => rfl
    | some s =>
      have hne : s ≠ id := by
        rintro rfl
        rcases taken_cases ht with ⟨e, he, hdata, hs⟩ | ⟨hs, hfeeds⟩
        · exact hedge e he hdata hs
        · subst hs
          exact hnone (.inr ⟨rfl, feeds_eq_false_iff.mp hfeeds⟩)
      rw [Option.map_some, Option.map_some, hsame s hne]

theorem shows_alone {g : Graph} (hk : n.kind = .call) (h : g.outputs n.id = []) :
    g.Shows n n.id := by
  obtain ⟨id, label, world, payload⟩ := n
  cases payload with
  | call site =>
    refine ⟨.default, fun _ => .plain "", fun other => .plain (if other = id then "x" else ""), ?_, ?_⟩
    · intro other hne
      exact congrArg Rendered.plain (if_neg hne)
    · have hfeeds : g.feeds id = false := feeds_eq_false_iff.mpr h
      simp [ownText, lineAround, taken, hfeeds, Code.line, Rendered.plain]
  | _ => cases hk

theorem shows_unique {g : Graph} (hg : g.ids.Nodup) {id : NodeId} (h : (g.outputs id).length ≤ 1)
    {m m' : Node} (hm : m ∈ g.nodes) (hm' : m' ∈ g.nodes) (hs : g.Shows m id) (hs' : g.Shows m' id) :
    m = m' := by
  apply List.inj_on_of_nodup_map hg hm hm'
  rcases shows_cases hs with ⟨e, he, ht⟩ | ⟨hid, hnone⟩ <;>
    rcases shows_cases hs' with ⟨e', he', ht'⟩ | ⟨hid', hnone'⟩
  · cases ho : g.outputs id with
    | nil =>
      rw [ho] at he
      cases he
    | cons d ds =>
      rw [ho, List.length_cons] at h
      have hds : ds = [] := List.eq_nil_of_length_eq_zero (by omega)
      rw [ho, hds, List.mem_singleton] at he he'
      rw [← ht, ← ht', he, he']
  · rw [hnone'] at he
    cases he
  · rw [hnone] at he'
    cases he'
  · exact hid.trans hid'.symm

/-- Each expression has one consumer. The calls of the graph are those of the texts in their order,
and just those that are statements are consumed by no node: these show their own value. So no two
nodes show the text of one expression. -/
theorem Composed.consumed {stmts : List Stmt} {g : Graph} {supply : Supply}
    (h : Composed stmts g supply) :
    (∀ n ∈ g.nodes, n.kind.isExpression = true → n.kind ≠ .call → (g.outputs n.id).length = 1) ∧
    (∀ n ∈ g.nodes, n.kind = .call → (g.outputs n.id).length ≤ 1) ∧
    (g.nodesOfKind .call).map (fun n => ⟨n.label, (g.outputs n.id).isEmpty⟩) =
      Stmt.callsOf stmts ∧
    (∀ n ∈ g.nodes, n.kind = .call → g.outputs n.id = [] → g.Shows n n.id) ∧
    ∀ n ∈ g.nodes, n.kind.isExpression = true → ∀ m ∈ g.nodes, ∀ m' ∈ g.nodes,
      g.Shows m n.id → g.Shows m' n.id → m = m' := by
  have hacc := h.accounts
  obtain ⟨k, hreached⟩ := h.reached
  have honce : ∀ n ∈ g.nodes, n.kind.isExpression = true → (g.outputs n.id).length ≤ 1 ∧
      (n.kind ≠ .call → (g.outputs n.id).length = 1) := by
    intro n hn hk
    exact hacc.once _ (List.mem_map_of_mem (List.mem_filter.mpr ⟨hn, hk⟩))
  refine ⟨?_, ?_, ?_, ?_, ?_⟩
  · intro n hn hk hcall
    exact (honce n hn hk).2 hcall
  · intro n hn hcall
    exact (honce n hn (by rw [hcall]; rfl)).1
  · rw [← calls_tally]
    exact hacc.calls
  · intro n _ hcall hnone
    exact shows_alone hcall hnone
  · intro n hn hk m hm m' hm' hs hs'
    exact shows_unique hreached.consistent.ids (honce n hn hk).1 hm hm' hs hs'

/-- A call with a call among its arguments, and a call that is injected behind it. -/
theorem Composed.consumed_injected : ∃ stmts g supply, Composed stmts g supply ∧
    (g.nodesOfKind .call).map (fun n => (⟨n.label, (g.outputs n.id).isEmpty⟩ : WrittenCall)) =
      [⟨"f", true⟩, ⟨"g", false⟩, ⟨"h", true⟩] ∧
    ∀ n ∈ g.nodes, n.kind.isExpression = true → ∀ m ∈ g.nodes, ∀ m' ∈ g.nodes,
      g.Shows m n.id → g.Shows m' n.id → m = m' := by
  have htext : (Source.parse "f(g(1))\n").map Stmt.callsOf = .ok [⟨"f", true⟩, ⟨"g", false⟩] := by
    decide +kernel
  have hsnippet : (Source.parse "h([2])\n").map Stmt.callsOf = .ok [⟨"h", true⟩] := by
    decide +kernel
  obtain ⟨stmts, hread, hcalls⟩ := exists_of_map_eq_ok htext
  obtain ⟨added, hread', hcalls'⟩ := exists_of_map_eq_ok hsnippet
  obtain ⟨g, rest, hg⟩ := exists_ofSourceLinked hread ⟨0⟩
  have hparsed : Composed stmts g rest := .parsed hread hg
  have hinjected := hparsed.injected hread' (inject_eq (w := .root) rfl hread' rest)
  obtain ⟨-, -, hall, -, hshows⟩ := hinjected.consumed
  rw [callsOf_append, hcalls, hcalls'] at hall
  exact ⟨_, _, _, hinjected, hall, hshows⟩

end Graph

end ScopedFlow
