import ScopedFlow.Proofs.Frame
import ScopedFlow.Proofs.Quotation

/-!
# Slots of calls

A slot gets its text in one of three ways: the literal that is wired to it is relabelled, another
input is replaced by a literal in its place, or a literal is wired by keyword. In each of them a
literal with the text feeds the slot.
-/

namespace ScopedFlow

namespace Graph

theorem nodup_ids_append {g g' : Graph} {new : List Node} (hids : g.ids.Nodup)
    (hnodes : g'.nodes = g.nodes ++ new) (hnew : (new.map (·.id)).Nodup)
    (hfresh : ∀ n ∈ new, n.id ∉ g.ids) : g'.ids.Nodup := by
  rw [ids, hnodes, List.map_append]
  apply List.Nodup.append hids hnew
  intro id hold hid
  obtain ⟨n, hn, rfl⟩ := List.mem_map.mp hid
  exact hfresh n hn hold

theorem value_literal {g : Graph} (hids : g.ids.Nodup) {m : Node} (hm : m ∈ g.nodes)
    (hk : m.payload = .literal) (style : CodeStyle) :
    g.value style m.id = .plain (Literal.text m.label) := by
  rw [value, resolve_node (lookup_of_mem hids hm) (List.not_mem_nil), renderNode, hk]

end Graph

namespace Workspace

open ScopedFlow.Graph

variable {s : Workspace} {n : Node} {slot text : String}

/-- The edge that is taken for the input of a slot: the first one of the slot's name or position. -/
def slotEdge? (s : Workspace) (n : Node) (slot : String) : Option Edge :=
  (s.graph.edgesTo n.id).find? fun e => isSlot slot (Param.positionalSlot n.params slot) e.kind

theorem isSlot_of_slotEdge? {e : Edge} (h : s.slotEdge? n slot = some e) :
    isSlot slot (Param.positionalSlot n.params slot) e.kind = true := by
  have hfound := List.find?_some h
  exact hfound

/-- The ways in which a slot of a call gets a text, and the edge that brings it. -/
inductive Fed (s : Workspace) (n : Node) (slot text : String) : Edge → Workspace → Prop where
  | relabelled {e : Edge} {m : Node} (found : s.slotEdge? n slot = some e)
    (literal : s.graph.nodeOfKind? e.source .literal = some m) :
    Fed s n slot text e (s.mapGraph fun g => g.updateLiteral e.source text)
  | replaced {e : Edge} (found : s.slotEdge? n slot = some e)
    (other : s.graph.nodeOfKind? e.source .literal = none) :
    Fed s n slot text ⟨Supply.idOf .literal s.supply.next, n.id, e.kind⟩
      ((s.mapGraph fun g => g.removeEdges e.source n.id (some e.kind)).insertLiteral text n.world n.id
        e.kind)
  | added (free : s.slotEdge? n slot = none) :
    Fed s n slot text ⟨Supply.idOf .literal s.supply.next, n.id, .keyword slot⟩
      (s.insertLiteral text n.world n.id (.keyword slot))

theorem setSlot_fed (hcall : s.graph.nodeOfKind? n.id .call = some n) (slot value : String) :
    ∃ e, Fed s n slot (unquote value) e (s.setSlot n.id slot value) := by
  unfold setSlot
  simp only [hcall]
  split
  · rename_i hnone
    exact ⟨_, .added hnone⟩
  · rename_i e he
    split
    · rename_i hlit
      obtain ⟨m, hm⟩ := Option.isSome_iff_exists.mp hlit
      exact ⟨e, .relabelled he hm⟩
    · rename_i hlit
      exact ⟨_, .replaced he (Option.not_isSome_iff_eq_none.mp hlit)⟩

namespace Fed

variable {e : Edge} {s' : Workspace}

theorem isSlot_kind (h : Fed s n slot text e s') :
    isSlot slot (Param.positionalSlot n.params slot) e.kind = true := by
  cases h with
  | relabelled found _ => exact isSlot_of_slotEdge? found
  | @replaced old found _ => exact isSlot_of_slotEdge? (e := old) found
  | added _ => exact decide_eq_true rfl

theorem mem_edgesTo (h : Fed s n slot text e s') : e ∈ s'.graph.edgesTo n.id := by
  cases h with
  | relabelled found _ => exact List.mem_of_find?_eq_some found
  | replaced _ _ => exact List.mem_filter.mpr ⟨mem_addEdge .., decide_eq_true rfl⟩
  | added _ => exact List.mem_filter.mpr ⟨mem_addEdge .., decide_eq_true rfl⟩

variable (hids : s.graph.ids.Nodup)
include hids

theorem nodes_relabelled {source : NodeId} :
    (s.graph.updateLiteral source text).nodes =
      s.graph.nodes.map fun m => if m.id = source then setLabel text m else m :=
  nodes_modifyNode hids source (setLabel text)

theorem exists_literal (h : Fed s n slot text e s') :
    ∃ m ∈ s'.graph.nodes, m.id = e.source ∧ m.payload = .literal ∧ m.label = text := by
  cases h with
  | @relabelled _ m _ literal =>
    obtain ⟨hm, hkind⟩ := Option.filter_eq_some_iff.mp literal
    have hkind : m.kind = .literal := of_decide_eq_true hkind
    have hid : m.id = e.source := id_eq_of_node? hm
    refine ⟨{ m with label := text }, ?_, hid, ?_, rfl⟩
    · have hmap : { m with label := text } = if m.id = e.source then setLabel text m else m := by
        rw [if_pos hid, setLabel, if_pos hkind]
      rw [hmap]
      exact (nodes_relabelled hids).symm ▸ List.mem_map_of_mem (List.mem_of_find?_eq_some hm)
    · cases hp : m.payload with
      | literal => rfl
      | _ => rw [Node.kind, hp] at hkind; cases hkind
  | replaced _ _ =>
    refine ⟨⟨_, text, n.world, .literal⟩, ?_, rfl, rfl, rfl⟩
    rw [nodes_insertLiteral]
    exact List.mem_append_right _ List.mem_cons_self
  | added _ =>
    refine ⟨⟨_, text, n.world, .literal⟩, ?_, rfl, rfl, rfl⟩
    rw [nodes_insertLiteral]
    exact List.mem_append_right _ List.mem_cons_self

theorem ids_nodup (hfresh : ∀ id ∈ s.graph.ids, s.supply.Spent id) (h : Fed s n slot text e s') :
    s'.graph.ids.Nodup := by
  have hnew {g : Graph} {m : Node} (hnodes : g.nodes = s.graph.nodes ++ [m])
      (hid : m.id = Supply.idOf .literal s.supply.next) : g.ids.Nodup := by
    apply nodup_ids_append hids hnodes (List.nodup_singleton _)
    intro n hn
    rw [List.mem_singleton.mp hn, hid]
    exact not_mem_ids hfresh (Nat.le_refl _) .literal
  cases h with
  | relabelled _ _ =>
    have hsame := (relabels_updateLiteral hids e.source text).ids
    exact hsame ▸ hids
  | replaced _ _ => exact hnew (nodes_insertLiteral (s.mapGraph _) ..) rfl
  | added _ => exact hnew (nodes_insertLiteral ..) rfl

theorem value_source (hfresh : ∀ id ∈ s.graph.ids, s.supply.Spent id) (h : Fed s n slot text e s')
    (style : CodeStyle) : s'.graph.value style e.source = .plain (Literal.text text) := by
  obtain ⟨m, hm, hid, hp, rfl⟩ := h.exists_literal hids
  rw [← hid, value_literal (h.ids_nodup hids hfresh) hm hp]

end Fed

end Workspace

def between (mark : Char) (text : String) : String := String.ofList (mark :: (text.toList ++ [mark]))

theorem unquote_between {mark : Char} (hmark : Literal.isQuoteMark mark = true) (text : String) :
    unquote (between mark text) = text := by
  have hblank : Text.isBlank mark = false := by
    rcases (Bool.or_eq_true _ _).mp hmark with h | h <;> rw [beq_iff_eq.mp h] <;> decide
  have htrim : Text.trimChars (mark :: (text.toList ++ [mark])) = mark :: (text.toList ++ [mark]) :=
    Text.trimChars_of_trimmed (Literal.trimmed_between hblank _)
  have hquote : (mark == '"' || mark == '\'') = true := by
    rw [Bool.or_comm]
    exact hmark
  rw [unquote, between, String.toList_ofList, htrim]
  have hlast : (text.toList ++ [mark]).getLast? = some mark := List.getLast?_concat
  simp only [hquote, hlast, List.dropLast_concat, decide_true, Bool.and_true, if_true,
    String.ofList_toList]

namespace Workspace

open ScopedFlow.Graph ScopedFlow.Literal

/-- A slot that is set to a text in quotation marks gets a literal with the text. The literal is
written as a string of that value exactly if the text is no constant and no number, and otherwise as
that constant or number. -/
theorem setSlot_quoted {s : Workspace} (hids : s.graph.ids.Nodup)
    (hfresh : ∀ id ∈ s.graph.ids, s.supply.Spent id) {n : Node}
    (hcall : s.graph.nodeOfKind? n.id .call = some n) (slot : String) {mark : Char}
    (hmark : isQuoteMark mark = true) {text : String}
    (htext : ∀ c ∈ text.toList, c ∉ ['\'', '"', '\\', '\n', '\r']) (style : CodeStyle) :
    let after := (s.setSlot n.id slot (between mark text)).graph
    ∃ e ∈ after.edgesTo n.id, isSlot slot (Param.positionalSlot n.params slot) e.kind = true ∧
      (∃ m ∈ after.nodes, m.id = e.source ∧ m.payload = .literal ∧ m.label = text) ∧
      (after.value style e.source).defects = [] ∧
      (stringValue (after.value style e.source).text = some text ↔ isPlain text = false) ∧
      (isPlain text = true → (after.value style e.source).text = Text.trim text) := by
  intro after
  obtain ⟨e, hfed⟩ := setSlot_fed hcall slot (between mark text)
  rw [unquote_between hmark] at hfed
  have hmarks : ∀ c ∈ text.toList, isQuoteMark c = false := by
    intro c hc
    apply Bool.eq_false_iff.mpr
    intro hq
    rcases (Bool.or_eq_true _ _).mp hq with h | h <;>
      exact htext c hc (by rw [beq_iff_eq.mp h]; decide)
  have hreturn : '\r' ∉ text.toList := fun hc => htext _ hc (by decide)
  have hvalue : after.value style e.source = ⟨Literal.text text, []⟩ :=
    hfed.value_source hids hfresh style
  refine ⟨e, hfed.mem_edgesTo, hfed.isSlot_kind, hfed.exists_literal hids, ?_⟩
  rw [hvalue]
  dsimp only
  refine ⟨rfl, stringValue_text_iff hmarks hreturn, ?_⟩
  intro hplain
  rw [text_unmarked hmarks, if_pos hplain]

/-- The digit one in quotation marks becomes the number. -/
theorem setSlot_quoted_number :
    ∃ (s : Workspace) (n : Node), n.label = "f" ∧
      let after := (s.setSlot n.id "a" (between '"' "1")).graph
      ∃ e ∈ after.edgesTo n.id, isSlot "a" (Param.positionalSlot n.params "a") e.kind = true ∧
        (∃ m ∈ after.nodes, m.id = e.source ∧ m.payload = .literal ∧ m.label = "1") ∧
        (after.value .default e.source).defects = [] ∧
        (stringValue (after.value .default e.source).text = some "1" ↔ isPlain "1" = false) ∧
        (isPlain "1" = true → (after.value .default e.source).text = Text.trim "1") := by
  let module : List Stmt :=
    [.function "f" [.required "a"] [.skip], .eval (.call "f" [.positional (.literal "0")])]
  let parsed : Workspace := ⟨(build ⟨0⟩ module).1.link.1, (build ⟨0⟩ module).2⟩
  let n : Node := ⟨Supply.idOf .call 2, "f", .root,
    .call { CallSite.function with target := some (.body (Supply.idOf .functionDef 0)), params := [.required "a"] }⟩
  have hsource : ofSourceLinked ⟨0⟩ "def f(a):\n    pass\nf(0)\n" =
      .ok (parsed.graph, parsed.supply) := by
    decide +kernel
  have hreached : Reached 0 parsed.graph parsed.supply := .parsed hsource
  have hcall : parsed.graph.nodeOfKind? n.id .call = some n := by decide +kernel
  have htext : ∀ c ∈ "1".toList, c ∉ ['\'', '"', '\\', '\n', '\r'] := by simp
  exact ⟨parsed, n, rfl, setSlot_quoted hreached.consistent.ids
    (List.forall_mem_map.mpr hreached.sound.spent) hcall "a" rfl htext .default⟩

end Workspace

end ScopedFlow
