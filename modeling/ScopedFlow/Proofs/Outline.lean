import ScopedFlow.Proofs.Openings
import ScopedFlow.Proofs.Units

/-!
# The outline of a text

Each line of a text comes with the node that it is for. In a graph whose worlds are nested and whose
clauses are chained, no line is written twice, the header of each block stands right above its body,
and each clause right behind its predecessor.
-/

namespace ScopedFlow

inductive LineRole where
  /-- The statement or the header that a node is. -/
  | own (id : NodeId)
  /-- The `pass` in an empty body. -/
  | filler (owner : NodeId)
  /-- The `finally` behind a `try` without handlers, and what stands under it. -/
  | closing (owner : NodeId)
  | closed (owner : NodeId)
  deriving DecidableEq, Repr

def LineRole.id : LineRole → NodeId
  | .own id | .filler id | .closing id | .closed id => id

structure OutlineLine where
  role : LineRole
  line : CodeLine
  deriving DecidableEq, Repr

namespace Outline

/-- The same lines so much deeper. -/
def deepen (depth : Nat) (ls : List OutlineLine) : List OutlineLine :=
  ls.map fun l => { l with line := { l.line with depth := l.line.depth + depth } }

def lines (ls : List OutlineLine) : List CodeLine := ls.map OutlineLine.line

def roles (ls : List OutlineLine) : List LineRole := ls.map OutlineLine.role

def orFiller (owner : NodeId) (ls : List OutlineLine) : List OutlineLine :=
  if ls.isEmpty then [⟨.filler owner, ⟨0, "pass"⟩⟩] else ls

@[simp] theorem deepen_append (depth : Nat) (xs ys : List OutlineLine) :
    deepen depth (xs ++ ys) = deepen depth xs ++ deepen depth ys := List.map_append

@[simp] theorem deepen_deepen (d e : Nat) (xs : List OutlineLine) :
    deepen d (deepen e xs) = deepen (e + d) xs := by
  simp [deepen, Function.comp_def, Nat.add_assoc]

@[simp] theorem deepen_zero (xs : List OutlineLine) : deepen 0 xs = xs := List.map_id' _

@[simp] theorem roles_append (xs ys : List OutlineLine) : roles (xs ++ ys) = roles xs ++ roles ys :=
  List.map_append

@[simp] theorem roles_deepen (depth : Nat) (xs : List OutlineLine) :
    roles (deepen depth xs) = roles xs := by
  simp [roles, deepen, Function.comp_def]

@[simp] theorem lines_append (xs ys : List OutlineLine) : lines (xs ++ ys) = lines xs ++ lines ys :=
  List.map_append

/-- Lines that stand together in others, at some depth. -/
def Occurs (xs ls : List OutlineLine) : Prop :=
  ∃ front depth back, ls = front ++ deepen depth xs ++ back

theorem Occurs.trans {xs ys zs : List OutlineLine} (h : Occurs xs ys) (h' : Occurs ys zs) :
    Occurs xs zs := by
  obtain ⟨front, depth, back, rfl⟩ := h
  obtain ⟨front', depth', back', rfl⟩ := h'
  refine ⟨front' ++ deepen depth' front, depth + depth', deepen depth' back ++ back', ?_⟩
  simp

theorem Occurs.of_append {xs ls : List OutlineLine} (front back : List OutlineLine)
    (h : ls = front ++ xs ++ back) : Occurs xs ls := ⟨front, 0, back, by rw [h, deepen_zero]⟩

end Outline

namespace Graph
open Outline

def ownLines (g : Graph) (style : CodeStyle) (n : Node) : List OutlineLine :=
  (g.lineOf style n).lines.map (⟨.own n.id, ·⟩)

/-- A `try` without handlers is closed by an empty `finally`. -/
def closingLines (g : Graph) (n : Node) : List OutlineLine :=
  if n.kind = .tryBlock ∧ g.handlersOf n.id = [] then
    [⟨.closing n.id, ⟨0, "finally:"⟩⟩, ⟨.closed n.id, ⟨1, "pass"⟩⟩]
  else []

def blockLines (g : Graph) (style : CodeStyle) (body : NodeId → List OutlineLine) (n : Node) :
    List OutlineLine :=
  g.ownLines style n ++ deepen 1 (body n.id)

def unitLines (g : Graph) (style : CodeStyle) (body : NodeId → List OutlineLine) (n : Node) :
    List OutlineLine :=
  if n.kind.ownsWorld then g.blockLines style body n ++ g.closingLines n else g.ownLines style n

def worldLines (g : Graph) (style : CodeStyle) (body : NodeId → List OutlineLine) (w : World) :
    List OutlineLine :=
  (g.unitsIn w).flatMap (g.unitLines style body)

/-- The body of a node. The bodies in it belong to later nodes. -/
def bodyLines (g : Graph) (style : CodeStyle) (owner : NodeId) : List OutlineLine :=
  orFiller owner (g.worldLines style
    (fun id => if g.ids.idxOf owner < g.ids.idxOf id then g.bodyLines style id else [])
    (.body owner))
termination_by g.ids.length - g.ids.idxOf owner
decreasing_by
  have hle : g.ids.idxOf id ≤ g.ids.length := List.idxOf_le_length
  omega

/-- The whole text: the imports, then the module. -/
def outline (g : Graph) (style : CodeStyle) : List OutlineLine :=
  (g.nodesIn .imports).map (fun n => ⟨.own n.id, ⟨0, n.label⟩⟩) ++
    g.worldLines style (g.bodyLines style) .root

end Graph

def Code.linesOf (c : Option Code) : List CodeLine := (c.map Code.lines).getD []

theorem Code.lines_of_concat {xs : List (Option Code)} {c : Code} (h : Code.concat xs = some c) :
    c.lines = xs.flatMap Code.linesOf := by
  induction xs generalizing c with
  | nil =>
    obtain rfl := Option.some.inj h
    rfl
  | cons x xs ih =>
    cases x with
    | none => cases h
    | some d =>
      obtain ⟨rest, hrest, rfl⟩ := Option.map_eq_some_iff.mp h
      rw [List.flatMap_cons, ← ih hrest]
      rfl

theorem Code.of_concat {xs : List (Option Code)} {c : Code} (h : Code.concat xs = some c) :
    ∀ x ∈ xs, ∃ d, x = some d := by
  intro x hx
  have hsome := Code.concat_isSome_iff.mp (by rw [h]; rfl) x hx
  exact Option.isSome_iff_exists.mp hsome

namespace Graph
open Outline

variable {g : Graph} {style : CodeStyle} {w : World} {r : LineRole}

/-- Lines that the bodies have are those of the outline. -/
def Outlines (body : NodeId → Option Code) (sheet : NodeId → List OutlineLine) (b : NodeId) : Prop :=
  ∀ code, body b = some code → code.lines = lines (sheet b)

section Assembled

variable {body : NodeId → Option Code} {sheet : NodeId → List OutlineLine} {n : Node} {c : Code}

theorem lines_ownLines (g : Graph) (style : CodeStyle) (n : Node) :
    lines (g.ownLines style n) = (g.lineOf style n).lines := by
  rw [lines, ownLines, List.map_map]
  exact List.map_id' _

theorem lines_headed (h : headed (g.lineOf style n) (body n.id) = some c)
    (hb : Outlines body sheet n.id) : c.lines = lines (g.blockLines style sheet n) := by
  obtain ⟨b, hbody, rfl⟩ := Option.map_eq_some_iff.mp h
  rw [blockLines, lines_append, lines_ownLines, Code.append, Code.nest, hb b hbody]
  simp [lines, deepen, Function.comp_def]

theorem ownsWorld_of_isClause (h : n.payload.isClause = true) : n.kind.ownsWorld = true := by
  obtain ⟨id, label, world, payload⟩ := n
  cases payload with
  | elifBlock | elseBlock | exceptBlock _ _ => rfl
  | _ => cases h

theorem unitLines_clause (h : n.payload.isClause = true) :
    g.unitLines style sheet n = g.blockLines style sheet n := by
  have hkind : n.kind ≠ .tryBlock := by
    intro hk
    rw [not_clause_of_head (.inr hk)] at h
    cases h
  rw [unitLines, if_pos (ownsWorld_of_isClause h), closingLines, if_neg fun hc => hkind hc.1,
    List.append_nil]

theorem lines_clauseFrom {c : Node} (hc : c.payload.isClause = true) {d : Code}
    (h : clauseFrom (g.lineOf style) body c = some d) (hb : Outlines body sheet c.id) :
    d.lines = lines (g.unitLines style sheet c) := by
  rw [unitLines_clause hc]
  obtain ⟨id, label, world, payload⟩ := c
  cases payload with
  | elifBlock | elseBlock | exceptBlock _ _ => exact lines_headed h hb
  | _ => cases hc

theorem lines_pieces {α : Type} {xs : List α} {f : α → Option Code} {s : α → List OutlineLine}
    (h : Code.concat (xs.map f) = some c) (hs : ∀ x ∈ xs, ∀ d, f x = some d → d.lines = lines (s x)) :
    c.lines = lines (xs.flatMap s) := by
  rw [Code.lines_of_concat h, lines, List.map_flatMap, List.flatMap_map]
  refine List.flatMap_congr fun x hx => ?_
  obtain ⟨d, hd⟩ := Code.of_concat h (f x) (List.mem_map_of_mem hx)
  rw [hd]
  exact hs x hx d hd

theorem lines_clauses {cs : List Node} (hcs : ∀ c ∈ cs, c.payload.isClause = true) {d : Code}
    (h : Code.concat (cs.map (clauseFrom (g.lineOf style) body)) = some d)
    (hb : ∀ c ∈ cs, Outlines body sheet c.id) :
    d.lines = lines (cs.flatMap (g.unitLines style sheet)) :=
  lines_pieces h fun c hc _ hd => lines_clauseFrom (hcs c hc) hd (hb c hc)

theorem unitLines_block (ho : n.kind.ownsWorld = true) (hk : n.kind ≠ .tryBlock) :
    g.unitLines style sheet n = g.blockLines style sheet n := by
  rw [unitLines, if_pos ho, closingLines, if_neg fun hc => hk hc.1, List.append_nil]

theorem lines_block (ho : n.kind.ownsWorld = true) (hk : n.kind ≠ .tryBlock)
    (hunits : g.unitsOf n = [n]) (h : headed (g.lineOf style n) (body n.id) = some c)
    (hself : Outlines body sheet n.id) :
    c.lines = lines ((g.unitsOf n).flatMap (g.unitLines style sheet)) := by
  rw [lines_headed h hself, hunits, List.flatMap_singleton, unitLines_block ho hk]

theorem lines_plain (ho : n.kind.ownsWorld = false) (hunits : g.unitsOf n = [n]) :
    (g.lineOf style n).lines = lines ((g.unitsOf n).flatMap (g.unitLines style sheet)) := by
  rw [hunits, List.flatMap_singleton, unitLines, ho, if_neg Bool.false_ne_true, lines_ownLines]

theorem lines_condition (hk : n.kind = .ifBlock)
    (h : Code.concat (headed (g.lineOf style n) (body n.id) ::
      (g.clausesOf n).map (clauseFrom (g.lineOf style) body)) = some c)
    (hself : Outlines body sheet n.id) (hb : ∀ c ∈ g.clausesOf n, Outlines body sheet c.id) :
    c.lines = lines ((g.unitsOf n).flatMap (g.unitLines style sheet)) := by
  obtain ⟨d, hd⟩ := Code.of_concat h _ List.mem_cons_self
  rw [hd] at h
  obtain ⟨rest, hrest, rfl⟩ := Option.map_eq_some_iff.mp h
  rw [unitsOf_of_not_clause (not_clause_of_head (.inl hk)), List.flatMap_cons, lines_append,
    unitLines_block (by rw [hk]; rfl) (by rw [hk]; simp), ← lines_headed hd hself,
    ← lines_clauses (fun _ => isClause_of_mem_clausesOf) hrest hb]
  rfl

theorem lines_attempt (hk : n.kind = .tryBlock)
    (h : Code.concat [headed (g.lineOf style n) (body n.id),
      if (g.clausesOf n).isEmpty then Code.block (.plain "finally:") (some (.line (.plain "pass")))
      else Code.concat ((g.clausesOf n).map (clauseFrom (g.lineOf style) body))] = some c)
    (hself : Outlines body sheet n.id) (hb : ∀ c ∈ g.clausesOf n, Outlines body sheet c.id) :
    c.lines = lines ((g.unitsOf n).flatMap (g.unitLines style sheet)) := by
  obtain ⟨d, hd⟩ := Code.of_concat h _ List.mem_cons_self
  have howns : n.kind.ownsWorld = true := by rw [hk]; rfl
  have hunits : lines ((g.unitsOf n).flatMap (g.unitLines style sheet)) = d.lines ++
      lines (g.closingLines n) ++ lines ((g.handlersOf n.id).flatMap (g.unitLines style sheet)) := by
    rw [unitsOf_of_not_clause (not_clause_of_head (.inr hk)), List.flatMap_cons, lines_append,
      unitLines, if_pos howns, lines_append, ← lines_headed hd hself, clausesOf_attempt hk]
  rw [clausesOf_attempt hk] at h hb
  rw [Code.lines_of_concat h, hunits, closingLines]
  cases hcs : g.handlersOf n.id with
  | nil =>
    simp [Code.linesOf, hd, hk, Code.block, Code.append, Code.nest, Code.line, Rendered.plain, lines]
  | cons first rest =>
    rw [hcs] at h hb
    obtain ⟨e, he⟩ := Code.of_concat h _ (List.mem_cons_of_mem _ List.mem_cons_self)
    have hclause : ∀ c ∈ first :: rest, c.payload.isClause = true := by
      intro c hc
      exact isClause_of_mem_clausesOf (n := n) (clausesOf_attempt hk ▸ hcs ▸ hc)
    have hrest := lines_clauses hclause he hb
    rw [← hrest, List.flatMap_cons, List.flatMap_cons, he]
    simp [Code.linesOf, hd, lines]

theorem lines_assembled (h : g.assembled (g.lineOf style) body n = some c)
    (hb : ∀ b ∈ g.bodiesOf n, Outlines body sheet b) :
    c.lines = lines ((g.unitsOf n).flatMap (g.unitLines style sheet)) := by
  obtain ⟨id, label, world, payload⟩ := n
  cases payload with
  | functionDef _ | classDef _ | forBlock _ | whileBlock =>
    exact lines_block rfl (by simp [Node.kind, Payload.kind]) rfl h (hb id List.mem_cons_self)
  | ifBlock =>
    have hclauses := (List.forall_mem_cons.mp hb).2
    exact lines_condition rfl h (hb id List.mem_cons_self) (List.forall_mem_map.mp hclauses)
  | tryBlock =>
    have hclauses := (List.forall_mem_cons.mp hb).2
    exact lines_attempt rfl h (hb id List.mem_cons_self) (List.forall_mem_map.mp hclauses)
  | elifBlock | elseBlock | exceptBlock _ _ =>
    obtain rfl := Option.some.inj h
    split <;> rfl
  | _ =>
    obtain rfl := Option.some.inj h
    exact lines_plain rfl rfl

end Assembled

theorem lines_worldCode {body : NodeId → Option Code} {c : Code}
    (h : g.worldCode style body w = some c)
    (hb : ∀ b ∈ g.bodiesIn w, Outlines body (g.bodyLines style) b) :
    c.lines = lines (g.worldLines style (g.bodyLines style) w) := by
  rw [worldCode] at h
  have hlines := lines_pieces h (s := fun n => (g.unitsOf n).flatMap
    (g.unitLines style (g.bodyLines style))) fun n hn d hd => by
      rw [statementCode_eq] at hd
      exact lines_assembled hd fun b hmem => hb b (List.mem_flatMap.mpr ⟨n, hn, hmem⟩)
  rw [hlines, worldLines, unitsIn, List.flatMap_assoc]

namespace WellScoped

variable (hg : g.WellScoped)
include hg

theorem mem_unitsIn {n : Node} (h : n ∈ g.unitsIn w) : n ∈ g.nodes ∧ n.world = w := by
  obtain ⟨m, hm, hmem⟩ := List.mem_flatMap.mp h
  obtain ⟨hmg, hw⟩ := List.mem_filter.mp hm
  have hw : m.world = w := of_decide_eq_true hw
  rcases (mem_unitsOf hmem).2 with rfl | hc
  · exact ⟨hmg, hw⟩
  · obtain ⟨hng, hworld⟩ := clausesOf_world hg.ids hg.clausesLevel hmg hc
    exact ⟨hng, hworld.trans hw⟩

theorem bodyLines_eq (style : CodeStyle) (owner : NodeId) : g.bodyLines style owner =
    orFiller owner (g.worldLines style (g.bodyLines style) (.body owner)) := by
  rw [bodyLines]
  refine congrArg (orFiller owner) (List.flatMap_congr fun n hn => ?_)
  obtain ⟨hng, hw⟩ := hg.mem_unitsIn hn
  have hlater := hg.idxOf_lt hng hw
  simp only [unitLines, blockLines, if_pos hlater]

theorem outlines_bodyCode (style : CodeStyle) (opened : List NodeId) (owner : NodeId) :
    Outlines (g.bodyCode style opened) (g.bodyLines style) owner := by
  induction opened, owner using bodyCode.induct g with
  | case1 opened owner hopen hdec ih =>
    intro code h
    rw [bodyCode, dif_pos hopen] at h
    obtain ⟨c, hc, rfl⟩ := Option.map_eq_some_iff.mp h
    have hlines := lines_worldCode hc fun b _ => ih b
    rw [hg.bodyLines_eq, Code.orPass, orFiller, hlines]
    cases hw : g.worldLines style (g.bodyLines style) (.body owner) with
    | nil => rfl
    | cons l ls => exact hlines.trans (congrArg lines hw)
  | case2 opened owner hclosed =>
    intro code h
    rw [bodyCode, dif_neg hclosed] at h
    cases h

theorem lines_outline {c : Code} (h : g.partCode style .whole = some c) :
    c.lines = lines (g.outline style) := by
  obtain ⟨d, hd, rfl⟩ := Option.map_eq_some_iff.mp h
  have hlines := lines_worldCode hd fun b _ => hg.outlines_bodyCode style [] b
  rw [outline, lines_append, ← hlines, Code.append, importCode]
  simp [lines, Function.comp_def]

theorem body_induction {P : NodeId → Prop}
    (h : ∀ owner, (∀ n ∈ g.unitsIn (.body owner), P n.id) → P owner) (owner : NodeId) : P owner := by
  induction hrank : g.ids.length - g.ids.idxOf owner using Nat.strong_induction_on
    generalizing owner with
  | _ rank ih =>
    refine h owner fun n hn => ih _ ?_ n.id rfl
    obtain ⟨hng, hw⟩ := hg.mem_unitsIn hn
    have hlater := hg.idxOf_lt hng hw
    have hle : g.ids.idxOf n.id < g.ids.length :=
      List.idxOf_lt_length_of_mem (List.mem_map_of_mem hng)
    omega

end WellScoped

/-- A node lives in a world or in a body that is written there. -/
inductive Within (g : Graph) (w : World) : NodeId → Prop where
  | here {n : Node} (mem : n ∈ g.nodes) (world : n.world = w) : Within g w n.id
  | deeper {n : Node} {owner : NodeId} (mem : n ∈ g.nodes) (world : n.world = .body owner)
    (within : Within g w owner) : Within g w n.id

theorem Within.trans {a b : NodeId} (h : g.Within w a) (h' : g.Within (.body a) b) :
    g.Within w b := by
  induction h' with
  | here hn hw => exact .deeper hn hw h
  | deeper hn hw _ ih => exact .deeper hn hw ih

namespace WellScoped

variable (hg : g.WellScoped) {m n : Node} {id : NodeId}
include hg

theorem within_later {a : NodeId} (h : g.Within (.body a) id) : g.ids.idxOf a < g.ids.idxOf id := by
  induction h with
  | here hn hw => exact hg.idxOf_lt hn hw
  | deeper hn hw _ ih => exact Nat.lt_trans ih (hg.idxOf_lt hn hw)

theorem within_cases (hn : n ∈ g.nodes) (h : g.Within w n.id) :
    n.world = w ∨ ∃ owner, n.world = .body owner ∧ g.Within w owner := by
  generalize hid : n.id = id at h
  cases h with
  | here hm hw =>
    obtain rfl := List.inj_on_of_nodup_map hg.ids hn hm hid
    exact .inl hw
  | deeper hm hw h =>
    obtain rfl := List.inj_on_of_nodup_map hg.ids hn hm hid
    exact .inr ⟨_, hw, h⟩

theorem not_within_sibling (hm : m ∈ g.nodes) (hn : n ∈ g.nodes) (hw : m.world = n.world) :
    ¬ g.Within (.body n.id) m.id := by
  intro h
  rcases hg.within_cases hm h with hworld | ⟨owner, hworld, h⟩
  · exact Nat.lt_irrefl _ (hg.idxOf_lt hn (hw ▸ hworld))
  · exact Nat.lt_asymm (hg.within_later h) (hg.idxOf_lt hn (hw ▸ hworld))

theorem within_sibling (hm : m ∈ g.nodes) (hn : n ∈ g.nodes) (hw : m.world = n.world)
    (h : g.Within (.body m.id) id) (h' : g.Within (.body n.id) id) : m = n := by
  have hbodies : ∀ {a b : NodeId}, World.body a = .body b → a = b := World.body.inj
  induction h with
  | @here c hc hworld =>
    rcases hg.within_cases hc h' with hworld' | ⟨owner, hworld', h'⟩
    · exact List.inj_on_of_nodup_map hg.ids hm hn (hbodies (hworld.symm.trans hworld'))
    · obtain rfl := hbodies (hworld.symm.trans hworld')
      exact absurd h' (hg.not_within_sibling hm hn hw)
  | @deeper c owner hc hworld h ih =>
    rcases hg.within_cases hc h' with hworld' | ⟨owner', hworld', h'⟩
    · obtain rfl := hbodies (hworld.symm.trans hworld')
      exact absurd h (hg.not_within_sibling hn hm hw.symm)
    · obtain rfl := hbodies (hworld.symm.trans hworld')
      exact ih h'

end WellScoped

def Under (g : Graph) (n : Node) (id : NodeId) : Prop := id = n.id ∨ g.Within (.body n.id) id

theorem role_ownLines {n : Node} (h : r ∈ roles (g.ownLines style n)) : r = .own n.id := by
  rw [roles, ownLines, List.map_map] at h
  obtain ⟨l, -, rfl⟩ := List.mem_map.mp h
  rfl

theorem role_closingLines {n : Node} (h : r ∈ roles (g.closingLines n)) :
    r = .closing n.id ∨ r = .closed n.id := by
  unfold closingLines at h
  split at h
  · simpa [roles] using h
  · cases h

def BodyRoles (g : Graph) (style : CodeStyle) (owner : NodeId) : Prop :=
  ∀ r ∈ roles (g.bodyLines style owner), r = .filler owner ∨ g.Within (.body owner) r.id

theorem under_unitLines {n : Node} (hb : g.BodyRoles style n.id)
    (h : r ∈ roles (g.unitLines style (g.bodyLines style) n)) : g.Under n r.id := by
  unfold unitLines at h
  split at h
  · rw [blockLines, roles_append, roles_append, roles_deepen] at h
    rcases List.mem_append.mp h with h | h
    · rcases List.mem_append.mp h with h | h
      · rw [role_ownLines h]
        exact .inl rfl
      · rcases hb r h with rfl | hwithin
        · exact .inl rfl
        · exact .inr hwithin
    · rcases role_closingLines h with rfl | rfl
      · exact .inl rfl
      · exact .inl rfl
  · rw [role_ownLines h]
    exact .inl rfl

namespace WellScoped

variable (hg : g.WellScoped) {n : Node}
include hg

theorem within_worldLines (hb : ∀ n ∈ g.unitsIn w, g.BodyRoles style n.id)
    (h : r ∈ roles (g.worldLines style (g.bodyLines style) w)) : g.Within w r.id := by
  rw [roles, worldLines, List.map_flatMap] at h
  obtain ⟨n, hn, hr⟩ := List.mem_flatMap.mp h
  obtain ⟨hng, hw⟩ := hg.mem_unitsIn hn
  have hself : g.Within w n.id := .here hng hw
  rcases under_unitLines (hb n hn) hr with hid | hwithin
  · exact hid ▸ hself
  · exact hself.trans hwithin

theorem bodyRoles (style : CodeStyle) (owner : NodeId) : g.BodyRoles style owner := by
  induction owner using hg.body_induction with
  | h owner ih =>
    intro r hr
    rw [hg.bodyLines_eq, orFiller] at hr
    split at hr
    · exact .inl (List.mem_singleton.mp hr)
    · exact .inr (hg.within_worldLines ih hr)

theorem under_unique {m : Node} {id : NodeId} (hm : m ∈ g.nodes) (hn : n ∈ g.nodes)
    (hw : m.world = n.world) (h : g.Under m id) (h' : g.Under n id) : m = n := by
  rcases h with rfl | h
  · rcases h' with hid | h'
    · exact List.inj_on_of_nodup_map hg.ids hm hn hid
    · exact absurd h' (hg.not_within_sibling hm hn hw)
  · rcases h' with rfl | h'
    · exact absurd h (hg.not_within_sibling hn hm hw.symm)
    · exact hg.within_sibling hm hn hw h h'

end WellScoped

theorem length_ownLines (g : Graph) (style : CodeStyle) (n : Node) :
    (g.ownLines style n).length ≤ 1 := by
  rw [ownLines, List.length_map, lineOf]
  obtain ⟨id, label, world, payload⟩ := n
  unfold lineAround
  cases payload with
  | «variable» v | call site => cases ((g.taken _).map (g.value style)) <;> simp [Code.empty, Code.line]
  | _ => simp [Code.empty, Code.line]

theorem nodup_ownLines (g : Graph) (style : CodeStyle) (n : Node) :
    (roles (g.ownLines style n)).Nodup := by
  have hlen := g.length_ownLines style n
  cases hl : g.ownLines style n with
  | nil => exact List.nodup_nil
  | cons l ls =>
    rw [hl] at hlen
    obtain rfl : ls = [] := List.eq_nil_of_length_eq_zero (by simpa using hlen)
    exact List.nodup_singleton _

theorem nodup_closingLines (g : Graph) (n : Node) : (roles (g.closingLines n)).Nodup := by
  unfold closingLines
  split
  · simp [roles]
  · exact List.nodup_nil

namespace WellScoped

variable (hg : g.WellScoped) {n : Node}
include hg

theorem nodup_unitLines (hb : (roles (g.bodyLines style n.id)).Nodup) :
    (roles (g.unitLines style (g.bodyLines style) n)).Nodup := by
  unfold unitLines
  split
  · rw [blockLines, roles_append, roles_append, roles_deepen]
    have hinside : ∀ r ∈ roles (g.bodyLines style n.id), r = .filler n.id ∨ r.id ≠ n.id := by
      intro r hr
      refine (hg.bodyRoles style n.id r hr).imp_right fun hwithin hid => ?_
      have hlater := hg.within_later hwithin
      rw [hid] at hlater
      exact Nat.lt_irrefl _ hlater
    refine List.nodup_append.mpr ⟨List.nodup_append.mpr ⟨g.nodup_ownLines style n, hb, ?_⟩,
      g.nodup_closingLines n, ?_⟩
    · rintro r hr _ hr' rfl
      obtain rfl := role_ownLines hr
      rcases hinside _ hr' with he | hne
      · cases he
      · exact hne rfl
    · rintro r hr _ hr' rfl
      have hclosing := role_closingLines hr'
      rcases List.mem_append.mp hr with hr | hr
      · obtain rfl := role_ownLines hr
        rcases hclosing with he | he <;> cases he
      · rcases hinside _ hr with rfl | hne
        · rcases hclosing with he | he <;> cases he
        · rcases hclosing with rfl | rfl <;> exact hne rfl
  · exact g.nodup_ownLines style n

variable (hc : g.Chained)
include hc

theorem nodup_worldLines (hb : ∀ n ∈ g.unitsIn w, (roles (g.bodyLines style n.id)).Nodup) :
    (roles (g.worldLines style (g.bodyLines style) w)).Nodup := by
  rw [roles, worldLines, List.map_flatMap]
  refine List.nodup_flatMap.mpr ⟨fun n hn => hg.nodup_unitLines (hb n hn), ?_⟩
  refine (hc.nodup_unitsIn hg.ids w).imp_of_mem ?_
  intro m n hm hn hne r hr hr'
  obtain ⟨hmg, hmw⟩ := hg.mem_unitsIn hm
  obtain ⟨hng, hnw⟩ := hg.mem_unitsIn hn
  exact hne (hg.under_unique hmg hng (hmw.trans hnw.symm)
    (under_unitLines (hg.bodyRoles style m.id) hr) (under_unitLines (hg.bodyRoles style n.id) hr'))

theorem nodup_bodyLines (style : CodeStyle) (owner : NodeId) :
    (roles (g.bodyLines style owner)).Nodup := by
  induction owner using hg.body_induction with
  | h owner ih =>
    rw [hg.bodyLines_eq, orFiller]
    split
    · exact List.nodup_singleton _
    · exact hg.nodup_worldLines hc ih

theorem nodup_outline (style : CodeStyle) : (roles (g.outline style)).Nodup := by
  rw [outline, roles_append]
  refine List.nodup_append.mpr ⟨?_, hg.nodup_worldLines hc fun n _ =>
    hg.nodup_bodyLines hc style n.id, ?_⟩
  · have hnodes : ((g.nodesIn .imports).map Node.id).Nodup :=
      hg.ids.sublist (List.filter_sublist.map Node.id)
    rw [roles, List.map_map]
    have hown : (LineRole.own ∘ Node.id) = OutlineLine.role ∘ fun n =>
        (⟨.own n.id, ⟨0, n.label⟩⟩ : OutlineLine) := rfl
    rw [← hown, ← List.map_map]
    exact hnodes.map fun a b hab => LineRole.own.inj hab
  · rintro r hr _ hr' rfl
    rw [roles, List.map_map] at hr
    obtain ⟨n, hn, rfl⟩ := List.mem_map.mp hr
    obtain ⟨hng, hw⟩ := List.mem_filter.mp hn
    have hw : n.world = .imports := of_decide_eq_true hw
    rcases hg.within_cases hng (hg.within_worldLines (fun m _ => hg.bodyRoles style m.id) hr') with
      hroot | ⟨owner, hbody, -⟩
    · cases hw.symm.trans hroot
    · cases hw.symm.trans hbody

end WellScoped

theorem ownLines_block (g : Graph) (style : CodeStyle) {n : Node} (ho : n.kind.ownsWorld = true) :
    ∃ header, g.ownLines style n = [⟨.own n.id, header⟩] := by
  obtain ⟨id, label, world, payload⟩ := n
  cases payload with
  | functionDef _ | classDef _ | ifBlock | elifBlock | elseBlock | forBlock _ | whileBlock
  | tryBlock | exceptBlock _ _ => exact ⟨_, rfl⟩
  | _ => cases ho

theorem occurs_units (style : CodeStyle) (front ns back : List Node)
    (h : g.unitsIn w = front ++ ns ++ back) :
    Occurs (ns.flatMap (g.unitLines style (g.bodyLines style)))
      (g.worldLines style (g.bodyLines style) w) := by
  rw [worldLines, h, List.flatMap_append, List.flatMap_append]
  exact .of_append _ _ rfl

theorem occurs_body {n : Node} (ho : n.kind.ownsWorld = true) :
    Occurs (g.bodyLines style n.id) (g.unitLines style (g.bodyLines style) n) := by
  rw [unitLines, if_pos ho, blockLines]
  exact ⟨g.ownLines style n, 1, g.closingLines n, rfl⟩

namespace WellScoped

variable (hg : g.WellScoped) (hc : g.Chained) {n : Node}
include hg hc

theorem occurs_unit (style : CodeStyle) (hn : n ∈ g.nodes) :
    Occurs (g.unitLines style (g.bodyLines style) n)
      (g.worldLines style (g.bodyLines style) n.world) := by
  have hmem : n ∈ g.unitsIn n.world := (hc.mem_unitsIn_iff hg.ids hg.clausesLevel).mpr
    (List.mem_filter.mpr ⟨hn, by simp⟩)
  obtain ⟨front, back, hsplit⟩ := List.append_of_mem hmem
  have hunits := occurs_units style front [n] back (hsplit.trans (by simp))
  rwa [List.flatMap_singleton] at hunits

theorem occurs_world (hn : n ∈ g.nodes) (ho : n.kind.ownsWorld = true) :
    Occurs (g.worldLines style (g.bodyLines style) n.world) (g.outline style) := by
  induction hrank : g.ids.idxOf n.id using Nat.strong_induction_on generalizing n with
  | _ rank ih =>
    cases hw : n.world with
    | root => exact .of_append _ [] (List.append_nil _).symm
    | imports =>
      rw [(hg.tidy n hn).mpr hw] at ho
      cases ho
    | body owner =>
      obtain ⟨before, after, hsplit⟩ := List.append_of_mem hn
      have hopened := hg.nested before n after hsplit
      rw [hw] at hopened
      obtain ⟨d, hd, hdo, rfl⟩ := hopened
      have hdg : d ∈ g.nodes := hsplit ▸ List.mem_append_left _ hd
      have hbody : g.bodyLines style d.id =
          g.worldLines style (g.bodyLines style) (.body d.id) := by
        obtain ⟨front, depth, back, hunit⟩ := hg.occurs_unit hc style hn
        obtain ⟨header, hheader⟩ := g.ownLines_block style ho
        rw [hg.bodyLines_eq, orFiller, ← hw, hunit, unitLines, if_pos ho, blockLines, hheader]
        simp [deepen]
      have hlt := hg.idxOf_lt hn hw
      have houter := ih _ (hrank ▸ hlt) hdg hdo rfl
      rw [← hbody]
      exact (occurs_body hdo).trans ((hg.occurs_unit hc style hdg).trans houter)

end WellScoped

theorem unitLines_leading {n : Node} (h : g.Leading n) :
    g.unitLines style (g.bodyLines style) n = g.blockLines style (g.bodyLines style) n := by
  rw [unitLines, if_pos h.1, closingLines, if_neg fun hn => h.2 hn.1 hn.2, List.append_nil]

/-- A text in which every block of a graph is written once. -/
structure Linearized (g : Graph) (style : CodeStyle) (ls : List OutlineLine) : Prop where
  /-- No line is written twice. -/
  once : (roles ls).Nodup
  /-- Every block has its header with its body under it. -/
  block : ∀ n ∈ g.nodes, n.kind.ownsWorld = true → ∃ header body,
    (g.lineOf style n).lines = [header] ∧ g.bodyCode style [] n.id = some body ∧
    lines (g.bodyLines style n.id) = body.lines ∧
    Occurs (⟨.own n.id, header⟩ :: deepen 1 (g.bodyLines style n.id)) ls
  /-- Every clause with its body is written right behind its predecessor. -/
  clause : ∀ c ∈ g.nodes, c.payload.isClause = true → ∃ m ∈ g.nodes, g.Precedes m c ∧
    Occurs (g.blockLines style (g.bodyLines style) m ++ g.blockLines style (g.bodyLines style) c) ls

namespace WellScoped

theorem bodyCode_isSome (hg : g.WellScoped) (style : CodeStyle) {n : Node} (hn : n ∈ g.nodes)
    (ho : n.kind.ownsWorld = true) : (g.bodyCode style [] n.id).isSome = true := by
  have hpart := (g.partCode_isSome_iff style (.node n.id)).mp (hg.partCode_isSome style _)
  refine hpart n.id ?_
  rw [topBodies, lookup_of_mem hg.ids hn]
  obtain ⟨id, label, world, payload⟩ := n
  cases payload with
  | functionDef _ | classDef _ | ifBlock | elifBlock | elseBlock | forBlock _ | whileBlock
  | tryBlock | exceptBlock _ _ => exact List.mem_cons_self
  | _ => cases ho

theorem linearized (hg : g.WellScoped) (hc : g.Chained) (style : CodeStyle) :
    g.Linearized style (g.outline style) where
  once := hg.nodup_outline hc style
  block n hn ho := by
    obtain ⟨header, hheader⟩ := g.ownLines_block style ho
    have hline : (g.lineOf style n).lines = [header] := by
      rw [← lines_ownLines, hheader]
      rfl
    obtain ⟨body, hbody⟩ := Option.isSome_iff_exists.mp (hg.bodyCode_isSome style hn ho)
    refine ⟨header, body, hline, hbody, (hg.outlines_bodyCode style [] n.id body hbody).symm, ?_⟩
    have hunit : Occurs (⟨.own n.id, header⟩ :: deepen 1 (g.bodyLines style n.id))
        (g.unitLines style (g.bodyLines style) n) := by
      rw [unitLines, if_pos ho, blockLines, hheader]
      exact .of_append [] (g.closingLines n) rfl
    exact hunit.trans ((hg.occurs_unit hc style hn).trans (hg.occurs_world hc hn ho))
  clause c hcg hk := by
    obtain ⟨m, hm, hprecedes, hleading, front, back, hunits⟩ := hc.exists_predecessor hg.ids hcg hk
    refine ⟨m, hm, hprecedes, ?_⟩
    have hpair := occurs_units style front [m, c] back (hunits.trans (by simp))
    rw [List.flatMap_cons, List.flatMap_singleton, unitLines_clause hk,
      unitLines_leading hleading] at hpair
    exact hpair.trans (hg.occurs_world hc hcg (ownsWorld_of_isClause hk))

end WellScoped

end Graph

end ScopedFlow
