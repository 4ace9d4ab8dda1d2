import ScopedFlow.Proofs.Callee
import ScopedFlow.Proofs.Display
import ScopedFlow.Proofs.Faithful
import ScopedFlow.Proofs.Lines
import ScopedFlow.Proofs.Naming

/-!
# Expressions in their places

What an expression reads and wires stands in a known part of the text, so the text of its node comes
from the texts of its parts. A part that may be missing is written with a defect; parts in a row, of
which none may be missing, are all written.
-/

namespace ScopedFlow

namespace Steps

/-- What may be written for a name without a binding. A placeholder with a defect stands for an
operand, the text of the header for the expression of a header; elsewhere nothing is written. -/
def Tolerates (L : Likeness) (c : Prop) (all : List Step) (name : String) (port : Port) : Prop :=
  match port.kind with
  | .operand _ | .attributeValue | .accessValue | .accessKey => ¬ c
  | .iteratesOn => ¬ c ∧ ∀ text, L.header name text (Text.trim text)
  | .input =>
    match (sketches all)[port.target]?.map Sketch.content with
    | some (.plain (.exceptBlock (some text) _)) => L.header name text text
    | some (.plain .returnStmt) => False
    | _ => ¬ c ∧ ∀ text, L.header name text (Text.trim text)
  | _ => False

/-- The arguments of a call fit its parameters and may be written in their order. If `c` holds, no
required one is missing. -/
structure Suits (L : Likeness) (c : Prop) (params : List Param) (args : List Arg) : Prop where
  distinct : ((Given.keywords (Arg.givens args)).map Prod.fst).Nodup
  takes : Param.Takes (¬ c) ((Given.keywords (Arg.givens args)).map Prod.fst)
    (Param.hasSlash params) (Given.positional (Arg.givens args)).length params
  order : L.arguments args ((Given.arranged (Param.byKeyword (Param.hasSlash params) params)
    (Arg.givens args)).map Given.arg)

/-- Every name, literal and call of a text may be written as it is. If `c` holds, nothing is
missing. -/
structure Sound (L : Likeness) (c : Prop) (all : List Step) : Prop where
  name : ∀ {before after : List Step} {name : String} {w : Place} {outer : List Place} {port : Port}
    {o : Origin}, all = before ++ .read name w outer port :: after →
    resolve before (w :: outer) name = some o → L.name name (shownName all w o name)
  unbound : ∀ {before after : List Step} {name : String} {w : Place} {outer : List Place}
    {port : Port}, all = before ++ .read name w outer port :: after →
    resolve before (w :: outer) name = none → Tolerates L c all name port
  literal : ∀ sketch ∈ sketches all, sketch.content = .plain .literal →
    L.literal sketch.label (Literal.text sketch.label)
  call : ∀ {before after : List Step} {w : Place} {label : String} {isMethod : Bool}
    {args : List Arg}, all = before ++ .node ⟨w, label, .call isMethod args⟩ :: after →
    Suits L c (boundParams all (openPath before) isMethod label (Given.suggested (Arg.givens args)))
      args

theorem not_named {all : List Step} {k : Nat} {sketch : Sketch}
    (hs : (sketches all)[k]? = some sketch) (hn : (sketch.content.payload 0).isName = false) :
    ¬ Named all k := by
  rintro ⟨other, name, ho, hb⟩
  obtain rfl := Option.some.inj (hs.symm.trans ho)
  have hname := Payload.Binds.isName hb
  rw [hn] at hname
  cases hname

namespace Located

variable {all before after rest : List Step} {w : Place} {outer : List Place} {k : Nat}
  {label : String} {content : Content} {port : Option Port}

theorem lt_count {ss : List Step} (h : Located all before ss after k) (hs : 0 < count ss) :
    k < count all := by
  rw [h.text, count_append, count_append, h.number]
  omega

theorem node_place (h : Located all before (place w label content k port ++ rest) after k) :
    ∃ back, all = before ++ .node ⟨w, label, content⟩ :: back := by
  cases port with
  | none => exact ⟨rest ++ after, by simp [h.text, place]⟩
  | some port => exact ⟨.wire k port :: rest ++ after, by simp [h.text, place]⟩

theorem sketch_place (h : Located all before (place w label content k port ++ rest) after k) :
    (sketches all)[k]? = some ⟨w, label, content⟩ := by
  obtain ⟨back, hall⟩ := h.node_place
  rw [hall, ← h.number]
  exact sketch_here ..

theorem behind_place (h : Located all before (place w label content k port ++ rest) after k) :
    Located all (before ++ place w label content k port) rest after (k + 1) := by
  have hr := h.right
  rwa [count_place] at hr

theorem inputs_place (h : Located all before (place w label content k port ++ rest) after k)
    (hw : WellFormed all) (hp : ∀ p ∈ port, p.target < k) : inputs k (links all) =
      inputs k (collect joins (before ++ place w label content k port) rest) := by
  have hspan : Span k (count (place w label content k port ++ rest)) k :=
    .self k (by rw [count_append, count_place]; omega)
  have hnone : (port.toList.filterMap fun p =>
      if p.target = k then some (Ref.node k, p.kind) else none) = [] := by
    refine List.filterMap_eq_nil_iff.mpr fun p hm => if_neg ?_
    have := hp p (Option.mem_toList.mp hm)
    omega
  rw [h.inputs_eq hw hspan, collect_append, inputs_append, Steps.inputs_place, hnone,
    List.nil_append]

theorem before_local {ss ts : List Step} (h : Located all before (ss ++ ts) after k)
    (hw : WellFormed all) (path : openPath before = w :: outer) {target : Option Nat} {k' m : Nat}
    (ho : ∀ n ∈ target, n < k) (ht : Local w target k' m ts) (hk : k + count ss ≤ k') :
    Located all before ss (ts ++ after) k := by
  have hbelow : w.Below k :=
    h.number ▸ (h.wellFormed_before hw).below_path (by simp [path])
  exact h.left (ht.away hbelow (fun j hj => .inl (ho j hj)) hk)

theorem tolerates {L : Likeness} {c : Prop} {port : Port} {e : Expr}
    (h : Located all before (expr w outer (some port) k e) after k) (hs : Sound L c all)
    (he : e.isPlain = true) (hr : root before w outer k e = none) :
    ∃ name, e = .name name ∧ Tolerates L c all name port := by
  cases e with
  | name id =>
    have hall : all = before ++ .read id w outer port :: after := by
      rw [h.text, expr, List.append_assoc]
      rfl
    exact ⟨id, rfl, hs.unbound hall (Option.map_eq_none_iff.mp hr)⟩
  | unsupported => cases he
  | _ => cases hr

end Located

section Rows

variable {w : Place} {outer : List Place}

/-- Expressions in a row, each wired into the node `owner` in its own way. -/
def row (w : Place) (outer : List Place) (owner : Nat) : Nat → List (Expr × EdgeKind) → List Step
  | _, [] => []
  | k, (e, kind) :: ps =>
    let first := expr w outer (some ⟨owner, kind⟩) k e
    first ++ row w outer owner (k + count first) ps

theorem feeds_row (owner k : Nat) (ps : List (Expr × EdgeKind)) :
    Feeds w outer (fun _ => True) (some owner) k (row w outer owner k ps) := by
  induction ps generalizing k with
  | nil => exact .nil ..
  | cons p ps ih =>
    obtain ⟨e, kind⟩ := p
    exact .append (feeds_port (some ⟨owner, kind⟩) k e) (ih _)

theorem arguments_eq_row (owner index k : Nat) (args : List Arg) :
    arguments w outer owner index k args =
      row w outer owner k (Given.wires index (Arg.givens args)) := by
  induction args generalizing index k with
  | nil => rfl
  | cons arg args ih =>
    cases arg with
    | positional value => exact congrArg (_ ++ ·) (ih ..)
    | keyword name value => exact congrArg (_ ++ ·) (ih ..)
    | unpacked => exact ih index k

theorem elements_eq_row (owner index k : Nat) (items : List Expr) :
    elements w outer owner index k items = row w outer owner k (Display.elements index items) := by
  induction items generalizing index k with
  | nil => rfl
  | cons item items ih => exact congrArg (_ ++ ·) (ih ..)

theorem pairs_eq_row (owner index k : Nat) (entries : List Pair) :
    pairs w outer owner index k entries =
      row w outer owner k (Display.pairs index (entries.map Pair.parts)) := by
  induction entries generalizing index k with
  | nil => rfl
  | cons entry entries ih =>
    obtain ⟨key, value⟩ := entry
    rw [pairs, ih, List.append_assoc]
    rfl

end Rows

theorem find_kind (r : Option Ref) (kind : EdgeKind) {rest : List (Ref × EdgeKind)}
    (hr : ∀ p ∈ rest, p.2 ≠ kind) :
    (r.toList.map (·, kind) ++ rest).find? (fun p => p.2 = kind) = r.map (·, kind) := by
  cases r with
  | none => exact List.find?_eq_none.mpr fun p hp => by simpa using hr p hp
  | some a => simp

theorem find_only (r : Option Ref) (kind : EdgeKind) :
    (r.toList.map (·, kind)).find? (fun p => p.2 = kind) = r.map (·, kind) := by
  cases r <;> simp

theorem find_skip {front rest : List (Ref × EdgeKind)} {kind : EdgeKind}
    (hf : ∀ p ∈ front, p.2 ≠ kind) :
    (front ++ rest).find? (fun p => p.2 = kind) = rest.find? fun p => p.2 = kind := by
  rw [List.find?_append, List.find?_eq_none.mpr fun p hp => by simpa using hf p hp]
  rfl

theorem kind_of_mem {r : Option Ref} {kind : EdgeKind} {p : Ref × EdgeKind}
    (h : p ∈ r.toList.map (·, kind)) : p.2 = kind := by
  obtain ⟨a, -, rfl⟩ := List.mem_map.mp h
  rfl

end Steps

namespace Run
open Steps

variable {k' owner : Nat} {payload : Payload}

/-- Ids of nodes before the number `k` that carry no name. -/
def Clear (q : Run) (all : List Step) (k : Nat) (visiting : List NodeId) : Prop :=
  ∀ id ∈ visiting, ∃ j < k, id = q.nodeId j ∧ ¬ Named all j

def Renders (q : Run) (style : CodeStyle) (L : Likeness) (c : Prop) (visiting : List NodeId)
    (e : Expr) (a : Ref) : Prop :=
  (q.linked.resolve style visiting (q.ref a)).Faithful c (e.Writes L)

namespace Draws

variable {q : Run} {all before after : List Step} {w : Place} {outer : List Place} {k : Nat}
  {visiting : List NodeId} {style : CodeStyle} {L : Likeness} {c : Prop}

theorem clear_cons (hv : q.Clear all k visiting) (hn : ¬ Named all k) :
    q.Clear all (k + 1) (q.nodeId k :: visiting) := by
  intro id hid
  rcases List.mem_cons.mp hid with rfl | hid
  · exact ⟨k, Nat.lt_succ_self k, rfl, hn⟩
  · obtain ⟨j, hj, hrest⟩ := hv id hid
    exact ⟨j, Nat.lt_succ_of_lt hj, hrest⟩

theorem clear_mono (hv : q.Clear all k visiting) (hk : k ≤ k') : q.Clear all k' visiting := by
  intro id hid
  obtain ⟨j, hj, hrest⟩ := hv id hid
  exact ⟨j, Nat.lt_of_lt_of_le hj hk, hrest⟩

theorem not_visiting (h : Draws q all) (hv : q.Clear all k visiting) (hk : k < count all) :
    q.nodeId k ∉ visiting := by
  intro hm
  obtain ⟨j, hj, he, -⟩ := hv _ hm
  exact Nat.ne_of_gt hj (h.nodeId_inj hk (Nat.lt_trans hj hk) he)

theorem finished_plain (q : Run) (k : Nat) (w : Place) (label : String)
    (hp : ∀ site, payload ≠ .call site) (version : Nat) :
    q.finished (.made k ⟨w, label, .plain payload⟩ version) =
      ⟨q.nodeId k, label, q.world w, payload⟩ := by
  have hsite : (q.draw (.made k ⟨w, label, .plain payload⟩ version)).site? = none := by
    cases payload with
    | call site => exact absurd rfl (hp site)
    | _ => rfl
  exact Graph.settled_of_site hsite

theorem lookup_plain (h : Draws q all) {label : String}
    (hs : (sketches all)[k]? = some ⟨w, label, .plain payload⟩) (hp : ∀ site, payload ≠ .call site)
    : q.linked.lookup (q.nodeId k) = some ⟨q.nodeId k, label, q.world w, payload⟩ := by
  obtain ⟨version, hi⟩ := Reflects.made_mem_items hs
  exact (h.lookup hi).trans (congrArg some (finished_plain q k w label hp version))

theorem renders_name (h : Draws q all) (hs : Sound L c all) {name : String} {port : Port}
    (hall : all = before ++ .read name w outer port :: after) (hv : q.Clear all k visiting)
    (hk : k ≤ count all) {o : Origin} (ho : Steps.resolve before (w :: outer) name = some o) :
    q.Renders style L c visiting (.name name) (o.ref w) := by
  obtain ⟨n, hn, hid, hname, hlabel⟩ := h.reflects.source_of_read hall ho
  have hlookup := Graph.lookup_link h.ids hn
  rw [Graph.settled_of_site (Payload.isName_site hname), hid] at hlookup
  have hfresh : q.ref (o.ref w) ∉ visiting := by
    intro hm
    obtain ⟨j, hj, he, hnot⟩ := hv _ hm
    have href := h.ref_inj (inUse_read h.wellFormed hall ho)
      (inUse_node (Nat.lt_of_lt_of_le hj hk)) he
    obtain ⟨sketch, hsk, -, hnames⟩ := (hall ▸ h.wellFormed).of_append.sketch_of_resolve ho
    unfold Origin.ref at href
    split at href
    · obtain rfl := Ref.node.inj href
      exact hnot ⟨sketch, name, hall ▸ sketch_append hsk _, hnames⟩
    · cases href
  rw [Renders, linked, Graph.resolve_of_name style hlookup hname hfresh, hlabel]
  exact .plain ⟨.name _, .name (hs.name hall ho), rfl⟩

theorem faithful_required (h : Draws q all) (hk : k < count all) {n : Node}
    (hid : n.id = q.nodeId k) {sub : NodeId → Rendered} {kind : EdgeKind} {reason : Reason}
    {r : Option Ref} {P : String → Prop}
    (hin : (inputs k (links all)).find? (fun p => p.2 = kind) = r.map (·, kind))
    (hsome : ∀ a, r = some a → (sub (q.ref a)).Faithful c P) (hnone : r = none → ¬ c) :
    (q.linked.required style sub n kind reason).Faithful c P := by
  rw [Graph.required, hid, h.input hk, hin]
  cases r with
  | none => exact .lacking (hnone rfl) style n reason
  | some a => exact hsome a rfl

end Draws

/-- The steps `ss` stand in a drawn text, in the world `w`. -/
structure Standing (q : Run) (all before ss after : List Step) (w : Place) (outer : List Place)
    (k : Nat) : Prop where
  draws : Draws q all
  located : Located all before ss after k
  path : openPath before = w :: outer

namespace Standing

variable {q : Run} {all before after rest ss ts : List Step} {w : Place} {outer : List Place}
  {k : Nat} {label : String} {content : Content} {port : Option Port}

theorem behind (h : Standing q all before (place w label content k port ++ rest) after w outer k) :
    Standing q all (before ++ place w label content k port) rest after w outer (k + 1) :=
  ⟨h.draws, h.located.behind_place, by rw [openPath_quiet _ (quiet_place ..), h.path]⟩

theorem split (h : Standing q all before (ss ++ ts) after w outer k) (hq : Quiet ss) {m : Nat}
    {target : Option Nat} (ho : ∀ n ∈ target, n < k) (ht : Local w target k' m ts)
    (hk : k + count ss ≤ k') :
    Standing q all before ss (ts ++ after) w outer k ∧
      Standing q all (before ++ ss) ts after w outer (k + count ss) :=
  ⟨⟨h.draws, h.located.before_local h.draws.wellFormed h.path ho ht hk, h.path⟩,
    h.draws, h.located.right, by rw [openPath_quiet _ hq, h.path]⟩

theorem lt_count (h : Standing q all before (place w label content k port ++ rest) after w outer k) :
    k < count all := h.located.lt_count (by rw [count_append, count_place]; omega)

theorem inputs_eq (h : Standing q all before (place w label content k port ++ rest) after w outer k)
    (hp : ∀ p ∈ port, p.target < k) : inputs k (links all) =
      inputs k (collect joins (before ++ place w label content k port) rest) :=
  h.located.inputs_place h.draws.wellFormed hp

theorem not_named (h : Standing q all before (place w label content k port ++ rest) after w outer k)
    (hn : (content.payload 0).isName = false) : ¬ Named all k :=
  Steps.not_named h.located.sketch_place hn

theorem resolve_eq {style : CodeStyle} {visiting : List NodeId}
    (h : Standing q all before (place w label (.plain payload) k port ++ rest) after w outer k)
    (hp : ∀ site, payload ≠ .call site) (hv : q.Clear all k visiting) :
    q.linked.resolve style visiting (q.nodeId k) = q.linked.renderNode style
      (fun source => q.linked.resolve style (q.nodeId k :: visiting) source)
      ⟨q.nodeId k, label, q.world w, payload⟩ :=
  Graph.resolve_node (h.draws.lookup_plain h.located.sketch_place hp)
    (h.draws.not_visiting hv h.lt_count)

end Standing

section Values

variable {q : Run} {all : List Step} {w : Place} {outer : List Place} {style : CodeStyle}
  {L : Likeness} {c : Prop}

/-- A part of an expression has the text of a like part, wherever it stands behind its node. -/
def PartRenders (q : Run) (style : CodeStyle) (L : Likeness) (c : Prop) (all : List Step)
    (w : Place) (outer : List Place) (visiting : List NodeId) (port : Port) (e : Expr) : Prop :=
  ∀ {before after : List Step} {k : Nat} {a : Ref},
    Standing q all before (expr w outer (some port) k e) after w outer k → port.target < k →
    root before w outer k e = some a → q.Renders style L c visiting e a

/-- A part that may not be missing, wired into the node `owner`. -/
structure FirmPart (q : Run) (style : CodeStyle) (L : Likeness) (c : Prop) (all : List Step)
    (w : Place) (outer : List Place) (visiting : List NodeId) (owner : Nat) (p : Expr × EdgeKind) :
    Prop where
  plain : p.1.isPlain = true
  firm : ∀ name, ¬ Tolerates L c all name ⟨owner, p.2⟩
  renders : PartRenders q style L c all w outer visiting ⟨owner, p.2⟩ p.1

section Parts

variable {before after : List Step} {port : Option Port} {k : Nat} {content : Content}
  {visiting : List NodeId} {label : String} {n : Node} {kind : EdgeKind} {e : Expr}

theorem faithful_part (hs : Sound L c all)
    (h : Standing q all before (expr w outer (some ⟨k, kind⟩) k' e) after w outer k') (hk : k < k')
    (hid : n.id = q.nodeId k) (he : e.isPlain = true)
    (hloud : ∀ name, Tolerates L c all name ⟨k, kind⟩ → ¬ c)
    (hin : (inputs k (links all)).find? (fun p => p.2 = kind) =
      (root before w outer k' e).map (·, kind))
    (hr : PartRenders q style L c all w outer visiting ⟨k, kind⟩ e) (reason : Reason) :
    (q.linked.required style (fun source => q.linked.resolve style visiting source) n kind
      reason).Faithful c (e.Writes L) := by
  have hlt : k < count all := by
    rw [h.located.text, count_append, count_append, h.located.number]
    omega
  refine h.draws.faithful_required hlt hid hin (fun a ha => hr h hk ha) fun hnone => ?_
  obtain ⟨name, -, ht⟩ := h.located.tolerates hs he hnone
  exact hloud name ht

theorem faithful_one (hs : Sound L c all)
    (h : Standing q all before (place w label content k port ++
      expr w outer (some ⟨k, kind⟩) (k + 1) e) after w outer k) (hp : ∀ p ∈ port, p.target < k)
    (hid : n.id = q.nodeId k) (he : e.isPlain = true)
    (hloud : ∀ name, Tolerates L c all name ⟨k, kind⟩ → ¬ c)
    (hr : PartRenders q style L c all w outer visiting ⟨k, kind⟩ e) (reason : Reason) :
    (q.linked.required style (fun source => q.linked.resolve style visiting source) n kind
      reason).Faithful c (e.Writes L) := by
  refine faithful_part hs h.behind (Nat.lt_succ_self k) hid he hloud ?_ hr reason
  rw [h.inputs_eq hp, inputs_expr _ ⟨k, kind⟩ (Nat.lt_succ_self k), find_only]

theorem faithful_two (hs : Sound L c all) {kind' : EdgeKind} {e' : Expr}
    (h : Standing q all before (place w label content k port ++
      (expr w outer (some ⟨k, kind⟩) (k + 1) e ++ expr w outer (some ⟨k, kind'⟩)
        (k + 1 + count (expr w outer (some ⟨k, kind⟩) (k + 1) e)) e')) after w outer k)
    (hp : ∀ p ∈ port, p.target < k) (hid : n.id = q.nodeId k) (hne : kind ≠ kind')
    (he : e.isPlain = true) (he' : e'.isPlain = true)
    (hloud : ∀ name, Tolerates L c all name ⟨k, kind⟩ → ¬ c)
    (hloud' : ∀ name, Tolerates L c all name ⟨k, kind'⟩ → ¬ c)
    (hr : PartRenders q style L c all w outer visiting ⟨k, kind⟩ e)
    (hr' : PartRenders q style L c all w outer visiting ⟨k, kind'⟩ e') (reason reason' : Reason)
    {f : String → String → String} {P : String → Prop}
    (hf : ∀ text other, e.Writes L text → e'.Writes L other → P (f text other)) :
    ((q.linked.required style (fun source => q.linked.resolve style visiting source) n kind
      reason).both f (q.linked.required style (fun source => q.linked.resolve style visiting source)
      n kind' reason')).Faithful c P := by
  obtain ⟨hfirst, hsecond⟩ := h.behind.split (quiet_expr ..) (of_mem_some (Nat.lt_succ_self k))
    (local_operand k kind' _ e') (Nat.le_refl _)
  have hlt : k < k + 1 + count (expr w outer (some ⟨k, kind⟩) (k + 1) e) := by omega
  refine (faithful_part hs hfirst (Nat.lt_succ_self k) hid he hloud ?_ hr reason).both
    (faithful_part hs hsecond hlt hid he' hloud' ?_ hr' reason') hf
  · rw [h.inputs_eq hp, collect_append, inputs_append,
      inputs_expr _ ⟨k, kind⟩ (Nat.lt_succ_self k), inputs_expr _ ⟨k, kind'⟩ hlt,
      find_kind _ _ fun p hp => by rw [kind_of_mem hp]; exact hne.symm]
  · rw [h.inputs_eq hp, collect_append, inputs_append,
      inputs_expr _ ⟨k, kind⟩ (Nat.lt_succ_self k), inputs_expr _ ⟨k, kind'⟩ hlt,
      find_skip fun p hp => by rw [kind_of_mem hp]; exact hne, find_only]

theorem row_parts {ps : List (Expr × EdgeKind)} {P : Expr → EdgeKind → Ref → Prop}
    (h : Standing q all before (row w outer owner k ps) after w outer k) (ho : owner < k)
    (hp : ∀ p ∈ ps, ∀ {before after : List Step} {k : Nat},
      Standing q all before (expr w outer (some ⟨owner, p.2⟩) k p.1) after w outer k → owner < k →
      ∃ a, root before w outer k p.1 = some a ∧ P p.1 p.2 a) :
    ∃ xs : List ((Expr × Ref) × EdgeKind), ps = xs.map (Prod.map Prod.fst id) ∧
      inputs owner (collect joins before (row w outer owner k ps)) =
        xs.map (Prod.map Prod.snd id) ∧
      ∀ x ∈ xs, P x.1.1 x.2 x.1.2 := by
  induction ps generalizing before k with
  | nil => exact ⟨[], rfl, rfl, by simp⟩
  | cons p ps ih =>
    obtain ⟨e, kind⟩ := p
    rw [row] at h ⊢
    obtain ⟨hfirst, hrest⟩ := h.split (quiet_expr ..) (of_mem_some ho) (feeds_row owner _ ps).local
      (Nat.le_refl _)
    obtain ⟨xs, rfl, hin, hxs⟩ := ih hrest (Nat.lt_add_right _ ho)
      fun p hm => hp p (List.mem_cons_of_mem _ hm)
    obtain ⟨a, ha, hvalue⟩ := hp _ List.mem_cons_self hfirst ho
    refine ⟨((e, a), kind) :: xs, rfl, ?_, fun x hx => ?_⟩
    · rw [collect_append, inputs_append, inputs_expr _ ⟨owner, kind⟩ ho, hin, ha]
      rfl
    · rcases List.mem_cons.mp hx with rfl | hx
      · exact hvalue
      · exact hxs x hx

theorem row_renders (hs : Sound L c all) {ps : List (Expr × EdgeKind)}
    (h : Standing q all before (row w outer owner k ps) after w outer k) (ho : owner < k)
    (hp : ∀ p ∈ ps, q.FirmPart style L c all w outer visiting owner p) :
    ∃ xs : List ((Expr × Ref) × EdgeKind), ps = xs.map (Prod.map Prod.fst id) ∧
      inputs owner (collect joins before (row w outer owner k ps)) =
        xs.map (Prod.map Prod.snd id) ∧
      ∀ x ∈ xs, q.Renders style L c visiting x.1.1 x.1.2 := by
  refine row_parts (P := fun e _ a => q.Renders style L c visiting e a) h ho fun p hm => ?_
  intro before after k hpart hk
  obtain ⟨a, ha⟩ : ∃ a, root before w outer k p.1 = some a := by
    refine Option.ne_none_iff_exists'.mp fun hnone => ?_
    obtain ⟨name, -, ht⟩ := hpart.located.tolerates hs (hp p hm).plain hnone
    exact (hp p hm).firm name ht
  exact ⟨a, ha, (hp p hm).renders hpart hk ha⟩

end Parts

end Values

end Run

end ScopedFlow
