import ScopedFlow.Proofs.Lines
import ScopedFlow.Proofs.Renaming
import ScopedFlow.Proofs.RoundTrip

/-!
# Two runs of the synthesis

One run is of a graph, the other of the same graph with other ids, where the placeholder may be
another one too. Both report the same defects, up to the ids. Both write the same text if the
placeholder is the same, or if there are no defects and no call writes a default that is not known.
So ids never show, and a placeholder shows only with a defect or in the place of such a default.
-/

namespace ScopedFlow

section Arguments

variable (r : NodeId → NodeId)

def Wiring.rename (w : Wiring) : Wiring :=
  ⟨w.positional.map (Prod.map id r), w.keywords.map (Prod.map id r)⟩

def ArgSource.rename : ArgSource → ArgSource
  | .node id => .node (r id)
  | source => source

def WrittenArgument.rename (a : WrittenArgument) : WrittenArgument :=
  { a with source := a.source.rename r }

def Placement.rename (s : Placement) : Placement :=
  { s with
    written := s.written.map (WrittenArgument.rename r)
    pending := s.pending.map (WrittenArgument.rename r) }

namespace Wiring

theorem insertAt_rename (index : Nat) (source : NodeId) (ps : List (Nat × NodeId)) :
    insertAt index (r source) (ps.map (Prod.map id r)) =
      (insertAt index source ps).map (Prod.map id r) := by
  induction ps with
  | nil => rfl
  | cons p ps ih =>
    obtain ⟨i, s⟩ := p
    simp only [List.map_cons, Prod.map_apply, id, insertAt]
    split
    · rfl
    · split
      · rfl
      · rw [List.map_cons, ← ih]
        rfl

theorem add_rename (w : Wiring) (e : Edge) : (w.rename r).add (e.rename r) = (w.add e).rename r := by
  obtain ⟨source, target, kind⟩ := e
  cases kind with
  | argument index keyword =>
    cases keyword with
    | some name =>
      simp only [add, Edge.rename, rename, List.any_map, Function.comp_def, Prod.map_fst, id]
      split
      · rfl
      · simp only [List.map_append, List.map_cons, List.map_nil, Prod.map_apply, id]
    | none =>
      cases index with
      | none => rfl
      | some index => simp only [add, Edge.rename, rename, insertAt_rename]
  | _ => rfl

theorem ofEdges_rename (es : List Edge) :
    ofEdges (es.map (Edge.rename r)) = (ofEdges es).rename r :=
  foldl_rename (Wiring.rename r) (add_rename r) es ⟨[], []⟩

theorem keyword?_rename (w : Wiring) (name : String) :
    (w.rename r).keyword? name = (w.keyword? name).map r := by
  rw [keyword?, rename, List.find?_map, keyword?, Option.map_map, Option.map_map]
  rfl

theorem positional?_rename (w : Wiring) (index : Nat) :
    (w.rename r).positional? index = (w.positional? index).map r := by
  rw [positional?, rename, List.find?_map, positional?, Option.map_map, Option.map_map]
  rfl

end Wiring

namespace Placement

theorem takeRest_rename (s : Placement) (w : Wiring) :
    (s.rename r).takeRest (w.rename r) = (s.takeRest w).rename r := by
  simp only [takeRest, rename, Wiring.rename, List.filter_map, Function.comp_def, Prod.map_fst, id,
    List.map_append, List.map_map]
  rfl

theorem valueOf_rename (overridden : Option String) (keyword position : Option NodeId) :
    valueOf overridden (keyword.map r) (position.map r) =
      ((valueOf overridden keyword position).1.map (ArgSource.rename r),
        (valueOf overridden keyword position).2) := by
  cases overridden <;> cases keyword <;> cases position <;> rfl

theorem bindPlain_rename (s : Placement) (w : Wiring) (overrides : Overrides) (p : Param) :
    (s.rename r).bindPlain (w.rename r) overrides p = (s.bindPlain w overrides p).rename r := by
  have hkeyword : (if s.beforeSlash then none else (w.rename r).keyword? p.name) =
      (if s.beforeSlash then none else w.keyword? p.name).map r := by
    split
    · rfl
    · exact w.keyword?_rename r p.name
  have hposition : (if s.pastStar then none else (w.rename r).positional? s.slot) =
      (if s.pastStar then none else w.positional? s.slot).map r := by
    split
    · rfl
    · exact w.positional?_rename r s.slot
  have hbefore : (s.rename r).beforeSlash = s.beforeSlash := rfl
  have hpast : (s.rename r).pastStar = s.pastStar := rfl
  have hslot : (s.rename r).slot = s.slot := rfl
  have hby : (s.rename r).byKeyword = s.byKeyword := rfl
  simp only [bindPlain, hbefore, hpast, hslot, hby, hkeyword, hposition, valueOf_rename,
    Option.isSome_map]
  generalize (if s.beforeSlash = true then none else w.keyword? p.name) = keyword
  generalize valueOf (overrides.get? p.name) keyword _ = value
  obtain ⟨value, uses⟩ := value
  generalize (!s.beforeSlash && (s.byKeyword || keyword.isSome)) = named
  cases value with
  | some source => cases named <;> simp [rename, write, writeByPosition, WrittenArgument.rename]
  | none =>
    cases p.optional with
    | true =>
      cases s.beforeSlash with
      | true => cases p.default <;> simp [rename, WrittenArgument.rename, ArgSource.rename]
      | false => rfl
    | false =>
      cases named <;> simp [rename, write, writeByPosition, WrittenArgument.rename, ArgSource.rename]

theorem bind_rename (w : Wiring) (overrides : Overrides) (s : Placement) (p : Param) :
    bind (w.rename r) overrides (s.rename r) p = (bind w overrides s p).rename r := by
  unfold bind
  split
  · rw [takeRest_rename]
    rfl
  · rfl
  · simp only [rename, List.isEmpty_map, List.map_nil]
  · rfl
  · exact bindPlain_rename r s w overrides p

end Placement

theorem writtenArguments_rename (params : List Param) (w : Wiring) (overrides : Overrides) :
    writtenArguments params (w.rename r) overrides =
      (writtenArguments params w overrides).map (WrittenArgument.rename r) := by
  have hstart : Placement.start params = (Placement.start params).rename r := rfl
  have hfold : params.foldl (Placement.bind (w.rename r) overrides) (.start params) =
      (params.foldl (Placement.bind w overrides) (.start params)).rename r := by
    rw [hstart]
    exact List.foldl_hom (Placement.rename r) (Placement.bind_rename r w overrides)
  rw [writtenArguments, hfold]
  simp only [writtenArguments, Placement.rename, Wiring.rename, List.filter_map, List.map_append,
    List.map_map]
  rfl

end Arguments

namespace Graph

theorem insertIndexed_rename (r : NodeId → NodeId) (entry : Nat × NodeId)
    (ps : List (Nat × NodeId)) : insertIndexed (Prod.map id r entry) (ps.map (Prod.map id r)) =
      (insertIndexed entry ps).map (Prod.map id r) := by
  induction ps with
  | nil => rfl
  | cons p ps ih =>
    simp only [List.map_cons, insertIndexed, Prod.map_fst, id]
    split
    · rfl
    · rw [List.map_cons, ih]

variable {r : NodeId → NodeId} (hr : Function.Injective r) (g : Graph)
include hr

theorem indexed_rename (i : NodeId) (index : EdgeKind → Option Nat) :
    (g.rename r).indexed (r i) index = (g.indexed i index).map (Prod.map id r) := by
  have hentries : ((g.edgesTo i).map (Edge.rename r)).filterMap (fun e =>
      (index e.kind).map fun j => (j, e.source)) = ((g.edgesTo i).filterMap fun e =>
      (index e.kind).map fun j => (j, e.source)).map (Prod.map id r) := by
    rw [List.filterMap_map, List.map_filterMap]
    refine congrArg (List.filterMap · (g.edgesTo i)) (funext fun e => ?_)
    simp only [Function.comp_def, Option.map_map]
    rfl
  rw [indexed, g.edgesTo_rename hr, hentries, indexed]
  refine foldl_rename (List.map (Prod.map id r)) ?_ _ []
  intro sorted entry
  exact insertIndexed_rename r entry sorted

theorem keyedPairs_rename (i : NodeId) :
    (g.rename r).keyedPairs (r i) = (g.keyedPairs i).map (Prod.map r r) := by
  have hvalue : ∀ key : Nat, (((g.indexed i EdgeKind.valueIndex?).map (Prod.map id r)).reverse.find?
      fun v => v.1 = key).map (·.2) =
      (((g.indexed i EdgeKind.valueIndex?).reverse.find? fun v => v.1 = key).map (·.2)).map r := by
    intro key
    rw [← List.map_reverse, List.find?_map, Option.map_map, Option.map_map]
    rfl
  simp only [keyedPairs, g.indexed_rename hr, List.map_map, Function.comp_def, Prod.map_fst,
    Prod.map_snd, id, hvalue, List.takeWhile_map, List.filterMap_map, List.map_filterMap,
    Option.isSome_map, Option.map_map, Prod.map_apply]

theorem callParams_rename (site : CallSite) :
    (g.rename r).callParams (site.rename r) = g.callParams site := by
  have hfound : ((site.rename r).target.bind World.owner?).bind (g.rename r).lookup =
      ((site.target.bind World.owner?).bind g.lookup).map (Node.rename r) := by
    cases ht : site.target with
    | none => simp [CallSite.rename, ht]
    | some w =>
      cases w with
      | body owner => simp [CallSite.rename, ht, World.rename, World.owner?, g.lookup_rename hr]
      | _ => simp [CallSite.rename, ht, World.rename, World.owner?]
  rw [callParams, hfound, callParams]
  cases (site.target.bind World.owner?).bind g.lookup with
  | none => rfl
  | some d => simp only [Option.map_some, Node.kind_rename, Node.params_rename]; rfl

theorem feeds_rename (i : NodeId) : (g.rename r).feeds (r i) = g.feeds i := by
  rw [feeds, g.edgesFrom_rename hr, List.any_map, feeds]
  rfl

theorem hasHead_rename (i : NodeId) : (g.rename r).hasHead (r i) = g.hasHead i := by
  rw [hasHead, g.edgesTo_rename hr, List.any_map, hasHead]
  rfl

theorem nextClause_rename (i : NodeId) :
    (g.rename r).nextClause (r i) = (g.nextClause i).map (Node.rename r) := by
  have hfound : ∀ es : List Edge, (es.map (Edge.rename r)).filterMap
      (fun e => (g.rename r).lookup e.target) =
      (es.filterMap fun e => g.lookup e.target).map (Node.rename r) := by
    intro es
    rw [List.filterMap_map, List.map_filterMap]
    exact congrArg (List.filterMap · es) (funext fun e => g.lookup_rename hr e.target)
  rw [nextClause, g.edgesFrom_rename hr, List.filter_map, hfound, List.find?_map, nextClause]
  simp only [Function.comp_def, Edge.kind_rename, Node.kind_rename]
  rfl

omit hr in
theorem clausesFrom_eq (seen : List NodeId) (i : NodeId) : g.clausesFrom seen i =
    (g.nextClause i).elim [] fun n => if n.id ∈ seen then []
      else if n.kind = .elseBlock then [n] else n :: g.clausesFrom (n.id :: seen) n.id := by
  rw [clausesFrom]
  split <;> simp [*]

theorem clausesFrom_rename (seen : List NodeId) (i : NodeId) :
    (g.rename r).clausesFrom (seen.map r) (r i) =
      (g.clausesFrom seen i).map (Node.rename r) := by
  induction seen, i using clausesFrom.induct g with
  | case1 seen i h => rw [clausesFrom_eq, clausesFrom_eq, g.nextClause_rename hr, h]; rfl
  | case2 seen i n h hs =>
    rw [clausesFrom_eq, clausesFrom_eq, g.nextClause_rename hr, h]
    simp only [Option.map_some, Option.elim_some, Node.id_rename, List.mem_map_of_injective hr,
      if_pos hs, List.map_nil]
  | case3 seen i n h hs hk =>
    rw [clausesFrom_eq, clausesFrom_eq, g.nextClause_rename hr, h]
    simp only [Option.map_some, Option.elim_some, Node.id_rename, List.mem_map_of_injective hr,
      if_neg hs, Node.kind_rename, if_pos hk, List.map_cons, List.map_nil]
  | case4 seen i n h hs hk _ ih =>
    rw [clausesFrom_eq, clausesFrom_eq, g.nextClause_rename hr, h]
    simp only [Option.map_some, Option.elim_some, Node.id_rename, List.mem_map_of_injective hr,
      if_neg hs, Node.kind_rename, if_neg hk, List.map_cons]
    exact congrArg (_ :: ·) ih

omit hr in
theorem mergeSort_rename {f f' : Edge → Option (Nat × Node)}
    (h : ∀ e : Edge, f' (e.rename r) = (f e).map (Prod.map id (Node.rename r))) (es : List Edge) :
    (((es.map (Edge.rename r)).filterMap f').mergeSort fun a b => a.1 ≤ b.1).map (·.2) =
      (((es.filterMap f).mergeSort fun a b => a.1 ≤ b.1).map (·.2)).map (Node.rename r) := by
  have hnumbered : (es.map (Edge.rename r)).filterMap f' =
      (es.filterMap f).map (Prod.map id (Node.rename r)) := by
    rw [List.filterMap_map, List.map_filterMap]
    exact congrArg (List.filterMap · es) (funext h)
  have hsorted : ((es.filterMap f).map (Prod.map id (Node.rename r))).mergeSort
      (fun a b => a.1 ≤ b.1) =
      ((es.filterMap f).mergeSort fun a b => a.1 ≤ b.1).map (Prod.map id (Node.rename r)) := by
    symm
    apply List.map_mergeSort
    intro a _ b _
    rfl
  rw [hnumbered, hsorted, List.map_map, List.map_map]
  rfl

theorem handlersOf_rename (i : NodeId) :
    (g.rename r).handlersOf (r i) = (g.handlersOf i).map (Node.rename r) := by
  unfold handlersOf
  rw [g.edgesFrom_rename hr]
  refine mergeSort_rename ?_ _
  rintro ⟨source, target, kind⟩
  cases kind with
  | nextClause index =>
    cases index with
    | none => rfl
    | some index =>
      simp only [Edge.rename, g.lookup_rename hr]
      cases g.lookup target with
      | none => rfl
      | some n =>
        simp only [Option.map_some, Node.kind_rename]
        split <;> rfl
  | _ => rfl

theorem clausesOf_rename (n : Node) :
    (g.rename r).clausesOf (n.rename r) = (g.clausesOf n).map (Node.rename r) := by
  obtain ⟨i, label, world, payload⟩ := n
  cases payload with
  | ifBlock => exact g.clausesFrom_rename hr [i] i
  | tryBlock => exact g.handlersOf_rename hr i
  | _ => rfl

theorem taken_rename (n : Node) : (g.rename r).taken (n.rename r) = (g.taken n).map r := by
  obtain ⟨i, label, world, payload⟩ := n
  cases payload with
  | «variable» v =>
    obtain ⟨mode, version, optional⟩ := v
    cases mode with
    | write => exact g.input_rename hr i fun k => k = .writesTo
    | _ => rfl
  | call site =>
    simp only [taken, Node.rename, Payload.rename, g.feeds_rename hr]
    split <;> rfl
  | returnStmt | ifBlock | elifBlock | whileBlock | exceptBlock _ _ | forBlock _ =>
    simp only [taken, Node.rename, Payload.rename, g.input_rename hr]
  | _ => rfl

end Graph

theorem Defect.reportAll_rename {r : NodeId → NodeId} (hr : Function.Injective r)
    (ds : List Defect) : reportAll (ds.map (Defect.rename r)) = (reportAll ds).map (Defect.rename r) := by
  have hinj : Function.Injective (Defect.rename r) := by
    rintro ⟨i, label, reason⟩ ⟨j, label', reason'⟩ h
    simpa [Defect.rename, hr.eq_iff] using h
  refine foldl_rename (List.map (Defect.rename r)) ?_ ds []
  intro found d
  simp only [report, List.mem_map_of_injective hinj]
  have hreason : (d.rename r).reason = d.reason := rfl
  rw [hreason]
  split
  · rfl
  · rw [List.map_append, List.map_singleton]

/-- Two texts with the same defects, up to the ids. The texts are the same if `same` holds or there
are no defects. -/
structure Rendered.Agree (r : NodeId → NodeId) (same : Prop) (x y : Rendered) : Prop where
  defects : y.defects = x.defects.map (Defect.rename r)
  text : same ∨ x.defects = [] → y.text = x.text

structure Code.Agree (r : NodeId → NodeId) (same : Prop) (c d : Code) : Prop where
  defects : d.defects = c.defects.map (Defect.rename r)
  lines : same ∨ c.defects = [] → d.lines = c.lines

section Agree

variable {r : NodeId → NodeId} {same : Prop}

namespace Rendered.Agree

variable {x x' y y' : Rendered}

theorem plain (text : String) : Agree r same (.plain text) (.plain text) := ⟨rfl, fun _ => rfl⟩

theorem map (h : Agree r same x y) (f : String → String) : Agree r same (x.map f) (y.map f) :=
  ⟨h.defects, fun hs => congrArg f (h.text hs)⟩

theorem both (h : Agree r same x y) (h' : Agree r same x' y') (f : String → String → String) :
    Agree r same (x.both f x') (y.both f y') := by
  refine ⟨?_, ?_⟩
  · simp only [Rendered.both, h.defects, h'.defects, List.map_append]
  · intro hs
    simp only [Rendered.both, List.append_eq_nil_iff] at hs ⊢
    rw [h.text (hs.imp_right And.left), h'.text (hs.imp_right And.right)]

theorem join {α : Type} (separator : String) {as : List α} {f f' : α → Rendered}
    (h : ∀ a ∈ as, Agree r same (f a) (f' a)) :
    Agree r same (.join separator (as.map f)) (.join separator (as.map f')) := by
  refine ⟨?_, ?_⟩
  · simp only [Rendered.join, List.flatMap_map, List.map_flatMap]
    exact List.flatMap_congr fun a ha => (h a ha).defects
  · intro hs
    simp only [Rendered.join, List.flatMap_map, List.flatMap_eq_nil_iff, List.map_map] at hs ⊢
    refine congrArg separator.intercalate (List.map_congr_left ?_)
    intro a ha
    exact (h a ha).text (hs.imp_right fun hnone => hnone a ha)

end Rendered.Agree

theorem rel_map {α β γ δ : Type} {R : α → β → Prop} {S : γ → δ → Prop} {x : Option α}
    {y : Option β} {f : α → γ} {f' : β → δ} (h : Option.Rel R x y)
    (hf : ∀ a b, R a b → S (f a) (f' b)) : Option.Rel S (x.map f) (y.map f') := by
  cases h with
  | none => exact .none
  | some hab => exact .some (hf _ _ hab)

namespace Code.Agree

variable {c c' d d' : Code}

theorem line {x y : Rendered} (h : x.Agree r same y) : Agree r same (.line x) (.line y) := by
  refine ⟨h.defects, ?_⟩
  intro hs
  simp only [Code.line, h.text hs]

theorem empty : Agree r same .empty .empty := ⟨rfl, fun _ => rfl⟩

theorem append (h : Agree r same c d) (h' : Agree r same c' d') :
    Agree r same (c.append c') (d.append d') := by
  refine ⟨?_, ?_⟩
  · simp only [Code.append, h.defects, h'.defects, List.map_append]
  · intro hs
    simp only [Code.append, List.append_eq_nil_iff] at hs ⊢
    rw [h.lines (hs.imp_right And.left), h'.lines (hs.imp_right And.right)]

theorem nest (h : Agree r same c d) : Agree r same c.nest d.nest := by
  refine ⟨h.defects, ?_⟩
  intro hs
  simp only [Code.nest, h.lines hs]

theorem defects_orPass (c : Code) : c.orPass.defects = c.defects := by
  unfold Code.orPass
  split <;> rfl

theorem orPass (h : Agree r same c d) : Agree r same c.orPass d.orPass := by
  refine ⟨?_, ?_⟩
  · rw [defects_orPass, defects_orPass, h.defects]
  · rw [defects_orPass]
    intro hs
    unfold Code.orPass
    rw [h.lines hs]
    split
    · rfl
    · exact h.lines hs

theorem cons {x y : Option Code} {xs ys : List (Option Code)}
    (h : Option.Rel (Agree r same) x y)
    (hs : Option.Rel (Agree r same) (Code.concat xs) (Code.concat ys)) :
    Option.Rel (Agree r same) (Code.concat (x :: xs)) (Code.concat (y :: ys)) := by
  cases h with
  | none => exact .none
  | some hcode =>
    simp only [Code.concat]
    generalize Code.concat xs = c at hs ⊢
    generalize Code.concat ys = d at hs ⊢
    cases hs with
    | none => exact .none
    | some hcodes => exact .some (hcode.append hcodes)

theorem concat {α : Type} {as : List α} {f f' : α → Option Code}
    (h : ∀ a ∈ as, Option.Rel (Agree r same) (f a) (f' a)) :
    Option.Rel (Agree r same) (Code.concat (as.map f)) (Code.concat (as.map f')) := by
  induction as with
  | nil => exact .some empty
  | cons a as ih =>
    obtain ⟨hfirst, hrest⟩ := List.forall_mem_cons.mp h
    exact cons hfirst (ih hrest)

theorem headed (h : Agree r same c d) {b b' : Option Code} (hb : Option.Rel (Agree r same) b b') :
    Option.Rel (Agree r same) (Graph.headed c b) (Graph.headed d b') := by
  cases hb with
  | none => exact .none
  | some hbody => exact .some (h.append hbody.nest)

end Code.Agree

end Agree

namespace Graph

/-- A call that writes the default of a parameter which is not known. -/
def guesses (g : Graph) (n : Node) : Bool :=
  n.site?.any fun site =>
    (writtenArguments (g.callParams site) (.ofEdges (g.edgesTo n.id)) site.overrides).any fun a =>
      a.source = .unknownDefault

section Runs

variable {r : NodeId → NodeId} (hr : Function.Injective r) {g : Graph} {style style' : CodeStyle}

theorem placeholder_agree (d : Defect) :
    Rendered.Agree r (style'.placeholder = style.placeholder) ⟨style.placeholder, [d]⟩
      ⟨style'.placeholder, [d.rename r]⟩ := by
  refine ⟨rfl, ?_⟩
  rintro (hs | hs)
  · exact hs
  · cases hs

theorem lacking_agree (n : Node) (reason : Reason) :
    (lacking style n reason).Agree r (style'.placeholder = style.placeholder)
      (lacking style' (n.rename r) reason) :=
  placeholder_agree ⟨n.id, n.label, reason⟩

theorem labelFallback_agree (n : Node) (words : String) :
    (labelFallback style n words).Agree r (style'.placeholder = style.placeholder)
      (labelFallback style' (n.rename r) words) := by
  unfold labelFallback
  rw [Node.label_rename]
  split
  · exact .plain _
  · exact lacking_agree n _

section Lines

variable {v v' : Option Rendered}
  (hv : Option.Rel (Rendered.Agree r (style'.placeholder = style.placeholder)) v v') (n : Node)

include hv

theorem getD_agree (words : String) : (v.getD (labelFallback style n words)).Agree r
    (style'.placeholder = style.placeholder) (v'.getD (labelFallback style' (n.rename r) words)) := by
  cases hv with
  | none => exact labelFallback_agree n words
  | some h => exact h

theorem loopAround_agree (target : String) :
    (loopAround style n target v).Agree r (style'.placeholder = style.placeholder)
      (loopAround style' (n.rename r) target v') := by
  refine (getD_agree hv n _).both ?_ _
  split
  · exact lacking_agree n .missingTarget
  · exact .plain target

theorem handlerAround_agree (exception binding : Option String) :
    (handlerAround exception binding v).Agree r (style'.placeholder = style.placeholder)
      (handlerAround exception binding v') := by
  cases hv with
  | none => exact .plain _
  | some h =>
    simp only [handlerAround, Option.elim_some]
    exact h.map _

theorem lineAround_agree : (lineAround style n v).Agree r (style'.placeholder = style.placeholder)
    (lineAround style' (n.rename r) v') := by
  obtain ⟨i, label, world, payload⟩ := n
  cases payload with
  | «variable» _ =>
    cases hv with
    | none => exact .empty
    | some h => exact .line (h.map _)
  | call _ =>
    cases hv with
    | none => exact .empty
    | some h => exact .line h
  | returnStmt =>
    cases hv with
    | none => exact .line (.plain _)
    | some h => exact .line (h.map _)
  | ifBlock | elifBlock | whileBlock => exact .line ((getD_agree hv ⟨i, label, world, _⟩ _).map _)
  | forBlock target => exact .line (loopAround_agree hv ⟨i, label, world, _⟩ target)
  | exceptBlock exception binding => exact .line (handlerAround_agree hv exception binding)
  | functionDef _ | classDef _ | elseBlock | tryBlock | importStmt _ => exact .line (.plain _)
  | _ => exact .empty

end Lines

section Expressions

variable {sub sub' : NodeId → Rendered}
  (hsub : ∀ i, (sub i).Agree r (style'.placeholder = style.placeholder) (sub' (r i))) {n : Node}

include hr hsub

theorem required_agree (kind : EdgeKind) (reason : Reason) :
    (g.required style sub n kind reason).Agree r (style'.placeholder = style.placeholder)
      ((g.rename r).required style' sub' (n.rename r) kind reason) := by
  unfold required
  rw [Node.id_rename, g.input_rename hr]
  cases g.input n.id fun k => k = kind with
  | none => exact lacking_agree n reason
  | some source => exact hsub source

omit hr in
theorem renderArgument_agree {a : WrittenArgument}
    (ha : style'.placeholder = style.placeholder ∨ a.source ≠ .unknownDefault) :
    (renderArgument style sub n a).Agree r (style'.placeholder = style.placeholder)
      (renderArgument style' sub' (n.rename r) (a.rename r)) := by
  obtain ⟨keyword, source⟩ := a
  have hvalue : (renderArgument style sub n ⟨none, source⟩).Agree r
      (style'.placeholder = style.placeholder)
      (renderArgument style' sub' (n.rename r) ⟨none, source.rename r⟩) := by
    cases source with
    | node i => exact hsub i
    | text s => exact .plain s
    | unknownDefault =>
      have hs := ha.resolve_right fun hne => hne rfl
      exact ⟨rfl, fun _ => hs⟩
    | missing name => exact lacking_agree n (.missingArgument name)
  cases keyword with
  | none => exact hvalue
  | some name => exact hvalue.map fun text => name ++ "=" ++ text

variable (hknown : style'.placeholder = style.placeholder ∨ g.guesses n = false)

include hknown

theorem renderArguments_agree {site : CallSite} (hsite : n.payload = .call site) :
    (g.renderArguments style sub n site).Agree r (style'.placeholder = style.placeholder)
      ((g.rename r).renderArguments style' sub' (n.rename r) (site.rename r)) := by
  have hsource : ∀ a ∈ writtenArguments (g.callParams site) (.ofEdges (g.edgesTo n.id))
      site.overrides, style'.placeholder = style.placeholder ∨ a.source ≠ .unknownDefault := by
    intro a ha
    refine hknown.imp_right fun hknown hguess => ?_
    have hsite? : n.site? = some site := by
      unfold Node.site?
      rw [hsite]
    rw [guesses, hsite?, Option.any_some, List.any_eq_false] at hknown
    exact hknown a ha (decide_eq_true hguess)
  unfold renderArguments
  rw [g.callParams_rename hr, Node.id_rename, g.edgesTo_rename hr, Wiring.ofEdges_rename]
  have hoverrides : (site.rename r).overrides = site.overrides := rfl
  simp only [hoverrides, writtenArguments_rename, List.map_map]
  exact .join ", " fun a ha => renderArgument_agree hsub (hsource a ha)

theorem renderCall_agree {site : CallSite} (hsite : n.payload = .call site) :
    (g.renderCall style sub n site).Agree r (style'.placeholder = style.placeholder)
      ((g.rename r).renderCall style' sub' (n.rename r) (site.rename r)) := by
  have hargs := renderArguments_agree hr hsub hknown hsite
  have hmethod : (site.rename r).isMethod = site.isMethod := rfl
  simp only [renderCall, hmethod, Node.label_rename]
  split
  · exact hargs.both (required_agree hr hsub ..) _
  · exact hargs.map _

theorem renderNode_agree : (g.renderNode style sub n).Agree r (style'.placeholder = style.placeholder)
    ((g.rename r).renderNode style' sub' (n.rename r)) := by
  have hrequired := fun kind reason => required_agree (n := n) (g := g) hr hsub kind reason
  unfold renderNode
  rw [Node.payload_rename]
  cases hp : n.payload with
  | literal => exact .plain _
  | «variable» _ | functionDef _ | classDef _ | importStmt _ => exact .plain _
  | operator unary =>
    cases unary with
    | true => exact (hrequired ..).map _
    | false => exact (hrequired ..).both (hrequired ..) _
  | call site => exact renderCall_agree hr hsub hknown hp
  | listDisplay =>
    simp only [Payload.rename, Node.id_rename, g.indexed_rename hr, List.map_map]
    exact (Rendered.Agree.join ", " fun e _ => hsub e.2).map _
  | dictDisplay =>
    simp only [Payload.rename, Node.id_rename, g.keyedPairs_rename hr, List.map_map]
    exact (Rendered.Agree.join ", " fun p _ => (hsub p.1).both (hsub p.2) _).map _
  | accessor => exact (hrequired ..).both (hrequired ..) _
  | «attribute» => exact (hrequired ..).map _
  | _ =>
    rw [Node.kind_rename]
    exact lacking_agree n (.noValue n.kind)

end Expressions

theorem resolve_elim (g : Graph) (style : CodeStyle) (visiting : List NodeId) (i : NodeId) :
    g.resolve style visiting i =
      (g.lookup i).elim ⟨style.placeholder, [⟨i, "", .missingNode⟩]⟩ fun n =>
        if i ∈ visiting then lacking style n .cyclic
        else g.renderNode style (fun source => g.resolve style (i :: visiting) source) n := by
  rw [resolve]
  split <;> simp [*]

variable (hknown : style'.placeholder = style.placeholder ∨ ∀ n ∈ g.nodes, g.guesses n = false)

include hr hknown

theorem resolve_agree (visiting : List NodeId) (i : NodeId) :
    (g.resolve style visiting i).Agree r (style'.placeholder = style.placeholder)
      ((g.rename r).resolve style' (visiting.map r) (r i)) := by
  induction visiting, i using resolve.induct g with
  | case1 visiting i h =>
    rw [resolve_elim, resolve_elim, g.lookup_rename hr, h]
    exact placeholder_agree ⟨i, "", .missingNode⟩
  | case2 visiting i n h hv =>
    rw [resolve_elim, resolve_elim, g.lookup_rename hr, h]
    simp only [Option.map_some, Option.elim_some, List.mem_map_of_injective hr, if_pos hv]
    exact lacking_agree n .cyclic
  | case3 visiting i n h hv _ ih =>
    rw [resolve_elim, resolve_elim, g.lookup_rename hr, h]
    simp only [Option.map_some, Option.elim_some, List.mem_map_of_injective hr, if_neg hv]
    have hn : n ∈ g.nodes := List.mem_reverse.mp (List.mem_of_find?_eq_some h)
    exact renderNode_agree hr ih (hknown.imp_right fun hknown => hknown n hn)

theorem lineOf_agree (n : Node) : (g.lineOf style n).Agree r (style'.placeholder = style.placeholder)
    ((g.rename r).lineOf style' (n.rename r)) := by
  have hvalue : Option.Rel (Rendered.Agree r (style'.placeholder = style.placeholder))
      ((g.taken n).map (g.value style))
      (((g.rename r).taken (n.rename r)).map ((g.rename r).value style')) := by
    rw [g.taken_rename hr]
    cases g.taken n with
    | none => exact .none
    | some i => exact .some (resolve_agree hr hknown [] i)
  exact lineAround_agree hvalue n

section Bodies

variable {body body' : NodeId → Option Code}
  (hbody : ∀ i, Option.Rel (Code.Agree r (style'.placeholder = style.placeholder)) (body i)
    (body' (r i)))

include hbody

theorem clauseFrom_agree (n : Node) :
    Option.Rel (Code.Agree r (style'.placeholder = style.placeholder))
      (clauseFrom (g.lineOf style) body n)
      (clauseFrom ((g.rename r).lineOf style') body' (n.rename r)) := by
  have hline := lineOf_agree hr hknown n
  obtain ⟨i, label, world, payload⟩ := n
  cases payload with
  | elifBlock | elseBlock | exceptBlock _ _ => exact hline.headed (hbody i)
  | _ => exact .some .empty

theorem assembled_agree (n : Node) :
    Option.Rel (Code.Agree r (style'.placeholder = style.placeholder))
      (g.assembled (g.lineOf style) body n)
      ((g.rename r).assembled ((g.rename r).lineOf style') body' (n.rename r)) := by
  have hline := lineOf_agree hr hknown n
  have hhead := hline.headed (hbody n.id)
  have hclauses : Option.Rel (Code.Agree r (style'.placeholder = style.placeholder))
      (Code.concat ((g.clausesOf n).map (clauseFrom (g.lineOf style) body)))
      (Code.concat (((g.rename r).clausesOf (n.rename r)).map
        (clauseFrom ((g.rename r).lineOf style') body'))) := by
    rw [g.clausesOf_rename hr, List.map_map]
    exact Code.Agree.concat fun c _ => clauseFrom_agree hr hknown hbody c
  have hempty : ((g.rename r).clausesOf (n.rename r)).isEmpty = (g.clausesOf n).isEmpty := by
    rw [g.clausesOf_rename hr, List.isEmpty_map]
  have hstray : (if g.hasHead n.id then Code.empty else ⟨[], [⟨n.id, n.label, .strayClause⟩]⟩).Agree r
      (style'.placeholder = style.placeholder) (if (g.rename r).hasHead (n.rename r).id then .empty
        else ⟨[], [⟨(n.rename r).id, (n.rename r).label, .strayClause⟩]⟩) := by
    rw [Node.id_rename, g.hasHead_rename hr]
    split
    · exact .empty
    · exact ⟨rfl, fun _ => rfl⟩
  obtain ⟨i, label, world, payload⟩ := n
  cases payload with
  | functionDef _ | classDef _ | forBlock _ | whileBlock => exact hhead
  | ifBlock => exact Code.Agree.cons hhead hclauses
  | tryBlock =>
    refine Code.Agree.cons hhead (Code.Agree.cons ?_ (.some .empty))
    rw [hempty]
    split
    · exact .some ((Code.Agree.line (.plain _)).append (Code.Agree.line (.plain _)).nest)
    · exact hclauses
  | elifBlock | elseBlock | exceptBlock _ _ =>
    exact .some hstray
  | _ => exact .some hline

theorem worldCode_agree (w : World) :
    Option.Rel (Code.Agree r (style'.placeholder = style.placeholder))
      (g.worldCode style body w) ((g.rename r).worldCode style' body' (w.rename r)) := by
  rw [worldCode, worldCode, g.nodesIn_rename hr, List.map_map]
  refine Code.Agree.concat fun n _ => ?_
  rw [Function.comp_apply, statementCode_eq, statementCode_eq]
  exact assembled_agree hr hknown hbody n

end Bodies

theorem bodyCode_agree (opened : List NodeId) (owner : NodeId) :
    Option.Rel (Code.Agree r (style'.placeholder = style.placeholder))
      (g.bodyCode style opened owner)
      ((g.rename r).bodyCode style' (opened.map r) (r owner)) := by
  have hopen : ∀ {opened : List NodeId} {owner : NodeId},
      (r owner ∈ (g.rename r).ids ∧ r owner ∉ opened.map r) ↔ (owner ∈ g.ids ∧ owner ∉ opened) := by
    intro opened owner
    rw [ids_rename, List.mem_map_of_injective hr, List.mem_map_of_injective hr]
  induction opened, owner using bodyCode.induct g with
  | case1 opened owner h _ ih =>
    rw [bodyCode, dif_pos h, bodyCode, dif_pos (hopen.mpr h)]
    exact rel_map (worldCode_agree hr hknown ih (.body owner)) fun _ _ hcode => hcode.orPass
  | case2 opened owner h =>
    rw [bodyCode, dif_neg h, bodyCode, dif_neg fun h' => h (hopen.mp h')]
    exact .none

theorem nodeCode_agree (n : Node) :
    Option.Rel (Code.Agree r (style'.placeholder = style.placeholder)) (g.nodeCode style n)
      ((g.rename r).nodeCode style' (n.rename r)) := by
  have hbody := bodyCode_agree hr hknown []
  have hstatement := assembled_agree hr hknown hbody n
  have hclause := clauseFrom_agree hr hknown hbody n
  have hvalue := resolve_agree hr hknown [] n.id
  simp only [nodeCode, statementCode_eq, clauseCode_eq]
  obtain ⟨i, label, world, payload⟩ := n
  cases payload with
  | elifBlock | elseBlock | exceptBlock _ _ => exact hclause
  | «variable» v =>
    obtain ⟨mode, version, optional⟩ := v
    cases mode with
    | write => exact hstatement
    | _ => exact .some (.line (.plain _))
  | functionDef _ | classDef _ | ifBlock | forBlock _ | whileBlock | tryBlock | returnStmt
  | importStmt _ => exact hstatement
  | _ => exact .some (.line hvalue)

theorem partCode_agree (part : Part) :
    Option.Rel (Code.Agree r (style'.placeholder = style.placeholder)) (g.partCode style part)
      ((g.rename r).partCode style' (part.rename r)) := by
  have hworld := worldCode_agree hr hknown (bodyCode_agree hr hknown [])
  cases part with
  | whole =>
    have himports : (g.rename r).importCode = g.importCode := by
      have hnodes : (g.rename r).nodesIn .imports = (g.nodesIn .imports).map (Node.rename r) :=
        g.nodesIn_rename hr .imports
      rw [importCode, hnodes, List.map_map, importCode]
      rfl
    refine rel_map (hworld .root) fun c d hcode => ?_
    rw [himports]
    exact Code.Agree.append ⟨rfl, fun _ => rfl⟩ hcode
  | world w => exact hworld w
  | node i =>
    simp only [partCode, Part.rename, g.lookup_rename hr]
    cases g.lookup i with
    | none => exact .some .empty
    | some n => exact nodeCode_agree hr hknown n

end Runs

/-- A complete text has no placeholder: it stays the same with any other one, unless a call writes a
default that is not known. -/
theorem synthesize_of_isComplete {g : Graph} (hknown : ∀ n ∈ g.nodes, g.guesses n = false)
    {indent : Nat} {placeholder : String} {part : Part} {s : Synthesis}
    (h : g.synthesize ⟨indent, placeholder⟩ part = some s) (hcomplete : s.isComplete = true)
    (other : String) : g.synthesize ⟨indent, other⟩ part = some s := by
  let style : CodeStyle := ⟨indent, placeholder⟩
  let style' : CodeStyle := ⟨indent, other⟩
  have hagree : Option.Rel (Code.Agree id (style'.placeholder = style.placeholder))
      (g.partCode style part) ((g.rename id).partCode style' (part.rename id)) :=
    partCode_agree Function.injective_id (.inr hknown) part
  have hpart : part.rename id = part := by
    cases part with
    | world w => exact congrArg Part.world w.rename_id
    | _ => rfl
  rw [g.rename_id, hpart] at hagree
  obtain ⟨code, hcode, rfl⟩ := Option.map_eq_some_iff.mp h
  have hnone : code.defects = [] := Defect.reportAll_eq_nil.mp (List.isEmpty_iff.mp hcomplete)
  rw [hcode] at hagree
  rw [synthesize]
  generalize g.partCode style' part = code' at hagree ⊢
  cases hagree with
  | some hcode' =>
    have hdefects := hcode'.defects
    rw [hnone] at hdefects
    rw [Option.map_some, hcode'.lines (.inr hnone), hdefects, hnone]
    rfl

/-- A function may be called without its first argument, which is then written by its default. With a
default the text has no placeholder. Without one the text is complete all the same, and shows it. -/
theorem synthesize_of_isComplete_default :
    let graph (default : Option String) : Graph :=
      ⟨[⟨⟨"f"⟩, "f", .root, .functionDef [⟨"a", true, default, .positional⟩, .required "b",
          .separator .positionalOnly]⟩, ⟨⟨"l"⟩, "1", .root, .literal⟩,
        ⟨⟨"c"⟩, "f", .root, .call ⟨false, some (.body ⟨"f"⟩), [], .empty⟩⟩],
      [⟨⟨"l"⟩, ⟨"c"⟩, .positional 1⟩]⟩
    ((∀ n ∈ (graph (some "0")).nodes, (graph (some "0")).guesses n = false) ∧
      ∀ other, (graph (some "0")).synthesize ⟨4, other⟩ .whole =
        some ⟨"def f(a=0, b, /):\n    pass\nf(0, 1)\n", []⟩) ∧
    (graph none).synthesize ⟨4, "x"⟩ .whole = some ⟨"def f(a, b, /):\n    pass\nf(x, 1)\n", []⟩ ∧
    (graph none).synthesize ⟨4, "y"⟩ .whole = some ⟨"def f(a, b, /):\n    pass\nf(y, 1)\n", []⟩ := by
  intro graph
  have hknown : ∀ n ∈ (graph (some "0")).nodes, (graph (some "0")).guesses n = false := by
    decide +kernel
  have hx : (graph (some "0")).synthesize ⟨4, "x"⟩ .whole =
      some ⟨"def f(a=0, b, /):\n    pass\nf(0, 1)\n", []⟩ := by decide +kernel
  exact ⟨⟨hknown, synthesize_of_isComplete hknown hx rfl⟩, by decide +kernel, by decide +kernel⟩

/-- Ids never show. A renamed graph is linked to the renamed graph of the links, with the same
report, and every part of it is written as before, with the same defects at the renamed nodes. -/
theorem link_synthesize_rename {r : NodeId → NodeId} (hr : Function.Injective r) (g : Graph) :
    (g.rename r).link = (g.link.1.rename r, g.link.2) ∧
      ∀ (style : CodeStyle) (part : Part), (g.rename r).synthesize style (part.rename r) =
        (g.synthesize style part).map (Synthesis.rename r) := by
  refine ⟨g.link_rename hr, ?_⟩
  intro style part
  have hagree : Option.Rel (Code.Agree r (style.placeholder = style.placeholder))
      (g.partCode style part) ((g.rename r).partCode style (part.rename r)) :=
    partCode_agree hr (.inl rfl) part
  rw [synthesize, synthesize]
  generalize g.partCode style part = code at hagree ⊢
  generalize (g.rename r).partCode style (part.rename r) = code' at hagree ⊢
  cases hagree with
  | none => rfl
  | some hcode =>
    rw [Option.map_some, Option.map_some, Option.map_some, hcode.lines (.inl rfl), hcode.defects,
      Defect.reportAll_rename hr]
    rfl

/-- Two calls share an id, one of them without a definition, and their argument comes from nowhere. -/
theorem link_synthesize_rename_shared :
    let r : NodeId → NodeId := fun i => ⟨"z" ++ i.text⟩
    let g : Graph :=
      ⟨[⟨⟨"f"⟩, "f", .root, .functionDef [.required "a"]⟩, ⟨⟨"c"⟩, "f", .root, .call .function⟩,
        ⟨⟨"c"⟩, "g", .body ⟨"f"⟩, .call .function⟩], [⟨⟨"gone"⟩, ⟨"c"⟩, .positional 0⟩]⟩
    Function.Injective r ∧ (g.rename r).link = (g.link.1.rename r, ⟨1, 1, 0, 0, some 0⟩) ∧
      (g.rename r).synthesize .default (.world (.body ⟨"zf"⟩)) =
        some ⟨"g(__missing__)\n", [⟨⟨"zgone"⟩, "", .missingNode⟩]⟩ := by
  intro r g
  have hr : Function.Injective r := by
    rintro ⟨s⟩ ⟨t⟩ h
    simpa [r] using h
  obtain ⟨hlink, hsynthesize⟩ := link_synthesize_rename hr g
  have hreport : g.link.2 = ⟨1, 1, 0, 0, some 0⟩ := by decide +kernel
  have htext : g.synthesize .default (.world (.body ⟨"f"⟩)) =
      some ⟨"g(__missing__)\n", [⟨⟨"gone"⟩, "", .missingNode⟩]⟩ := by decide +kernel
  refine ⟨hr, hreport ▸ hlink, ?_⟩
  have hpart := hsynthesize .default (.world (.body ⟨"f"⟩))
  rw [htext] at hpart
  exact hpart

end Graph

end ScopedFlow
