import ScopedFlow.Proofs.Gathering
import ScopedFlow.Proofs.Statements

/-!
# From a text to its graph and back

The text that is written for the linked graph of a module is that of a like module, unless something
is reported as missing. When every name is bound, every literal is kept and every call fits its
parameters, the text is that of the module itself.
-/

namespace ScopedFlow

variable {ss : List Step} {module : List Stmt}

theorem Defect.reportAll_eq_nil {ds : List Defect} : Defect.reportAll ds = [] ↔ ds = [] := by
  refine ⟨fun h => ?_, fun h => by rw [h]; rfl⟩
  have hkeep (found ds : List Defect) (hf : found ≠ []) : ds.foldl Defect.report found ≠ [] := by
    induction ds generalizing found with
    | nil => exact hf
    | cons d ds ih =>
      refine ih _ ?_
      unfold Defect.report
      split
      · exact hf
      · simp
  cases ds with
  | nil => rfl
  | cons d ds =>
    have hfirst : Defect.report [] d = [d] := by simp [Defect.report]
    refine absurd h (hkeep _ ds ?_)
    simp [hfirst]

namespace Steps

def Sketch.import? (s : Sketch) : Option String :=
  match s.content with
  | .plain (.importStmt _) => some s.label
  | _ => none

theorem gathers_imports : Gathers Sketch.import? (fun _ _ => []) (fun _ => []) (fun label => [label])
    Stmt.imports Stmt.allImports Alternatives.imports Handler.allImports where
  toWalks := by constructor <;> intros <;> first | rfl | exact (ite_self _).symm
  owner w label payload hp := by cases payload <;> first | rfl | cases hp
  used w outer port k e _ := by
    refine gather_expr_eq_nil (fun w label content hc => ?_) port k e
    cases content with
    | plain payload => cases payload <;> first | rfl | cases hc
    | _ => rfl
  loaded _ _ := rfl
  write _ _ := rfl
  param _ _ _ := rfl
  returns _ _ := rfl

theorem labels_imports (h : WellFormed ss) :
    (itemsIn .imports [] ss).map Item.label = gather Sketch.import? ss := by
  induction h with
  | nil => rfl
  | @snoc ss s h ha ih =>
    rw [itemsIn_append, List.nil_append, List.map_append, ih, gather_append]
    refine congrArg (gather Sketch.import? ss ++ ·) ?_
    rw [itemsIn, collect_cons, collect_nil, List.append_nil]
    cases ha with
    | @node w outer label content path plain =>
      have hw := h.ne_imports (p := w) (by simp [path])
      have hnone : Sketch.import? ⟨w, label, content⟩ = none := by
        unfold Sketch.import?
        split
        · exact absurd ‹_› (plain _)
        · rfl
      simp [asks, Item.home, gather, sketch?, hw, hnone]
    | importNode label names => rfl
    | @read name w outer port path ht =>
      have hw := h.ne_imports (p := w) (by simp [path])
      have hnone : (asks ss (.read name w outer port)).filter (fun item => item.home = .imports) =
          [] := by
        refine List.filter_eq_nil_iff.mpr fun item hi he => hw ?_
        exact (Option.some.inj (home_of_mem_asks hi)).trans (of_decide_eq_true he)
      rw [hnone]
      rfl
    | _ => rfl

end Steps

namespace Run
open Steps

theorem Draws.importCode_eq {q : Run} (h : Draws q (Steps.ofModule module)) :
    q.linked.importCode = ⟨(Stmt.allImports module).map (⟨0, ·⟩), []⟩ := by
  have hlabel (item : Item) : (q.finished item).label = item.label :=
    (Graph.label_settled ..).trans (label_draw q item)
  have hnodes : q.linked.nodesIn .imports =
      (itemsIn .imports [] (Steps.ofModule module)).map q.finished := h.nodesIn (w := .imports) trivial
  have hlabels : (itemsIn .imports [] (Steps.ofModule module)).map Item.label =
      Stmt.allImports module :=
    (labels_imports h.wellFormed).trans (gather_statements gathers_imports module)
  rw [Graph.importCode, hnodes, ← hlabels, List.map_map, List.map_map]
  simp only [Function.comp_def, hlabel]

/-- The linked graph of a module is written as a like module, unless something is missing. -/
theorem synthesize_writes {L : Likeness} {c : Prop} (hs : Sound L c (Steps.ofModule module))
    (hp : Stmt.arePlain module = true) (supply : Supply) (style : CodeStyle) :
    ∃ s, (build supply module).1.link.1.synthesize style .whole = some s ∧
      (s.isComplete = true → ∃ module', Stmt.AllLike L module module' ∧
        s.source = printModule style module') ∧ (c → s.isComplete = true) := by
  have hdraws := draws_ofModule supply module
  obtain ⟨code, hcode, hlines, hnone⟩ : Code.Faithful c (Stmt.WritesAll L module)
      (codeOf (ofModule supply module) style
        (fun id => (ofModule supply module).linked.bodyCode style [] id)
        (itemsIn .root [] (statements .root [] 0 module))) :=
    statements_write hs module (standing_ofModule supply module) hp (by simp [Earlier])
  have hwhole : (build supply module).1.link.1.partCode style .whole =
      some (Code.append ⟨(Stmt.allImports module).map (⟨0, ·⟩), []⟩ code) := by
    rw [← graph_ofModule, ← hdraws.importCode_eq]
    have hworld : (ofModule supply module).linked.worldCode style
        (fun id => (ofModule supply module).linked.bodyCode style [] id) .root = some code :=
      (hdraws.worldCode_eq (v := .root) trivial _).trans hcode
    exact (congrArg (Option.map _) hworld).trans rfl
  refine ⟨_, by rw [Graph.synthesize, hwhole]; rfl, fun hcomplete => ?_, fun hc => ?_⟩
  · have hdefects : code.defects = [] :=
      Defect.reportAll_eq_nil.mp (List.isEmpty_iff.mp hcomplete)
    obtain ⟨module', hlike, hl⟩ := hlines hdefects
    refine ⟨module', hlike, ?_⟩
    rw [printModule, hlike.imports_eq, ← hl]
    rfl
  · exact List.isEmpty_iff.mpr (Defect.reportAll_eq_nil.mpr (hnone hc))

end Run

/-- Positional arguments, then keywords. -/
def Arg.row (ps : List Expr) (ks : List (String × Expr)) : List Arg :=
  ps.map .positional ++ ks.map fun k => .keyword k.1 k.2

namespace Arg

variable (ps : List Expr) (ks : List (String × Expr))

theorem givens_row : givens (row ps ks) = Given.row ps ks := by
  induction ps with
  | cons p ps ih => exact congrArg (⟨none, p⟩ :: ·) ih
  | nil =>
    induction ks with
    | nil => rfl
    | cons k ks ih => exact congrArg (⟨some k.1, k.2⟩ :: ·) ih

@[simp] theorem positional_row : Given.positional (givens (row ps ks)) = ps := by
  rw [givens_row, Given.positional_row]

@[simp] theorem keywords_row : Given.keywords (givens (row ps ks)) = ks := by
  rw [givens_row, Given.keywords_row]

theorem arranged_eq (names : List String) (args : List Arg) :
    (Given.arranged names (givens args)).map Given.arg =
      row (Given.positional (givens args)) (Given.sorted names (Given.keywords (givens args))) := by
  rw [Given.arranged, List.map_append, List.map_map, List.map_map]
  rfl

end Arg

namespace Given

theorem mem_sorted {α : Type} {names : List String} {ks : List (String × α)}
    (hk : (ks.map Prod.fst).Nodup) {k : String × α} : k ∈ sorted names ks ↔ k ∈ ks := by
  constructor
  · intro h
    rcases List.mem_append.mp h with h | h
    · exact (mem_named h).1
    · exact List.mem_of_mem_filter h
  · intro h
    by_cases hin : k.1 ∈ names
    · exact List.mem_append_left _ (List.mem_filterMap.mpr ⟨k.1, hin, find_self hk h⟩)
    · exact List.mem_append_right _ (List.mem_filter.mpr ⟨h, by simpa using hin⟩)

end Given

namespace Steps

/-- Every step has a property that may depend on the steps before it. -/
def Every (P : List Step → Step → Prop) : List Step → List Step → Prop
  | _, [] => True
  | before, s :: ss => P before s ∧ Every P (before ++ [s]) ss

theorem Every.split {P : List Step → Step → Prop} {before front back : List Step} {s : Step}
    (h : Every P before ss) (hs : ss = front ++ s :: back) : P (before ++ front) s := by
  induction front generalizing before ss with
  | nil =>
    subst hs
    simpa using h.1
  | cons t front ih =>
    subst hs
    simpa using ih h.2 rfl

theorem Every.of_node {P : List Step → Step → Prop} (h : Every P [] ss) {sketch : Sketch}
    (hs : sketch ∈ sketches ss) : ∃ before, P before (.node sketch) := by
  obtain ⟨k, hk⟩ := List.mem_iff_getElem?.mp hs
  obtain ⟨front, back, hss, -⟩ := node_of_sketch hk
  exact ⟨_, h.split hss⟩

theorem shownName_cases {before after : List Step} {name : String} {w : Place} {outer : List Place}
    {port : Port} {o : Origin} (hall : ofModule module = before ++ .read name w outer port :: after)
    (ho : resolve before (w :: outer) name = some o) : shownName (ofModule module) w o name = name ∨
      ∃ sketch ∈ sketches (ofModule module), ∃ names, sketch.content = .plain (.importStmt names) ∧
        name ∈ names ∧ shownName (ofModule module) w o name ∈ names := by
  by_cases hne : shownName (ofModule module) w o name = name
  · exact .inl hne
  · have hreflects := Run.reflects_ofModule ⟨0⟩ module
    obtain ⟨names, ⟨d, hd, -, hp⟩, hin, hin'⟩ := hreflects.import_of_shownName_ne hall ho hne
    rw [hreflects.nodes] at hd
    obtain ⟨item, hi, rfl⟩ := List.mem_map.mp hd
    cases item with
    | proxy s => cases hp
    | made k sketch version =>
      obtain ⟨front, s, back, hss, hs⟩ := mem_collect hi
      cases s with
      | node other =>
        obtain ⟨-, rfl, -⟩ := Item.made.inj (List.mem_singleton.mp hs)
        refine .inr ⟨sketch, ?_, names, Content.eq_of_payload hp, hin, hin'⟩
        rw [hss]
        simp [sketch?]
      | _ => simp [asks] at hs

/-- A call takes its arguments in the order in which they are written. A call that goes to no
definition has parameters `arg0`, `arg1` and so on for its positional arguments. -/
def Fits (all : List Step) (path : List Place) (isMethod : Bool) (label : String)
    (ps : List Expr) (ks : List (String × Expr)) : Prop :=
  match if isMethod then none else callee? all path label with
  | some d => ∀ params, (sketches all)[d]?.map Sketch.content = some (.plain (.functionDef params)) →
    Param.Takes False (ks.map Prod.fst) (Param.hasSlash params) ps.length params ∧
      Given.sorted (Param.byKeyword (Param.hasSlash params) params) ks = ks
  | none => ∀ i < ps.length, "arg" ++ toString i ∉ ks.map Prod.fst

/-- A step that keeps its text: names are bound, up to a bare name behind `except`, imports bind
one name at most, literals are kept, and calls fit. -/
def Canonical (all before : List Step) : Step → Prop
  | .read name w outer port => resolve before (w :: outer) name = none →
    port.kind = .input ∧ ∃ binding, (sketches all)[port.target]?.map Sketch.content =
      some (.plain (.exceptBlock (some name) binding))
  | .node ⟨_, label, .plain .literal⟩ => Literal.text label = label
  | .node ⟨_, _, .plain (.importStmt names)⟩ => names.length ≤ 1
  | .node ⟨_, label, .call isMethod args⟩ => ∃ ps ks, args = Arg.row ps ks ∧
    (ks.map Prod.fst).Nodup ∧ Fits all (openPath before) isMethod label ps ks
  | _ => True

theorem suits_exact {all : List Step} {path : List Place} {isMethod : Bool} {label : String}
    {ps : List Expr} {ks : List (String × Expr)} (hk : (ks.map Prod.fst).Nodup)
    (hf : Fits all path isMethod label ps ks) :
    Suits .exact True (boundParams all path isMethod label
      (Given.suggested (Arg.givens (Arg.row ps ks)))) (Arg.row ps ks) := by
  have hsuits (params : List Param)
      (ht : Param.Takes False (ks.map Prod.fst) (Param.hasSlash params) ps.length params)
      (ho : Given.sorted (Param.byKeyword (Param.hasSlash params) params) ks = ks) :
      Suits .exact True params (Arg.row ps ks) := by
    constructor
    · rw [Arg.keywords_row]
      exact hk
    · rw [Arg.keywords_row, Arg.positional_row, not_true_eq_false]
      exact ht
    · rw [Arg.arranged_eq, Arg.positional_row, Arg.keywords_row, ho]
      rfl
  unfold Fits at hf
  unfold boundParams
  cases hc : if isMethod then none else callee? all path label with
  | none =>
    simp only [hc] at hf ⊢
    have hn : ∀ name ∈ Given.positionNames (Arg.givens (Arg.row ps ks)),
        name ∉ (Given.keywords (Arg.givens (Arg.row ps ks))).map Prod.fst := by
      intro name hm
      obtain ⟨i, hi, rfl⟩ := List.mem_map.mp hm
      rw [Arg.positional_row] at hi
      rw [Arg.keywords_row]
      exact hf i (List.mem_range.mp hi)
    have ht := Given.takes_suggested hn False
    have ho := Given.sorted_suggested hn (by rw [Arg.keywords_row]; exact hk)
    rw [Arg.keywords_row] at ho
    rw [Arg.keywords_row, Arg.positional_row] at ht
    exact hsuits _ ht ho
  | some d =>
    simp only [hc] at hf ⊢
    have hcallee : callee? all path label = some d := by
      cases isMethod with
      | true => cases hc
      | false => exact hc
    obtain ⟨sketch, hs, hd⟩ := sketch_of_callee hcallee
    rcases Sketch.content_of_isDefinition hd with ⟨params, hp⟩ | ⟨bases, hp⟩
    · obtain ⟨ht, ho⟩ := hf params (by rw [hs, Option.map_some, hp])
      have hformals : formals all d = params := by simp only [formals, hs, Option.map_some, hp]
      rw [hformals]
      exact hsuits params ht ho
    · have hformals : formals all d = [] := by simp only [formals, hs, Option.map_some, hp]
      rw [hformals]
      exact hsuits [] trivial (by simp [Given.sorted, Given.named, Param.byKeyword])

theorem sound_exact (h : Every (Canonical (ofModule module)) [] (ofModule module)) :
    Sound .exact True (ofModule module) := by
  constructor
  · intro before after name w outer port o hall ho
    rcases shownName_cases hall ho with he | ⟨sketch, hs, names, hc, hin, hin'⟩
    · exact he.symm
    · obtain ⟨home, label, content⟩ := sketch
      obtain rfl : content = .plain (.importStmt names) := hc
      obtain ⟨before, hlen⟩ := h.of_node hs
      have hlen : names.length ≤ 1 := hlen
      match names, hlen with
      | [], _ => cases hin
      | [only], _ => exact (List.mem_singleton.mp hin).trans (List.mem_singleton.mp hin').symm
  · intro before after name w outer port hall hr
    have hread : Canonical (ofModule module) ([] ++ before) (.read name w outer port) := h.split hall
    obtain ⟨hkind, binding, hs⟩ := hread hr
    simp only [Tolerates, hkind, hs]
    rfl
  · intro sketch hs hc
    obtain ⟨home, label, content⟩ := sketch
    obtain rfl : content = .plain .literal := hc
    obtain ⟨before, hl⟩ := h.of_node hs
    exact Eq.symm hl
  · intro before after w label isMethod args hall
    have hcall : Canonical (ofModule module) ([] ++ before) (.node ⟨w, label, .call isMethod args⟩) :=
      h.split hall
    obtain ⟨ps, ks, rfl, hk, hf⟩ := hcall
    exact suits_exact hk hf

end Steps

open Steps in
/-- A module whose steps all keep their text is written as it is. -/
theorem Run.synthesize_canonical {module : List Stmt} (hp : Stmt.arePlain module = true)
    (h : Every (Canonical (Steps.ofModule module)) [] (Steps.ofModule module)) (supply : Supply)
    (style : CodeStyle) : (build supply module).1.link.1.synthesize style .whole =
      some ⟨printModule style module, []⟩ := by
  obtain ⟨s, hs, hlike, hcomplete⟩ := synthesize_writes (sound_exact h) hp supply style
  have hnone := hcomplete trivial
  obtain ⟨module', hm, hsource⟩ := hlike hnone
  have htext : printModule style module' = printModule style module := by
    rw [printModule, printModule, hm.imports_eq, hm.lines_eq]
  rw [hs, ← htext, ← hsource, ← List.isEmpty_iff.mp hnone]

namespace Steps

/-- A function with a default, a call with a keyword, and a name that is bound nowhere behind
`except`. -/
def keptModule : List Stmt :=
  [.function "f" [.required "a", ⟨"b", true, some "0", .positional⟩] [.ret (some (.name "a"))],
    .attempt [.eval (.call "f" [.positional (.literal "1"), .keyword "b" (.literal "2")])]
      [.mk (some ⟨"ValueError", .name "ValueError"⟩) none []]]

theorem fits_keptModule : Fits (ofModule keptModule) [.body 4, .root] false "f" [.literal "1"]
    [("b", .literal "2")] := by
  intro params hp
  have hf : some (Content.plain (.functionDef
      [.required "a", ⟨"b", true, some "0", .positional⟩])) = some (.plain (.functionDef params)) := hp
  obtain rfl := Payload.functionDef.inj (Content.plain.inj (Option.some.inj hf))
  exact ⟨⟨.inr (by decide), .inr (.inl rfl), trivial⟩, rfl⟩

theorem canonical_keptModule :
    Every (Canonical (ofModule keptModule)) [] (ofModule keptModule) := by
  have hone : Literal.text "1" = "1" := by decide +kernel
  have htwo : Literal.text "2" = "2" := by decide +kernel
  exact ⟨trivial, trivial, trivial, trivial, trivial, trivial, trivial, trivial, nofun, trivial, trivial,
    trivial, ⟨[.literal "1"], [("b", .literal "2")], rfl, by decide, fits_keptModule⟩, hone,
    trivial, htwo, trivial, trivial, trivial, trivial, fun _ => ⟨rfl, none, rfl⟩,
    trivial, trivial, trivial⟩

end Steps

open Steps in
/-- Behind `except` a name is written as it is, though nothing binds it. -/
theorem Run.synthesize_canonical_except :
    (build ⟨0⟩ keptModule).1.link.1.synthesize .default .whole =
      some ⟨"def f(a, b=0):\n    return a\ntry:\n    f(1, b=2)\nexcept ValueError:\n    pass\n", []⟩ := by
  have htext : printModule .default keptModule =
      "def f(a, b=0):\n    return a\ntry:\n    f(1, b=2)\nexcept ValueError:\n    pass\n" := by
    decide +kernel
  rw [← htext]
  exact synthesize_canonical (by decide +kernel) canonical_keptModule ⟨0⟩ .default
namespace Steps

/-- What may differ in a text that keeps all its parts: a name that is shown as another one of the
same import, the spelling of a literal, the order of keywords, and blanks around the text of a
header. -/
def keeping (all : List Step) : Likeness where
  name a b := a = b ∨ ∃ sketch ∈ sketches all, ∃ names,
    sketch.content = .plain (.importStmt names) ∧ a ∈ names ∧ b ∈ names
  literal a b := b = Literal.text a
  arguments args order := ∃ ks, order = Arg.row (Given.positional (Arg.givens args)) ks ∧
    ∀ k, k ∈ ks ↔ k ∈ Given.keywords (Arg.givens args)
  header _ text written := written = text ∨ written = Text.trim text

/-- Whether a missing value is reported, or written from the text of its header. -/
def reports (all : List Step) (port : Port) : Bool :=
  match port.kind with
  | .operand _ | .attributeValue | .accessValue | .accessKey | .iteratesOn => true
  | .input =>
    match (sketches all)[port.target]?.map Sketch.content with
    | some (.plain .returnStmt) => false
    | _ => true
  | _ => false

/-- A step that loses nothing in silence: an argument, an element, a key or a value of a dictionary,
an assigned or returned value is no unbound name, and no argument of a call gets in the way of
another one. -/
def Kept (all before : List Step) : Step → Prop
  | .read name w outer port => resolve before (w :: outer) name = none → reports all port = true
  | .node ⟨_, label, .call isMethod args⟩ =>
    ((Given.keywords (Arg.givens args)).map Prod.fst).Nodup ∧
      let params := boundParams all (openPath before) isMethod label
        (Given.suggested (Arg.givens args))
      Param.Takes True ((Given.keywords (Arg.givens args)).map Prod.fst) (Param.hasSlash params)
        (Given.positional (Arg.givens args)).length params
  | _ => True

theorem tolerates_of_reports {all : List Step} {port : Port} (h : reports all port = true)
    (name : String) : Tolerates (keeping all) False all name port := by
  unfold reports at h
  unfold Tolerates
  split
  · exact not_false
  · exact not_false
  · exact not_false
  · exact not_false
  · exact ⟨not_false, fun text => .inr rfl⟩
  · rename_i hkind
    simp only [hkind] at h
    split
    · exact .inl rfl
    · rename_i hs
      simp [hs] at h
    · exact ⟨not_false, fun text => .inr rfl⟩
  · split at h <;> simp_all

theorem sound_keeping (h : Every (Kept (ofModule module)) [] (ofModule module)) :
    Sound (keeping (ofModule module)) False (ofModule module) := by
  constructor
  · intro before after name w outer port o hall ho
    exact (shownName_cases hall ho).imp_left Eq.symm
  · intro before after name w outer port hall hr
    have hread : Kept (ofModule module) ([] ++ before) (.read name w outer port) := h.split hall
    exact tolerates_of_reports (hread hr) name
  · intro sketch hs hc
    rfl
  · intro before after w label isMethod args hall
    have hcall : Kept (ofModule module) ([] ++ before) (.node ⟨w, label, .call isMethod args⟩) :=
      h.split hall
    obtain ⟨hk, ht⟩ := hcall
    constructor
    · exact hk
    · rw [not_false_eq_true]
      exact ht
    · rw [Arg.arranged_eq]
      exact ⟨_, rfl, fun k => Given.mem_sorted hk⟩

end Steps

open Steps in
/-- A text that is written without a report has every part of the module at its place. -/
theorem Run.synthesize_keeps {module : List Stmt} (hp : Stmt.arePlain module = true)
    (h : Every (Kept (Steps.ofModule module)) [] (Steps.ofModule module)) (supply : Supply)
    (style : CodeStyle) :
    ∃ s, (build supply module).1.link.1.synthesize style .whole = some s ∧
      (s.isComplete = true → ∃ module', Stmt.AllLike (keeping (Steps.ofModule module)) module module' ∧
        s.source = printModule style module') := by
  obtain ⟨s, hs, hlike, -⟩ := synthesize_writes (sound_keeping h) hp supply style
  exact ⟨s, hs, hlike⟩

namespace Steps

/-- A condition that is bound nowhere, and two names of one import. -/
def shownModule : List Stmt :=
  [.import "from m import a, b" ["a", "b"],
    .branch ⟨"t", .name "t"⟩ [.eval (.call "f" [.keyword "k" (.name "a"), .positional (.name "b")])]
      .done]

theorem kept_shownModule : Every (Kept (ofModule shownModule)) [] (ofModule shownModule) := by
  have htakes : Param.Takes True ["k"] false 1 [.required "arg0", .required "k"] :=
    ⟨.inr (by decide), .inl trivial, trivial⟩
  exact ⟨trivial, trivial, trivial, trivial, fun _ => rfl, trivial, ⟨by decide, htakes⟩, nofun,
    nofun, trivial, trivial⟩

end Steps

open Steps in
/-- The second name of the import is shown as the first, and the keyword comes last. -/
theorem Run.synthesize_keeps_shown :
    (build ⟨0⟩ shownModule).1.link.1.synthesize .default .whole =
        some ⟨"from m import a, b\nif t:\n    f(a, k=a)\n", []⟩ ∧
      ∃ module', Stmt.AllLike (keeping (Steps.ofModule shownModule)) shownModule module' ∧
        "from m import a, b\nif t:\n    f(a, k=a)\n" = printModule .default module' := by
  have hs : (build ⟨0⟩ shownModule).1.link.1.synthesize .default .whole =
      some ⟨"from m import a, b\nif t:\n    f(a, k=a)\n", []⟩ := by
    decide +kernel
  obtain ⟨s, hs', hlike⟩ := synthesize_keeps (by decide +kernel) kept_shownModule ⟨0⟩ .default
  obtain rfl := Option.some.inj (hs.symm.trans hs')
  exact ⟨hs, hlike rfl⟩

/-- An element that is an unbound name is lost without a report. -/
theorem Run.synthesize_loses_element :
    Stmt.arePlain [.assign "xs" (.list [.name "y"])] = true ∧
      (build ⟨0⟩ [.assign "xs" (.list [.name "y"])]).1.link.1.synthesize .default .whole =
        some ⟨"xs = []\n", []⟩ ∧
      ¬ ∃ module', Stmt.AllLike (Steps.keeping (Steps.ofModule [.assign "xs" (.list [.name "y"])]))
        [.assign "xs" (.list [.name "y"])] module' ∧
          "xs = []\n" = printModule .default module' := by
  refine ⟨by decide +kernel, by decide +kernel, ?_⟩
  rintro ⟨module', hlike, htext⟩
  cases hlike with
  | cons ha hrest =>
    cases hrest
    cases ha with
    | assign name he =>
      cases he with
      | list hitems =>
        cases hitems with
        | cons hy hnone =>
          cases hnone
          cases hy with
          | name hname =>
            rcases hname with rfl | ⟨sketch, hs, names, hc, -⟩
            · exact absurd htext (by decide +kernel)
            · simp [Steps.ofModule, Steps.statements, Steps.statement, Steps.expr, Steps.place,
                Steps.elements, Steps.sketch?] at hs
              rcases hs with rfl | rfl
              · cases hc
              · cases hc

end ScopedFlow
