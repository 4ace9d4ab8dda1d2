import ScopedFlow.Proofs.Admissible
import ScopedFlow.Proofs.Identity

/-!
# What names mean by the text alone

A read goes to the innermost world around it whose body has bound the name before it, and there to
the last such binding. From this follow the nodes and edges that a text asks for, again without any
table: a world that reads a node of another world has one node that stands in for it, made at the
first such read.
-/

namespace ScopedFlow

/-- A binding: the number of its node, and the world that the node lives in. -/
structure Origin where
  node : Nat
  home : Place
  deriving DecidableEq, Repr

/-- A node as the text knows it: one with a number, or the one that stands in a world for a
numbered node of another world. -/
inductive Ref where
  | node (number : Nat)
  | proxy (world : Place) (origin : Nat)
  deriving DecidableEq, Repr

/-- What a read in a world is wired to. -/
def Origin.ref (o : Origin) (w : Place) : Ref := if o.home = w then .node o.node else .proxy w o.node

/-- The need for a stand-in, with the name that was read. -/
structure StandIn where
  name : String
  world : Place
  origin : Origin
  deriving DecidableEq, Repr

def StandIn.ref (s : StandIn) : Ref := .proxy s.world s.origin.node

structure Link where
  source : Ref
  target : Ref
  kind : EdgeKind
  deriving DecidableEq, Repr

/-- A node that the text asks for, by itself or for a read. -/
inductive Item where
  | made (number : Nat) (sketch : Sketch) (version : Nat)
  | proxy (s : StandIn)
  deriving Repr

namespace Item

def ref : Item → Ref
  | made number _ _ => .node number
  | proxy s => s.ref

def home : Item → Place
  | made _ sketch _ => sketch.home
  | proxy s => s.world

def label : Item → String
  | made _ sketch _ => sketch.label
  | proxy s => s.name

end Item

namespace Steps

variable {ss before : List Step} {k : Nat} {name : String} {o : Origin} {s : StandIn}

/-- The binding that a step makes, if it is one of a name in a body. -/
def origin? (body : Place) (name : String) : Step → Option Origin
  | .bind other maker node home =>
    if maker = body ∧ other = name then some ⟨node, home⟩ else none
  | _ => none

/-- What a body has bound a name to, in the order of the text. -/
def bindings (before : List Step) (body : Place) (name : String) : List Origin :=
  before.filterMap (origin? body name)

/-- The last binding of a name in the innermost world that has one. -/
def resolve (before : List Step) (path : List Place) (name : String) : Option Origin :=
  path.findSome? fun body => (bindings before body name).getLast?

/-- What each step adds, given the steps before it. -/
def collect {β : Type} (f : List Step → Step → List β) : List Step → List Step → List β
  | _, [] => []
  | before, s :: ss => f before s ++ collect f (before ++ [s]) ss

/-- The stand-in that a step needs. -/
def needs (before : List Step) : Step → List StandIn
  | .read name w outer _ =>
    match resolve before (w :: outer) name with
    | some o => if o.home = w then [] else [⟨name, w, o⟩]
    | none => []
  | _ => []

/-- All needs for stand-ins, in the order of the text. -/
def needed (ss : List Step) : List StandIn := collect needs [] ss

/-- The stand-in that a step needs as the first one. -/
def introduces (before : List Step) (s : Step) : List StandIn :=
  (needs before s).filter fun n => n.ref ∉ (needed before).map StandIn.ref

def asks (before : List Step) : Step → List Item
  | .node sketch =>
    [.made (count before) sketch ((bindings before sketch.home sketch.label).length + 1)]
  | s => (introduces before s).map .proxy

/-- The edges that a step asks for. -/
def joins (before : List Step) : Step → List Link
  | .wire source port => [⟨.node source, .node port.target, port.kind⟩]
  | .read name w outer port =>
    ((introduces before (.read name w outer port)).map fun s =>
      ⟨.node s.origin.node, s.ref, .closureOf⟩) ++
    (resolve before (w :: outer) name).toList.map fun o =>
      ⟨o.ref w, .node port.target, port.kind⟩
  | _ => []

def items (ss : List Step) : List Item := collect asks [] ss

def links (ss : List Step) : List Link := collect joins [] ss

section Collect

variable {β : Type} (f : List Step → Step → List β)

@[simp] theorem collect_nil (before : List Step) : collect f before [] = [] := rfl

@[simp] theorem collect_cons (before : List Step) (s : Step) (ss : List Step) :
    collect f before (s :: ss) = f before s ++ collect f (before ++ [s]) ss := rfl

theorem collect_append (before ss ts : List Step) :
    collect f before (ss ++ ts) = collect f before ss ++ collect f (before ++ ss) ts := by
  induction ss generalizing before with
  | nil => simp
  | cons s ss ih => simp [ih]

theorem collect_snoc (ss : List Step) (s : Step) :
    collect f [] (ss ++ [s]) = collect f [] ss ++ f ss s := by
  simp [collect_append]

variable {f} in
theorem mem_collect {b : β} (h : b ∈ collect f before ss) :
    ∃ front s back, ss = front ++ s :: back ∧ b ∈ f (before ++ front) s := by
  induction ss generalizing before with
  | nil => simp at h
  | cons s ss ih =>
    rcases List.mem_append.mp h with h | h
    · exact ⟨[], s, ss, rfl, by simpa using h⟩
    · obtain ⟨front, t, back, rfl, hb⟩ := ih h
      exact ⟨s :: front, t, back, rfl, by simpa using hb⟩

end Collect

@[simp] theorem bindings_snoc (ss : List Step) (s : Step) (body : Place) (name : String) :
    bindings (ss ++ [s]) body name = bindings ss body name ++ (origin? body name s).toList := by
  cases h : origin? body name s <;> simp [bindings, h]

theorem needed_snoc (ss : List Step) (s : Step) : needed (ss ++ [s]) = needed ss ++ needs ss s :=
  collect_snoc needs ss s

theorem items_append (ss ts : List Step) : items (ss ++ ts) = items ss ++ collect asks ss ts :=
  collect_append asks [] ss ts

theorem links_append (ss ts : List Step) : links (ss ++ ts) = links ss ++ collect joins ss ts :=
  collect_append joins [] ss ts

theorem items_snoc (ss : List Step) (s : Step) : items (ss ++ [s]) = items ss ++ asks ss s :=
  collect_snoc asks ss s

theorem links_snoc (ss : List Step) (s : Step) : links (ss ++ [s]) = links ss ++ joins ss s :=
  collect_snoc joins ss s

theorem mem_openPath {p : Place} (h : p ∈ openPath ss) : p = .root ∨ .enter p ∈ ss := by
  induction ss using List.reverseRecOn with
  | nil => exact .inl (by simpa using h)
  | append_singleton ss s ih =>
    rw [openPath_snoc] at h
    have hs : p ∈ openPath ss ∨ s = .enter p := by
      cases s with
      | enter body =>
        rcases List.mem_cons.mp h with rfl | h
        · exact .inr rfl
        · exact .inl h
      | leave => exact .inl (List.mem_of_mem_tail h)
      | node sketch => exact .inl h
      | wire source port => exact .inl h
      | read name w outer port => exact .inl h
      | bind name body node home => exact .inl h
    rcases hs with h | rfl
    · exact (ih h).imp_right (List.mem_append_left _)
    · exact .inr (by simp)

theorem WellFormed.below_path (h : WellFormed ss) {p : Place} (hp : p ∈ openPath ss) :
    p.Below (count ss) := by
  rcases mem_openPath hp with rfl | hp
  · trivial
  · obtain ⟨k, rfl, hk⟩ := h.enter_lt hp
    exact hk

theorem WellFormed.ne_imports (h : WellFormed ss) {p : Place} (hp : p ∈ openPath ss) :
    p ≠ .imports := by
  rintro rfl
  rcases mem_openPath hp with hr | he
  · cases hr
  · obtain ⟨k, hk, -⟩ := h.enter_lt he
    cases hk

theorem WellFormed.home_below (h : WellFormed ss) {sketch : Sketch}
    (hs : (sketches ss)[k]? = some sketch) : sketch.home.Below k := by
  obtain ⟨front, back, rfl, hk⟩ := node_of_sketch hs
  cases h.admissible rfl with
  | node label path plain => exact hk ▸ h.of_append.below_path (by simp [path])
  | importNode label names => trivial

theorem WellFormed.below_home (h : WellFormed ss) {sketch : Sketch}
    (hs : (sketches ss)[k]? = some sketch) : sketch.home.Below (count ss) :=
  (h.home_below hs).mono (Nat.le_of_lt (List.getElem?_eq_some_iff.mp hs).1)

theorem WellFormed.home_eq_imports (h : WellFormed ss) {sketch : Sketch}
    (hs : (sketches ss)[k]? = some sketch) :
    sketch.home = .imports ↔ ∃ names, sketch.content = .plain (.importStmt names) := by
  obtain ⟨front, back, rfl, -⟩ := node_of_sketch hs
  cases h.admissible rfl with
  | node label path plain =>
    exact iff_of_false (h.of_append.ne_imports (by simp [path])) fun ⟨names, hc⟩ => plain names hc
  | importNode label names => exact iff_of_true rfl ⟨names, rfl⟩

theorem WellFormed.nodup_openPath (h : WellFormed ss) : (openPath ss).Nodup := by
  induction h with
  | nil => simp
  | @snoc ss s h ha ih =>
    rw [openPath_snoc]
    cases ha with
    | enter path hk home owns once =>
      refine List.nodup_cons.mpr ⟨fun hm => ?_, ih⟩
      rcases mem_openPath hm with hr | he
      · cases hr
      · exact once he
    | leave path => exact ih.tail
    | _ => exact ih

theorem mem_bindings {body : Place} (h : o ∈ bindings ss body name) :
    .bind name body o.node o.home ∈ ss := by
  obtain ⟨s, hs, ho⟩ := List.mem_filterMap.mp h
  cases s with
  | bind other maker node home =>
    simp only [origin?] at ho
    split at ho
    · obtain ⟨rfl, rfl⟩ := ‹_ ∧ _›
      obtain rfl := Option.some.inj ho
      exact hs
    · cases ho
  | _ => simp [origin?] at ho

theorem WellFormed.bindings_eq_nil (h : WellFormed ss) (hk : .enter (.body k) ∉ ss) (name : String) :
    bindings ss (.body k) name = [] := by
  refine List.eq_nil_iff_forall_not_mem.mpr fun o ho => hk ?_
  obtain ⟨front, back, rfl⟩ := List.append_of_mem (mem_bindings ho)
  cases h.admissible rfl with
  | bind path hn hh hs =>
    have hm : Place.body k ∈ openPath front := by simp [path]
    rcases mem_openPath hm with hr | he
    · cases hr
    · exact List.mem_append_left _ he

theorem mem_of_resolve {path : List Place} (h : resolve ss path name = some o) :
    ∃ body ∈ path, o ∈ bindings ss body name := by
  obtain ⟨body, hb, ho⟩ := List.exists_of_findSome?_eq_some h
  exact ⟨body, hb, List.mem_of_getLast? ho⟩

theorem WellFormed.sketch_of_resolve (h : WellFormed ss) {path : List Place}
    (hr : resolve ss path name = some o) :
    ∃ sketch, (sketches ss)[o.node]? = some sketch ∧ sketch.home = o.home ∧ sketch.Names name := by
  obtain ⟨body, -, ho⟩ := mem_of_resolve hr
  obtain ⟨front, back, hss⟩ := List.append_of_mem (mem_bindings ho)
  cases h.admissible hss with
  | bind path hn hh hs =>
    subst hss
    exact ⟨_, sketch_append hn _, hh, hs⟩

theorem needs_eq (before : List Step) (s : Step) :
    needs before s = [] ∨ ∃ name w outer port o, s = .read name w outer port ∧
      resolve before (w :: outer) name = some o ∧ o.home ≠ w ∧ needs before s = [⟨name, w, o⟩] := by
  cases s with
  | read name w outer port =>
    cases hr : resolve before (w :: outer) name with
    | none => exact .inl (by simp only [needs, hr])
    | some o =>
      by_cases ho : o.home = w
      · exact .inl (by simp only [needs, hr, if_pos ho])
      · exact .inr ⟨name, w, outer, port, o, rfl, hr, ho, by simp only [needs, hr, if_neg ho]⟩
  | _ => exact .inl rfl

theorem proxy_mem_asks {s : Step} {p : StandIn} :
    .proxy p ∈ asks before s ↔ p ∈ introduces before s := by
  cases s with
  | node sketch => simp [asks, introduces, needs]
  | _ => simp [asks]

theorem proxy_mem_items {p : StandIn} :
    .proxy p ∈ items ss ↔ (needed ss).find? (fun t => t.ref = p.ref) = some p := by
  induction ss using List.reverseRecOn with
  | nil => simp [items, needed]
  | append_singleton ss s ih =>
    rw [items_snoc, needed_snoc, List.mem_append, ih, proxy_mem_asks, List.find?_append]
    cases hf : (needed ss).find? (fun t => t.ref = p.ref) with
    | some t =>
      have ht : t.ref = p.ref := by simpa using List.find?_some hf
      have hnot : p ∉ introduces ss s := fun hp => by
        have hnew := (List.mem_filter.mp hp).2
        simp only [List.mem_map, not_exists, not_and, decide_eq_true_eq] at hnew
        exact hnew t (List.mem_of_find?_eq_some hf) ht
      simp [hnot]
    | none =>
      have hnone : p.ref ∉ (needed ss).map StandIn.ref := fun hm => by
        obtain ⟨t, ht, hr⟩ := List.mem_map.mp hm
        simpa [hr] using List.find?_eq_none.mp hf t ht
      have hin : p ∈ introduces ss s ↔ p ∈ needs ss s := by
        simp only [introduces, List.mem_filter, hnone, not_false_eq_true, decide_true, and_true]
      rw [hin]
      rcases needs_eq ss s with hn | ⟨name, w, outer, port, o, -, -, -, hn⟩
      · simp [hn]
      · simp only [hn, List.mem_singleton, reduceCtorEq, false_or, Option.none_or]
        constructor
        · rintro rfl
          simp
        · intro h
          exact (List.mem_singleton.mp (List.mem_of_find?_eq_some h))

theorem proxy_of_needed (h : s ∈ needed ss) :
    ∃ p, .proxy p ∈ items ss ∧ p.ref = s.ref ∧ p ∈ needed ss := by
  cases hf : (needed ss).find? (fun t => t.ref = s.ref) with
  | none => simpa using List.find?_eq_none.mp hf s h
  | some p =>
    have hp : p.ref = s.ref := by simpa using List.find?_some hf
    exact ⟨p, proxy_mem_items.mpr (hp ▸ hf), hp, List.mem_of_find?_eq_some hf⟩

theorem read_of_needed (h : s ∈ needed ss) :
    ∃ front outer port back, ss = front ++ .read s.name s.world outer port :: back ∧
      resolve front (s.world :: outer) s.name = some s.origin ∧ s.origin.home ≠ s.world := by
  obtain ⟨front, step, back, rfl, hn⟩ := mem_collect h
  rw [List.nil_append] at hn
  rcases needs_eq front step with he | ⟨name, w, outer, port, o, rfl, hr, ho, he⟩
  · simp [he] at hn
  · rw [he] at hn
    obtain rfl := List.mem_singleton.mp hn
    exact ⟨front, outer, port, back, rfl, hr, ho⟩

theorem needed_of_read {after : List Step} {w : Place} {outer : List Place} {port : Port}
    (ho : resolve before (w :: outer) name = some o) (hw : o.home ≠ w) :
    ⟨name, w, o⟩ ∈ needed (before ++ .read name w outer port :: after) := by
  have hneeds : needs before (.read name w outer port) = [⟨name, w, o⟩] := by
    simp only [needs, ho, if_neg hw]
  rw [needed, collect_append, collect_cons, List.nil_append, hneeds]
  simp

theorem WellFormed.sketch_of_needed (h : WellFormed ss) (hs : s ∈ needed ss) :
    ∃ sketch, (sketches ss)[s.origin.node]? = some sketch ∧
      sketch.home = s.origin.home ∧ sketch.Names s.name := by
  obtain ⟨front, outer, port, back, rfl, hr, -⟩ := read_of_needed hs
  obtain ⟨sketch, hsk, hrest⟩ := h.of_append.sketch_of_resolve hr
  exact ⟨sketch, sketch_append hsk _, hrest⟩

theorem WellFormed.bounds_of_needed (h : WellFormed ss) (hs : s ∈ needed ss) :
    s.world.Below (count ss) ∧ s.origin.node < count ss := by
  obtain ⟨sketch, hsk, -⟩ := h.sketch_of_needed hs
  refine ⟨?_, lt_count_of_sketch hsk⟩
  obtain ⟨front, outer, port, back, rfl, -, -⟩ := read_of_needed hs
  cases h.admissible rfl with
  | read _ path ht =>
    have hw : s.world ∈ openPath front := by simp [path]
    exact (h.of_append.below_path hw).mono (by simp)

end Steps

end ScopedFlow
