import Mathlib.Data.List.Induction
import ScopedFlow.Proofs.Shapes

/-!
# What the steps of a tree may rely on

Every step is admissible after the steps before it: it mentions only numbers that are in use, stands
in the world that is open, binds a name only to a node that carries the name, and opens a body only
once.
-/

namespace ScopedFlow

def Sketch.Names (sketch : Sketch) (name : String) : Prop :=
  (sketch.content.payload 0).Binds sketch.label name

def Sketch.Owns (sketch : Sketch) : Prop := (sketch.content.payload 0).kind.ownsWorld = true

namespace Steps

variable {ts : List Step} {n : Nat} {source : Option Nat}

def turn (path : List Place) : Step → List Place
  | .enter body => body :: path
  | .leave => path.tail
  | _ => path

/-- The worlds that are open after some steps, the innermost first. -/
def openPath (ss : List Step) : List Place := ss.foldl turn [.root]

@[simp] theorem openPath_nil : openPath [] = [.root] := rfl

@[simp] theorem openPath_snoc (ss : List Step) (s : Step) :
    openPath (ss ++ [s]) = turn (openPath ss) s := by
  simp [openPath]

inductive Admissible (before : List Step) : Step → Prop where
  | node {w : Place} {outer : List Place} (label : String) {content : Content}
    (path : openPath before = w :: outer)
    (plain : ∀ names, content ≠ .plain (.importStmt names)) :
    Admissible before (.node ⟨w, label, content⟩)
  | importNode (label : String) (names : List String) :
    Admissible before (.node ⟨.imports, label, .plain (.importStmt names)⟩)
  | wire {source : Nat} {port : Port} (hs : source < count before)
    (ht : port.target < count before) : Admissible before (.wire source port)
  | read (name : String) {w : Place} {outer : List Place} {port : Port}
    (path : openPath before = w :: outer) (ht : port.target < count before) :
    Admissible before (.read name w outer port)
  | bind {name : String} {body home : Place} {outer : List Place} {n : Nat} {sketch : Sketch}
    (path : openPath before = body :: outer) (hn : (sketches before)[n]? = some sketch)
    (hh : sketch.home = home) (hs : sketch.Names name) : Admissible before (.bind name body n home)
  | enter {w : Place} {outer : List Place} {k : Nat} {sketch : Sketch}
    (path : openPath before = w :: outer) (hk : (sketches before)[k]? = some sketch)
    (home : sketch.home = w) (owns : sketch.Owns) (once : .enter (.body k) ∉ before) :
    Admissible before (.enter (.body k))
  | leave {w v : Place} {outer : List Place} (path : openPath before = w :: v :: outer) :
    Admissible before .leave

inductive WellFormed : List Step → Prop where
  | nil : WellFormed []
  | snoc {ss : List Step} {s : Step} : WellFormed ss → Admissible ss s → WellFormed (ss ++ [s])

theorem lt_count_of_sketch {ss : List Step} {k : Nat} {sketch : Sketch}
    (h : (sketches ss)[k]? = some sketch) : k < count ss := by
  obtain ⟨hk, -⟩ := List.getElem?_eq_some_iff.mp h
  exact hk

theorem sketch_append {ss : List Step} {k : Nat} {sketch : Sketch}
    (h : (sketches ss)[k]? = some sketch) (ts : List Step) :
    (sketches (ss ++ ts))[k]? = some sketch := by
  rw [sketches_append, List.getElem?_append_left (lt_count_of_sketch h), h]

theorem sketch_here (ss : List Step) (sketch : Sketch) (ts : List Step) :
    (sketches (ss ++ .node sketch :: ts))[count ss]? = some sketch := by
  simp [count, sketch?]

theorem node_of_sketch {ss : List Step} {k : Nat} {sketch : Sketch}
    (h : (sketches ss)[k]? = some sketch) :
    ∃ front back, ss = front ++ .node sketch :: back ∧ count front = k := by
  induction ss generalizing k with
  | nil => simp at h
  | cons s ss ih =>
    have hskip (hs : sketch? s = none) :
        ∃ front back, s :: ss = front ++ .node sketch :: back ∧ count front = k := by
      rw [sketches_cons, hs, Option.toList_none, List.nil_append] at h
      obtain ⟨front, back, rfl, hc⟩ := ih h
      exact ⟨s :: front, back, rfl, by simp [hs, hc]⟩
    cases s with
    | node other =>
      cases k with
      | zero =>
        obtain rfl : other = sketch := Option.some.inj h
        exact ⟨[], ss, rfl, rfl⟩
      | succ k =>
        obtain ⟨front, back, rfl, hc⟩ := ih h
        exact ⟨.node other :: front, back, rfl, by simp [sketch?, hc, Nat.add_comm]⟩
    | _ => exact hskip rfl

theorem WellFormed.of_append {ss : List Step} (h : WellFormed (ss ++ ts)) : WellFormed ss := by
  induction ts using List.reverseRecOn with
  | nil => simpa using h
  | append_singleton ts t ih =>
    apply ih
    rw [← List.append_assoc] at h
    generalize hu : ss ++ ts ++ [t] = us at h
    cases h with
    | nil => simp at hu
    | snoc h' _ =>
      obtain ⟨rfl, -⟩ := List.append_inj' hu rfl
      exact h'

theorem WellFormed.admissible {ss : List Step} (h : WellFormed ss) {before after : List Step}
    {s : Step} (hs : ss = before ++ s :: after) : Admissible before s := by
  subst hs
  rw [List.append_cons] at h
  have h' := h.of_append
  generalize hu : before ++ [s] = us at h'
  cases h' with
  | nil => simp at hu
  | snoc _ ha =>
    obtain ⟨rfl, hs⟩ := List.append_inj' hu rfl
    obtain rfl := List.singleton_inj.mp hs
    exact ha

theorem WellFormed.enter_lt {ss : List Step} (h : WellFormed ss) {p : Place}
    (hp : .enter p ∈ ss) : ∃ k, p = .body k ∧ k < count ss := by
  obtain ⟨before, after, rfl⟩ := List.append_of_mem hp
  cases h.admissible rfl with
  | enter path hk home owns once =>
    refine ⟨_, rfl, ?_⟩
    have hlt := lt_count_of_sketch hk
    rw [count_append]
    omega

/-- Steps that neither bind a name nor open or close a body. -/
def quiet : Step → Bool
  | .node _ | .wire _ _ | .read _ _ _ _ => true
  | _ => false

def Quiet (ss : List Step) : Prop := ss.all quiet = true

theorem Quiet.append {ss : List Step} (hs : Quiet ss) (ht : Quiet ts) : Quiet (ss ++ ts) := by
  rw [Quiet, List.all_append, hs, ht]
  rfl

theorem Quiet.of_mem {ss : List Step} (h : Quiet ss) {s : Step} (hs : s ∈ ss) : quiet s = true :=
  List.all_eq_true.mp h s hs

theorem quiet_nil : Quiet [] := rfl

theorem quiet_place (w : Place) (label : String) (content : Content) (k : Nat)
    (port : Option Port) : Quiet (place w label content k port) := by
  cases port <;> simp [Quiet, place, quiet]

theorem Feeds.quiet {w : Place} {outer : List Place} {K : EdgeKind → Prop} {target : Option Nat}
    {k : Nat} {ss : List Step} (h : Feeds w outer K target k ss) : Quiet ss := by
  induction h with
  | nil => exact quiet_nil
  | append _ _ ih ih' => exact ih.append ih'
  | read => rfl
  | node _ _ _ ih => exact (quiet_place ..).append ih

theorem quiet_expr (w : Place) (outer : List Place) (port : Option Port) (k : Nat) (e : Expr) :
    Quiet (expr w outer port k e) := (feeds_port port k e).quiet

theorem openPath_quiet (ss : List Step) (h : Quiet ts) : openPath (ss ++ ts) = openPath ss := by
  induction ts using List.reverseRecOn with
  | nil => simp
  | append_singleton ts t ih =>
    have ht := h.of_mem (s := t) (by simp)
    have hts : Quiet ts := List.all_eq_true.mpr fun s hs => h.of_mem (by simp [hs])
    rw [← List.append_assoc, openPath_snoc, ih hts]
    cases t <;> simp_all [turn, quiet]

/-- Well formed steps after which `k` is the next number and the world `w` inside `outer` is open. -/
structure Stands (before : List Step) (k : Nat) (w : Place) (outer : List Place) : Prop where
  wellFormed : WellFormed before
  count : count before = k
  path : openPath before = w :: outer

namespace Stands

variable {before : List Step} {k : Nat} {w : Place} {outer : List Place} {ss : List Step}

theorem quiet (h : Stands before k w outer) (hs : Quiet ss) (hw : WellFormed (before ++ ss)) :
    Stands (before ++ ss) (k + Steps.count ss) w outer :=
  ⟨hw, by rw [count_append, h.count], by rw [openPath_quiet before hs, h.path]⟩

theorem append (h : Stands before k w outer) {v : Place} {rest : List Place}
    (h' : Stands (before ++ ss) n v rest) : Stands (before ++ ss) (k + Steps.count ss) v rest :=
  ⟨h'.wellFormed, by rw [count_append, h.count], h'.path⟩

theorem node (h : Stands before k w outer) (label : String) (content : Content)
    (plain : ∀ names, content ≠ .plain (.importStmt names)) :
    Stands (before ++ [.node ⟨w, label, content⟩]) (k + 1) w outer :=
  h.quiet (by rfl) (.snoc h.wellFormed (.node label h.path plain))

theorem wire (h : Stands before k w outer) {source target : Nat} (hs : source < k)
    (ht : target < k) (kind : EdgeKind) : Stands (before ++ [.wire source ⟨target, kind⟩]) k w outer :=
  h.quiet (by rfl) (.snoc h.wellFormed (.wire (h.count ▸ hs) (h.count ▸ ht)))

theorem read (h : Stands before k w outer) (name : String) {port : Port} (ht : port.target < k) :
    Stands (before ++ [.read name w outer port]) k w outer :=
  h.quiet (by rfl) (.snoc h.wellFormed (.read name h.path (h.count ▸ ht)))

theorem bind (h : Stands before k w outer) {name : String} {n : Nat} {sketch : Sketch}
    (hn : (sketches before)[n]? = some sketch) (hs : sketch.Names name) :
    Stands (before ++ [.bind name w n sketch.home]) k w outer :=
  ⟨.snoc h.wellFormed (.bind h.path hn rfl hs), by simp [h.count, sketch?], by simp [turn, h.path]⟩

theorem place (h : Stands before k w outer) (label : String) (content : Content)
    (plain : ∀ names, content ≠ .plain (.importStmt names)) {port : Option Port}
    (hp : ∀ p ∈ port, p.target < k) :
    Stands (before ++ place w label content k port) (k + 1) w outer := by
  have hn := h.node label content plain
  cases port with
  | none => exact hn
  | some port =>
    have hlt : port.target < k + 1 := Nat.lt_succ_of_lt (hp port rfl)
    have hw := hn.wire (Nat.lt_succ_self k) hlt port.kind
    rwa [List.append_assoc] at hw

theorem not_entered (h : Stands before k w outer) : .enter (.body k) ∉ before := by
  intro hm
  obtain ⟨j, hj, hlt⟩ := h.wellFormed.enter_lt hm
  rw [h.count, ← Place.body.inj hj] at hlt
  exact Nat.lt_irrefl k hlt

theorem not_entered_quiet (h : Stands before k w outer) (hs : Quiet ss) :
    .enter (.body k) ∉ before ++ ss := by
  intro hm
  rcases List.mem_append.mp hm with hm | hm
  · exact h.not_entered hm
  · exact Bool.noConfusion (hs.of_mem hm)

end Stands

theorem port_lt {k : Nat} (h : n < k) (kind : EdgeKind) :
    ∀ p ∈ some (⟨n, kind⟩ : Port), p.target < k := of_mem_some h

variable {w : Place} {outer : List Place}

theorem Feeds.stands {before ss : List Step} {K : EdgeKind → Prop} {target : Option Nat} {k : Nat}
    (f : Feeds w outer K target k ss) (h : Stands before k w outer) (ht : ∀ n ∈ target, n < k) :
    Stands (before ++ ss) (k + count ss) w outer := by
  induction f generalizing before with
  | nil => simpa using h
  | append _ _ ih ih' =>
    have h2 := ih' (ih h ht) fun n hn => Nat.lt_add_right _ (ht n hn)
    rw [List.append_assoc] at h2
    exact h.append h2
  | read name _ _ => exact h.read name (ht _ rfl)
  | @node e label content made port _ k _ ih =>
    have h1 := h.place label content (Content.ne_import (isPart_of_face made))
      fun p (hp : p ∈ port) => ht _ (Option.mem_map_of_mem _ hp)
    have h2 := ih h1 fun n hn => Option.mem_some.mp hn ▸ Nat.lt_succ_self k
    rw [List.append_assoc] at h2
    exact h.append h2

theorem Stands.sketch {before : List Step} {k : Nat} (h : Stands before k w outer)
    (sketch : Sketch) (ss : List Step) :
    (sketches (before ++ .node sketch :: ss))[k]? = some sketch := by
  rw [← h.count]
  exact sketch_here before sketch ss

theorem stands_header {before : List Step} {k : Nat} (h : Stands before k w outer)
    (names : List (String × Bool)) :
    Stands (before ++ header w k names) (k + count (header w k names)) w outer := by
  induction names generalizing before k with
  | nil => simpa [header] using h
  | cons p names ih =>
    obtain ⟨name, optional⟩ := p
    have h1 := h.node name (.param optional) (by simp)
    have h2 := h1.bind (h.sketch ⟨w, name, .param optional⟩ []) rfl
    have h3 := ih h2
    simp only [List.append_assoc] at h3
    exact h.append h3

theorem stands_enclosed {before : List Step} {k : Nat} {sketch : Sketch}
    (h : Stands before n w outer) (inner : List Step) (hk : (sketches before)[k]? = some sketch)
    (home : sketch.home = w) (owns : sketch.Owns) (once : .enter (.body k) ∉ before)
    (hin : ∀ {before'}, Stands before' n (.body k) (w :: outer) →
      Stands (before' ++ inner) (n + count inner) (.body k) (w :: outer)) :
    Stands (before ++ enclosed k inner) (n + count (enclosed k inner)) w outer := by
  have h1 : Stands (before ++ [.enter (.body k)]) n (.body k) (w :: outer) :=
    ⟨.snoc h.wellFormed (.enter h.path hk home owns once), by simp [h.count, sketch?],
      by simp [turn, h.path]⟩
  have h2 := hin h1
  have h3 : WellFormed (before ++ enclosed k inner) := by
    simpa only [enclosed, List.append_assoc] using h2.wellFormed.snoc (.leave h2.path)
  refine ⟨h3, by rw [count_append, h.count], ?_⟩
  simp only [enclosed, ← List.append_assoc, openPath_snoc, h2.path, turn, List.tail_cons]

theorem stands_binds {before : List Step} {k : Nat} {sketch : Sketch} (h : Stands before k w outer)
    (hn : (sketches before)[n]? = some sketch) (names : List String)
    (hs : ∀ name ∈ names, sketch.Names name) :
    Stands (before ++ names.map fun name => .bind name w n sketch.home) k w outer := by
  induction names generalizing before with
  | nil => simpa using h
  | cons name names ih =>
    have h1 := h.bind hn (hs name (by simp))
    have h2 := ih h1 (sketch_append hn _) fun other ho => hs other (by simp [ho])
    rwa [List.append_assoc] at h2

theorem Preamble.stands {before mid : List Step} {label : String} {payload : Payload} {k : Nat}
    (p : Preamble w outer label payload source k mid) (h : Stands before (k + 1) w outer)
    (hk : (sketches before)[k]? = some ⟨w, label, .plain payload⟩) (hs : ∀ j ∈ source, j < k) :
    Stands (before ++ mid) (k + 1 + count mid) w outer := by
  have hself : ∀ n ∈ some k, n < k + 1 := of_mem_some (Nat.lt_succ_self k)
  cases p with
  | names binds => exact h.append (h.bind hk binds)
  | feeds parts => exact parts.stands h hself
  | behind ho index parts =>
    have h1 := h.wire (Nat.lt_succ_of_lt (hs _ ho)) (Nat.lt_succ_self k) (.nextClause (some index))
    have h2 := parts.stands h1 hself
    rw [List.append_assoc] at h2
    exact h.append h2

theorem Preamble.not_entered {mid : List Step} {label : String} {payload : Payload} {k : Nat}
    (p : Preamble w outer label payload source k mid) (b : Place) : .enter b ∉ mid := by
  intro hm
  cases p with
  | names => simp at hm
  | feeds parts => exact Bool.noConfusion (parts.quiet.of_mem hm)
  | behind ho index parts =>
    rcases List.mem_append.mp hm with hm | hm
    · simp at hm
    · exact Bool.noConfusion (parts.quiet.of_mem hm)

/-- By induction on the shape; the clause that the first one follows has a number already. -/
theorem Suite.stands {before ss : List Step} {k : Nat} (s : Suite w outer source k ss)
    (h : Stands before k w outer) (hs : ∀ j ∈ source, j < k) :
    Stands (before ++ ss) (k + count ss) w outer := by
  induction s generalizing before with
  | nil => simpa using h
  | append _ hnext _ ih ih' =>
    have h1 := ih h hs
    have h2 := ih' h1 fun j hj => (hnext j hj).elim (fun hj => Nat.lt_add_right _ (hs j hj)) And.right
    rw [List.append_assoc] at h2
    exact h.append h2
  | plain source label hc parts =>
    have h1 := h.node label _ fun names => hc.elim (Content.ne_import · names) (by rintro rfl; simp)
    have h2 := parts.stands h1 (of_mem_some (Nat.lt_succ_self _))
    rw [List.append_assoc] at h2
    exact h.append h2
  | write source name parts =>
    have h1 := h.node name .write (by simp)
    have h2 := parts.stands h1 (of_mem_some (Nat.lt_succ_self _))
    have h3 := h2.bind (sketch_append (h.sketch ⟨_, name, .write⟩ []) _) rfl
    simp only [List.append_assoc] at h3
    exact h.append h3
  | imports w outer source k text names =>
    have hk := h.sketch ⟨.imports, text, .plain (.importStmt names)⟩ []
    have h1 : Stands (before ++ [.node ⟨.imports, text, .plain (.importStmt names)⟩]) (k + 1)
        w outer := h.quiet rfl (h.wellFormed.snoc (.importNode text names))
    have h2 := stands_binds h1 hk names fun name hn => hn
    rw [List.append_assoc] at h2
    exact h.append h2
  | @block w outer source k label payload owns mid preamble names inner _ ih =>
    have hk := h.sketch ⟨w, label, .plain payload⟩ []
    have h1 := h.node label (.plain payload) (by rintro names ⟨⟩; cases owns)
    have h2 := preamble.stands h1 hk hs
    have honce : .enter (.body k) ∉ before ++ [.node ⟨w, label, .plain payload⟩] ++ mid := by
      intro hm
      rcases List.mem_append.mp hm with hm | hm
      · exact h.not_entered_quiet (quiet_place w label (.plain payload) k none) hm
      · exact preamble.not_entered _ hm
    have h3 := stands_enclosed h2 _ (sketch_append hk _) rfl owns honce fun hb => hb.append (by
      have hi := ih (stands_header hb names) (by simp)
      rwa [List.append_assoc] at hi)
    simp only [List.append_assoc] at h3
    exact h.append h3
  | @joined w outer source k ss previous hp made _ ih =>
    have h1 := ih h hs
    have h2 := h1.wire (Nat.lt_trans (hs _ hp) made) made (.nextClause none)
    rw [List.append_assoc] at h2
    exact h.append h2

theorem stands_statement {before : List Step} {k : Nat} (h : Stands before k w outer)
    (stmt : Stmt) : Stands (before ++ statement w outer k stmt)
      (k + count (statement w outer k stmt)) w outer :=
  (suite_statement w outer k stmt).stands h (by simp)

theorem stands_statements {before : List Step} {k : Nat} (h : Stands before k w outer)
    (stmts : List Stmt) : Stands (before ++ statements w outer k stmts)
      (k + count (statements w outer k stmts)) w outer :=
  (suite_statements w outer k stmts).stands h (by simp)

theorem wellFormed_ofModule (module : List Stmt) : WellFormed (ofModule module) := by
  have h : Stands [] 0 .root [] := ⟨.nil, rfl, rfl⟩
  exact (stands_statements h module).wellFormed

end Steps

end ScopedFlow
