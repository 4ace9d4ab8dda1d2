import Mathlib.Data.List.Forall2
import ScopedFlow.Program
import ScopedFlow.Proofs.Bodies

/-!
# Versions by the text alone

The worlds of a graph are the module and the bodies that stand in it, in the order of the text. Each
world holds the variables that its body binds, and the version of a variable is one more than the
number of bindings of its name before it in that body.
-/

namespace ScopedFlow

/-- What binds a name. A definition or an import makes no variable. -/
inductive Binder where
  | param (optional : Bool)
  | write
  | other
  deriving DecidableEq, Repr

def Binder.makes? (version : Nat) : Binder → Option Variable
  | .param optional => some (.param version optional)
  | .write => some (.write version)
  | .other => none

structure WrittenBinding where
  name : String
  binder : Binder
  deriving DecidableEq, Repr

/-- The bindings of a statement in the world that it stands in. -/
def Stmt.bindings : Stmt → List WrittenBinding
  | .assign name _ | .augment name _ _ => [⟨name, .write⟩]
  | .function name _ _ | .class name _ _ => [⟨name, .other⟩]
  | .import _ names => names.map (⟨·, .other⟩)
  | _ => []

/-- A body with the names that its header binds. -/
structure WrittenBody where
  header : List (String × Bool)
  stmts : List Stmt
  deriving Repr

namespace WrittenBody

/-- The bindings of a body, without those of the bodies in it. -/
def bindings (b : WrittenBody) : List WrittenBinding :=
  b.header.map (fun p => ⟨p.1, .param p.2⟩) ++ b.stmts.flatMap Stmt.bindings

/-- The variables that bindings make behind the bindings `front`. -/
def numberedFrom (front xs : List WrittenBinding) : List (String × Variable) :=
  (xs.zipIdx front.length).filterMap fun p =>
    (p.1.binder.makes? (((front ++ xs).take p.2).countP (·.name = p.1.name) + 1)).map (p.1.name, ·)

/-- The variables of a body, each with one more than the number of bindings of its name before. -/
def numbered (b : WrittenBody) : List (String × Variable) := numberedFrom [] b.bindings

end WrittenBody

mutual
def Stmt.bodies : Stmt → List WrittenBody
  | .function _ params body => ⟨Steps.paramNames params, body⟩ :: Stmt.bodiesOf body
  | .class _ _ body => ⟨[], body⟩ :: Stmt.bodiesOf body
  | .branch _ body rest => ⟨[], body⟩ :: (Stmt.bodiesOf body ++ rest.bodies)
  | .each target _ body => ⟨Steps.loopNames target.names, body⟩ :: Stmt.bodiesOf body
  | .while _ body => ⟨[], body⟩ :: Stmt.bodiesOf body
  | .attempt body clauses => ⟨[], body⟩ :: (Stmt.bodiesOf body ++ Handler.bodies clauses)
  | _ => []

def Stmt.bodiesOf : List Stmt → List WrittenBody
  | [] => []
  | stmt :: rest => stmt.bodies ++ Stmt.bodiesOf rest

def Alternatives.bodies : Alternatives → List WrittenBody
  | .done => []
  | .elif _ body rest => ⟨[], body⟩ :: (Stmt.bodiesOf body ++ rest.bodies)
  | .otherwise body => ⟨[], body⟩ :: Stmt.bodiesOf body

def Handler.bodies : List Handler → List WrittenBody
  | [] => []
  | .mk _ binding body :: rest =>
    ⟨Steps.loopNames binding.toList, body⟩ :: (Stmt.bodiesOf body ++ Handler.bodies rest)
end

def WrittenBody.ofModule (module : List Stmt) : List WrittenBody :=
  ⟨[], module⟩ :: Stmt.bodiesOf module

namespace WrittenBody

theorem numberedFrom_cons (front xs : List WrittenBinding) (x : WrittenBinding) :
    numberedFrom front (x :: xs) =
      ((x.binder.makes? (front.countP (·.name = x.name) + 1)).map (x.name, ·)).toList ++
        numberedFrom (front ++ [x]) xs := by
  have hrest : (front ++ [x]) ++ xs = front ++ x :: xs := by simp
  rw [numberedFrom, numberedFrom, hrest, List.zipIdx_cons, List.filterMap_cons]
  have hlen : (front ++ [x]).length = front.length + 1 := by simp
  rw [hlen, List.take_left]
  cases x.binder.makes? (front.countP (·.name = x.name) + 1) <;> rfl

def versionsOf (name : String) (vs : List (String × Variable)) : List Nat :=
  (vs.filter (·.1 = name)).map (·.2.version)

theorem version_makes? {binder : Binder} {version : Nat} {v : Variable}
    (h : binder.makes? version = some v) : v.version = version := by
  cases binder with
  | param optional => cases h; rfl
  | write => cases h; rfl
  | other => cases h

theorem versionsOf_numberedFrom {name : String} {front xs : List WrittenBinding}
    (h : ∀ x ∈ xs, x.name = name → x.binder ≠ .other) :
    versionsOf name (numberedFrom front xs) =
      List.range' (front.countP (·.name = name) + 1) (xs.countP (·.name = name)) := by
  induction xs generalizing front with
  | nil => rfl
  | cons x xs ih =>
    have ih := @ih (front ++ [x]) fun y hy => h y (List.mem_cons_of_mem _ hy)
    rw [numberedFrom_cons, versionsOf, List.filter_append, List.map_append]
    rw [versionsOf] at ih
    rw [ih, List.countP_append, List.countP_cons, List.countP_cons]
    by_cases hx : x.name = name
    · subst hx
      obtain ⟨v, hv⟩ : ∃ v, x.binder.makes? (front.countP (·.name = x.name) + 1) = some v := by
        cases hb : x.binder with
        | param optional => exact ⟨_, rfl⟩
        | write => exact ⟨_, rfl⟩
        | other => exact absurd hb (h x List.mem_cons_self rfl)
      simp [hv, version_makes? hv, List.range'_succ]
    · cases x.binder.makes? (front.countP (·.name = x.name) + 1) <;> simp [hx]

theorem version_le {front xs : List WrittenBinding} {p : String × Variable}
    (h : p ∈ numberedFrom front xs) : p.2.version ≤ front.length + xs.length := by
  induction xs generalizing front with
  | nil => cases h
  | cons x xs ih =>
    rw [numberedFrom_cons, List.mem_append] at h
    rcases h with h | h
    · obtain ⟨v, hv, rfl⟩ : ∃ v, x.binder.makes? (front.countP (·.name = x.name) + 1) = some v ∧
          (x.name, v) = p := by simpa using h
      have hle : front.countP (·.name = x.name) ≤ front.length := List.countP_le_length
      simp only [version_makes? hv, List.length_cons]
      omega
    · have hle := ih h
      simp only [List.length_append, List.length_cons, List.length_nil] at hle ⊢
      omega

end WrittenBody

/-- The variable that a node binds its label to, if it is a parameter or a write. -/
def Payload.binds? : Payload → Option Variable
  | .variable ⟨.param, version, optional⟩ => some ⟨.param, version, optional⟩
  | .variable ⟨.write, version, optional⟩ => some ⟨.write, version, optional⟩
  | _ => none

def Node.binds? (n : Node) : Option (String × Variable) := n.payload.binds?.map (n.label, ·)

/-- The variables that a world of a graph binds, in the order of the nodes. -/
def Graph.variablesIn (g : Graph) (w : World) : List (String × Variable) :=
  (g.nodesIn w).filterMap Node.binds?

/-- A step that counts for the versions in a world: a variable is made, or a name is bound. -/
inductive Mark where
  | made (name : String) (content : Content)
  | bound (name : String)

def WrittenBinding.marks (x : WrittenBinding) : List Mark :=
  match x.binder with
  | .param optional => [.made x.name (.param optional), .bound x.name]
  | .write => [.made x.name .write, .bound x.name]
  | .other => [.bound x.name]

namespace Steps

variable {content : Content}

def mark? (p : Place) : Step → Option Mark
  | .node s => if s.home = p ∧ (s.content.payload 0).binds?.isSome then some (.made s.label s.content)
    else none
  | .bind name body _ _ => if body = p then some (.bound name) else none
  | _ => none

def marks (p : Place) (ss : List Step) : List Mark := ss.filterMap (mark? p)

@[simp] theorem marks_nil (p : Place) : marks p [] = [] := rfl

@[simp] theorem marks_append (p : Place) (ss ts : List Step) :
    marks p (ss ++ ts) = marks p ss ++ marks p ts := List.filterMap_append

/-- The names that a world binds. -/
def boundIn (p : Place) (ss : List Step) : List String :=
  ss.filterMap fun
    | .bind name body _ _ => if body = p then some name else none
    | _ => none

/-- The variables that marks make behind the names `seen`. -/
def numbered : List String → List Mark → List (String × Variable)
  | _, [] => []
  | seen, .made name content :: ms =>
    ((content.payload (seen.count name + 1)).binds?.map (name, ·)).toList ++ numbered seen ms
  | seen, .bound name :: ms => numbered (seen ++ [name]) ms

theorem length_bindings (ss : List Step) (p : Place) (name : String) :
    (bindings ss p name).length = (boundIn p ss).count name := by
  induction ss with
  | nil => rfl
  | cons s ss ih =>
    cases s with
    | bind other body node home =>
      by_cases hb : body = p
      · by_cases hn : other = name <;> simp_all [bindings, boundIn, origin?]
      · simp_all [bindings, boundIn, origin?]
    | _ => exact ih

/-- The variable that an item binds in a world. -/
def boundItem? (p : Place) : Item → Option (String × Variable)
  | .made _ sketch version =>
    if sketch.home = p then (sketch.content.payload version).binds?.map (sketch.label, ·) else none
  | .proxy _ => none

theorem binds?_payload_eq_none (h : (content.payload 0).binds? = none) (version : Nat) :
    (content.payload version).binds? = none := by
  cases content with
  | plain payload => exact h
  | param optional => cases h
  | write => cases h
  | call isMethod args => exact h

theorem boundIn_snoc (p : Place) (ss : List Step) (s : Step) :
    boundIn p (ss ++ [s]) = boundIn p ss ++ boundIn p [s] := List.filterMap_append

theorem marks_cons (p : Place) (s : Step) (ss : List Step) :
    marks p (s :: ss) = (mark? p s).toList ++ marks p ss := by
  cases h : mark? p s <;> simp [marks, h]

theorem boundItems_proxies (p : Place) (ps : List StandIn) :
    (ps.map Item.proxy).filterMap (boundItem? p) = [] := by
  refine List.filterMap_eq_nil_iff.mpr fun item hitem => ?_
  obtain ⟨s, -, rfl⟩ := List.mem_map.mp hitem
  rfl

theorem numbered_step (p : Place) (before : List Step) (s : Step) (ms : List Mark) :
    (asks before s).filterMap (boundItem? p) ++ numbered (boundIn p (before ++ [s])) ms =
      numbered (boundIn p before) ((mark? p s).toList ++ ms) := by
  rw [boundIn_snoc]
  cases s with
  | node sketch =>
    have hnone : boundIn p [.node sketch] = [] := rfl
    rw [hnone, List.append_nil, asks, length_bindings]
    by_cases hp : sketch.home = p
    · subst hp
      cases hv : (sketch.content.payload 0).binds? with
      | none => simp [mark?, boundItem?, hv, binds?_payload_eq_none hv]
      | some v =>
        have hmark : mark? sketch.home (.node sketch) = some (.made sketch.label sketch.content) := by
          simp [mark?, hv]
        rw [hmark, List.filterMap_cons, List.filterMap_nil, boundItem?, if_pos rfl]
        cases hb : (sketch.content.payload
          ((boundIn sketch.home before).count sketch.label + 1)).binds? <;> simp [numbered, hb]
    · simp [mark?, boundItem?, hp]
  | bind name body node home =>
    have hask : (asks before (.bind name body node home)).filterMap (boundItem? p) = [] := rfl
    rw [hask]
    by_cases hp : body = p <;> simp [mark?, boundIn, hp, numbered]
  | wire source port => exact congrArg (numbered · ms) (List.append_nil _)
  | read name w outer port =>
    rw [asks, boundItems_proxies]
    · exact congrArg (numbered · ms) (List.append_nil _)
    · intro sketch h
      cases h
  | enter body => exact congrArg (numbered · ms) (List.append_nil _)
  | leave => exact congrArg (numbered · ms) (List.append_nil _)

theorem boundItems_eq (p : Place) (before ss : List Step) :
    (collect asks before ss).filterMap (boundItem? p) =
      numbered (boundIn p before) (marks p ss) := by
  induction ss generalizing before with
  | nil => rfl
  | cons s ss ih => rw [collect_cons, List.filterMap_append, ih, numbered_step, marks_cons]

theorem count_map_name (front : List WrittenBinding) (name : String) :
    (front.map (·.name)).count name = front.countP (·.name = name) := by
  rw [List.count, List.countP_map]
  rfl

theorem numbered_marks (front xs : List WrittenBinding) :
    numbered (front.map (·.name)) (xs.flatMap WrittenBinding.marks) =
      WrittenBody.numberedFrom front xs := by
  induction xs generalizing front with
  | nil => rfl
  | cons x xs ih =>
    have ih := ih (front ++ [x])
    rw [List.map_append, List.map_cons, List.map_nil] at ih
    rw [WrittenBody.numberedFrom_cons, List.flatMap_cons, ← ih, ← count_map_name]
    obtain ⟨name, binder⟩ := x
    cases binder <;> rfl

/-- A step of an expression. -/
def calm : Step → Bool
  | .node s => (s.content.payload 0).binds?.isNone && !(s.content.payload 0).kind.ownsWorld
  | .wire _ _ | .read _ _ _ _ => true
  | .bind _ _ _ _ | .enter _ | .leave => false

def Calm (ss : List Step) : Prop := ss.all calm = true

theorem calm_nil : Calm [] := rfl

theorem Calm.append {ss ts : List Step} (hs : Calm ss) (ht : Calm ts) : Calm (ss ++ ts) := by
  rw [Calm, List.all_append, hs, ht]
  rfl

theorem calm_place (hc : calm (.node ⟨.root, "", content⟩) = true) (w : Place) (label : String)
    (k : Nat) (port : Option Port) : Calm (place w label content k port) := by
  have hnode : calm (.node ⟨w, label, content⟩) = true := hc
  cases port with
  | none => simp [Calm, place, hnode]
  | some port =>
    have hwire : calm (.wire k port) = true := rfl
    simp [Calm, place, hnode, hwire]

theorem calm_of_isPart (h : content.isPart = true) : calm (.node ⟨.root, "", content⟩) = true := by
  cases content with
  | plain payload =>
    cases payload with
    | literal | operator _ | listDisplay | dictDisplay | accessor | «attribute» => rfl
    | _ => cases h
  | call _ _ => rfl
  | _ => cases h

theorem Feeds.calm {w : Place} {outer : List Place} {K : EdgeKind → Prop} {target : Option Nat}
    {k : Nat} {ss : List Step} (h : Feeds w outer K target k ss) : Calm ss := by
  induction h with
  | nil => exact calm_nil
  | append _ _ ih ih' => exact ih.append ih'
  | read => rfl
  | node made _ _ ih => exact (calm_place (calm_of_isPart (isPart_of_face made)) ..).append ih

theorem calm_expr (w : Place) (outer : List Place) (port : Option Port) (k : Nat) (e : Expr) :
    Calm (expr w outer port k e) := (feeds_port port k e).calm

theorem calm_exception (w : Place) (outer : List Place) (k : Nat) (caught : Option Phrase) :
    Calm (exception w outer k caught) := by
  cases caught with
  | none => rfl
  | some e => exact calm_expr ..

theorem Calm.marks_eq_nil {ss : List Step} (h : Calm ss) (p : Place) : marks p ss = [] := by
  refine List.filterMap_eq_nil_iff.mpr fun s hs => ?_
  have hc := List.all_eq_true.mp h s hs
  cases s with
  | node sketch =>
    rw [calm, Bool.and_eq_true, Option.isNone_iff_eq_none] at hc
    simp [mark?, hc.1]
  | bind name body node home => cases hc
  | _ => rfl

/-- The numbers of the nodes with a body, when the first node has the number `k`. -/
def ownersFrom (k : Nat) (ss : List Step) : List Nat :=
  ((sketches ss).zipIdx k).filterMap fun p =>
    if (p.1.content.payload 0).kind.ownsWorld then some p.2 else none

theorem ownersFrom_append (k : Nat) (ss ts : List Step) :
    ownersFrom k (ss ++ ts) = ownersFrom k ss ++ ownersFrom (k + count ss) ts := by
  rw [ownersFrom, sketches_append, List.zipIdx_append, List.filterMap_append]
  rfl

theorem span_of_mem_ownersFrom {k j : Nat} {ss : List Step} (h : j ∈ ownersFrom k ss) :
    Span k (count ss) j := by
  obtain ⟨p, hp, hj⟩ := List.mem_filterMap.mp h
  have hbounds := List.mem_zipIdx hp
  split at hj
  · obtain rfl := Option.some.inj hj
    exact ⟨hbounds.1, hbounds.2.1⟩
  · cases hj

theorem Calm.ownersFrom_eq_nil {ss : List Step} (h : Calm ss) (k : Nat) : ownersFrom k ss = [] := by
  refine List.filterMap_eq_nil_iff.mpr fun p hp => ?_
  obtain ⟨s, hs, hsketch⟩ := List.mem_filterMap.mp (List.fst_mem_of_mem_zipIdx hp)
  have hc := List.all_eq_true.mp h s hs
  cases s with
  | node sketch =>
    obtain rfl := Option.some.inj hsketch
    rw [calm, Bool.and_eq_true, Bool.not_eq_true'] at hc
    rw [hc.2]
    rfl
  | _ => cases hsketch

/-- Steps in the world `w` with numbers from `k` on: what they bind in `w` itself, and the bodies in
them. Each body binds in the world of its owner, and no other world is met. -/
structure Carries (w : Place) (k : Nat) (ss : List Step) (own : List WrittenBinding)
    (bodies : List WrittenBody) : Prop where
  here : marks w ss = own.flatMap WrittenBinding.marks
  inside : List.Forall₂ (fun j b => marks (.body j) ss = b.bindings.flatMap WrittenBinding.marks)
    (ownersFrom k ss) bodies
  elsewhere : ∀ p, p ≠ w → (∀ j ∈ ownersFrom k ss, p ≠ .body j) → marks p ss = []

namespace Carries

variable {w : Place} {k : Nat} {ss ts : List Step} {own own' : List WrittenBinding}
  {bodies bodies' : List WrittenBody}

theorem of_calm (h : Calm ss) : Carries w k ss [] [] where
  here := h.marks_eq_nil w
  inside := by
    rw [h.ownersFrom_eq_nil]
    exact .nil
  elsewhere p _ _ := h.marks_eq_nil p

theorem body_ne (hw : w.Below k) {j : Nat} (hj : k ≤ j) : .body j ≠ w := by
  rintro rfl
  exact Nat.not_lt.mpr hj hw

theorem append (hw : w.Below k) (h : Carries w k ss own bodies)
    (h' : Carries w (k + count ss) ts own' bodies') :
    Carries w k (ss ++ ts) (own ++ own') (bodies ++ bodies') where
  here := by rw [marks_append, h.here, h'.here, List.flatMap_append]
  inside := by
    rw [ownersFrom_append]
    have hfirst : ∀ j ∈ ownersFrom k ss, marks (.body j) ts = [] := by
      intro j hj
      have hspan := span_of_mem_ownersFrom hj
      refine h'.elsewhere _ (body_ne hw hspan.1) fun i hi he => ?_
      have hspan' := span_of_mem_ownersFrom hi
      obtain rfl := Place.body.inj he
      exact Nat.not_lt.mpr hspan'.1 hspan.2
    have hsecond : ∀ j ∈ ownersFrom (k + count ss) ts, marks (.body j) ss = [] := by
      intro j hj
      have hspan := span_of_mem_ownersFrom hj
      refine h.elsewhere _ (body_ne hw (Nat.le_trans (Nat.le_add_right ..) hspan.1)) fun i hi he => ?_
      have hspan' := span_of_mem_ownersFrom hi
      obtain rfl := Place.body.inj he
      exact Nat.not_lt.mpr hspan.1 hspan'.2
    refine List.rel_append ?_ ?_
    · refine ((List.forall₂_and_left ..).mpr ⟨hfirst, h.inside⟩).imp fun j b hb => ?_
      rw [marks_append, hb.1, hb.2, List.append_nil]
    · refine ((List.forall₂_and_left ..).mpr ⟨hsecond, h'.inside⟩).imp fun j b hb => ?_
      rw [marks_append, hb.1, hb.2, List.nil_append]
  elsewhere p hp hj := by
    rw [ownersFrom_append] at hj
    rw [marks_append, h.elsewhere p hp fun j hm => hj j (List.mem_append_left _ hm),
      h'.elsewhere p hp fun j hm => hj j (List.mem_append_right _ hm), List.append_nil]

theorem append_calm (hw : w.Below k) (h : Carries w k ss own bodies) (ht : Calm ts) :
    Carries w k (ss ++ ts) own bodies := by
  have happend := h.append hw (of_calm ht)
  rwa [List.append_nil, List.append_nil] at happend

theorem of_marks (here : marks w ss = own.flatMap WrittenBinding.marks) (hnone : ownersFrom k ss = [])
    (elsewhere : ∀ p, p ≠ w → marks p ss = []) : Carries w k ss own [] where
  here := here
  inside := by
    rw [hnone]
    exact .nil
  elsewhere p hp _ := elsewhere p hp

theorem bind (w : Place) (k : Nat) (name : String) (node : Nat) (home : Place) :
    Carries w k [.bind name w node home] [⟨name, .other⟩] [] :=
  of_marks (by simp [marks, mark?, WrittenBinding.marks]) rfl fun p hp => by
    simp [marks, mark?, Ne.symm hp]

theorem imports (hw : w.Below k) (names : List String) (node : Nat) :
    Carries w k (names.map fun name => .bind name w node .imports) (names.map (⟨·, .other⟩)) [] := by
  induction names with
  | nil => exact of_calm rfl
  | cons name names ih => exact (bind w k name node .imports).append hw ih

theorem makes (w : Place) (k : Nat) {x : WrittenBinding}
    (hx : x.marks = [.made x.name content, .bound x.name]) (hb : (content.payload 0).binds?.isSome)
    (ho : (content.payload 0).kind.ownsWorld = false) {mid : List Step} (hmid : Calm mid)
    (node : Nat) :
    Carries w k (place w x.name content k none ++ (mid ++ [.bind x.name w node w])) [x] [] := by
  refine of_marks ?_ ?_ fun p hp => ?_
  · have hnode : marks w (place w x.name content k none) = [.made x.name content] := by
      simp [marks, mark?, place, hb]
    rw [marks_append, marks_append, hnode, hmid.marks_eq_nil, List.flatMap_singleton, hx]
    simp [marks, mark?]
  · have hnode : ownersFrom k (place w x.name content k none) = [] := by
      simp [ownersFrom, place, sketch?, ho]
    rw [ownersFrom_append, ownersFrom_append, hnode, hmid.ownersFrom_eq_nil]
    rfl
  · rw [marks_append, marks_append, hmid.marks_eq_nil]
    simp [marks, mark?, place, Ne.symm hp]

theorem header (hw : w.Below k) (names : List (String × Bool)) :
    Carries w k (Steps.header w k names) (names.map fun p => ⟨p.1, .param p.2⟩) [] := by
  induction names generalizing k with
  | nil => exact of_calm rfl
  | cons p names ih =>
    have hone : Carries w k [.node ⟨w, p.1, .param p.2⟩, .bind p.1 w k w] [⟨p.1, .param p.2⟩] [] :=
      makes w k (x := ⟨p.1, .param p.2⟩) rfl rfl rfl calm_nil k
    exact hone.append hw (ih (hw.mono (Nat.le_add_right ..)))

theorem marks_enclosed (p : Place) (k : Nat) (inner : List Step) :
    marks p (enclosed k inner) = marks p inner := by
  have henter : marks p [.enter (.body k)] = [] := rfl
  have hleave : marks p [.leave] = [] := rfl
  rw [enclosed, marks_append, marks_append, henter, hleave, List.append_nil, List.nil_append]

theorem ownersFrom_enclosed (j k : Nat) (inner : List Step) :
    ownersFrom j (enclosed k inner) = ownersFrom j inner := by
  simp [ownersFrom, enclosed, sketch?]

theorem ownersFrom_opens (w : Place) (label : String) {payload : Payload}
    (ho : payload.kind.ownsWorld = true) {mid : List Step} (hmid : ownersFrom (k + 1) mid = [])
    (inner : List Step) :
    ownersFrom k (place w label (.plain payload) k none ++ (mid ++ enclosed k inner)) =
      k :: ownersFrom (k + 1 + count mid) inner := by
  have hself : ownersFrom k (place w label (.plain payload) k none) = [k] := by
    simp [ownersFrom, place, sketch?, Content.payload, ho]
  have hcount : count (place w label (.plain payload) k none) = 1 := rfl
  rw [ownersFrom_append, ownersFrom_append, hself, hcount, hmid, ownersFrom_enclosed]
  rfl

theorem opens (hw : w.Below k) (label : String) {payload : Payload}
    (ho : payload.kind.ownsWorld = true) {mid : List Step} (hmid : Carries w (k + 1) mid own [])
    {inner : List Step} {b : WrittenBody}
    (hinner : Carries (.body k) (k + 1 + count mid) inner b.bindings bodies) :
    Carries w k (place w label (.plain payload) k none ++ (mid ++ enclosed k inner)) own
      (b :: bodies) := by
  have hnode : ∀ p, marks p (place w label (.plain payload) k none) = [] := by
    intro p
    cases payload with
    | «variable» v => cases ho
    | _ => simp [marks, mark?, place, Content.payload, Payload.binds?]
  have hmarks : ∀ p, marks p (place w label (.plain payload) k none ++ (mid ++ enclosed k inner)) =
      marks p mid ++ marks p inner := by
    intro p
    rw [marks_append, marks_append, hnode, marks_enclosed, List.nil_append]
  have hnone : ownersFrom (k + 1) mid = [] := List.forall₂_nil_right_iff.mp hmid.inside
  have howners := ownersFrom_opens w label ho hnone inner
  have hbetween : ∀ j, k ≤ j → marks (.body j) mid = [] := by
    intro j hj
    refine hmid.elsewhere _ (body_ne hw hj) fun i hi => ?_
    rw [hnone] at hi
    cases hi
  have hlater : ∀ j ∈ ownersFrom (k + 1 + count mid) inner, k ≤ j := by
    intro j hj
    have hspan := span_of_mem_ownersFrom hj
    have hle := hspan.1
    omega
  refine ⟨?_, ?_, ?_⟩
  · rw [hmarks, hmid.here, hinner.elsewhere w (body_ne hw (Nat.le_refl k)).symm fun j hj =>
      (body_ne hw (hlater j hj)).symm, List.append_nil]
  · rw [howners]
    refine .cons ?_ ?_
    · rw [hmarks, hbetween k (Nat.le_refl k), hinner.here, List.nil_append]
    · refine ((List.forall₂_and_left ..).mpr ⟨hlater, hinner.inside⟩).imp fun j c hc => ?_
      rw [hmarks, hbetween j hc.1, hc.2, List.nil_append]
  · intro p hp hj
    rw [howners] at hj
    rw [hmarks, hmid.elsewhere p hp, hinner.elsewhere p (hj k List.mem_cons_self), List.append_nil]
    · intro j hm
      exact hj j (List.mem_cons_of_mem _ hm)
    · rw [hnone]
      intro j hm
      cases hm

theorem block (hw : w.Below k) (outer : List Place) (label : String) {payload : Payload}
    (ho : payload.kind.ownsWorld = true) {mid : List Step} (hmid : Carries w (k + 1) mid own [])
    (names : List (String × Bool)) {body : List Stmt}
    (hbody : ∀ k', (Place.body k).Below k' → Carries (.body k) k' (statements (.body k) (w :: outer) k' body)
      (body.flatMap Stmt.bindings) bodies) :
    Carries w k (Steps.block w outer k label payload mid names body) own
      (⟨names, body⟩ :: bodies) := by
  have hbelow : (Place.body k).Below (k + 1 + count mid) := show k < _ by omega
  exact opens hw label ho hmid
    ((header hbelow names).append hbelow (hbody _ (hbelow.mono (Nat.le_add_right ..))))

end Carries

mutual
theorem carries_statement {w : Place} (outer : List Place) {k : Nat} (hw : w.Below k) :
    (stmt : Stmt) → Carries w k (statement w outer k stmt) stmt.bindings stmt.bodies
  | .assign name value => by
    rw [statement_assign]
    exact .makes w k (x := ⟨name, .write⟩) rfl rfl rfl (calm_expr ..) k
  | .augment name op value => by
    rw [statement_augment, statement_assign]
    exact .makes w k (x := ⟨name, .write⟩) rfl rfl rfl (calm_expr ..) k
  | .eval e => by
    unfold statement
    split
    · exact .of_calm (calm_expr ..)
    · exact .of_calm rfl
  | .ret none => .of_calm rfl
  | .ret (some e) => .of_calm (Calm.append rfl (calm_expr ..))
  | .function name params body => by
    rw [statement_function]
    exact .block hw outer name rfl (.bind w (k + 1) name k w) _ fun k' hk =>
      carries_statements (w :: outer) hk body
  | .class name bases body => by
    rw [statement_class]
    exact .block hw outer name rfl (.bind w (k + 1) name k w) _ fun k' hk =>
      carries_statements (w :: outer) hk body
  | .branch test body rest => by
    rw [statement_branch]
    have hfirst : Carries w k (conditional w outer k "if" .ifBlock test body) [] _ :=
      .block hw outer _ rfl (.of_calm (calm_expr ..)) _ fun k' hk =>
        carries_statements (w :: outer) hk body
    exact hfirst.append hw (carries_alternatives outer (hw.mono (Nat.le_add_right ..)) rest)
  | .each target source body => by
    rw [statement_each]
    exact .block hw outer _ rfl (.of_calm (calm_expr ..)) _ fun k' hk =>
      carries_statements (w :: outer) hk body
  | .while test body => by
    rw [statement_while]
    exact .block hw outer _ rfl (.of_calm (calm_expr ..)) _ fun k' hk =>
      carries_statements (w :: outer) hk body
  | .attempt body clauses => by
    rw [statement_attempt]
    have hfirst : Carries w k (block w outer k "try" .tryBlock [] [] body) [] _ :=
      .block hw outer _ rfl (.of_calm calm_nil) _ fun k' hk => carries_statements (w :: outer) hk body
    exact hfirst.append hw (carries_handlers outer (hw.mono (Nat.le_add_right ..)) clauses)
  | .import text names => by
    have hnode : Carries w k (place .imports text (.plain (.importStmt names)) k none) [] [] :=
      .of_calm rfl
    exact hnode.append hw (.imports (hw.mono (Nat.le_add_right ..)) names k)
  | .skip => .of_calm rfl

theorem carries_statements {w : Place} (outer : List Place) {k : Nat} (hw : w.Below k) :
    (stmts : List Stmt) → Carries w k (statements w outer k stmts) (stmts.flatMap Stmt.bindings)
      (Stmt.bodiesOf stmts)
  | [] => .of_calm rfl
  | stmt :: rest => by
    unfold statements
    exact (carries_statement outer hw stmt).append hw
      (carries_statements outer (hw.mono (Nat.le_add_right ..)) rest)

theorem carries_alternatives {w : Place} (outer : List Place) {previous k : Nat} (hw : w.Below k) :
    (rest : Alternatives) → Carries w k (alternatives w outer previous k rest) [] rest.bodies
  | .done => .of_calm rfl
  | .elif test body rest => by
    rw [alternatives_elif]
    have hfirst : Carries w k (conditional w outer k "elif" .elifBlock test body) [] _ :=
      .block hw outer _ rfl (.of_calm (calm_expr ..)) _ fun k' hk =>
        carries_statements (w :: outer) hk body
    have hwire : Calm [.wire previous ⟨k, .nextClause none⟩] := rfl
    have hw' : w.Below (k + count (conditional w outer k "elif" .elifBlock test body)) :=
      hw.mono (Nat.le_add_right ..)
    have hrest : Carries w _ (alternatives w outer k _ rest) [] rest.bodies :=
      carries_alternatives outer hw' rest
    exact hfirst.append hw (Carries.append hw' (.of_calm hwire) hrest)
  | .otherwise body => by
    rw [alternatives_otherwise]
    have hfirst : Carries w k (block w outer k "else" .elseBlock [] [] body) [] _ :=
      .block hw outer _ rfl (.of_calm calm_nil) _ fun k' hk => carries_statements (w :: outer) hk body
    exact hfirst.append_calm hw rfl

theorem carries_handlers {w : Place} (outer : List Place) {owner index k : Nat} (hw : w.Below k) :
    (clauses : List Handler) → Carries w k (handlers w outer owner index k clauses) []
      (Handler.bodies clauses)
  | [] => .of_calm rfl
  | .mk caught binding body :: rest => by
    rw [handlers_cons]
    have hwire : Calm [.wire owner ⟨k, .nextClause (some index)⟩] := rfl
    have hfirst : Carries w k (handlerBlock w outer k owner index caught binding body) [] _ :=
      .block hw outer _ rfl (.of_calm (hwire.append (calm_exception ..))) _ fun k' hk =>
        carries_statements (w :: outer) hk body
    exact hfirst.append hw (carries_handlers outer (hw.mono (Nat.le_add_right ..)) rest)
end

theorem kind_payload (content : Content) (version : Nat) :
    (content.payload version).kind = (content.payload 0).kind := by
  cases content <;> rfl

theorem owners_asks (q : Run) (before : List Step) (s : Step) :
    (asks before s).filterMap (fun item => (q.draw item).ownWorld?) =
      (ownersFrom (count before) [s]).map fun j => q.world (.body j) := by
  cases s with
  | node sketch =>
    simp only [asks, List.filterMap_cons, List.filterMap_nil, Run.draw, Node.ownWorld?, Node.kind,
      kind_payload]
    cases ho : (sketch.content.payload 0).kind.ownsWorld with
    | true =>
      simp [ownersFrom, sketch?, ho]
      rfl
    | false => simp [ownersFrom, sketch?, ho]
  | read name w outer port =>
    refine List.filterMap_eq_nil_iff.mpr fun item hitem => ?_
    obtain ⟨p, -, rfl⟩ := List.mem_map.mp hitem
    rfl
  | _ => rfl

theorem owners_items (q : Run) (before ss : List Step) :
    (collect asks before ss).filterMap (fun item => (q.draw item).ownWorld?) =
      (ownersFrom (count before) ss).map fun j => q.world (.body j) := by
  induction ss generalizing before with
  | nil => rfl
  | cons s ss ih =>
    have howners : ownersFrom (count before) (s :: ss) = ownersFrom (count before) [s] ++
        ownersFrom (count before + count [s]) ss := ownersFrom_append (count before) [s] ss
    rw [collect_cons, List.filterMap_append, ih, owners_asks, howners, List.map_append, count_append]

end Steps

/-- The worlds in which a graph binds names: the module, and the bodies in the order of their
owners. -/
def Graph.scopes (g : Graph) : List World := .root :: g.nodes.filterMap Node.ownWorld?

namespace Run.Draws

open Steps

variable {q : Run} {all : List Step}

theorem variablesIn_world (h : Draws q all) {p : Place} (hp : p.Below (count all)) :
    q.builder.graph.variablesIn (q.world p) = numbered [] (marks p all) := by
  have hitems : (items all).filterMap (boundItem? p) = numbered [] (marks p all) :=
    boundItems_eq p [] all
  rw [← hitems, Graph.variablesIn, Graph.nodesIn, h.reflects.nodes, List.filterMap_filter,
    List.filterMap_map]
  refine List.filterMap_congr fun item hitem => ?_
  have hworld : (q.draw item).world = q.world p ↔ item.home = p := by
    rw [world_draw]
    exact ⟨h.reflects.world_inj (h.below_home hitem) hp, fun he => he ▸ rfl⟩
  simp only [Function.comp, decide_eq_true_eq, hworld]
  cases item with
  | made k sketch version => rfl
  | proxy s => exact ite_self none

theorem scopes_eq (h : Draws q all) : q.builder.graph.scopes =
    .root :: (ownersFrom 0 all).map fun j => q.world (.body j) := by
  rw [Graph.scopes, h.reflects.nodes, List.filterMap_map]
  exact congrArg (World.root :: ·) (owners_items q [] all)

section Bodies

variable {module : List Stmt}
  (hc : Carries .root 0 all (module.flatMap Stmt.bindings) (Stmt.bodiesOf module))
include hc

theorem variables_scopes (h : Draws q all) :
    List.Forall₂ (fun w b => q.builder.graph.variablesIn w = b.numbered) q.builder.graph.scopes
      (WrittenBody.ofModule module) := by
  have hbody : ∀ (p : Place) (b : WrittenBody), p.Below (count all) →
      marks p all = b.bindings.flatMap WrittenBinding.marks →
      q.builder.graph.variablesIn (q.world p) = b.numbered := by
    intro p b hp hm
    rw [h.variablesIn_world hp, hm]
    exact numbered_marks [] b.bindings
  rw [h.scopes_eq]
  refine .cons (hbody .root ⟨[], module⟩ trivial hc.here) (List.forall₂_map_left_iff.mpr ?_)
  have hspan : ∀ j ∈ ownersFrom 0 all, (Place.body j).Below (count all) := by
    intro j hj
    have hlt := (span_of_mem_ownersFrom hj).2
    rwa [Nat.zero_add] at hlt
  exact ((List.forall₂_and_left ..).mpr ⟨hspan, hc.inside⟩).imp fun j b hb => hbody _ b hb.1 hb.2

theorem world_mem_scopes (h : Draws q all) {n : Node} (hn : n ∈ q.builder.graph.nodes)
    {x : String × Variable} (hx : n.binds? = some x) : n.world ∈ q.builder.graph.scopes := by
  have hmem : x ∈ q.builder.graph.variablesIn n.world :=
    List.mem_filterMap.mpr ⟨n, List.mem_filter.mpr ⟨hn, by simp⟩, hx⟩
  rw [h.reflects.nodes] at hn
  obtain ⟨item, hitem, rfl⟩ := List.mem_map.mp hn
  rw [world_draw] at hmem ⊢
  rw [h.variablesIn_world (h.below_home hitem)] at hmem
  rw [h.scopes_eq]
  by_cases hroot : item.home = .root
  · rw [hroot]
    exact List.mem_cons_self
  · by_cases hout : ∀ j ∈ ownersFrom 0 all, item.home ≠ .body j
    · rw [hc.elsewhere _ hroot hout] at hmem
      cases hmem
    · obtain ⟨j, hj, he⟩ : ∃ j ∈ ownersFrom 0 all, item.home = .body j := by
        simpa using hout
      rw [he]
      exact List.mem_cons_of_mem _ (List.mem_map.mpr ⟨j, hj, rfl⟩)

end Bodies

end Run.Draws

namespace Graph

/-- A graph with the variables of the bodies of a text. A name that only parameters and assignments
bind in a body has the versions from one on there, and with fewer bindings than a machine word
counts every version fits into one. -/
structure Numbers (g : Graph) (bodies : List WrittenBody) : Prop where
  bound : List.Forall₂ (fun w b => g.variablesIn w = b.numbered) g.scopes bodies
  complete : ∀ n ∈ g.nodes, ∀ x, n.binds? = some x → n.world ∈ g.scopes
  successive : List.Forall₂ (fun w b => ∀ name,
    (∀ x ∈ b.bindings, x.name = name → x.binder ≠ .other) →
      WrittenBody.versionsOf name (g.variablesIn w) =
        List.range' 1 (b.bindings.countP (·.name = name))) g.scopes bodies
  fits : (bodies.flatMap WrittenBody.bindings).length < UInt32.size →
    ∀ n ∈ g.nodes, ∀ x, n.binds? = some x → x.2.version < UInt32.size

theorem exists_of_forall₂ {α β : Type} {R : α → β → Prop} {as : List α} {bs : List β}
    (h : List.Forall₂ R as bs) {a : α} (ha : a ∈ as) : ∃ b ∈ bs, R a b := by
  induction h with
  | nil => cases ha
  | @cons a' b as bs hab _ ih =>
    rcases List.mem_cons.mp ha with rfl | ha
    · exact ⟨b, List.mem_cons_self, hab⟩
    · obtain ⟨c, hc, hac⟩ := ih ha
      exact ⟨c, List.mem_cons_of_mem _ hc, hac⟩

/-- The last two properties follow from the first two. -/
theorem Numbers.of_bound {g : Graph} {bodies : List WrittenBody}
    (bound : List.Forall₂ (fun w b => g.variablesIn w = b.numbered) g.scopes bodies)
    (complete : ∀ n ∈ g.nodes, ∀ x, n.binds? = some x → n.world ∈ g.scopes) :
    g.Numbers bodies where
  bound := bound
  complete := complete
  successive := bound.imp fun w b hb name hname => by
    rw [hb]
    exact WrittenBody.versionsOf_numberedFrom hname
  fits hsize n hn x hx := by
    obtain ⟨b, hb, hvars⟩ := exists_of_forall₂ bound (complete n hn x hx)
    have hmem : x ∈ g.variablesIn n.world :=
      List.mem_filterMap.mpr ⟨n, List.mem_filter.mpr ⟨hn, by simp⟩, hx⟩
    rw [hvars] at hmem
    have hle : x.2.version ≤ 0 + b.bindings.length := WrittenBody.version_le hmem
    have hpart : b.bindings.length ≤ (bodies.flatMap WrittenBody.bindings).length :=
      (List.sublist_flatten_of_mem (List.mem_map.mpr ⟨b, hb, rfl⟩)).length_le
    omega

/-- Every text that can be read has a graph whose versions count bindings. -/
theorem numbers_ofSource {text : String} {stmts : List Stmt} (h : Source.parse text = .ok stmts)
    (supply : Supply) :
    ∃ g rest, ofSource supply text = .ok (g, rest) ∧ g.Numbers (WrittenBody.ofModule stmts) := by
  have hdraws := Run.draws_ofModule supply stmts
  have hroot : Place.root.Below 0 := trivial
  have hc : Steps.Carries .root 0 (Steps.ofModule stmts) (stmts.flatMap Stmt.bindings)
      (Stmt.bodiesOf stmts) := Steps.carries_statements [] hroot stmts
  refine ⟨_, _, by rw [ofSource, h], ?_⟩
  rw [← Run.graph_ofModule]
  exact .of_bound (hdraws.variables_scopes hc) fun n hn x => hdraws.world_mem_scopes hc hn

/-- A name that is imported, assigned, bound by a header and bound again in a nested body. -/
theorem numbers_nested :
    let text := "import a\na = 1\na += 2\ndef f(a):\n    a = a\n    def g():\n        a = 1\n        a = 2\na = 3\n"
    ∃ stmts g rest, Source.parse text = .ok stmts ∧ ofSource ⟨0⟩ text = .ok (g, rest) ∧
      g.scopes.map g.variablesIn = [[("a", .write 2), ("a", .write 3), ("a", .write 4)],
        [("a", .param 1 false), ("a", .write 2)], [("a", .write 1), ("a", .write 2)]] ∧
      g.Numbers (WrittenBody.ofModule stmts) := by
  intro text
  have hvars : (ofSource ⟨0⟩ text).map (fun p => p.1.scopes.map p.1.variablesIn) =
      .ok [[("a", .write 2), ("a", .write 3), ("a", .write 4)],
        [("a", .param 1 false), ("a", .write 2)], [("a", .write 1), ("a", .write 2)]] := by
    decide +kernel
  cases hp : Source.parse text with
  | error d =>
    rw [ofSource, hp] at hvars
    cases hvars
  | ok stmts =>
    obtain ⟨g, rest, hg, hn⟩ := numbers_ofSource hp ⟨0⟩
    rw [hg] at hvars
    exact ⟨stmts, g, rest, rfl, hg, Except.ok.inj hvars, hn⟩

end Graph

end ScopedFlow
