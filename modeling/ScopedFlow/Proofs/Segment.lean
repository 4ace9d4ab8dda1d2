import ScopedFlow.Proofs.Layout

/-!
# A piece of text in its place

What is wired into or out of a node of the piece is wired by the piece itself, so the edges at a
node can be read off the piece that made it.
-/

namespace ScopedFlow

namespace Steps

variable {m k' m' : Nat}

/-- Numbers outside of `m` nodes from `k` on. -/
def Outside (k m n : Nat) : Prop := n < k ∨ k + m ≤ n

theorem Outside.sub {k n : Nat} (h : Outside k m n) (hk : k ≤ k') (hm : k' + m' ≤ k + m) :
    Outside k' m' n := by
  rcases h with h | h
  · exact .inl (by omega)
  · exact .inr (by omega)

theorem Span.not_outside {k n : Nat} (h : Span k m n) : ¬ Outside k m n := by
  rintro (hn | hn)
  · exact Nat.not_lt.mpr h.1 hn
  · exact Nat.not_lt.mpr hn h.2

/-- Steps that do not meet `m` nodes from `k` on, nor the worlds that they own. -/
def Away (k m : Nat) (ss : List Step) : Prop :=
  Keeps (Outside k m) (Outside k m) (fun p => ∀ j, p = .body j → Outside k m j) ss

theorem Away.sub {k : Nat} {ss : List Step} (h : Away k m ss) (hk : k ≤ k') (hm : k' + m' ≤ k + m) :
    Away k' m' ss :=
  Keeps.mono h (fun _ hn => hn.sub hk hm) (fun _ hn => hn.sub hk hm)
    fun _ hp j hj => (hp j hj).sub hk hm

theorem outside_of_below {w : Place} {k : Nat} (h : w.Below k) :
    ∀ j, w = .body j → Outside k m j := by
  rintro j rfl
  exact .inl h

theorem Span.outside {k n : Nat} (h : Span k' m' n) (hk : k + m ≤ k') : Outside k m n :=
  .inr (Nat.le_trans hk h.1)

variable {w : Place} {outer : List Place}

theorem Local.away {target : Option Nat} {k : Nat} {ss : List Step} (h : Local w target k' m' ss)
    (hw : w.Below k) (ht : ∀ j ∈ target, Outside k m j) (hk : k + m ≤ k') : Away k m ss := by
  refine Keeps.mono h (fun n hn => hn.outside hk) ?_ ?_
  · rintro n (hn | hn)
    · exact ht n hn
    · exact hn.outside hk
  · rintro p rfl
    exact outside_of_below hw

theorem Contained.away {source : Option Nat} {k : Nat} {ss : List Step}
    (h : Contained w source k' m' ss) (hw : w.Below k) (hs : ∀ j ∈ source, Outside k m j)
    (hk : k + m ≤ k') : Away k m ss := by
  refine Keeps.mono h ?_ (fun n hn => hn.outside hk) ?_
  · rintro n (hn | hn)
    · exact hs n hn
    · exact hn.outside hk
  · rintro p (rfl | rfl | ⟨i, rfl, hi⟩)
    · exact outside_of_below hw
    · intro j hj
      cases hj
    · intro j hj
      obtain rfl := Place.body.inj hj
      exact hi.outside hk

/-- The steps `ss` stand in the text `all` behind `before`, and their first number is `k`. -/
structure Located (all before ss after : List Step) (k : Nat) : Prop where
  text : all = before ++ ss ++ after
  number : count before = k
  away : Away k (count ss) after

namespace Located

variable {all before ss ts after : List Step} {k : Nat}

theorem right (h : Located all before (ss ++ ts) after k) :
    Located all (before ++ ss) ts after (k + count ss) where
  text := by rw [h.text, ← List.append_assoc]
  number := by rw [count_append, h.number]
  away := h.away.sub (by omega) (by rw [count_append]; omega)

theorem left (h : Located all before (ss ++ ts) after k) (ht : Away k (count ss) ts) :
    Located all before ss (ts ++ after) k where
  text := by rw [h.text, List.append_assoc, List.append_assoc, List.append_assoc]
  number := h.number
  away := ht.append (h.away.sub (Nat.le_refl k) (by rw [count_append]; omega))

theorem wellFormed_before (h : Located all before ss after k) (hw : WellFormed all) :
    WellFormed before := by
  rw [h.text, List.append_assoc] at hw
  exact hw.of_append

end Located

/-- What is wired into a node by some links, and as what. -/
def inputs (n : Nat) (ls : List Link) : List (Ref × EdgeKind) :=
  ls.filterMap fun l => if l.target = .node n then some (l.source, l.kind) else none

def outputs (n : Nat) (ss : List Step) : List Port :=
  ss.filterMap fun
    | .wire source port => if source = n then some port else none
    | _ => none

@[simp] theorem inputs_nil (n : Nat) : inputs n [] = [] := rfl

@[simp] theorem inputs_append (n : Nat) (ls ls' : List Link) :
    inputs n (ls ++ ls') = inputs n ls ++ inputs n ls' := List.filterMap_append

@[simp] theorem outputs_nil (n : Nat) : outputs n [] = [] := rfl

@[simp] theorem outputs_append (n : Nat) (ss ts : List Step) :
    outputs n (ss ++ ts) = outputs n ss ++ outputs n ts := List.filterMap_append

theorem inputs_read (n : Nat) (before : List Step) (name : String) (w : Place) (outer : List Place)
    (port : Port) : inputs n (joins before (.read name w outer port)) =
      if port.target = n then
        (resolve before (w :: outer) name).toList.map fun o => (o.ref w, port.kind)
      else [] := by
  have hproxy (ps : List StandIn) :
      inputs n (ps.map fun s => ⟨.node s.origin.node, s.ref, .closureOf⟩) = [] := by
    induction ps with
    | nil => rfl
    | cons p ps ih => simp [inputs, StandIn.ref]
  rw [joins, inputs_append, hproxy, List.nil_append]
  cases resolve before (w :: outer) name with
  | none => simp
  | some o => by_cases hn : port.target = n <;> simp [inputs, hn]

theorem inputs_of_not_target {n : Nat} {s : Step} (h : n ∉ targets s) (before : List Step) :
    inputs n (joins before s) = [] := by
  cases s with
  | wire source port =>
    have hn : port.target ≠ n := fun he => h (by simp [targets, he])
    simp [joins, inputs, hn]
  | read name w outer port =>
    have hn : port.target ≠ n := fun he => h (by simp [targets, he])
    rw [inputs_read, if_neg hn]
  | node sketch => rfl
  | bind name body node home => rfl
  | enter body => rfl
  | leave => rfl

theorem Keeps.inputs_eq_nil {P Q : Nat → Prop} {H : Place → Prop} {ss : List Step}
    (h : Keeps P Q H ss) {n : Nat} (hn : ¬ Q n) (before : List Step) :
    inputs n (collect joins before ss) = [] := by
  induction ss generalizing before with
  | nil => rfl
  | cons s ss ih =>
    have hs : n ∉ Steps.targets s := fun ht => hn (h.targets s List.mem_cons_self n ht)
    have hss : Keeps P Q H ss :=
      ⟨fun t ht => h.sources t (List.mem_cons_of_mem _ ht),
        fun t ht => h.targets t (List.mem_cons_of_mem _ ht),
        fun t ht => h.homes t (List.mem_cons_of_mem _ ht)⟩
    rw [collect_cons, inputs_append, inputs_of_not_target hs, ih hss, List.nil_append]

theorem Keeps.outputs_eq_nil {P Q : Nat → Prop} {H : Place → Prop} {ss : List Step}
    (h : Keeps P Q H ss) {n : Nat} (hn : ¬ P n) : outputs n ss = [] := by
  refine List.filterMap_eq_nil_iff.mpr fun s hs => ?_
  cases s with
  | wire source port =>
    have hne : source ≠ n := fun he => hn (h.sources _ hs n (by simp [Steps.sources, he]))
    simp [hne]
  | _ => rfl

/-- The nodes that some steps add to a world. -/
def itemsIn (w : Place) (before ss : List Step) : List Item :=
  (collect asks before ss).filter fun item => item.home = w

@[simp] theorem itemsIn_nil (w : Place) (before : List Step) : itemsIn w before [] = [] := rfl

theorem itemsIn_append (w : Place) (before ss ts : List Step) :
    itemsIn w before (ss ++ ts) = itemsIn w before ss ++ itemsIn w (before ++ ss) ts := by
  rw [itemsIn, collect_append, List.filter_append]
  rfl

theorem home_of_mem_asks {before : List Step} {s : Step} {item : Item} (h : item ∈ asks before s) :
    home? s = some item.home := by
  cases s with
  | node sketch =>
    obtain rfl := List.mem_singleton.mp h
    rfl
  | read name w outer port =>
    obtain ⟨p, hp, rfl⟩ := List.mem_map.mp h
    rcases needs_eq before (.read name w outer port) with hn | ⟨_, _, _, _, o, he, -, -, hn⟩
    · simp [introduces, hn] at hp
    · cases he
      rw [introduces, hn] at hp
      obtain rfl := List.mem_singleton.mp (List.mem_of_mem_filter hp)
      rfl
  | wire source port => cases h
  | bind name body node home => cases h
  | enter body => cases h
  | leave => cases h

theorem Keeps.itemsIn_eq_nil {P Q : Nat → Prop} {H : Place → Prop} {ss : List Step}
    (h : Keeps P Q H ss) {w : Place} (hw : ¬ H w) (before : List Step) : itemsIn w before ss = [] := by
  refine List.filter_eq_nil_iff.mpr fun item hi he => hw ?_
  obtain ⟨front, s, back, rfl, hs⟩ := mem_collect hi
  obtain rfl : item.home = w := by simpa using he
  exact h.homes s (by simp) _ (home_of_mem_asks hs)

theorem WellFormed.keeps {ss : List Step} (h : WellFormed ss) :
    Keeps (· < count ss) (· < count ss) (fun p => p.Below (count ss)) ss := by
  induction h with
  | nil => exact .nil
  | @snoc ss s hs ha ih =>
    have hle : count ss ≤ count (ss ++ [s]) := by simp
    refine Keeps.append (ih.mono (fun n hn => Nat.lt_of_lt_of_le hn hle)
      (fun n hn => Nat.lt_of_lt_of_le hn hle) fun p hp => hp.mono hle) ?_
    cases ha with
    | node label path plain => exact .node ((hs.below_path (by simp [path])).mono hle)
    | importNode label names => exact .node trivial
    | wire hs' ht => exact .wire (Nat.lt_of_lt_of_le hs' hle) (Nat.lt_of_lt_of_le ht hle)
    | read name path ht =>
      exact .read (Nat.lt_of_lt_of_le ht hle) ((hs.below_path (by simp [path])).mono hle)
    | bind path hn hh hs => exact .bind ..
    | enter path hk home owns once =>
      exact ⟨by simp [Steps.sources], by simp [Steps.targets], by simp [home?]⟩
    | leave path =>
      exact ⟨by simp [Steps.sources], by simp [Steps.targets], by simp [home?]⟩

namespace Located

variable {all before ss after : List Step} {k : Nat} {n : Nat}

theorem inputs_eq (h : Located all before ss after k) (hw : WellFormed all)
    (hn : Span k (count ss) n) : inputs n (links all) = inputs n (collect joins before ss) := by
  have hbefore := (h.wellFormed_before hw).keeps.inputs_eq_nil (n := n)
    (by rw [h.number]; exact Nat.not_lt.mpr hn.1) []
  rw [h.text, List.append_assoc, links_append, collect_append, inputs_append, inputs_append,
    h.away.inputs_eq_nil hn.not_outside, List.append_nil, links, hbefore, List.nil_append]

theorem itemsIn_eq (h : Located all before ss after k) (hw : WellFormed all)
    (hn : Span k (count ss) n) : itemsIn (.body n) [] all = itemsIn (.body n) before ss := by
  have hbefore := (h.wellFormed_before hw).keeps.itemsIn_eq_nil (w := .body n)
    (by rw [h.number]; exact Nat.not_lt.mpr hn.1) []
  rw [h.text, itemsIn_append, itemsIn_append, hbefore, List.nil_append, List.nil_append,
    h.away.itemsIn_eq_nil (fun ha => hn.not_outside (ha n rfl)), List.append_nil]

theorem outputs_eq (h : Located all before ss after k) (hw : WellFormed all)
    (hn : Span k (count ss) n) : outputs n all = outputs n ss := by
  have hbefore := (h.wellFormed_before hw).keeps.outputs_eq_nil (n := n)
    (by rw [h.number]; exact Nat.not_lt.mpr hn.1)
  rw [h.text, outputs_append, outputs_append, hbefore, h.away.outputs_eq_nil hn.not_outside,
    List.append_nil, List.nil_append]

end Located

theorem local_parts (k : Nat) (e : Expr) :
    Local w (some k) (k + 1) (count (parts w outer k e)) (parts w outer k e) :=
  (feeds_parts (fun _ _ => trivial) k e).local

/-- What an expression is as a value: its node, or what its name is bound to. -/
def root (before : List Step) (w : Place) (outer : List Place) (k : Nat) : Expr → Option Ref
  | .name id => (resolve before (w :: outer) id).map (·.ref w)
  | .unsupported => none
  | _ => some (.node k)

theorem inputs_place (n : Nat) (before : List Step) (label : String) (content : Content) (k : Nat)
    (port : Option Port) : inputs n (collect joins before (place w label content k port)) =
      port.toList.filterMap fun p => if p.target = n then some (.node k, p.kind) else none := by
  cases port with
  | none => rfl
  | some port => by_cases hn : port.target = n <;> simp [place, joins, inputs, hn]

theorem inputs_expr (before : List Step) (port : Port) {k : Nat} (hk : port.target < k) (e : Expr) :
    inputs port.target (collect joins before (expr w outer (some port) k e)) =
      (root before w outer k e).toList.map (·, port.kind) := by
  cases hf : face e with
  | none =>
    cases e with
    | name id =>
      rw [expr, collect_cons, collect_nil, List.append_nil, inputs_read, if_pos rfl, root]
      cases resolve before (w :: outer) id <;> rfl
    | unsupported => rfl
    | _ => cases hf
  | some p =>
    obtain ⟨label, content⟩ := p
    have hrest : inputs port.target (collect joins
        (before ++ place w label content k (some port)) (parts w outer k e)) = [] := by
      refine (local_parts k e).inputs_eq_nil ?_ _
      rintro (hn | hn)
      · obtain rfl := Option.mem_some.mp hn
        exact Nat.lt_irrefl _ hk
      · exact absurd hn.1 (by omega)
    have hroot : root before w outer k e = some (.node k) := by
      cases e <;> first | rfl | cases hf
    rw [expr_eq_place hf _ _ (.inl rfl), collect_append, inputs_append, inputs_place, hrest, hroot]
    simp

end Steps

end ScopedFlow
