import Mathlib.Data.List.Forall2
import ScopedFlow.Proofs.Seats

/-!
# No argument of a call is lost and none is written twice

Every wired argument is used up by the parameter that it belongs to, swept up by a star, or written
at the end. An argument that is used up has been written, unless it belongs to a parameter with an
override.
-/

namespace ScopedFlow

variable {id : NodeId}

namespace Wiring

variable {w : Wiring}

def wires (w : Wiring) : List (ArgKey × NodeId) :=
  w.positional.map (fun p => (.position p.1, p.2)) ++ w.keywords.map fun k => (.keyword k.1, k.2)

theorem Sorted.nodup_keys (h : w.Sorted) : (w.wires.map Prod.fst).Nodup := by
  rw [wires, List.map_append, List.map_map, List.map_map, List.nodup_append]
  refine ⟨?_, ?_, ?_⟩
  · apply List.pairwise_map.mpr
    apply h.positional.imp
    intro a b hlt he
    exact Nat.ne_of_lt hlt (ArgKey.position.inj he)
  · apply List.pairwise_map.mpr
    apply (List.pairwise_map.mp h.keywords).imp
    intro a b hne he
    exact hne (ArgKey.keyword.inj he)
  · intro a ha b hb he
    obtain ⟨p, -, rfl⟩ := List.mem_map.mp ha
    obtain ⟨k, -, rfl⟩ := List.mem_map.mp hb
    cases he

theorem Sorted.mem_wires_iff (h : w.Sorted) {key : ArgKey} :
    (key, id) ∈ w.wires ↔ w.get? key = some id := by
  have hpositions : (w.positional.map Prod.fst).Nodup := by
    apply List.pairwise_map.mpr
    exact h.positional.imp fun hlt => Nat.ne_of_lt hlt
  cases key with
  | position i =>
    rw [get?, positional?, find?_fst_iff hpositions]
    simp [wires]
  | keyword name =>
    rw [get?, keyword?, find?_fst_iff h.keywords]
    simp [wires]

end Wiring

namespace Seat

/-- An argument is free if it belongs to no parameter with an override. -/
def Free (o : Overrides) (seats : List Seat) (key : ArgKey) : Prop :=
  ∀ q ∈ seats, q.Holds key → o.get? q.param.name = none

instance (o : Overrides) (seats : List Seat) : DecidablePred (Free o seats) :=
  fun _ => inferInstanceAs (Decidable (∀ q ∈ seats, _ → _))

theorem free_snoc {o : Overrides} {seats : List Seat} {q : Seat} {key : ArgKey} :
    Free o (seats ++ [q]) key ↔ Free o seats key ∧ (q.Holds key → o.get? q.param.name = none) := by
  simp [Free, or_imp, forall_and]

end Seat

def WrittenArgument.isNode (a : WrittenArgument) : Bool :=
  match a.source with
  | .node _ => true
  | _ => false

/-- A wired argument as it is written: under its own keyword, or by position, where the name of the
parameter that has the position may be added. -/
def WrittenArgument.Shows (seats : List Seat) (key : ArgKey) (source : NodeId) (a : WrittenArgument) :
    Prop :=
  a.source = .node source ∧
    match key with
    | .keyword name => a.keyword = some name
    | .position i =>
      ∀ name, a.keyword = some name → ∃ q ∈ seats, q.slot = some i ∧ q.param.name = name

namespace Placement

open WrittenArgument Seat

variable {w : Wiring} {o : Overrides} {done : List Seat} {s : Placement} {p : Param} {key : ArgKey}
  {x : ArgKey × NodeId}

/-- The free arguments that are used up are those that have been written, each once. -/
def Shown (w : Wiring) (o : Overrides) (done : List Seat) (s : Placement) : Prop :=
  ∃ taken : List (ArgKey × NodeId),
    List.Forall₂ (fun x a => a.Shows done x.1 x.2) taken (s.written.filter isNode) ∧
    taken.Nodup ∧ ∀ x, x ∈ taken ↔ x ∈ w.wires ∧ s.Used x.1 ∧ Free o done x.1

theorem Shown.take {done' : List Seat} {s' : Placement} (h : Shown w o done s)
    (new : List (ArgKey × NodeId)) (args : List WrittenArgument) (hdone : done ⊆ done')
    (hwritten : s'.written.filter isNode = s.written.filter isNode ++ args)
    (hargs : List.Forall₂ (fun x a => a.Shows done' x.1 x.2) new args) (hnodup : new.Nodup)
    (hnew : ∀ x ∈ new, x ∈ w.wires ∧ ¬ s.Used x.1)
    (hused : ∀ x ∈ w.wires,
      s'.Used x.1 ∧ Free o done' x.1 ↔ s.Used x.1 ∧ Free o done x.1 ∨ x ∈ new) :
    Shown w o done' s' := by
  obtain ⟨taken, hshows, htaken, hmem⟩ := h
  refine ⟨taken ++ new, ?_, ?_, ?_⟩
  · rw [hwritten]
    apply List.rel_append _ hargs
    apply hshows.imp
    intro x a ha
    refine ⟨ha.1, ?_⟩
    have hform := ha.2
    revert hform
    cases x.1 with
    | keyword name => exact id
    | position i =>
      intro hform name hname
      obtain ⟨q, hq, hslot⟩ := hform name hname
      exact ⟨q, hdone hq, hslot⟩
  · apply List.nodup_append.mpr
    refine ⟨htaken, hnodup, ?_⟩
    rintro x hx y hy rfl
    exact (hnew x hy).2 ((hmem x).mp hx).2.1
  · intro x
    rw [List.mem_append, hmem]
    constructor
    · rintro (⟨hx, hold⟩ | hx)
      · exact ⟨hx, (hused x hx).mpr (Or.inl hold)⟩
      · exact ⟨(hnew x hx).1, (hused x (hnew x hx).1).mpr (Or.inr hx)⟩
    · rintro ⟨hx, hall⟩
      rcases (hused x hx).mp hall with hold | hx'
      · exact Or.inl ⟨hx, hold⟩
      · exact Or.inr hx'

theorem shows_byPosition (seats : List Seat) (i : Nat) (source : NodeId) :
    Shows seats (.position i) source ⟨none, .node source⟩ := by
  refine ⟨rfl, ?_⟩
  intro name hname
  cases hname

theorem isNode_waiting (p : Param) (keyword : Option String) :
    isNode ⟨keyword, p.waiting⟩ = false := by
  unfold Param.waiting
  cases p.default <;> rfl

theorem filter_isNode_pending (h : ∀ a ∈ s.pending, a.isNode = false) :
    s.pending.filter isNode = [] := by
  apply List.filter_eq_nil_iff.mpr
  intro a ha
  simp [h a ha]

theorem waiting_bindPlain (h : ∀ a ∈ s.pending, a.isNode = false) (p : Param) :
    ∀ a ∈ (s.bindPlain w o p).pending, a.isNode = false := by
  rw [bindPlain_pending]
  split <;> split
  · exact h
  · exact List.forall_mem_nil _
  · exact h
  · intro a ha
    rcases List.mem_append.mp ha with ha | ha
    · exact h a ha
    · rw [List.mem_singleton.mp ha]
      exact isNode_waiting p none

section Uptake

variable (w o) (q : Seat)

/-- The wired argument that a plain parameter without an override takes: the one with its name,
otherwise the one at its position. -/
def uptake : List (ArgKey × NodeId) :=
  match o.get? q.param.name, q.keyword w, q.position w with
  | none, some id, _ => [(.keyword q.param.name, id)]
  | none, none, some id => (q.slot.map fun i => (.position i, id)).toList
  | _, _, _ => []

variable {w o q}

theorem nodup_uptake : (uptake w o q).Nodup := by
  unfold uptake
  split
  · exact List.nodup_singleton _
  · cases q.slot <;> simp
  · exact .nil

theorem mem_uptake_keyword {name : String} : (.keyword name, id) ∈ uptake w o q ↔
    o.get? q.param.name = none ∧ q.keyword w = some id ∧ q.param.name = name := by
  unfold uptake
  cases o.get? q.param.name <;> cases q.keyword w <;> cases q.position w <;> cases q.slot <;>
    simp [eq_comm, and_comm]

theorem mem_uptake_position {i : Nat} : (.position i, id) ∈ uptake w o q ↔
    o.get? q.param.name = none ∧ q.keyword w = none ∧ q.slot = some i ∧ q.position w = some id := by
  unfold uptake
  cases o.get? q.param.name <;> cases q.keyword w <;> cases q.position w <;> cases q.slot <;>
    simp [eq_comm]

theorem holds_of_mem_uptake (h : x ∈ uptake w o q) : q.Holds x.1 := by
  obtain ⟨key, id⟩ := x
  cases key with
  | position i => exact (mem_uptake_position.mp h).2.2.1
  | keyword name =>
    obtain ⟨-, hkeyword, rfl⟩ := mem_uptake_keyword.mp h
    exact ⟨(keyword_eq_some_iff.mp hkeyword).1, rfl⟩

theorem wired_of_mem_uptake (hw : w.Sorted) (h : x ∈ uptake w o q) : x ∈ w.wires := by
  obtain ⟨key, id⟩ := x
  rw [hw.mem_wires_iff]
  cases key with
  | position i =>
    obtain ⟨-, -, hslot, hposition⟩ := mem_uptake_position.mp h
    rw [Seat.position, hslot] at hposition
    exact hposition
  | keyword name =>
    obtain ⟨-, hkeyword, rfl⟩ := mem_uptake_keyword.mp h
    exact (keyword_eq_some_iff.mp hkeyword).2

end Uptake

theorem shows_addition (h : ∀ a ∈ s.pending, a.isNode = false) (done : List Seat) (p : Param) :
    List.Forall₂ (fun x a => a.Shows (done ++ [s.seat p]) x.1 x.2) (uptake w o (s.seat p))
      ((s.addition w o p).filter isNode) := by
  have hpending := filter_isNode_pending h
  have hparam : (s.seat p).param = p := rfl
  unfold uptake addition Seat.given
  cases hover : o.get? (s.seat p).param.name with
  | some text =>
    dsimp only
    split
    · exact .nil
    · simp [hpending, isNode]
  | none =>
    cases hkeyword : (s.seat p).keyword w with
    | some id =>
      have hnamed : s.named w p = true := by
        rw [named, hkeyword, (keyword_eq_some_iff.mp hkeyword).1]
        simp
      rw [hnamed]
      exact .cons ⟨rfl, rfl⟩ .nil
    | none =>
      cases hposition : (s.seat p).position w with
      | none => cases hoptional : (s.seat p).param.optional <;> cases s.named w p <;>
          simp [isNode, hpending]
      | some id =>
        cases hslot : (s.seat p).slot with
        | none =>
          rw [Seat.position, hslot] at hposition
          cases hposition
        | some i =>
          cases s.named w p with
          | true =>
            refine .cons ⟨rfl, ?_⟩ .nil
            intro name hname
            exact ⟨s.seat p, by simp, hslot, Option.some.inj hname⟩
          | false =>
            simp only [Bool.false_eq_true, if_false, List.filter_append, hpending, List.nil_append]
            exact .cons (shows_byPosition ..) .nil

theorem slot_of_holds {i : Nat} (h : (s.seat p).Holds (.position i)) :
    s.pastStar = false ∧ i = s.slot := by
  simp only [Holds, seat] at h
  cases hstar : s.pastStar with
  | true => simp [hstar] at h
  | false =>
    rw [hstar] at h
    exact ⟨rfl, (Option.some.inj h).symm⟩

namespace Tally

variable {front : List Param}

theorem unused (h : Tally w o front done s) (hp : p.name ∉ done.map (·.param.name))
    (hholds : (s.seat p).Holds key) : ¬ s.Used key := by
  intro hused
  cases key with
  | position i =>
    obtain ⟨hstar, rfl⟩ := slot_of_holds hholds
    rcases (h.positions _).mp hused with ⟨q, hq, hslot, -⟩ | ⟨hrest, -⟩
    · have hlt := (h.slots _).mpr ⟨q, hq, hslot⟩
      omega
    · rw [h.star hrest] at hstar
      cases hstar
  | keyword name =>
    obtain ⟨q, hq, -, hname⟩ := (h.keywords name).mp hused
    apply hp
    exact List.mem_map.mpr ⟨q, hq, hname.trans hholds.2.symm⟩

theorem free (h : Tally w o front done s) (hp : p.name ∉ done.map (·.param.name))
    (hholds : (s.seat p).Holds key) : Free o done key := by
  intro q hq hheld
  cases key with
  | position i =>
    obtain ⟨-, rfl⟩ := slot_of_holds hholds
    have hlt := (h.slots _).mpr ⟨q, hq, hheld⟩
    omega
  | keyword name =>
    exact absurd (List.mem_map.mpr ⟨q, hq, hheld.2.trans hholds.2.symm⟩) hp

theorem used_of_not_free (hw : w.Sorted) (h : Tally w o front done s) (hx : x ∈ w.wires)
    (hnot : ¬ Free o done x.1) : s.Used x.1 := by
  obtain ⟨key, id⟩ := x
  rw [hw.mem_wires_iff] at hx
  simp only [Free, not_forall] at hnot
  obtain ⟨q, hq, hholds, hover⟩ := hnot
  cases key with
  | position i =>
    refine (h.positions i).mpr (Or.inl ⟨q, hq, hholds, ?_⟩)
    have hposition : q.position w = some id := by
      rw [Seat.position, show q.slot = some i from hholds]
      exact hx
    simp [fills, hposition, Option.isSome_iff_ne_none, hover]
  | keyword name =>
    refine (h.keywords name).mpr ⟨q, hq, ?_, hholds.2⟩
    rw [Seat.keyword, if_pos hholds.1, hholds.2]
    exact Option.isSome_iff_exists.mpr ⟨id, hx⟩

end Tally

theorem used_of_not_holds (hholds : ¬ (s.seat p).Holds key) :
    (s.bindPlain w o p).Used key ↔ s.Used key := by
  rw [used_bindPlain]
  refine ⟨?_, Or.inl⟩
  rintro (hused | hnew)
  · exact hused
  · exfalso
    apply hholds
    cases key with
    | position i =>
      obtain ⟨hfills, rfl⟩ := hnew
      show (if s.pastStar = true then none else some s.slot) = some s.slot
      rw [pastStar_of_fills hfills]
      rfl
    | keyword name =>
      obtain ⟨hkeyword, rfl⟩ := hnew
      obtain ⟨id, hid⟩ := Option.isSome_iff_exists.mp hkeyword
      exact ⟨(keyword_eq_some_iff.mp hid).1, rfl⟩

/-- What belongs to a plain parameter is used up, unless a keyword takes the place of a position. -/
theorem used_of_holds (hw : w.Sorted) (hx : x ∈ w.wires) (hholds : (s.seat p).Holds x.1)
    (hunused : ¬ s.Used x.1) :
    (s.bindPlain w o p).Used x.1 ↔ o.get? p.name ≠ none ∨ x ∈ uptake w o (s.seat p) := by
  obtain ⟨key, id⟩ := x
  rw [hw.mem_wires_iff] at hx
  rw [used_bindPlain, or_iff_right hunused]
  have hparam : (s.seat p).param = p := rfl
  cases key with
  | position i =>
    have hposition : (s.seat p).position w = some id := by
      rw [Seat.position, show (s.seat p).slot = some i from hholds]
      exact hx
    obtain ⟨-, hslot⟩ := slot_of_holds hholds
    have hholds : (s.seat p).slot = some i := hholds
    simp only [mem_uptake_position, fills, hposition, hparam, hholds, hslot]
    cases o.get? p.name <;> cases (s.seat p).keyword w <;> simp
  | keyword name =>
    obtain ⟨hname, rfl⟩ := hholds
    have hkeyword : (s.seat p).keyword w = some id := by
      rw [Seat.keyword, if_pos hname]
      exact hx
    simp only [mem_uptake_keyword, hkeyword, hparam]
    cases o.get? p.name <;> simp

theorem mem_wires_position {p : Nat × NodeId} :
    (.position p.1, p.2) ∈ w.wires ↔ p ∈ w.positional := by
  simp [Wiring.wires]

theorem forall₂_positions (done : List Seat) (ps : List (Nat × NodeId)) :
    List.Forall₂ (fun x a => WrittenArgument.Shows done x.1 x.2 a)
      (ps.map fun p => (ArgKey.position p.1, p.2)) (ps.map fun p => ⟨none, .node p.2⟩) := by
  rw [List.forall₂_map_left_iff, List.forall₂_map_right_iff, List.forall₂_same]
  intro p _
  exact shows_byPosition ..

theorem filter_isNode_map {α : Type} (keyword : α → Option String) (source : α → NodeId)
    (l : List α) :
    (l.map fun x => (⟨keyword x, .node (source x)⟩ : WrittenArgument)).filter isNode =
      l.map fun x => ⟨keyword x, .node (source x)⟩ := by
  apply List.filter_eq_self.mpr
  intro a ha
  obtain ⟨x, -, rfl⟩ := List.mem_map.mp ha
  rfl

theorem filter_unused_wires (w : Wiring) (s : Placement) :
    w.wires.filter (fun x => ¬ s.Used x.1) =
      ((w.positional.filter fun p => !s.usedPositions.contains p.1).map fun p =>
        (ArgKey.position p.1, p.2)) ++
      (w.keywords.filter fun k => !s.usedKeywords.contains k.1).map fun k =>
        (ArgKey.keyword k.1, k.2) := by
  rw [Wiring.wires, List.filter_append, List.filter_map, List.filter_map]
  congr 2
  · apply List.filter_congr
    intro p _
    by_cases hp : p.1 ∈ s.usedPositions <;> simp [Used, hp]
  · apply List.filter_congr
    intro k _
    by_cases hk : k.1 ∈ s.usedKeywords <;> simp [Used, hk]

section Steps

variable {front : List Param} (hw : w.Sorted) (ht : Tally w o front done s)

include hw ht

theorem Shown.plain (h : Shown w o done s) (hwaiting : ∀ a ∈ s.pending, a.isNode = false)
    (hp : p.name ∉ done.map (·.param.name)) :
    Shown w o (done ++ [s.seat p]) (s.bindPlain w o p) := by
  apply h.take (uptake w o (s.seat p)) ((s.addition w o p).filter isNode)
    (List.subset_append_left ..)
  · rw [bindPlain_written, List.filter_append]
  · exact shows_addition hwaiting done p
  · exact nodup_uptake
  · intro x hx
    exact ⟨wired_of_mem_uptake hw hx, ht.unused hp (holds_of_mem_uptake hx)⟩
  · intro x hx
    rw [free_snoc]
    by_cases hholds : (s.seat p).Holds x.1
    · have hunused := ht.unused hp hholds
      have hfree := ht.free hp hholds
      have hup : x ∈ uptake w o (s.seat p) → o.get? p.name = none := by
        obtain ⟨key, id⟩ := x
        cases key with
        | position i => exact fun hm => (mem_uptake_position.mp hm).1
        | keyword name => exact fun hm => (mem_uptake_keyword.mp hm).1
      rw [used_of_holds hw hx hholds hunused]
      have hparam : (s.seat p).param = p := rfl
      simp only [hparam, hholds, hunused, hfree, true_and, false_and, false_or, forall_const]
      constructor
      · rintro ⟨hover | hm, hnone⟩
        · exact absurd hnone hover
        · exact hm
      · intro hm
        exact ⟨Or.inr hm, hup hm⟩
    · have hnot : x ∉ uptake w o (s.seat p) := fun hm => hholds (holds_of_mem_uptake hm)
      simp [used_of_not_holds hholds, hholds, hnot]

theorem Shown.varArgs (h : Shown w o done s) (hwaiting : ∀ a ∈ s.pending, a.isNode = false) :
    Shown w o done (s.takeRest w).pastStars := by
  apply h.take ((swept w s).map fun p => (.position p.1, p.2))
    ((swept w s).map fun p => ⟨none, .node p.2⟩) (List.Subset.refl _)
  · show (s.written ++ s.pending ++ (swept w s).map _).filter isNode = _
    rw [List.filter_append, List.filter_append, filter_isNode_pending hwaiting, List.append_nil,
      filter_isNode_map]
  · exact forall₂_positions done _
  · apply List.pairwise_map.mpr
    apply List.Pairwise.imp _ (hw.positional.filter _)
    intro a b hlt he
    exact Nat.ne_of_lt hlt (ArgKey.position.inj (congrArg Prod.fst he))
  · intro x hx
    obtain ⟨p, hp, rfl⟩ := List.mem_map.mp hx
    obtain ⟨hp, -, hunused⟩ := mem_swept.mp hp
    exact ⟨mem_wires_position.mpr hp, hunused⟩
  · rintro ⟨key, id⟩ hx
    cases key with
    | keyword name =>
      have hsame : (s.takeRest w).pastStars.Used (.keyword name) ↔ s.Used (.keyword name) := Iff.rfl
      rw [hsame]
      simp
    | position i =>
      have hmem : (i, id) ∈ w.positional := mem_wires_position.mp hx
      have hused : (s.takeRest w).pastStars.Used (.position i) ↔
          s.Used (.position i) ∨ i ∈ (swept w s).map (·.1) := List.mem_append
      have hindex : i ∈ (swept w s).map (·.1) ↔ s.slot ≤ i ∧ i ∉ s.usedPositions := by
        constructor
        · intro hm
          obtain ⟨p, hp, rfl⟩ := List.mem_map.mp hm
          exact (mem_swept.mp hp).2
        · intro hnew
          exact List.mem_map_of_mem (f := Prod.fst) (mem_swept.mpr ⟨hmem, hnew⟩)
      have hswept : (ArgKey.position i, id) ∈ (swept w s).map (fun p => (ArgKey.position p.1, p.2)) ↔
          s.slot ≤ i ∧ i ∉ s.usedPositions := by
        simp [mem_swept, hmem]
      rw [hused, hswept, hindex]
      constructor
      · rintro ⟨hold | hnew, hfree⟩
        · exact Or.inl ⟨hold, hfree⟩
        · exact Or.inr hnew
      · rintro (⟨hold, hfree⟩ | hnew)
        · exact ⟨Or.inl hold, hfree⟩
        · refine ⟨Or.inr hnew, ?_⟩
          intro q hq hheld
          have hlt := (ht.slots i).mpr ⟨q, hq, hheld⟩
          omega

end Steps

structure Accounts (w : Wiring) (o : Overrides) (front : List Param) (done : List Seat)
    (s : Placement) : Prop where
  tally : Tally w o front done s
  shown : Shown w o done s
  waiting : ∀ a ∈ s.pending, a.isNode = false

theorem accounts_foldl (hw : w.Sorted) (o : Overrides) {params : List Param}
    (hnames : ((Param.seats params).map (·.param.name)).Nodup) :
    Accounts w o params (Param.seats params) (params.foldl (bind w o) (start params)) := by
  revert hnames
  show ((start params).seats params |>.map (·.param.name)).Nodup →
    Accounts w o params ((start params).seats params) _
  apply foldl_bind_induction
    (P := fun front done s => (done.map (·.param.name)).Nodup → Accounts w o front done s)
  · intro _
    refine ⟨tally_foldl w o params [], ⟨[], .nil, .nil, ?_⟩, List.forall_mem_nil _⟩
    rintro ⟨key, id⟩
    cases key <;> simp [start, Used]
  · intro front done s p hk h hnames
    rw [List.map_append, List.nodup_append] at hnames
    have h := h hnames.1
    have hp : p.name ∉ done.map (·.param.name) := by
      intro hmem
      exact hnames.2.2 _ hmem _ List.mem_cons_self rfl
    exact ⟨h.tally.plain hk, h.shown.plain hw h.tally h.waiting hp, waiting_bindPlain h.waiting p⟩
  · intro front done s p hk h hnames
    have h := h hnames
    exact ⟨h.tally.varArgs hk, h.shown.varArgs hw h.tally h.waiting, List.forall_mem_nil _⟩
  · intro front done s p hk h hnames
    have h := h hnames
    exact ⟨h.tally.other (by simp [hk]) rfl rfl rfl fun _ => rfl, h.shown, List.forall_mem_nil _⟩
  · intro front done s p hk h hnames
    have h := h hnames
    exact ⟨h.tally.other (by simp [hk]) rfl rfl rfl id, h.shown, List.forall_mem_nil _⟩
  · intro front done s p hk h hnames
    have h := h hnames
    exact ⟨h.tally.other (by simp [hk]) rfl rfl rfl id, h.shown, h.waiting⟩

end Placement

open Placement Seat WrittenArgument in
/-- The arguments that are written for wired ones are, in some order, the free wired arguments. -/
theorem writtenArguments_conserves {w : Wiring} (hw : w.Sorted) (o : Overrides) {params : List Param}
    (hnames : ((Param.seats params).map (·.param.name)).Nodup) :
    ∃ taken : List (ArgKey × NodeId),
      taken.Perm (w.wires.filter fun x => Free o (Param.seats params) x.1) ∧
      List.Forall₂ (fun x a => a.Shows (Param.seats params) x.1 x.2) taken
        ((writtenArguments params w o).filter isNode) := by
  have h := accounts_foldl hw o hnames
  obtain ⟨taken, hshows, hnodup, hmem⟩ := h.shown
  let s := params.foldl (bind w o) (start params)
  have hwires : w.wires.Nodup := hw.nodup_keys.of_map
  refine ⟨taken ++ w.wires.filter fun x => ¬ s.Used x.1, ?_, ?_⟩
  · rw [List.perm_ext_iff_of_nodup _ (hwires.filter _)]
    · rintro ⟨key, id⟩
      rw [List.mem_append, hmem, List.mem_filter, List.mem_filter, decide_eq_true_eq,
        decide_eq_true_eq]
      constructor
      · rintro (⟨hx, -, hfree⟩ | ⟨hx, hunused⟩)
        · exact ⟨hx, hfree⟩
        · refine ⟨hx, ?_⟩
          by_contra hnot
          exact hunused (h.tally.used_of_not_free hw hx hnot)
      · rintro ⟨hx, hfree⟩
        by_cases hused : s.Used key
        · exact Or.inl ⟨hx, hused, hfree⟩
        · exact Or.inr ⟨hx, hused⟩
    · apply List.nodup_append.mpr
      refine ⟨hnodup, hwires.filter _, ?_⟩
      rintro x hx y hy rfl
      exact of_decide_eq_true (List.mem_filter.mp hy).2 ((hmem x).mp hx).2.1
  · rw [filter_unused_wires, writtenArguments, List.filter_append, List.filter_append,
      filter_isNode_map, filter_isNode_map, ← List.append_assoc]
    apply List.rel_append
    · exact List.rel_append hshows (forall₂_positions _ _)
    · rw [List.forall₂_map_left_iff, List.forall₂_map_right_iff, List.forall₂_same]
      intro k _
      exact ⟨rfl, rfl⟩

namespace Graph

open Seat WrittenArgument in
/-- Every wired argument that belongs to no parameter with an override is written exactly once, and
no other node is: the written values of nodes are, in some order, the first edges of these keys. -/
theorem callArguments_conserve (g : Graph) (n : Node) (site : CallSite)
    (hnames : (Param.plainNames (g.callParams site)).Nodup) :
    (∀ style sub, g.renderArguments style sub n site =
      .join ", " ((g.callArguments n site).map (renderArgument style sub n))) ∧
    ∃ taken : List ArgKey,
      taken.Perm ((g.argKeys n.id).filter (Free site.overrides (Param.seats (g.callParams site)))) ∧
      List.Forall₂
        (fun key a => ∃ source, g.wired n.id key = some source ∧
          a.Shows (Param.seats (g.callParams site)) key source)
        taken ((g.callArguments n site).filter isNode) := by
  refine ⟨fun _ _ => rfl, ?_⟩
  have hw := Wiring.sorted_ofEdges (g.edgesTo n.id)
  rw [← Param.names_seats] at hnames
  obtain ⟨taken, hperm, hshows⟩ := writtenArguments_conserves hw site.overrides hnames
  have hwired : ∀ {key id}, (key, id) ∈ (Wiring.ofEdges (g.edgesTo n.id)).wires ↔
      g.wired n.id key = some id := by
    intro key id
    rw [hw.mem_wires_iff, Wiring.get?_edgesTo]
  have hkeys : ((Wiring.ofEdges (g.edgesTo n.id)).wires.map Prod.fst).Perm (g.argKeys n.id) := by
    apply (List.perm_ext_iff_of_nodup hw.nodup_keys (g.nodup_argKeys n.id)).mpr
    intro key
    rw [mem_argKeys, Option.isSome_iff_exists]
    simp [hwired]
  refine ⟨taken.map Prod.fst, ?_, ?_⟩
  · apply (hperm.map Prod.fst).trans
    have hfilter := hkeys.filter (Free site.overrides (Param.seats (g.callParams site)))
    rw [List.filter_map] at hfilter
    exact hfilter
  · rw [List.forall₂_map_left_iff]
    have hmem : ∀ x ∈ taken, g.wired n.id x.1 = some x.2 := by
      intro x hx
      exact hwired.mp (List.mem_filter.mp (hperm.mem_iff.mp hx)).1
    exact ((List.forall₂_and_left _ _).mpr ⟨hmem, hshows⟩).imp fun x a h => ⟨x.2, h⟩

/-- The parameters are `a, b, *rest`, and `b` has an override. The keyword takes the place of the first
argument, which then comes last; the second argument of position 2 does not count. -/
theorem callArguments_conserve_conflict :
    let call : CallSite := ⟨false, some (.body ⟨"f"⟩), [], Overrides.empty.insert "b" "9"⟩
    let n : Node := ⟨⟨"c"⟩, "f", .root, .call call⟩
    let params : List Param := [.required "a", .required "b", .variadic "rest" .varArgs]
    let edge (source : String) (kind : EdgeKind) : Edge := ⟨⟨source⟩, ⟨"c"⟩, kind⟩
    let g : Graph := ⟨[⟨⟨"f"⟩, "f", .root, .functionDef params⟩, n],
      [edge "p0" (.positional 0), edge "p1" (.positional 1), edge "p2" (.positional 2),
        edge "k" (.argument none (some "a")), edge "late" (.positional 2),
        edge "x" (.argument none (some "x"))]⟩
    (Param.plainNames (g.callParams call)).Nodup ∧
    g.callArguments n call = [⟨some "a", .node ⟨"k"⟩⟩, ⟨some "b", .text "9"⟩, ⟨none, .node ⟨"p2"⟩⟩,
      ⟨none, .node ⟨"p0"⟩⟩, ⟨some "x", .node ⟨"x"⟩⟩] ∧
    ∃ taken : List ArgKey,
      taken.Perm [.position 0, .position 2, .keyword "a", .keyword "x"] ∧
      List.Forall₂
        (fun key a => ∃ source, g.wired n.id key = some source ∧
          a.Shows (Param.seats params) key source)
        taken ((g.callArguments n call).filter WrittenArgument.isNode) := by
  intro call n params edge g
  have hnames : (Param.plainNames (g.callParams call)).Nodup := by decide +kernel
  have hkeys : (g.argKeys n.id).filter
      (Seat.Free call.overrides (Param.seats (g.callParams call))) =
        [.position 0, .position 2, .keyword "a", .keyword "x"] := by decide +kernel
  refine ⟨hnames, by decide +kernel, ?_⟩
  rw [← hkeys]
  exact (callArguments_conserve g n call hnames).2

end Graph

end ScopedFlow
