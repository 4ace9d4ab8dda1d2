import ScopedFlow.Program
import ScopedFlow.Proofs.Seats

/-!
# Arguments by position before arguments with keywords

The parameters themselves keep this order: once one of them is written with its name, so are all
later ones. Only a position that no parameter takes can break it, because a star collects it behind
the parameters in front of the star, and otherwise it is written behind all parameters.
-/

namespace ScopedFlow

namespace WrittenArgument

variable {as bs : List WrittenArgument}

/-- Behind an argument with a keyword all arguments have one. -/
def Ordered (as : List WrittenArgument) : Prop :=
  as.Pairwise fun a b => a.keyword.isSome = true → b.keyword.isSome = true

instance (as : List WrittenArgument) : Decidable (Ordered as) :=
  inferInstanceAs (Decidable (List.Pairwise _ _))

def HasKeyword (as : List WrittenArgument) : Prop := ∃ a ∈ as, a.keyword.isSome = true

theorem hasKeyword_append : HasKeyword (as ++ bs) ↔ HasKeyword as ∨ HasKeyword bs := by
  simp [HasKeyword, or_and_right, exists_or]

theorem not_hasKeyword_iff : ¬ HasKeyword as ↔ ∀ a ∈ as, a.keyword = none := by
  simp [HasKeyword]

theorem ordered_append : Ordered (as ++ bs) ↔
    Ordered as ∧ Ordered bs ∧ (HasKeyword as → ∀ b ∈ bs, b.keyword.isSome = true) := by
  unfold Ordered HasKeyword
  rw [List.pairwise_append]
  refine and_congr_right' (and_congr_right' ?_)
  constructor
  · rintro h ⟨a, ha, hsome⟩ b hb
    exact h a ha b hb hsome
  · intro h a ha b hb hsome
    exact h ⟨a, ha, hsome⟩ b hb

theorem ordered_of_none (h : ∀ a ∈ as, a.keyword = none) : Ordered as := by
  apply List.pairwise_of_forall_mem_list
  intro a ha b _ hsome
  rw [h a ha] at hsome
  cases hsome

theorem ordered_of_some (h : ∀ a ∈ as, a.keyword.isSome = true) : Ordered as := by
  apply List.pairwise_of_forall_mem_list
  intro a _ b hb _
  exact h b hb

end WrittenArgument

namespace Seat

variable (w : Wiring) (o : Overrides)

/-- Whether parameters turn keywords on for those behind them: one that can be named is named or left
out, or the last of those that cannot be named is left out. -/
def Turns (seats : List Seat) : Prop :=
  (∃ q ∈ seats, q.byName = true ∧ ((q.keyword w).isSome = true ∨ q.given w o = none)) ∨
    ∃ q, (seats.filter fun q => !q.byName).getLast? = some q ∧ q.given w o = none

/-- Whether one of the parameters is written with its name: there is a value for it, and it stands
behind a star, has a keyword itself, or those in front of it turn keywords on. -/
def NamesOne (seats : List Seat) : Prop :=
  ∃ front q back, seats = front ++ q :: back ∧ q.byName = true ∧ q.given w o ≠ none ∧
    (q.slot = none ∨ (q.keyword w).isSome = true ∨ Turns w o front)

variable {w o} {seats : List Seat} {q : Seat}

theorem turns_snoc_of_byName (hq : q.byName = true) : Turns w o (seats ++ [q]) ↔
    Turns w o seats ∨ (q.keyword w).isSome = true ∨ q.given w o = none := by
  have hfilter : (seats ++ [q]).filter (fun q => !q.byName) = seats.filter fun q => !q.byName := by
    simp [hq]
  simp only [Turns, hfilter, List.mem_append, List.mem_singleton, or_and_right, exists_or,
    exists_eq_left, hq, true_and]
  rw [or_right_comm]

theorem turns_snoc_of_not_byName (hseats : ∀ q ∈ seats, q.byName = false) (hq : q.byName = false) :
    Turns w o (seats ++ [q]) ↔ q.given w o = none := by
  have hall : ¬ ∃ q' ∈ seats ++ [q], q'.byName = true ∧
      ((q'.keyword w).isSome = true ∨ q'.given w o = none) := by
    rintro ⟨q', hmem, hname, -⟩
    rcases List.mem_append.mp hmem with hmem | hmem
    · rw [hseats q' hmem] at hname
      cases hname
    · rw [List.mem_singleton.mp hmem, hq] at hname
      cases hname
  rw [Turns, or_iff_right hall]
  simp [hq]

theorem namesOne_snoc : NamesOne w o (seats ++ [q]) ↔ NamesOne w o seats ∨
    q.byName = true ∧ q.given w o ≠ none ∧
      (q.slot = none ∨ (q.keyword w).isSome = true ∨ Turns w o seats) := by
  constructor
  · rintro ⟨front, q', back, heq, h⟩
    rcases List.eq_nil_or_concat back with rfl | ⟨back', q'', rfl⟩
    · obtain ⟨rfl, hq⟩ := List.append_inj' heq rfl
      obtain rfl : q = q' := by simpa using hq
      exact Or.inr h
    · have hsplit : seats ++ [q] = (front ++ q' :: back') ++ [q''] := by
        rw [heq, List.append_assoc, List.cons_append, List.concat_eq_append]
      obtain ⟨rfl, -⟩ := List.append_inj' hsplit rfl
      exact Or.inl ⟨front, q', back', rfl, h⟩
  · rintro (⟨front, q', back, rfl, h⟩ | h)
    · exact ⟨front, q', back ++ [q], by simp, h⟩
    · exact ⟨seats, q, [], rfl, h⟩

end Seat

namespace Param

/-- The parameters in front of the first star that collects positions. -/
def beforeStar (params : List Param) : List Param := params.takeWhile fun p => p.kind ≠ .varArgs

theorem beforeStar_snoc {front : List Param} (h : ¬ ∃ p ∈ front, p.kind = .varArgs) {p : Param}
    (hp : p.kind = .varArgs) : beforeStar (front ++ [p]) = front := by
  unfold beforeStar
  rw [List.takeWhile_append_of_pos]
  · simp [hp]
  · intro p' hp'
    exact decide_eq_true fun hk => h ⟨p', hp', hk⟩

theorem beforeStar_append {front : List Param} (h : ∃ p ∈ front, p.kind = .varArgs)
    (back : List Param) : beforeStar (front ++ back) = beforeStar front := by
  induction front with
  | nil => obtain ⟨p, hp, -⟩ := h; cases hp
  | cons p front ih =>
    unfold beforeStar at ih ⊢
    rw [List.cons_append, List.takeWhile_cons, List.takeWhile_cons]
    split
    · rename_i hk
      have hk : p.kind ≠ .varArgs := of_decide_eq_true hk
      rw [ih (by simpa [hk] using h)]
    · rfl

def seatsBeforeStar (params : List Param) : List Seat :=
  seatsFrom (hasSlash params) false 0 (beforeStar params)

end Param

namespace Placement

open WrittenArgument Seat Param

variable {w : Wiring} {o : Overrides} {done : List Seat} {s : Placement}

/-- How keywords stand behind the seats `done`. -/
structure Stance (w : Wiring) (o : Overrides) (done : List Seat) (s : Placement) : Prop where
  before : s.beforeSlash = true →
    (∀ q ∈ done, q.byName = false) ∧ ∀ a ∈ s.written, a.keyword = none
  waiting : ∀ a ∈ s.pending, a.keyword = none
  behind : s.beforeSlash = false → s.pending = []
  left : s.beforeSlash = true → s.pastStar = false → (s.pending ≠ [] ↔ Turns w o done)
  turned : s.byKeyword = true ↔ s.pastStar = true ∨ s.beforeSlash = false ∧ Turns w o done
  named : HasKeyword s.written ↔ NamesOne w o done
  on : HasKeyword s.written → s.byKeyword = true

namespace Stance

theorem start (w : Wiring) (o : Overrides) (params : List Param) :
    Stance w o [] (Placement.start params) := by
  have hturns : ¬ Turns w o [] := by simp [Turns]
  have hnames : ¬ NamesOne w o [] := by simp [NamesOne]
  have hkeyword : ¬ HasKeyword [] := by simp [HasKeyword]
  refine ⟨fun _ => ⟨List.forall_mem_nil _, List.forall_mem_nil _⟩, List.forall_mem_nil _, fun _ => rfl,
    fun _ _ => ?_, ?_, ?_, ?_⟩
  · exact iff_of_false (fun h => h rfl) hturns
  · simp [Placement.start, hturns]
  · exact iff_of_false hkeyword hnames
  · exact fun h => absurd h hkeyword

theorem hasKeyword_addition (h : Stance w o done s) (p : Param) :
    HasKeyword (s.addition w o p) ↔ (s.seat p).byName = true ∧ (s.seat p).given w o ≠ none ∧
      ((s.seat p).slot = none ∨ ((s.seat p).keyword w).isSome = true ∨ Turns w o done) := by
  have hnamed : s.named w p = true ↔ (s.seat p).byName = true ∧
      ((s.seat p).slot = none ∨ ((s.seat p).keyword w).isSome = true ∨ Turns w o done) := by
    rw [Placement.named, Bool.and_eq_true, Bool.or_eq_true, h.turned, slot_seat_eq_none]
    apply and_congr_right
    intro hname
    have hslash : s.beforeSlash = false := by simpa [seat] using hname
    simp only [hslash, true_and]
    rw [or_assoc, or_comm (a := Turns w o done)]
  unfold addition
  cases (s.seat p).given w o with
  | none => simp [HasKeyword]
  | some source =>
    simp only [ne_eq, reduceCtorEq, not_false_eq_true, true_and]
    rw [← hnamed]
    cases s.named w p with
    | true => simp [HasKeyword]
    | false =>
      simp only [Bool.false_eq_true, if_false, iff_false]
      apply not_hasKeyword_iff.mpr
      intro a ha
      rcases List.mem_append.mp ha with ha | ha
      · exact h.waiting a ha
      · rw [List.mem_singleton.mp ha]

theorem plain (h : Stance w o done s) (p : Param) :
    Stance w o (done ++ [s.seat p]) (s.bindPlain w o p) := by
  have hname : (s.seat p).byName = !s.beforeSlash := rfl
  have hkeyword : HasKeyword (s.bindPlain w o p).written ↔ NamesOne w o (done ++ [s.seat p]) := by
    rw [bindPlain_written, hasKeyword_append, h.named, h.hasKeyword_addition, namesOne_snoc]
  refine ⟨?_, ?_, ?_, ?_, ?_, hkeyword, ?_⟩
  · rw [bindPlain_beforeSlash]
    intro hslash
    obtain ⟨hdone, hwritten⟩ := h.before hslash
    constructor
    · intro q hq
      rcases List.mem_append.mp hq with hq | hq
      · exact hdone q hq
      · rw [List.mem_singleton.mp hq, hname, hslash]
        rfl
    · apply not_hasKeyword_iff.mp
      rw [bindPlain_written, hasKeyword_append, h.hasKeyword_addition, hname, hslash]
      rintro (hold | hnew)
      · exact not_hasKeyword_iff.mpr hwritten hold
      · exact Bool.false_ne_true hnew.1
  · rw [bindPlain_pending]
    split <;> split
    · exact h.waiting
    · exact List.forall_mem_nil _
    · exact h.waiting
    · intro a ha
      rcases List.mem_append.mp ha with ha | ha
      · exact h.waiting a ha
      · rw [List.mem_singleton.mp ha]
  · rw [bindPlain_beforeSlash, bindPlain_pending]
    intro hslash
    rw [hname, hslash, h.behind hslash]
    split <;> simp
  · rw [bindPlain_beforeSlash, bindPlain_pastStar, bindPlain_pending]
    intro hslash _
    rw [turns_snoc_of_not_byName (h.before hslash).1 (by rw [hname, hslash]; rfl)]
    have hnamed : s.named w p = false := by
      rw [Placement.named, hname, hslash]
      rfl
    rw [hnamed, hname, hslash]
    cases (s.seat p).given w o <;> simp
  · rw [bindPlain_byKeyword, bindPlain_pastStar, bindPlain_beforeSlash, Bool.or_eq_true, h.turned]
    cases hslash : s.beforeSlash with
    | true => simp [hname, hslash]
    | false =>
      have hbyName : (s.seat p).byName = true := by rw [hname, hslash]; rfl
      simp [turns_snoc_of_byName hbyName, hbyName, or_assoc]
  · intro hsome
    rw [bindPlain_written, hasKeyword_append] at hsome
    rw [bindPlain_byKeyword, Bool.or_eq_true]
    rcases hsome with hold | hnew
    · exact Or.inl (h.on hold)
    · rw [h.hasKeyword_addition] at hnew
      obtain ⟨hbyName, -, hwhy⟩ := hnew
      have hslash : s.beforeSlash = false := by simpa [hname] using hbyName
      rcases hwhy with hslot | hkey | hturns
      · exact Or.inl (h.turned.mpr (Or.inl ((slot_seat_eq_none s p).mp hslot)))
      · simp [hbyName, hkey]
      · exact Or.inl (h.turned.mpr (Or.inr ⟨hslash, hturns⟩))

theorem keyword_of_rest (h : Stance w o done s) {a : WrittenArgument}
    (ha : a ∈ s.pending ++ (swept w s).map fun p => ⟨none, .node p.2⟩) : a.keyword = none := by
  rcases List.mem_append.mp ha with ha | ha
  · exact h.waiting a ha
  · obtain ⟨p, -, rfl⟩ := List.mem_map.mp ha
    rfl

theorem hasKeyword_takeRest (h : Stance w o done s) :
    HasKeyword (s.takeRest w).pastStars.written ↔ HasKeyword s.written := by
  show HasKeyword (s.written ++ s.pending ++ (swept w s).map _) ↔ _
  rw [List.append_assoc, hasKeyword_append]
  apply or_iff_left
  apply not_hasKeyword_iff.mpr
  intro a ha
  exact h.keyword_of_rest ha

theorem varArgs (h : Stance w o done s) : Stance w o done (s.takeRest w).pastStars := by
  have hkeyword := h.hasKeyword_takeRest
  refine ⟨?_, List.forall_mem_nil _, fun _ => rfl, fun _ hstar => Bool.noConfusion hstar,
    iff_of_true rfl (Or.inl rfl), hkeyword.trans h.named, fun _ => rfl⟩
  intro hslash
  obtain ⟨hdone, hwritten⟩ := h.before hslash
  refine ⟨hdone, ?_⟩
  rw [← not_hasKeyword_iff] at hwritten ⊢
  exact fun hsome => hwritten (hkeyword.mp hsome)

theorem slash (h : Stance w o done s) : Stance w o done
    { s with
      pending := [], byKeyword := s.byKeyword || !s.pending.isEmpty, beforeSlash := false } := by
  refine ⟨fun hslash => Bool.noConfusion hslash, List.forall_mem_nil _, fun _ => rfl,
    fun hslash => Bool.noConfusion hslash, ?_, h.named, ?_⟩
  · have hpending : (!s.pending.isEmpty) = true ↔ s.pending ≠ [] := by simp
    show (s.byKeyword || !s.pending.isEmpty) = true ↔ s.pastStar = true ∨ false = false ∧ _
    rw [Bool.or_eq_true, h.turned, hpending]
    cases hslash : s.beforeSlash with
    | false => simp [h.behind hslash]
    | true =>
      cases hstar : s.pastStar with
      | true => simp
      | false => simp [← h.left hslash hstar]
  · intro hsome
    show (s.byKeyword || _) = true
    rw [h.on hsome, Bool.true_or]

theorem beforeSlash_of_hasKeyword (h : Stance w o done s) (hsome : HasKeyword s.written) :
    s.beforeSlash = false := by
  cases hs : s.beforeSlash with
  | false => rfl
  | true => exact absurd hsome (not_hasKeyword_iff.mpr (h.before hs).2)

theorem ordered_bindPlain (h : Stance w o done s) (p : Param) :
    Ordered (s.bindPlain w o p).written ↔ Ordered s.written := by
  rw [bindPlain_written, ordered_append]
  refine ⟨And.left, fun hordered => ⟨hordered, ?_, ?_⟩⟩
  · unfold addition
    split
    · split
      · exact List.pairwise_singleton ..
      · apply ordered_of_none
        intro a ha
        rcases List.mem_append.mp ha with ha | ha
        · exact h.waiting a ha
        · rw [List.mem_singleton.mp ha]
    · exact .nil
  · intro hsome b hb
    have hslash := h.beforeSlash_of_hasKeyword hsome
    have hnamed : s.named w p = true := by
      rw [Placement.named, h.on hsome, Bool.true_or, Bool.and_true]
      simp [seat, hslash]
    unfold addition at hb
    rw [hnamed] at hb
    split at hb
    · rw [List.mem_singleton.mp hb]
      rfl
    · cases hb

theorem ordered_takeRest (h : Stance w o done s) :
    Ordered (s.takeRest w).pastStars.written ↔
      Ordered s.written ∧ (HasKeyword s.written → swept w s = []) := by
  show Ordered (s.written ++ s.pending ++ (swept w s).map _) ↔ _
  rw [List.append_assoc, ordered_append]
  refine and_congr_right fun _ => ?_
  constructor
  · rintro ⟨-, hrest⟩ hsome
    rw [List.eq_nil_iff_forall_not_mem]
    intro e he
    have hkeyword := hrest hsome _ (List.mem_append_right _ (List.mem_map_of_mem he))
    cases hkeyword
  · intro hnil
    refine ⟨ordered_of_none fun a ha => h.keyword_of_rest ha, ?_⟩
    intro hsome b hb
    rw [hnil hsome, h.behind (h.beforeSlash_of_hasKeyword hsome)] at hb
    cases hb

end Stance

theorem stance_foldl (w : Wiring) (o : Overrides) (params front : List Param) :
    Stance w o ((start params).seats front) (front.foldl (bind w o) (start params)) := by
  apply foldl_bind_induction (P := fun _ => Stance w o)
  · exact .start w o params
  · intro _ _ _ p _ h
    exact h.plain p
  · intro _ _ _ _ _ h
    exact h.varArgs
  · intro _ _ _ _ _ h
    exact ⟨h.before, List.forall_mem_nil _, fun _ => rfl, fun _ hstar => Bool.noConfusion hstar,
      iff_of_true rfl (Or.inl rfl), h.named, fun _ => rfl⟩
  · intro _ _ _ _ _ h
    exact h.slash
  · intro _ _ _ _ _ h
    exact h

/-- Only what a star sweeps up can stand behind a keyword. -/
theorem ordered_foldl (w : Wiring) (o : Overrides) (params front : List Param) :
    Ordered (front.foldl (bind w o) (start params)).written ↔
      ((∃ p ∈ front, p.kind = .varArgs) → NamesOne w o ((start params).seats (beforeStar front)) →
        ∀ i, (w.positional? i).isSome = true → i < (front.foldl (bind w o) (start params)).slot) := by
  induction front using List.reverseRecOn with
  | nil => exact iff_of_true .nil fun hsome => absurd hsome (by simp)
  | append_singleton front p ih =>
    have hstance := stance_foldl w o params front
    have htally := tally_foldl w o params front
    rw [List.foldl_concat]
    generalize front.foldl (bind w o) (start params) = s at ih hstance htally ⊢
    by_cases hk : p.kind = .varArgs
    · have hbind : bind w o s p = (s.takeRest w).pastStars := by simp [bind, hk]
      have hsome : ∃ p' ∈ front ++ [p], p'.kind = .varArgs := ⟨p, by simp, hk⟩
      rw [hbind, hstance.ordered_takeRest, ih, htally.swept_eq_nil_iff, hstance.named,
        forall_prop_of_true hsome]
      have hslot : (s.takeRest w).pastStars.slot = s.slot := rfl
      rw [hslot]
      by_cases hfront : ∃ p ∈ front, p.kind = .varArgs
      · rw [beforeStar_append hfront, forall_prop_of_true hfront, and_iff_left fun _ => Or.inl hfront]
      · rw [beforeStar_snoc hfront hk, or_iff_right hfront, and_iff_right fun h => absurd h hfront]
    · have hordered : Ordered (bind w o s p).written ↔ Ordered s.written := by
        unfold bind
        cases hkind : p.kind with
        | varArgs => exact absurd hkind hk
        | positional => exact hstance.ordered_bindPlain p
        | _ => exact Iff.rfl
      have hslot : s.pastStar = true → (bind w o s p).slot = s.slot := by
        intro hstar
        unfold bind
        cases hkind : p.kind with
        | varArgs => exact absurd hkind hk
        | positional => exact (bindPlain_slot w o s p).trans (if_pos hstar)
        | _ => rfl
      have hfront : (∃ p' ∈ front ++ [p], p'.kind = .varArgs) ↔ ∃ p' ∈ front, p'.kind = .varArgs := by
        simp [hk]
      rw [hordered, ih, hfront]
      refine forall_congr' fun hsome => ?_
      rw [beforeStar_append hsome, hslot (htally.star hsome)]

end Placement

open Placement WrittenArgument Seat in
/-- The order is kept exactly if no position is left for the end once some parameter is written with
its name, and none for the star once one in front of the star is. -/
theorem ordered_writtenArguments (params : List Param) (w : Wiring) (o : Overrides) :
    Ordered (writtenArguments params w o) ↔
      (NamesOne w o (Param.seats params) → ∀ i, (w.positional? i).isSome = true →
        (∃ q ∈ Param.seats params, q.slot = some i ∧ q.fills w o = true) ∨
          (∃ p ∈ params, p.kind = .varArgs) ∧ ∀ q ∈ Param.seats params, q.slot ≠ some i) ∧
      (NamesOne w o (Param.seatsBeforeStar params) → (∃ p ∈ params, p.kind = .varArgs) →
        ∀ i, (w.positional? i).isSome = true → ∃ q ∈ Param.seats params, q.slot = some i) := by
  have hstance := stance_foldl w o params params
  have htally := tally_foldl w o params params
  have hordered := ordered_foldl w o params params
  have hseats : (start params).seats params = Param.seats params := rfl
  have hbefore : (start params).seats (Param.beforeStar params) = Param.seatsBeforeStar params := rfl
  rw [hseats] at hstance htally
  rw [hbefore] at hordered
  unfold writtenArguments
  generalize params.foldl (bind w o) (start params) = s at hstance htally hordered ⊢
  let left := w.positional.filter fun p => !s.usedPositions.contains p.1
  let extra := w.keywords.filter fun k => !s.usedKeywords.contains k.1
  have hused (i : Nat) (hi : (w.positional? i).isSome = true) : s.Used (.position i) ↔
      (∃ q ∈ Param.seats params, q.slot = some i ∧ q.fills w o = true) ∨
        (∃ p ∈ params, p.kind = .varArgs) ∧ ∀ q ∈ Param.seats params, q.slot ≠ some i := by
    have hslot : s.slot ≤ i ↔ ∀ q ∈ Param.seats params, q.slot ≠ some i := by
      rw [← Nat.not_lt, htally.slots]
      simp
    rw [htally.positions, and_iff_right hi, hslot]
  have hleft : left = [] ↔ ∀ i, (w.positional? i).isSome = true → s.Used (.position i) := by
    simp [left, Wiring.positional?_isSome, Used]
  have hplain : ∀ a ∈ left.map fun p => (⟨none, .node p.2⟩ : WrittenArgument), a.keyword = none := by
    intro a ha
    obtain ⟨p, -, rfl⟩ := List.mem_map.mp ha
    rfl
  have hworded : ∀ a ∈ extra.map fun k => (⟨some k.1, .node k.2⟩ : WrittenArgument),
      a.keyword.isSome = true := by
    intro a ha
    obtain ⟨k, -, rfl⟩ := List.mem_map.mp ha
    rfl
  have hend : Ordered (s.written ++ left.map (fun p => ⟨none, .node p.2⟩) ++
        extra.map fun k => ⟨some k.1, .node k.2⟩) ↔
      Ordered s.written ∧ (HasKeyword s.written → left = []) := by
    rw [ordered_append, and_iff_left ⟨ordered_of_some hworded, fun _ => hworded⟩, ordered_append,
      and_iff_right (ordered_of_none hplain)]
    refine and_congr_right fun _ => forall_congr' fun _ => ?_
    constructor
    · intro hall
      rw [List.eq_nil_iff_forall_not_mem]
      intro e he
      cases hall _ (List.mem_map_of_mem he)
    · intro hnil
      rw [hnil]
      exact List.forall_mem_nil _
  refine hend.trans ?_
  rw [hordered, hstance.named, hleft, and_comm]
  refine and_congr ?_ ?_
  · exact forall_congr' fun _ => forall_congr' fun i => forall_congr' (hused i)
  · rw [imp.swap]
    simp only [htally.slots]

namespace Graph

open WrittenArgument Seat in
/-- The arguments of a call are written in order, those by position before those with keywords,
exactly if the positions find their places. Where some parameter is written with its name, every
position has to fill the seat of a parameter or be collected by a star. Where one in front of the
star is, every position has to have a seat. -/
theorem callArguments_ordered_iff (g : Graph) (n : Node) (site : CallSite) :
    (∀ style sub, g.renderArguments style sub n site =
      .join ", " ((g.callArguments n site).map (renderArgument style sub n))) ∧
    let params := g.callParams site
    let w := Wiring.ofEdges (g.edgesTo n.id)
    (Ordered (g.callArguments n site) ↔
      (NamesOne w site.overrides (Param.seats params) →
        ∀ i, (g.wired n.id (.position i)).isSome = true →
          (∃ q ∈ Param.seats params, q.slot = some i ∧ q.fills w site.overrides = true) ∨
            (∃ p ∈ params, p.kind = .varArgs) ∧ ∀ q ∈ Param.seats params, q.slot ≠ some i) ∧
      (NamesOne w site.overrides (Param.seatsBeforeStar params) →
        (∃ p ∈ params, p.kind = .varArgs) → ∀ i, (g.wired n.id (.position i)).isSome = true →
          ∃ q ∈ Param.seats params, q.slot = some i)) := by
  refine ⟨fun _ _ => rfl, ?_⟩
  intro params w
  simp only [← Wiring.get?_edgesTo]
  exact ordered_writtenArguments params w site.overrides

open WrittenArgument in
/-- A position too many comes behind the keyword: the call is written `f(1, k=3, 2)`. -/
theorem callArguments_ordered_iff_surplus :
    ∃ (g : Graph) (supply : Supply) (n : Node) (site : CallSite),
      ofSourceLinked ⟨0⟩ "def f(a, *, k=1):\n    pass\nf(1, 2, k=3)\n" = .ok (g, supply) ∧
      n ∈ g.nodes ∧ n.payload = .call site ∧
      (g.callArguments n site).map (·.keyword) = [none, some "k", none] ∧
      ∃ i, (g.wired n.id (.position i)).isSome = true ∧
        ¬ ∃ q ∈ Param.seats (g.callParams site),
          q.slot = some i ∧ q.fills (.ofEdges (g.edgesTo n.id)) site.overrides = true := by
  let module : List Stmt := [.function "f" [.required "a", .separator .keywordOnly,
    .withDefault "k" "1"] [.skip], .eval (.call "f" [.positional (.literal "1"),
      .positional (.literal "2"), .keyword "k" (.literal "3")])]
  let g : Graph := (build ⟨0⟩ module).1.link.1
  let site : CallSite := ⟨false, some (.body (Supply.idOf .functionDef 0)),
    [.required "a", .separator .keywordOnly, .withDefault "k" "1"], .empty⟩
  let n : Node := ⟨Supply.idOf .call 3, "f", .root, .call site⟩
  have hunordered : ¬ Ordered (g.callArguments n site) := by decide +kernel
  refine ⟨g, (build ⟨0⟩ module).2, n, site, by decide +kernel, by decide +kernel, rfl,
    by decide +kernel, ?_⟩
  have hstar : ¬ ∃ p ∈ g.callParams site, p.kind = .varArgs := by decide +kernel
  by_contra hfilled
  apply hunordered
  apply (callArguments_ordered_iff g n site).2.mpr
  refine ⟨fun _ i hi => Or.inl ?_, fun _ hsome => absurd hsome hstar⟩
  by_contra hno
  exact hfilled ⟨i, hi, hno⟩

end Graph

end ScopedFlow
