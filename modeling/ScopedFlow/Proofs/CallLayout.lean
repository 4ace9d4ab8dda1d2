import Mathlib.Data.List.Sort
import ScopedFlow.Proofs.Seats

/-!
# The layout of a written call

The parameters in front of a star fall into two parts: those of the first part are written by
position, with their defaults where they are left out, and those of the second part with their
names, or not at all. What a star collects stands between the two, and it is not empty only if the
second part is.
-/

namespace ScopedFlow

namespace Seat

variable (w : Wiring) (o : Overrides) (q : Seat)

/-- What stands for the parameter if it cannot be left out. -/
def filled : ArgSource := (q.given w o).getD q.param.waiting

def byPosition : WrittenArgument := ⟨none, q.filled w o⟩

def withName : Option WrittenArgument :=
  (q.given w o).map fun source => ⟨some q.param.name, source⟩

theorem slot_of_mem {seats : List Seat}
    (h : seats.map (·.slot) = (List.range seats.length).map some) {q : Seat} (hq : q ∈ seats) :
    ∃ i < seats.length, q.slot = some i := by
  have hmem : q.slot ∈ (List.range seats.length).map some := by
    rw [← h]
    exact List.mem_map_of_mem hq
  obtain ⟨i, hi, hslot⟩ := List.mem_map.mp hmem
  exact ⟨i, List.mem_range.mp hi, hslot.symm⟩

theorem exists_slot_iff {seats : List Seat}
    (h : seats.map (·.slot) = (List.range seats.length).map some) {i : Nat} :
    (∃ q ∈ seats, q.slot = some i) ↔ i < seats.length := by
  have hmem : some i ∈ seats.map (·.slot) ↔ some i ∈ (List.range seats.length).map some := by
    rw [h]
  simpa using hmem

end Seat

namespace Placement

open Seat

variable {w : Wiring} {o : Overrides} {done : List Seat} {s : Placement} {p : Param} {c : Nat}

/-- The seats `done` in front of a star, of which the first `c` are written by position. -/
structure Laid (w : Wiring) (o : Overrides) (c : Nat) (done : List Seat) (s : Placement) : Prop where
  le : c ≤ done.length
  written : s.written =
    (done.take c).map (byPosition w o) ++ (done.drop c).filterMap (withName w o)
  pending : s.pending =
    if s.beforeSlash then (done.drop c).map fun q => ⟨none, q.param.waiting⟩ else []
  byKeyword : s.byKeyword = (!s.beforeSlash && decide (c < done.length))
  leftOut : ∀ q ∈ done.drop c, q.byName = false → q.given w o = none
  unnamed : s.beforeSlash = true → ∀ q ∈ done, q.byName = false
  turned : c < done.length → ∃ q ∈ done, (q.keyword w).isSome = true ∨ q.given w o = none
  slots : done.map (·.slot) = (List.range done.length).map some
  slot : s.slot = done.length
  star : s.pastStar = false

namespace Laid

theorem start (w : Wiring) (o : Overrides) (params : List Param) :
    Laid w o 0 [] (Placement.start params) := by
  refine ⟨Nat.le_refl _, rfl, ?_, ?_, List.forall_mem_nil _, fun _ => List.forall_mem_nil _,
    fun hlt => absurd hlt (Nat.lt_irrefl 0), rfl, rfl, rfl⟩
  · simp [Placement.start]
  · simp [Placement.start]

section Plain

variable (h : Laid w o c done s) (p : Param)

include h

theorem slots_snoc :
    (done ++ [s.seat p]).map (·.slot) = (List.range (done ++ [s.seat p]).length).map some := by
  have hslot : (s.seat p).slot = some done.length := by
    simp [seat, h.star, h.slot]
  rw [List.map_append, List.length_append, List.length_singleton, List.range_succ, List.map_append,
    h.slots]
  simp [hslot]

theorem pending_eq (hnamed : s.named w p = false) :
    (done.drop c).filterMap (withName w o) = [] ∧
      s.pending = (done.drop c).map (byPosition w o) := by
  cases hslash : s.beforeSlash with
  | false =>
    have hoff : s.byKeyword = false := by
      have hname : (s.seat p).byName = true := by simp [seat, hslash]
      rw [Placement.named, hname, Bool.true_and, Bool.or_eq_false_iff] at hnamed
      exact hnamed.1
    rw [h.byKeyword, hslash, Bool.not_false, Bool.true_and, decide_eq_false_iff_not] at hoff
    rw [h.pending, hslash, List.drop_eq_nil_of_le (Nat.le_of_not_lt hoff)]
    exact ⟨rfl, rfl⟩
  | true =>
    have hnone : ∀ q ∈ done.drop c, q.given w o = none := by
      intro q hq
      exact h.leftOut q hq (h.unnamed hslash q (List.mem_of_mem_drop hq))
    constructor
    · apply List.filterMap_eq_nil_iff.mpr
      intro q hq
      rw [withName, hnone q hq]
      rfl
    · rw [h.pending, if_pos hslash]
      apply List.map_congr_left
      intro q hq
      rw [byPosition, filled, hnone q hq]
      rfl

theorem unnamed_snoc (hslash : (s.bindPlain w o p).beforeSlash = true) :
    ∀ q ∈ done ++ [s.seat p], q.byName = false := by
  rw [bindPlain_beforeSlash] at hslash
  intro q hq
  rcases List.mem_append.mp hq with hq | hq
  · exact h.unnamed hslash q hq
  · rw [List.mem_singleton.mp hq]
    simp [seat, hslash]

theorem slot_snoc : (s.bindPlain w o p).slot = (done ++ [s.seat p]).length := by
  rw [bindPlain_slot, h.star, h.slot, List.length_append]
  rfl

theorem plain_byPosition (hnamed : s.named w p = false) (hgiven : (s.seat p).given w o ≠ none) :
    Laid w o (done.length + 1) (done ++ [s.seat p]) (s.bindPlain w o p) := by
  obtain ⟨source, hsource⟩ := Option.ne_none_iff_exists'.mp hgiven
  have hlen : (done ++ [s.seat p]).length = done.length + 1 := by simp
  have htake : (done ++ [s.seat p]).take (done.length + 1) = done ++ [s.seat p] :=
    List.take_of_length_le (Nat.le_of_eq hlen)
  have hdrop : (done ++ [s.seat p]).drop (done.length + 1) = [] :=
    List.drop_eq_nil_of_le (Nat.le_of_eq hlen)
  obtain ⟨hnil, hpending⟩ := h.pending_eq p hnamed
  refine ⟨Nat.le_of_eq hlen.symm, ?_, ?_, ?_, ?_, h.unnamed_snoc p, ?_, h.slots_snoc p,
    h.slot_snoc p, ?_⟩
  · rw [htake, hdrop, bindPlain_written, h.written, hnil, addition, hsource, hnamed]
    simp only [Bool.false_eq_true, if_false, List.append_nil, List.filterMap_nil, hpending,
      List.map_append, List.map_singleton, byPosition, filled, hsource, Option.getD_some]
    rw [← List.append_assoc, ← List.map_append, List.take_append_drop]
  · rw [hdrop, bindPlain_pending, hsource, hnamed]
    simp
  · rw [hlen, bindPlain_byKeyword, bindPlain_beforeSlash, hsource]
    rw [Placement.named] at hnamed
    cases hslash : s.beforeSlash with
    | true => simp [h.byKeyword, hslash, seat]
    | false =>
      have hname : (s.seat p).byName = true := by simp [seat, hslash]
      rw [hname, Bool.true_and, Bool.or_eq_false_iff] at hnamed
      simp [hnamed]
  · rw [hdrop]
    exact List.forall_mem_nil _
  · rw [hlen]
    exact fun hlt => absurd hlt (Nat.lt_irrefl _)
  · rw [bindPlain_pastStar, h.star]

theorem plain_withName (hcase : s.named w p = true ∨ (s.seat p).given w o = none) :
    Laid w o c (done ++ [s.seat p]) (s.bindPlain w o p) := by
  have hname : (s.seat p).byName = !s.beforeSlash := rfl
  have hparam : (s.seat p).param = p := rfl
  have hlen : (done ++ [s.seat p]).length = done.length + 1 := by simp
  have hle := h.le
  have htake : (done ++ [s.seat p]).take c = done.take c := List.take_append_of_le_length h.le
  have hdrop : (done ++ [s.seat p]).drop c = done.drop c ++ [s.seat p] :=
    List.drop_append_of_le_length h.le
  have hnamed : s.named w p = true → (s.seat p).byName = true ∧
      (s.byKeyword = true ∨ ((s.seat p).keyword w).isSome = true) := by
    intro hn
    rwa [Placement.named, Bool.and_eq_true, Bool.or_eq_true] at hn
  refine ⟨by omega, ?_, ?_, ?_, ?_, h.unnamed_snoc p, ?_, h.slots_snoc p, h.slot_snoc p, ?_⟩
  · rw [htake, hdrop, bindPlain_written, h.written, List.filterMap_append, List.append_assoc]
    congr 2
    rcases hcase with hn | hnone
    · unfold addition
      rw [hn]
      cases hg : (s.seat p).given w o with
      | none => simp [withName, hg]
      | some source => simp [withName, hg, hparam]
    · simp [addition, withName, hnone]
  · rw [hdrop, bindPlain_pending, bindPlain_beforeSlash, h.pending]
    cases hslash : s.beforeSlash with
    | false => cases (s.seat p).given w o <;> simp [hname, hslash]
    | true =>
      have hnone : (s.seat p).given w o = none := by
        apply hcase.resolve_left
        intro hn
        simpa [hname, hslash] using (hnamed hn).1
      simp [hnone, hname, hslash, hparam]
  · rw [hlen, decide_eq_true (by omega : c < done.length + 1), Bool.and_true, bindPlain_beforeSlash,
      bindPlain_byKeyword, hname]
    cases hslash : s.beforeSlash with
    | true => simp [h.byKeyword, hslash]
    | false =>
      rcases hcase with hn | hnone
      · rcases (hnamed hn).2 with hon | hkeyword
        · simp [hon]
        · simp [hkeyword]
      · simp [hnone]
  · rw [hdrop]
    intro q hq hq'
    rcases List.mem_append.mp hq with hq | hq
    · exact h.leftOut q hq hq'
    · rw [List.mem_singleton.mp hq] at hq' ⊢
      rcases hcase with hn | hnone
      · rw [(hnamed hn).1] at hq'
        cases hq'
      · exact hnone
  · intro _
    have hself : (s.seat p) ∈ done ++ [s.seat p] := by simp
    rcases hcase with hn | hnone
    · rcases (hnamed hn).2 with hon | hkeyword
      · rw [h.byKeyword, Bool.and_eq_true] at hon
        obtain ⟨q, hq, hwhy⟩ := h.turned (of_decide_eq_true hon.2)
        exact ⟨q, List.mem_append_left _ hq, hwhy⟩
      · exact ⟨_, hself, Or.inl hkeyword⟩
    · exact ⟨_, hself, Or.inr hnone⟩
  · rw [bindPlain_pastStar, h.star]

end Plain

theorem plain (h : Laid w o c done s) (p : Param) :
    ∃ c', Laid w o c' (done ++ [s.seat p]) (s.bindPlain w o p) := by
  by_cases hgiven : (s.seat p).given w o = none
  · exact ⟨c, h.plain_withName p (Or.inr hgiven)⟩
  · cases hnamed : s.named w p with
    | true => exact ⟨c, h.plain_withName p (Or.inl hnamed)⟩
    | false => exact ⟨_, h.plain_byPosition p hnamed hgiven⟩

theorem slash (h : Laid w o c done s) : Laid w o c done
    { s with
      pending := [], byKeyword := s.byKeyword || !s.pending.isEmpty, beforeSlash := false } := by
  refine ⟨h.le, h.written, rfl, ?_, h.leftOut, fun hslash => Bool.noConfusion hslash, h.turned,
    h.slots, h.slot, h.star⟩
  show (s.byKeyword || !s.pending.isEmpty) = decide (c < done.length)
  rw [h.byKeyword, h.pending]
  cases s.beforeSlash with
  | false => simp
  | true =>
    have hempty : ((done.drop c).map fun q => (⟨none, q.param.waiting⟩ : WrittenArgument)).isEmpty =
        decide (done.length ≤ c) := by
      rw [Bool.eq_iff_iff]
      simp
    rw [if_pos rfl, hempty]
    simp [← decide_not]

end Laid

theorem laid_foldl (w : Wiring) (o : Overrides) (params : List Param) {front : List Param}
    (hfront : ∀ p ∈ front, p.kind = .positional ∨ p.kind = .positionalOnly) :
    ∃ c, Laid w o c ((Placement.start params).seats front)
      (front.foldl (bind w o) (Placement.start params)) := by
  revert hfront
  apply foldl_bind_induction (P := fun front done s =>
    (∀ p ∈ front, p.kind = .positional ∨ p.kind = .positionalOnly) → ∃ c, Laid w o c done s)
  · intro _
    exact ⟨0, .start w o params⟩
  · intro front done s p hk ih hfront
    obtain ⟨c, h⟩ := ih fun p' hp' => hfront p' (List.mem_append_left _ hp')
    exact h.plain p
  · intro front done s p hk ih hfront
    exact absurd (hfront p (by simp)) (by simp [hk])
  · intro front done s p hk ih hfront
    exact absurd (hfront p (by simp)) (by simp [hk])
  · intro front done s p hk ih hfront
    obtain ⟨c, h⟩ := ih fun p' hp' => hfront p' (List.mem_append_left _ hp')
    exact ⟨c, h.slash⟩
  · intro front done s p hk ih hfront
    exact absurd (hfront p (by simp)) (by simp [hk])

/-- The parameters behind a star, which stands at `s`. -/
structure Behind (w : Wiring) (o : Overrides) (s : Placement) (done : List Seat) (s' : Placement) :
    Prop where
  written : s'.written = s.written ++ done.filterMap (withName w o)
  byKeyword : s'.byKeyword = true
  pastStar : s'.pastStar = true
  beforeSlash : s'.beforeSlash = false
  seats : ∀ q ∈ done, q.slot = none ∧ q.byName = true

theorem Behind.plain {s' : Placement} (h : Behind w o s done s') (p : Param) :
    Behind w o s (done ++ [s'.seat p]) (s'.bindPlain w o p) := by
  have hseat : s'.seat p = ⟨p, none, true⟩ := by simp [seat, h.pastStar, h.beforeSlash]
  have hnamed : s'.named w p = true := by simp [named, hseat, h.byKeyword]
  refine ⟨?_, ?_, ?_, ?_, ?_⟩
  · rw [bindPlain_written, h.written, List.filterMap_append, List.append_assoc]
    congr 2
    rw [addition, hnamed, hseat]
    cases hg : given w o ⟨p, none, true⟩ <;> simp [withName, hg]
  · rw [bindPlain_byKeyword, h.byKeyword, Bool.true_or]
  · rw [bindPlain_pastStar, h.pastStar]
  · rw [bindPlain_beforeSlash, h.beforeSlash]
  · intro q hq
    rcases List.mem_append.mp hq with hq | hq
    · exact h.seats q hq
    · rw [List.mem_singleton.mp hq, hseat]
      exact ⟨rfl, rfl⟩

theorem behind_foldl (w : Wiring) (o : Overrides) {s : Placement} (hon : s.byKeyword = true)
    (hstar : s.pastStar = true) (hslash : s.beforeSlash = false) {params : List Param}
    (hparams : ∀ p ∈ params, p.kind = .positional ∨ p.kind = .kwArgs) :
    Behind w o s (s.seats params) (params.foldl (bind w o) s) := by
  revert hparams
  apply foldl_bind_induction (P := fun front done s' =>
    (∀ p ∈ front, p.kind = .positional ∨ p.kind = .kwArgs) → Behind w o s done s')
  · intro _
    exact ⟨(List.append_nil _).symm, hon, hstar, hslash, List.forall_mem_nil _⟩
  · intro front done s' p hk ih hfront
    exact (ih fun p' hp' => hfront p' (List.mem_append_left _ hp')).plain p
  · intro front done s' p hk ih hfront
    exact absurd (hfront p (by simp)) (by simp [hk])
  · intro front done s' p hk ih hfront
    exact absurd (hfront p (by simp)) (by simp [hk])
  · intro front done s' p hk ih hfront
    exact absurd (hfront p (by simp)) (by simp [hk])
  · intro front done s' p hk ih hfront
    exact ih fun p' hp' => hfront p' (List.mem_append_left _ hp')

theorem beforeSlash_foldl (w : Wiring) (o : Overrides) (s : Placement) (params : List Param) :
    (params.foldl (bind w o) s).beforeSlash = (s.beforeSlash && !Param.hasSlash params) := by
  induction params generalizing s with
  | nil => simp [Param.hasSlash]
  | cons p params ih =>
    rw [List.foldl_cons, ih]
    unfold bind Param.hasSlash
    cases hk : p.kind <;> simp [hk, pastStars, takeRest]

end Placement

/-- The header of a function: parameters that are given by position only, a slash behind them, then
plain ones, a star, alone or with a name, parameters that are given by name only, and two stars. -/
structure Signature where
  leading : List Param
  slash : Option Param
  middle : List Param
  star : Option Param
  named : List Param
  rest : Option Param
  leading_eq_nil : slash = none → leading = []
  named_eq_nil : star = none → named = []
  plain : ∀ p ∈ leading ++ middle ++ named, p.kind = .positional
  slash_kind : ∀ p ∈ slash, p.kind = .positionalOnly
  star_kind : ∀ p ∈ star, p.kind = .varArgs ∨ p.kind = .keywordOnly
  rest_kind : ∀ p ∈ rest, p.kind = .kwArgs
  /-- Required parameters come first, except behind a star. -/
  required_first : (leading ++ middle).Pairwise fun a b => a.optional = true → b.optional = true
  names : ((leading ++ middle ++ named).map (·.name)).Nodup
  defaults : ∀ p ∈ leading ++ middle ++ named, p.optional = true → p.default.isSome = true

namespace Signature

/-- What stands in front of the star. -/
def front (sig : Signature) : List Param := sig.leading ++ sig.slash.toList ++ sig.middle

def params (sig : Signature) : List Param :=
  sig.front ++ sig.star.toList ++ (sig.named ++ sig.rest.toList)

variable (sig : Signature)

theorem front_kind : ∀ p ∈ sig.front, p.kind = .positional ∨ p.kind = .positionalOnly := by
  intro p hp
  rcases List.mem_append.mp hp with hp | hp
  · rcases List.mem_append.mp hp with hp | hp
    · exact Or.inl (sig.plain p (by simp [hp]))
    · exact Or.inr (sig.slash_kind p (by simpa using hp))
  · exact Or.inl (sig.plain p (by simp [hp]))

theorem back_kind : ∀ p ∈ sig.named ++ sig.rest.toList, p.kind = .positional ∨ p.kind = .kwArgs := by
  intro p hp
  rcases List.mem_append.mp hp with hp | hp
  · exact Or.inl (sig.plain p (by simp [hp]))
  · exact Or.inr (sig.rest_kind p (by simpa using hp))

theorem mem_params {p : Param} :
    p ∈ sig.params ↔ p ∈ sig.front ∨ p ∈ sig.star ∨ p ∈ sig.named ++ sig.rest.toList := by
  simp only [params, List.mem_append, Option.mem_toList, Option.mem_def, or_assoc]

theorem hasSlash_params : Param.hasSlash sig.params = Param.hasSlash sig.front := by
  rw [Bool.eq_iff_iff]
  simp only [Param.hasSlash, List.any_eq_true, decide_eq_true_eq, mem_params]
  constructor
  · rintro ⟨p, hp | hp | hp, hk⟩
    · exact ⟨p, hp, hk⟩
    · have := sig.star_kind p hp
      simp [hk] at this
    · have := sig.back_kind p hp
      simp [hk] at this
  · rintro ⟨p, hp, hk⟩
    exact ⟨p, Or.inl hp, hk⟩

theorem exists_varArgs_iff :
    (∃ p ∈ sig.params, p.kind = .varArgs) ↔ ∃ p ∈ sig.star, p.kind = .varArgs := by
  constructor
  · rintro ⟨p, hp, hk⟩
    rcases sig.mem_params.mp hp with hp | hp | hp
    · have := sig.front_kind p hp
      simp [hk] at this
    · exact ⟨p, hp, hk⟩
    · have := sig.back_kind p hp
      simp [hk] at this
  · rintro ⟨p, hp, hk⟩
    exact ⟨p, sig.mem_params.mpr (Or.inr (Or.inl hp)), hk⟩

end Signature

/-- The parameter that collects what has no other place. -/
def ArgKey.collector : ArgKey → ParamKind
  | .position _ => .varArgs
  | .keyword _ => .kwArgs

/-- Arguments fit parameters: the positions are the first ones, every argument has a parameter that it
belongs to or is collected, and no keyword names a parameter that has a position already. -/
structure Param.Fits (params : List Param) (wired : ArgKey → Option NodeId) (count : Nat) : Prop where
  positions : ∀ i, (wired (.position i)).isSome = true ↔ i < count
  placed : ∀ key, (wired key).isSome = true →
    (∃ q ∈ seats params, q.Holds key) ∨ ∃ p ∈ params, p.kind = key.collector
  single : ∀ q ∈ seats params, ∀ i < count, q.slot = some i → q.byName = true →
    wired (.keyword q.param.name) = none

namespace Wiring

variable {w : Wiring} {count : Nat}

theorem Sorted.map_fst_eq_range (hw : w.Sorted)
    (hpositions : ∀ i, (w.get? (.position i)).isSome = true ↔ i < count) :
    w.positional.map (·.1) = List.range count := by
  apply List.Pairwise.eq_of_mem_iff (r := (· < ·)) (List.pairwise_map.mpr hw.positional)
    List.pairwise_lt_range
  intro i
  rw [← positional?_isSome, List.mem_range]
  exact hpositions i

theorem Sorted.length_positional (hw : w.Sorted)
    (hpositions : ∀ i, (w.get? (.position i)).isSome = true ↔ i < count) :
    w.positional.length = count := by
  simpa using congrArg List.length (hw.map_fst_eq_range hpositions)

theorem filter_eq_drop {ps : List (Nat × NodeId)} (j m : Nat)
    (h : ps.map (·.1) = List.range' j ps.length) :
    ps.filter (fun p => j + m ≤ p.1) = ps.drop m := by
  induction ps generalizing j m with
  | nil => simp
  | cons p ps ih =>
    rw [List.map_cons, List.length_cons, List.range'_succ, List.cons.injEq] at h
    obtain ⟨hp, hps⟩ := h
    cases m with
    | zero =>
      apply List.filter_eq_self.mpr
      intro p' hp'
      have hmem : p'.1 ∈ List.range' j (ps.length + 1) := by
        rw [List.range'_succ, ← hps]
        rcases List.mem_cons.mp hp' with rfl | hp'
        · simp [hp]
        · exact List.mem_cons_of_mem _ (List.mem_map_of_mem hp')
      have := (List.mem_range'_1.mp hmem).1
      exact decide_eq_true (by omega)
    | succ m =>
      rw [List.filter_cons_of_neg (by simp; omega), List.drop_succ_cons, ← ih (j + 1) m hps]
      apply List.filter_congr
      intro p' _
      rw [show j + (m + 1) = j + 1 + m by omega]

end Wiring

namespace Placement

variable {w : Wiring} {o : Overrides} {front : List Param} {done : List Seat} {s : Placement}
  {c count : Nat}

theorem Laid.swept_eq (h : Laid w o c done s) (htally : Tally w o front done s) (hw : w.Sorted)
    (hpositions : ∀ i, (w.get? (.position i)).isSome = true ↔ i < count)
    (hfront : ¬ ∃ p ∈ front, p.kind = .varArgs) : swept w s = w.positional.drop done.length := by
  have hrange : w.positional.map (·.1) = List.range' 0 w.positional.length := by
    rw [hw.map_fst_eq_range hpositions, hw.length_positional hpositions, List.range_eq_range']
  rw [← Wiring.filter_eq_drop 0 done.length hrange]
  apply List.filter_congr
  intro e _
  rw [h.slot, Nat.zero_add]
  by_cases hle : done.length ≤ e.1
  · have hunused : e.1 ∉ s.usedPositions := by
      intro hused
      rcases (htally.positions e.1).mp hused with ⟨q, hq, hslot, -⟩ | ⟨hsome, -⟩
      · have := (Seat.exists_slot_iff h.slots).mp ⟨q, hq, hslot⟩
        omega
      · exact hfront hsome
    simp [hle, hunused]
  · simp [hle]

theorem Laid.eq_length (h : Laid w o c done s)
    (hpositions : ∀ i, (w.get? (.position i)).isSome = true ↔ i < count)
    (hsingle : ∀ q ∈ done, ∀ i < count, q.slot = some i → q.byName = true →
      w.get? (.keyword q.param.name) = none) (hcount : done.length < count) : c = done.length := by
  apply Nat.le_antisymm h.le
  by_contra hlt
  obtain ⟨q, hq, hwhy⟩ := h.turned (by omega)
  obtain ⟨i, hi, hslot⟩ := Seat.slot_of_mem h.slots hq
  have hkeyword : q.keyword w = none := Seat.keyword_eq_none (hsingle q hq i (by omega) hslot)
  have hposition : (q.position w).isSome = true := by
    rw [Seat.position, hslot]
    exact (hpositions i).mpr (by omega)
  rcases hwhy with hsome | hnone
  · rw [hkeyword] at hsome
    cases hsome
  · obtain ⟨id, hid⟩ := Option.isSome_iff_exists.mp hposition
    rw [Seat.given, hkeyword, hid] at hnone
    cases hover : o.get? q.param.name <;> simp [hover] at hnone

end Placement

/-- The keyword arguments that name no parameter. -/
def Param.unnamed {α : Type} (params : List Param) (ks : List (String × α)) : List (String × α) :=
  ks.filter fun k => ¬ ∃ q ∈ seats params, q.Holds (.keyword k.1)

/-- How a call is written whose arguments fit. -/
structure Layout (params : List Param) (w : Wiring) (o : Overrides) (front behind : List Seat)
    (c : Nat) : Prop where
  seats : Param.seats params = front ++ behind
  slots : front.map (·.slot) = (List.range front.length).map some
  behind_seats : ∀ q ∈ behind, q.slot = none ∧ q.byName = true
  le : c ≤ front.length
  leftOut : ∀ q ∈ front.drop c, q.byName = false → q.given w o = none
  rest : w.positional.drop front.length = [] ∨ c = front.length
  written : writtenArguments params w o = (front.take c).map (Seat.byPosition w o) ++
    (w.positional.drop front.length).map (fun p => ⟨none, .node p.2⟩) ++
    (front.drop c ++ behind).filterMap (Seat.withName w o) ++
    (Param.unnamed params w.keywords).map fun k => ⟨some k.1, .node k.2⟩

namespace Signature

open Placement

variable (sig : Signature) {w : Wiring} (hw : w.Sorted) (o : Overrides) {count : Nat}
  (hfits : Param.Fits sig.params w.get? count)

theorem atStar_beforeSlash (w : Wiring) (o : Overrides) :
    (sig.front.foldl (bind w o) (start sig.params)).beforeSlash = false := by
  rw [beforeSlash_foldl]
  show (Param.hasSlash sig.params && _) = false
  rw [sig.hasSlash_params, Bool.and_not_self]

include hw hfits in
theorem drop_eq_nil {front behind : List Seat} (hseats : Param.seats sig.params = front ++ behind)
    (hslots : front.map (·.slot) = (List.range front.length).map some)
    (hbehind : ∀ q ∈ behind, q.slot = none ∧ q.byName = true)
    (hstar : ¬ ∃ p ∈ sig.params, p.kind = .varArgs) : w.positional.drop front.length = [] := by
  apply List.drop_eq_nil_of_le
  rw [hw.length_positional hfits.positions]
  by_contra hlt
  rcases hfits.placed _ ((hfits.positions front.length).mpr (by omega)) with ⟨q, hq, hslot⟩ | hsome
  · rw [hseats] at hq
    rcases List.mem_append.mp hq with hq | hq
    · exact Nat.lt_irrefl _ ((Seat.exists_slot_iff hslots).mp ⟨q, hq, hslot⟩)
    · have hslot : q.slot = some front.length := hslot
      rw [(hbehind q hq).1] at hslot
      cases hslot
  · exact hstar hsome

include hw hfits in
/-- From the star on: what it collects, and the parameters behind it with their names. -/
theorem written_back {c : Nat}
    (hlaid : Laid w o c ((start sig.params).seats sig.front)
      (sig.front.foldl (bind w o) (start sig.params))) :
    ∃ behind, Param.seats sig.params = (start sig.params).seats sig.front ++ behind ∧
      (∀ q ∈ behind, q.slot = none ∧ q.byName = true) ∧
      (sig.params.foldl (bind w o) (start sig.params)).written =
        (sig.front.foldl (bind w o) (start sig.params)).written ++
        (w.positional.drop ((start sig.params).seats sig.front).length).map
          (fun p => ⟨none, .node p.2⟩) ++ behind.filterMap (Seat.withName w o) := by
  have htally := tally_foldl w o sig.params sig.front
  have hslash := sig.atStar_beforeSlash w o
  have hseats : Param.seats sig.params = (start sig.params).seats sig.front ++
      ((sig.front.foldl (bind w o) (start sig.params)).seats
        (sig.star.toList ++ (sig.named ++ sig.rest.toList))) := by
    rw [← seats_append, ← List.append_assoc]
    rfl
  have hrun : sig.params.foldl (bind w o) (start sig.params) =
      (sig.star.toList ++ (sig.named ++ sig.rest.toList)).foldl (bind w o)
        (sig.front.foldl (bind w o) (start sig.params)) := by
    rw [← List.foldl_append, ← List.append_assoc]
    rfl
  rw [hrun]
  generalize (start sig.params).seats sig.front = done at *
  generalize sig.front.foldl (bind w o) (start sig.params) = s at *
  have hpending : s.pending = [] := by rw [hlaid.pending, hslash]; rfl
  cases hstar : sig.star with
  | none =>
    have hback : s.seats (sig.star.toList ++ (sig.named ++ sig.rest.toList)) = [] ∧
        (sig.star.toList ++ (sig.named ++ sig.rest.toList)).foldl (bind w o) s = s := by
      rw [hstar, sig.named_eq_nil hstar]
      cases hrest : sig.rest with
      | none => exact ⟨rfl, rfl⟩
      | some r => simp [Placement.seats, Param.seatsFrom, Placement.bind, sig.rest_kind r hrest]
    have hno : ¬ ∃ p ∈ sig.params, p.kind = .varArgs := by
      rw [sig.exists_varArgs_iff, hstar]
      simp
    rw [hback.1] at hseats
    refine ⟨[], hseats, List.forall_mem_nil _, ?_⟩
    rw [← hstar, hback.2, sig.drop_eq_nil hw hfits hseats hlaid.slots (List.forall_mem_nil _) hno]
    simp
  | some v =>
    have hkind := sig.star_kind v hstar
    have hflags : (Placement.bind w o s v).byKeyword = true ∧
        (Placement.bind w o s v).pastStar = true ∧ (Placement.bind w o s v).beforeSlash = false := by
      rcases hkind with hk | hk <;> simp [Placement.bind, hk, pastStars, takeRest, hslash]
    have hbehind := behind_foldl w o hflags.1 hflags.2.1 hflags.2.2 sig.back_kind
    have hother : v.kind ≠ .positional := by rcases hkind with hk | hk <;> simp [hk]
    rw [hstar, Option.toList_some, List.singleton_append,
      seats_other (w := w) (o := o) hother] at hseats
    refine ⟨_, hseats, hbehind.seats, ?_⟩
    rw [Option.toList_some, List.singleton_append, List.foldl_cons, hbehind.written]
    congr 1
    rcases hkind with hk | hk
    · have hfront : ¬ ∃ p ∈ sig.front, p.kind = .varArgs := by
        rintro ⟨p, hp, hp'⟩
        have := sig.front_kind p hp
        simp [hp'] at this
      rw [← hlaid.swept_eq htally hw hfits.positions hfront]
      simp [Placement.bind, hk, pastStars, takeRest, hpending, swept]
    · have hno : ¬ ∃ p ∈ sig.params, p.kind = .varArgs := by
        rw [sig.exists_varArgs_iff, hstar]
        simp [hk]
      rw [sig.drop_eq_nil hw hfits hseats hlaid.slots hbehind.seats hno]
      simp [Placement.bind, hk, pastStars]

include hfits in
theorem used_position {s : Placement}
    (htally : Tally w o sig.params (Param.seats sig.params) s) {i : Nat}
    (hi : (w.get? (.position i)).isSome = true) : s.Used (.position i) := by
  rw [htally.positions]
  by_cases hseat : ∃ q ∈ Param.seats sig.params, q.slot = some i
  · obtain ⟨q, hq, hslot⟩ := hseat
    refine Or.inl ⟨q, hq, hslot, ?_⟩
    have hposition : (q.position w).isSome = true := by
      rw [Seat.position, hslot]
      exact hi
    have hkeyword : q.keyword w = none :=
      Seat.keyword_eq_none (hfits.single q hq i ((hfits.positions i).mp hi) hslot)
    simp [Seat.fills, hposition, hkeyword]
  · refine Or.inr ⟨?_, hi, ?_⟩
    · exact (hfits.placed _ hi).resolve_left hseat
    · rw [← Nat.not_lt, htally.slots]
      exact hseat

theorem used_keyword {s : Placement} (htally : Tally w o sig.params (Param.seats sig.params) s)
    {k : String × NodeId} (hk : k ∈ w.keywords) :
    s.Used (.keyword k.1) ↔ ∃ q ∈ Param.seats sig.params, q.Holds (.keyword k.1) := by
  have hsome := Wiring.keyword?_isSome.mpr (List.mem_map_of_mem hk)
  rw [htally.keywords]
  refine exists_congr fun q => and_congr_right fun _ => ?_
  constructor
  · rintro ⟨hkeyword, hname⟩
    obtain ⟨id, hid⟩ := Option.isSome_iff_exists.mp hkeyword
    exact ⟨(Seat.keyword_eq_some_iff.mp hid).1, hname⟩
  · rintro ⟨hbyName, hname⟩
    refine ⟨?_, hname⟩
    rw [Seat.keyword, if_pos hbyName, hname]
    exact hsome

include hw hfits in
theorem exists_layout : ∃ front behind c, Layout sig.params w o front behind c := by
  obtain ⟨c, hlaid⟩ := laid_foldl w o sig.params sig.front_kind
  obtain ⟨behind, hseats, hbehind, hwritten⟩ := sig.written_back hw o hfits hlaid
  have htally := tally_foldl w o sig.params sig.params
  have hrest : w.positional.drop ((start sig.params).seats sig.front).length = [] ∨
      c = ((start sig.params).seats sig.front).length := by
    by_cases hlt : ((start sig.params).seats sig.front).length < count
    · refine Or.inr (hlaid.eq_length hfits.positions ?_ hlt)
      intro q hq
      exact hfits.single q (hseats ▸ List.mem_append_left _ hq)
    · refine Or.inl (List.drop_eq_nil_of_le ?_)
      rw [hw.length_positional hfits.positions]
      omega
  refine ⟨_, behind, c, hseats, hlaid.slots, hbehind, hlaid.le, hlaid.leftOut, hrest, ?_⟩
  have hleft : (w.positional.filter fun p => !(sig.params.foldl (Placement.bind w o)
      (start sig.params)).usedPositions.contains p.1) = [] := by
    apply List.filter_eq_nil_iff.mpr
    intro p hp
    have hused := sig.used_position o hfits htally
      (Wiring.positional?_isSome.mpr (List.mem_map_of_mem hp))
    simpa [Used] using hused
  have hextra : (w.keywords.filter fun k => !(sig.params.foldl (Placement.bind w o)
      (start sig.params)).usedKeywords.contains k.1) =
      Param.unnamed sig.params w.keywords := by
    apply List.filter_congr
    intro k hk
    have hused := sig.used_keyword o htally hk
    by_cases hm : k.1 ∈ (sig.params.foldl (Placement.bind w o) (start sig.params)).usedKeywords
    · have := hused.mp hm
      simp [hm, this]
    · have hno : ¬ ∃ q ∈ Param.seats sig.params, q.Holds (.keyword k.1) := fun h => hm (hused.mpr h)
      simp [hm, hno]
  rw [writtenArguments, hleft, hextra, hwritten, hlaid.written, List.map_nil, List.append_nil,
    List.filterMap_append]
  rcases hrest with hnil | rfl
  · rw [hnil]
    simp
  · simp

end Signature

end ScopedFlow
