/-!
# Members still to be met

A search that never meets a member of a list twice ends, because the number of members that are
still to be met drops with every member it meets.
-/

namespace ScopedFlow

variable {α : Type} [DecidableEq α]

/-- The number of entries of `all` that are not among those met. -/
def remaining (all met : List α) : Nat := all.countP fun a => !decide (a ∈ met)

theorem remaining_cons_le (all met : List α) (a : α) :
    remaining all (a :: met) ≤ remaining all met :=
  List.countP_mono_left fun b _ h => by
    simp only [List.mem_cons, not_or, Bool.not_eq_true', decide_eq_false_iff_not] at h ⊢
    exact h.2

theorem remaining_cons_lt {all met : List α} {a : α} (ha : a ∈ all) (hm : a ∉ met) :
    remaining all (a :: met) < remaining all met := by
  induction all with
  | nil => simp at ha
  | cons b all ih =>
    have hle := remaining_cons_le all met a
    simp only [remaining, List.countP_cons] at hle ih ⊢
    by_cases hb : b = a
    · subst hb
      simp only [List.mem_cons, true_or, decide_true, Bool.not_true, Bool.false_eq_true, if_false,
        hm, decide_false, Bool.not_false, if_true]
      simp only [List.mem_cons] at hle
      omega
    · have hlt := ih ((List.mem_cons.1 ha).resolve_left (Ne.symm hb))
      simp only [List.mem_cons, hb, false_or] at hlt ⊢
      omega

end ScopedFlow
