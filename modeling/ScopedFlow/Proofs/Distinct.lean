import Mathlib.Data.List.Induction
import Mathlib.Data.List.Nodup
import ScopedFlow.Graph.Basic

/-!
# Lists without repetitions

The edges of a graph are kept so.
-/

namespace ScopedFlow

namespace Graph

variable {α : Type} [DecidableEq α]

theorem distinct_snoc (xs : List α) (x : α) :
    distinct (xs ++ [x]) = if x ∈ distinct xs then distinct xs else distinct xs ++ [x] := by
  rw [distinct, List.foldl_append]
  rfl

theorem mem_distinct {xs : List α} {x : α} : x ∈ distinct xs ↔ x ∈ xs := by
  induction xs using List.reverseRecOn with
  | nil => rfl
  | append_singleton xs y ih =>
    rw [distinct_snoc, List.mem_append, List.mem_singleton, ← ih]
    split
    · rename_i hy
      refine ⟨.inl, fun h => h.elim id ?_⟩
      rintro rfl
      exact hy
    · rw [List.mem_append, List.mem_singleton]

theorem nodup_distinct (xs : List α) : (distinct xs).Nodup := by
  induction xs using List.reverseRecOn with
  | nil => exact List.nodup_nil
  | append_singleton xs y ih =>
    rw [distinct_snoc]
    split
    · exact ih
    · rename_i hy
      refine List.nodup_append.mpr ⟨ih, List.nodup_singleton y, ?_⟩
      rintro a ha b hb rfl
      exact hy (List.mem_singleton.mp hb ▸ ha)

theorem distinct_eq_self {xs : List α} (h : xs.Nodup) : distinct xs = xs := by
  induction xs using List.reverseRecOn with
  | nil => rfl
  | append_singleton xs y ih =>
    obtain ⟨hxs, -, hd⟩ := List.nodup_append.mp h
    have hy : y ∉ distinct xs := fun hm => hd y (mem_distinct.mp hm) y (by simp) rfl
    rw [distinct_snoc, if_neg hy, ih hxs]

theorem distinct_append (xs ys : List α) : distinct xs <+: distinct (xs ++ ys) := by
  induction ys using List.reverseRecOn with
  | nil => simp
  | append_singleton ys y ih =>
    rw [← List.append_assoc, distinct_snoc]
    split
    · exact ih
    · exact ih.trans (List.prefix_append ..)

theorem filter_distinct (p : α → Bool) (xs : List α) :
    (distinct xs).filter p = distinct (xs.filter p) := by
  induction xs using List.reverseRecOn with
  | nil => rfl
  | append_singleton xs y ih =>
    rw [distinct_snoc, List.filter_append]
    cases hy : p y with
    | false =>
      rw [List.filter_cons_of_neg (by simp [hy]), List.filter_nil, List.append_nil, ← ih]
      split
      · rfl
      · simp [hy]
    | true =>
      rw [List.filter_cons_of_pos hy, List.filter_nil, distinct_snoc, ← ih]
      simp only [List.mem_filter, hy, and_true]
      split
      · rfl
      · simp [hy]

theorem find?_distinct (p : α → Bool) (xs : List α) : (distinct xs).find? p = xs.find? p := by
  induction xs using List.reverseRecOn with
  | nil => rfl
  | append_singleton xs y ih =>
    rw [distinct_snoc, List.find?_append]
    split
    · rename_i hy
      rw [ih]
      cases hf : xs.find? p with
      | some x => rfl
      | none =>
        have hp := List.find?_eq_none.mp hf y (mem_distinct.mp hy)
        simp [hp]
    · rw [List.find?_append, ih]

theorem edges_addEdge {g : Graph} {es : List Edge} (h : g.edges = distinct es) (e : Edge) :
    (g.addEdge e).edges = distinct (es ++ [e]) := by
  rw [distinct_snoc, ← h, addEdge]
  split <;> rfl

end Graph

end ScopedFlow
