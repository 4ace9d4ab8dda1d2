import Mathlib.Data.List.Nodup
import Mathlib.Data.List.TakeWhile
import ScopedFlow.Synthesis.Expression

/-!
# Edges of the parts of lists and dictionaries

The parts are wired with their numbers, and the numbered edges into a node give its parts in order.
-/

namespace ScopedFlow

namespace Graph

theorem insertIndexed_last {entry : Nat × NodeId} {es : List (Nat × NodeId)}
    (h : ∀ e ∈ es, e.1 ≤ entry.1) : insertIndexed entry es = es ++ [entry] := by
  induction es with
  | nil => rfl
  | cons e es ih =>
    rw [insertIndexed, if_neg (Nat.not_lt.mpr (h e List.mem_cons_self)),
      ih fun f hf => h f (List.mem_cons_of_mem _ hf)]
    rfl

theorem indexed_eq {g : Graph} {id : NodeId} {index : EdgeKind → Option Nat}
    {es : List (Nat × NodeId)}
    (he : ((g.edgesTo id).filterMap fun e => (index e.kind).map fun i => (i, e.source)) = es)
    (hs : es.Pairwise fun a b => a.1 ≤ b.1) : g.indexed id index = es := by
  have hfold (sorted : List (Nat × NodeId)) (hss : (sorted ++ es).Pairwise fun a b => a.1 ≤ b.1) :
      es.foldl (fun sorted entry => insertIndexed entry sorted) sorted = sorted ++ es := by
    clear he hs
    induction es generalizing sorted with
    | nil => rw [List.append_nil]; rfl
    | cons e es ih =>
      have hlast : ∀ f ∈ sorted, f.1 ≤ e.1 := fun f hf =>
        (List.pairwise_append.mp hss).2.2 f hf e List.mem_cons_self
      rw [List.foldl_cons, insertIndexed_last hlast, ih (sorted ++ [e]) (by simpa using hss)]
      simp
  rw [indexed, he, hfold [] hs, List.nil_append]

theorem pairwise_zipIdx {α β : Type} (f : α → β) (xs : List α) :
    (xs.zipIdx.map fun x => (x.2, f x.1)).Pairwise fun a b => a.1 ≤ b.1 := by
  have hnumbers : (xs.zipIdx.map Prod.snd).Pairwise (· ≤ ·) := by
    rw [List.zipIdx_map_snd]
    exact List.pairwise_le_range' ..
  rw [List.pairwise_map] at hnumbers ⊢
  exact hnumbers

end Graph

namespace Display

variable {α β : Type} {index : Nat}

def elements (index : Nat) : List α → List (α × EdgeKind)
  | [] => []
  | x :: xs => (x, .listElement index) :: elements (index + 1) xs

def pairs (index : Nat) : List (α × α) → List (α × EdgeKind)
  | [] => []
  | (key, value) :: rest =>
    (key, .dictKey index) :: (value, .dictValue index) :: pairs (index + 1) rest

theorem elements_map (f : α → β) (index : Nat) (xs : List α) :
    elements index (xs.map f) = (elements index xs).map (Prod.map f id) := by
  induction xs generalizing index with
  | nil => rfl
  | cons x xs ih => exact congrArg (_ :: ·) (ih (index + 1))

theorem pairs_map (f : α → β) (index : Nat) (ps : List (α × α)) :
    pairs index (ps.map (Prod.map f f)) = (pairs index ps).map (Prod.map f id) := by
  induction ps generalizing index with
  | nil => rfl
  | cons p ps ih => exact congrArg (_ :: _ :: ·) (ih (index + 1))

theorem elements_lift {f : α → β} {ys : List β} {es : List (α × EdgeKind)}
    (h : elements index ys = es.map (Prod.map f id)) :
    ∃ xs, ys = xs.map f ∧ es = elements index xs := by
  induction ys generalizing index es with
  | nil => exact ⟨[], rfl, List.map_eq_nil_iff.mp h.symm⟩
  | cons y ys ih =>
    obtain ⟨⟨x, kind⟩, es, rfl, he, hrest⟩ := List.map_eq_cons_iff.mp h.symm
    obtain ⟨rfl, rfl⟩ := Prod.mk.inj he
    obtain ⟨xs, rfl, rfl⟩ := ih hrest.symm
    exact ⟨x :: xs, rfl, rfl⟩

theorem pairs_lift {f : α → β} {ys : List (β × β)} {es : List (α × EdgeKind)}
    (h : pairs index ys = es.map (Prod.map f id)) :
    ∃ xs, ys = xs.map (Prod.map f f) ∧ es = pairs index xs := by
  induction ys generalizing index es with
  | nil => exact ⟨[], rfl, List.map_eq_nil_iff.mp h.symm⟩
  | cons y ys ih =>
    obtain ⟨⟨key, kind⟩, es, rfl, he, hmore⟩ := List.map_eq_cons_iff.mp h.symm
    obtain ⟨⟨value, kind'⟩, es, rfl, he', hrest⟩ := List.map_eq_cons_iff.mp hmore
    obtain ⟨hkey, rfl⟩ := Prod.mk.inj he
    obtain ⟨hvalue, rfl⟩ := Prod.mk.inj he'
    obtain ⟨xs, rfl, rfl⟩ := ih hrest.symm
    exact ⟨(key, value) :: xs, congrArg (· :: _) (Prod.ext hkey.symm hvalue.symm), rfl⟩

theorem mem_elements {x : α} {xs : List α} (h : x ∈ xs) (index : Nat) :
    ∃ kind, (x, kind) ∈ elements index xs := by
  induction xs generalizing index with
  | nil => cases h
  | cons y xs ih =>
    rcases List.mem_cons.mp h with rfl | h
    · exact ⟨_, List.mem_cons_self⟩
    · obtain ⟨kind, hk⟩ := ih h (index + 1)
      exact ⟨kind, List.mem_cons_of_mem _ hk⟩

theorem mem_pairs {p : α × α} {ps : List (α × α)} (h : p ∈ ps) (index : Nat) :
    (∃ kind, (p.1, kind) ∈ pairs index ps) ∧ ∃ kind, (p.2, kind) ∈ pairs index ps := by
  induction ps generalizing index with
  | nil => cases h
  | cons p' ps ih =>
    rcases List.mem_cons.mp h with rfl | h
    · exact ⟨⟨_, List.mem_cons_self⟩, ⟨_, List.mem_cons_of_mem _ List.mem_cons_self⟩⟩
    · obtain ⟨⟨kind, hk⟩, kind', hk'⟩ := ih h (index + 1)
      exact ⟨⟨kind, List.mem_cons_of_mem _ (List.mem_cons_of_mem _ hk)⟩,
        kind', List.mem_cons_of_mem _ (List.mem_cons_of_mem _ hk')⟩

theorem nodup_elements (index : Nat) (xs : List α) : ((elements index xs).map Prod.snd).Nodup := by
  have hkinds : (elements index xs).map Prod.snd =
      (List.range' index xs.length).map EdgeKind.listElement := by
    induction xs generalizing index with
    | nil => rfl
    | cons x xs ih => exact congrArg (_ :: ·) (ih (index + 1))
  rw [hkinds]
  exact List.Nodup.map (fun i j hij => EdgeKind.listElement.inj hij) (List.nodup_range' ..)

theorem kind_of_pairs {ps : List (α × α)} {e : α × EdgeKind} (h : e ∈ pairs index ps) :
    ∃ i, index ≤ i ∧ (e.2 = .dictKey i ∨ e.2 = .dictValue i) := by
  induction ps generalizing index with
  | nil => cases h
  | cons p ps ih =>
    rcases List.mem_cons.mp h with rfl | h
    · exact ⟨index, Nat.le_refl _, .inl rfl⟩
    · rcases List.mem_cons.mp h with rfl | h
      · exact ⟨index, Nat.le_refl _, .inr rfl⟩
      · obtain ⟨i, hi, hk⟩ := ih h
        exact ⟨i, Nat.le_of_succ_le hi, hk⟩

theorem nodup_pairs (index : Nat) (ps : List (α × α)) : ((pairs index ps).map Prod.snd).Nodup := by
  induction ps generalizing index with
  | nil => exact .nil
  | cons p ps ih =>
    have hlater (kind : EdgeKind) (hk : kind ∈ (pairs (index + 1) ps).map Prod.snd) :
        kind ≠ .dictKey index ∧ kind ≠ .dictValue index := by
      obtain ⟨e, he, rfl⟩ := List.mem_map.mp hk
      obtain ⟨i, hi, hk | hk⟩ := kind_of_pairs he <;> simp [hk] <;> omega
    refine List.nodup_cons.mpr ⟨fun hm => ?_, List.nodup_cons.mpr ⟨fun hm => ?_, ih (index + 1)⟩⟩
    · rcases List.mem_cons.mp hm with he | hm
      · cases he
      · exact (hlater _ hm).1 rfl
    · exact (hlater _ hm).2 rfl

end Display

namespace Graph

variable {g : Graph} {id : NodeId}

theorem indexed_row {α : Type} {wires : Nat → List α → List (NodeId × EdgeKind)} {f : α → NodeId}
    {index : EdgeKind → Option Nat} (hnil : ∀ i, wires i [] = [])
    (hcons : ∀ i x xs, (wires i (x :: xs)).filterMap (fun p => (index p.2).map (·, p.1)) =
      (i, f x) :: (wires (i + 1) xs).filterMap fun p => (index p.2).map (·, p.1))
    {xs : List α} (h : g.edgesTo id = (wires 0 xs).map fun p => ⟨p.1, id, p.2⟩) :
    g.indexed id index = xs.zipIdx.map fun x => (x.2, f x.1) := by
  have hnumbers (i : Nat) : (wires i xs).filterMap (fun p => (index p.2).map (·, p.1)) =
      (xs.zipIdx i).map fun x => (x.2, f x.1) := by
    clear h
    induction xs generalizing i with
    | nil => rw [hnil]; rfl
    | cons x xs ih => rw [hcons, ih]; rfl
  refine indexed_eq ?_ (pairwise_zipIdx f xs)
  rw [h, List.filterMap_map, ← hnumbers 0]
  rfl

theorem indexed_elements {ids : List NodeId}
    (h : g.edgesTo id = (Display.elements 0 ids).map fun p => ⟨p.1, id, p.2⟩) :
    (g.indexed id EdgeKind.elementIndex?).map Prod.snd = ids := by
  rw [indexed_row (f := fun x => x) (fun _ => rfl) (fun _ _ _ => rfl) h, List.map_map]
  exact List.zipIdx_map_fst ..

theorem find_value {ids : List (NodeId × NodeId)} {x : (NodeId × NodeId) × Nat}
    (h : x ∈ ids.zipIdx) :
    (ids.zipIdx.map fun y => (y.2, y.1.2)).reverse.find? (fun v => v.1 = x.2) =
      some (x.2, x.1.2) := by
  have hmem : (x.2, x.1.2) ∈ (ids.zipIdx.map fun y => (y.2, y.1.2)).reverse :=
    List.mem_reverse.mpr (List.mem_map.mpr ⟨x, h, rfl⟩)
  cases hf : (ids.zipIdx.map fun y => (y.2, y.1.2)).reverse.find? (fun v => v.1 = x.2) with
  | none =>
    have hne := List.find?_eq_none.mp hf _ hmem
    simp at hne
  | some v =>
    obtain ⟨y, hy, rfl⟩ := List.mem_map.mp (List.mem_reverse.mp (List.mem_of_find?_eq_some hf))
    have hi : y.2 = x.2 := by simpa using List.find?_some hf
    have hx := List.mk_mem_zipIdx_iff_getElem?.mp h
    have hy := List.mk_mem_zipIdx_iff_getElem?.mp hy
    rw [hi, hx] at hy
    rw [hi, Option.some.inj hy]

theorem keyedPairs_of_paired (hpaired : ∀ key ∈ g.indexed id EdgeKind.keyIndex?,
    ∃ value ∈ g.indexed id EdgeKind.valueIndex?, value.1 = key.1) :
    g.keyedPairs id = (g.indexed id EdgeKind.keyIndex?).filterMap fun key =>
      ((g.indexed id EdgeKind.valueIndex?).reverse.find? fun v => v.1 = key.1).map
        fun v => (key.2, v.2) := by
  rw [keyedPairs, List.takeWhile_eq_self_iff.mpr, List.filterMap_map]
  · apply List.filterMap_congr
    intro key _
    simp [Function.comp_def]
  · intro p hp
    obtain ⟨key, hkey, rfl⟩ := List.mem_map.mp hp
    obtain ⟨value, hvalue, hnumber⟩ := hpaired key hkey
    rw [Option.isSome_map, List.find?_isSome]
    exact ⟨value, List.mem_reverse.mpr hvalue, decide_eq_true hnumber⟩

theorem keyedPairs_eq {ids : List (NodeId × NodeId)}
    (h : g.edgesTo id = (Display.pairs 0 ids).map fun p => ⟨p.1, id, p.2⟩) :
    g.keyedPairs id = ids := by
  have hkeys : g.indexed id EdgeKind.keyIndex? = ids.zipIdx.map fun x => (x.2, x.1.1) :=
    indexed_row (fun _ => rfl) (fun _ _ _ => rfl) h
  have hvalues : g.indexed id EdgeKind.valueIndex? = ids.zipIdx.map fun x => (x.2, x.1.2) :=
    indexed_row (fun _ => rfl) (fun _ _ _ => rfl) h
  rw [keyedPairs_of_paired, hkeys, hvalues, List.filterMap_map]
  · have hfound : ∀ x ∈ ids.zipIdx, Option.map (fun v : Nat × NodeId => (x.1.1, v.2))
        ((ids.zipIdx.map fun x => (x.2, x.1.2)).reverse.find? fun v => v.1 = x.2) = some x.1 := by
      intro x hx
      rw [find_value hx]
      rfl
    refine (List.filterMap_congr hfound).trans ?_
    rw [List.filterMap_eq_map', List.zipIdx_map_fst]
  · rw [hkeys, hvalues]
    intro key hkey
    obtain ⟨x, hx, rfl⟩ := List.mem_map.mp hkey
    exact ⟨(x.2, x.1.2), List.mem_map_of_mem hx, rfl⟩

end Graph

end ScopedFlow
