/-!
# Finite maps

They are association lists in order of first insertion. Each key occurs at most once as long as the
table is built by `insert`; a later value takes the place of the earlier one.
-/

namespace ScopedFlow

structure Table (κ α : Type) where
  entries : List (κ × α)
  deriving Repr

namespace Table

variable {κ α : Type}

def empty : Table κ α := ⟨[]⟩

def keys (t : Table κ α) : List κ := t.entries.map (·.1)

def values (t : Table κ α) : List α := t.entries.map (·.2)

def size (t : Table κ α) : Nat := t.entries.length

def isEmpty (t : Table κ α) : Bool := t.entries.isEmpty

section Keyed

variable [DecidableEq κ] {k : κ}

def find (k : κ) : List (κ × α) → Option α
  | [] => none
  | (j, a) :: rest => if j = k then some a else find k rest

def put (k : κ) (a : α) : List (κ × α) → List (κ × α)
  | [] => [(k, a)]
  | (j, b) :: rest => if j = k then (k, a) :: rest else (j, b) :: put k a rest

def get? (t : Table κ α) (k : κ) : Option α := find k t.entries

def contains (t : Table κ α) (k : κ) : Bool := (t.get? k).isSome

def insert (t : Table κ α) (k : κ) (a : α) : Table κ α := ⟨put k a t.entries⟩

theorem find_put_self (k : κ) (a : α) (es : List (κ × α)) : find k (put k a es) = some a := by
  induction es with
  | nil => simp [put, find]
  | cons e es ih =>
    obtain ⟨j, b⟩ := e
    by_cases h : j = k <;> simp [put, find, h, ih]

theorem find_put_of_ne {j : κ} (h : k ≠ j) (a : α) (es : List (κ × α)) :
    find j (put k a es) = find j es := by
  induction es with
  | nil => simp [put, find, h]
  | cons e es ih =>
    obtain ⟨i, b⟩ := e
    by_cases hi : i = k
    · subst hi; simp [put, find, h]
    · by_cases hj : i = j
      · subst hj; simp [put, find, hi]
      · simp [put, find, hi, hj, ih]

@[simp] theorem get?_empty (k : κ) : (empty : Table κ α).get? k = none := rfl

@[simp] theorem get?_insert_self (t : Table κ α) (k : κ) (a : α) :
    (t.insert k a).get? k = some a := find_put_self k a t.entries

theorem get?_insert_of_ne (t : Table κ α) {j : κ} (h : k ≠ j) (a : α) :
    (t.insert k a).get? j = t.get? j := find_put_of_ne h a t.entries

theorem find_mem {a : α} {es : List (κ × α)} (h : find k es = some a) : (k, a) ∈ es := by
  induction es with
  | nil => simp [find] at h
  | cons e es ih =>
    obtain ⟨j, b⟩ := e
    by_cases hj : j = k
    · simp [find, hj] at h; simp [hj, h]
    · simp [find, hj] at h; exact List.mem_cons_of_mem _ (ih h)

/-- What a table returns is one of its values. -/
theorem mem_values_of_get? {t : Table κ α} {a : α} (h : t.get? k = some a) :
    a ∈ t.values := List.mem_map.2 ⟨(k, a), find_mem h, rfl⟩

end Keyed

end Table

end ScopedFlow
