import ScopedFlow.Supply

/-!
# Ids of different serial numbers are different

The digits of a serial number hold no low line, so the last low line of an id separates the kind
from the number, and the number can be read back from its digits.
-/

namespace ScopedFlow.Supply

def digitOf (c : Char) : Nat := "0123456789abcdef".toList.idxOf c

def numberOf (cs : List Char) : Nat := cs.foldl (fun n c => 16 * n + digitOf c) 0

theorem digitOf_digitChar {d : Nat} (h : d < 16) : digitOf d.digitChar = d := by
  have all : ∀ e : Fin 16, digitOf (e.val.digitChar) = e.val := by decide
  exact all ⟨d, h⟩

theorem numberOf_toDigits (n : Nat) : numberOf (Nat.toDigits 16 n) = n := by
  induction n using Nat.strongRecOn with
  | ind n ih =>
    rw [Nat.toDigits_eq_if (by decide)]
    split
    · rename_i h
      simp [numberOf, digitOf_digitChar h]
    · rename_i h
      have hdiv := ih (n / 16) (by omega)
      unfold numberOf at hdiv ⊢
      rw [List.foldl_append, hdiv]
      simp only [List.foldl_cons, List.foldl_nil, digitOf_digitChar (Nat.mod_lt n (by decide))]
      omega

theorem numberOf_zeros (k : Nat) (cs : List Char) :
    numberOf (List.replicate k '0' ++ cs) = numberOf cs := by
  have zeros : ∀ k : Nat, numberOf (List.replicate k '0') = 0 := by
    intro k
    induction k with
    | zero => rfl
    | succ k ih =>
      rw [List.replicate_succ', numberOf, List.foldl_append]
      rw [numberOf] at ih
      simp only [ih]
      decide
  unfold numberOf at zeros ⊢
  rw [List.foldl_append, zeros]

theorem numberOf_hex (width n : Nat) : numberOf (hex width n).toList = n := by
  simp only [hex, String.toList_ofList, numberOf_zeros, numberOf_toDigits]

theorem bar_not_mem_toDigits (n : Nat) : '_' ∉ Nat.toDigits 16 n := by
  induction n using Nat.strongRecOn with
  | ind n ih =>
    rw [Nat.toDigits_eq_if (by decide)]
    split
    · simp
    · rename_i h
      simpa using ih (n / 16) (by omega)

theorem bar_not_mem_hex (width n : Nat) : '_' ∉ (hex width n).toList := by
  simp only [hex, String.toList_ofList, List.mem_append, not_or]
  refine ⟨fun h => ?_, bar_not_mem_toDigits n⟩
  exact absurd (List.eq_of_mem_replicate h) (by decide)

theorem eq_of_append_bar {as bs xs ys : List Char} (hx : '_' ∉ xs) (hy : '_' ∉ ys)
    (h : as ++ '_' :: xs = bs ++ '_' :: ys) : xs = ys := by
  induction as generalizing bs with
  | nil =>
    cases bs with
    | nil => simpa using h
    | cons b bs =>
      obtain ⟨-, rfl⟩ := List.cons.inj h
      simp at hx
  | cons a as ih =>
    cases bs with
    | nil =>
      obtain ⟨-, rfl⟩ := List.cons.inj h
      simp at hy
    | cons b bs => exact ih (List.cons.inj h).2

theorem serial_eq_of_idOf_eq {kind kind' : NodeKind} {serial serial' : Nat}
    (h : idOf kind serial = idOf kind' serial') : serial = serial' := by
  have htext := congrArg (fun id : NodeId => id.text.toList) h
  simp only [idOf, String.toList_append, List.append_assoc] at htext
  have hdigits := eq_of_append_bar (bar_not_mem_hex 12 serial) (bar_not_mem_hex 12 serial') htext
  rw [← numberOf_hex 12 serial, hdigits, numberOf_hex]

end ScopedFlow.Supply
