import Mathlib.Data.List.Range
import Mathlib.Logic.Function.Basic

namespace Slices

open List

variable {α : Type*} {a b : Nat → α} {i j n : Nat}

/-- The entries from `i` on, up to `n`. -/
def slice (a : Nat → α) (i n : Nat) : List α := (List.range' i (n - i)).map a

theorem slice_empty (h : n ≤ i) : slice a i n = [] := by
  rw [slice, Nat.sub_eq_zero_of_le h]
  rfl

theorem slice_cons (h : i < n) : slice a i n = a i :: slice a (i + 1) n := by
  obtain ⟨k, rfl⟩ : ∃ k, n = i + (k + 1) := ⟨n - i - 1, by omega⟩
  have hk : i + (k + 1) - (i + 1) = k := by omega
  rw [slice, slice, Nat.add_sub_cancel_left, hk, List.range'_succ, map_cons]

theorem slice_append (h : i ≤ j) (h' : j ≤ n) : slice a i j ++ slice a j n = slice a i n := by
  have hj : j = i + (j - i) := by omega
  have hn : j - i + (n - j) = n - i := by omega
  rw [slice, slice, slice, ← map_append]
  conv_lhs => rw [hj, Nat.add_sub_cancel_left, ← hj]
  rw [← hn, ← List.range'_append_1, ← hj]

theorem slice_split (h : i ≤ j) (h' : j < n) : slice a i n = slice a i j ++ a j :: slice a (j + 1) n := by
  rw [← slice_append h (le_of_lt h'), slice_cons h']

theorem mem_slice {x : α} : x ∈ slice a i n ↔ ∃ j, i ≤ j ∧ j < n ∧ a j = x := by
  unfold slice
  rw [mem_map]
  constructor
  · rintro ⟨j, hj, rfl⟩
    have := mem_range'_1.mp hj
    exact ⟨j, by omega, by omega, rfl⟩
  · rintro ⟨j, hij, hjn, rfl⟩
    exact ⟨j, mem_range'_1.mpr (by omega), rfl⟩

theorem slice_congr (h : ∀ j, i ≤ j → j < n → a j = b j) : slice a i n = slice b i n := by
  apply map_congr_left
  intro j hj
  have := mem_range'_1.mp hj
  exact h j (by omega) (by omega)

theorem slice_succ (h : ∀ j, i ≤ j → j < n → b j = a (j + 1)) : slice b i n = slice a (i + 1) (n + 1) := by
  have hn : n + 1 - (i + 1) = n - i := by omega
  rw [slice, slice, hn, Nat.add_comm i 1, ← map_add_range', map_map]
  apply map_congr_left
  intro j hj
  have := mem_range'_1.mp hj
  rw [h j (by omega) (by omega), Nat.add_comm]
  rfl

theorem slice_update (h : i ≤ j) (h' : j < n) (x : α) :
    slice (Function.update a j x) i n = slice a i j ++ x :: slice a (j + 1) n := by
  rw [slice_split h h', Function.update_self]
  congr 1
  · apply slice_congr
    intro k _ hk
    exact Function.update_of_ne (by omega) _ _
  · congr 1
    apply slice_congr
    intro k hk _
    exact Function.update_of_ne (by omega) _ _

end Slices
