import Mathlib.Data.List.Basic

namespace Cells

open List

variable {α : Type}
variable {xs : List α}

/-- A store into a C object: outside of it there is no result. -/
def store (d : List α) (i : Nat) (x : α) : Option (List α) :=
  if i < d.length then some (d.set i x) else none

/-- Consecutive stores from index `i` upwards. -/
def storeAll : List α → Nat → List α → Option (List α)
  | d, _, [] => some d
  | d, i, x :: xs => do
    let d ← store d i x
    storeAll d (i + 1) xs

/-- The row with the cells from `i` on replaced by `xs`. -/
def splice (d : List α) (i : Nat) (xs : List α) : List α :=
  d.take i ++ xs ++ d.drop (i + xs.length)

theorem store_at {p q : List α} {y : α} (x : α) : store (p ++ y :: q) p.length x = some (p ++ x :: q) := by
  simp [store]

theorem store_length {d e : List α} {i : Nat} {x : α} (h : store d i x = some e) : e.length = d.length := by
  unfold store at h
  split at h
  · cases Option.some.inj h; simp
  · simp at h

theorem storeAll_length {d e : List α} {i : Nat} (h : storeAll d i xs = some e) : e.length = d.length := by
  induction xs generalizing d i with
  | nil => cases Option.some.inj h; rfl
  | cons x xs ih =>
    obtain ⟨c, hc, h⟩ := Option.bind_eq_some_iff.mp h
    exact (ih h).trans (store_length hc)

theorem storeAll_at {p ys q : List α} (hl : ys.length = xs.length) :
    storeAll (p ++ ys ++ q) p.length xs = some (p ++ xs ++ q) := by
  induction xs generalizing p ys with
  | nil =>
    have hn : ys = [] := length_eq_zero_iff.mp hl
    simp [storeAll, hn]
  | cons x xs ih =>
    cases ys with
    | nil => simp at hl
    | cons y ys =>
      have hstep : store (p ++ y :: ys ++ q) p.length x = some (p ++ [x] ++ ys ++ q) := by
        simpa using store_at (p := p) (q := ys ++ q) (y := y) x
      have htail := ih (p := p ++ [x]) (show ys.length = xs.length by simpa using hl)
      simp only [storeAll, hstep, Option.bind_eq_bind, Option.bind_some]
      simpa using htail

theorem splice_length {d : List α} {i : Nat} (h : i + xs.length ≤ d.length) :
    (splice d i xs).length = d.length := by
  simp only [splice, length_append, length_take, length_drop]
  omega

theorem splice_drop {d : List α} {i n : Nat} (h : i + xs.length ≤ d.length) (hn : i + xs.length ≤ n) :
    (splice d i xs).drop n = d.drop n := by
  have hfront : (d.take i ++ xs).length = i + xs.length := by
    rw [length_append, length_take_of_le (by omega)]
  unfold splice
  rw [drop_append, drop_eq_nil_of_le (by omega), nil_append, hfront, drop_drop,
    Nat.add_sub_cancel' hn]

theorem storeAll_eq_splice {d : List α} {i : Nat} (h : i + xs.length ≤ d.length) :
    storeAll d i xs = some (splice d i xs) := by
  have hd : d = d.take i ++ (d.drop i).take xs.length ++ d.drop (i + xs.length) := by
    rw [append_assoc, ← drop_drop, take_append_drop, take_append_drop]
  have hp : (d.take i).length = i := by simp; omega
  have hl : ((d.drop i).take xs.length).length = xs.length := by simp; omega
  have hs := storeAll_at (p := d.take i) (q := d.drop (i + xs.length)) hl
  rw [← hd, hp] at hs
  exact hs

theorem storeAll_fits {d e : List α} {i : Nat} (hne : xs ≠ []) (hs : storeAll d i xs = some e) :
    i + xs.length ≤ d.length := by
  induction xs generalizing d i with
  | nil => exact absurd rfl hne
  | cons x xs ih =>
    obtain ⟨c, hc, hrest⟩ := Option.bind_eq_some_iff.mp hs
    have hlen := store_length hc
    have hi : i < d.length := by
      by_contra hge
      rw [store, if_neg hge] at hc
      cases hc
    cases xs with
    | nil => exact hi
    | cons y ys =>
      have hfit := ih (cons_ne_nil y ys) hrest
      simp only [length_cons] at hfit ⊢
      omega

/-- `n` cells from `i` on are in the row, or none is asked for. -/
def Loads (d : List α) (i n : Nat) : Prop := n = 0 ∨ i + n ≤ d.length

instance (d : List α) (i n : Nat) : Decidable (Loads d i n) := inferInstanceAs (Decidable (_ ∨ _))

/-- Consecutive loads from index `i` upwards. -/
def loadAll (d : List α) (i n : Nat) : Option (List α) := if Loads d i n then some ((d.drop i).take n) else none

theorem loadAll_some {d : List α} {i n : Nat} (h : loadAll d i n = some xs) :
    Loads d i n ∧ xs = (d.drop i).take n ∧ xs.length = n := by
  unfold loadAll at h
  split at h
  next hin =>
    cases h
    refine ⟨hin, rfl, ?_⟩
    rw [length_take, length_drop]
    rcases hin with rfl | hin <;> omega
  · cases h

theorem loadAll_of_loads {d : List α} {i n : Nat} (h : Loads d i n) : loadAll d i n = some ((d.drop i).take n) :=
  if_pos h

theorem loadAll_none {d : List α} {i n : Nat} (h : ¬Loads d i n) : loadAll d i n = none := if_neg h

end Cells
