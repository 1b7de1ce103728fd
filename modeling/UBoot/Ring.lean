import Mathlib.Data.List.Basic
import Mathlib.Data.List.Infix

namespace Ring

open List

variable {α : Type} {N p : Nat} {cells items : List α} {a : α}

def next (N p : Nat) : Nat := if p + 1 = N then 0 else p + 1

/-- The cells hold the items in order from `p` on. -/
structure Holds (N : Nat) (cells : List α) (p : Nat) (items : List α) : Prop where
  size : cells.length = N
  fits : items.length ≤ N
  start : p < N
  cell : ∀ k, k < items.length → cells[(p + k) % N]? = items[k]?

theorem next_lt (h : p < N) : next N p < N := by
  unfold next
  split <;> omega

theorem next_eq (h : p < N) : next N p = (p + 1) % N := by
  unfold next
  split
  next hlast => rw [hlast, Nat.mod_self]
  next hin => exact (Nat.mod_eq_of_lt (by omega)).symm

theorem next_add (h : p < N) (k : Nat) : (next N p + k) % N = (p + (k + 1)) % N := by
  rw [next_eq h, Nat.mod_add_mod]
  congr 1
  omega

theorem place_ne {j k : Nat} (hjk : j < k) (hk : k < p + N) (hj : p ≤ j) : j % N ≠ k % N := by
  intro heq
  have hdiv : N ∣ k - j := Nat.dvd_of_mod_eq_zero (Nat.sub_mod_eq_zero_of_mod_eq heq.symm)
  have hle := Nat.le_of_dvd (by omega) hdiv
  omega

theorem Holds.nil (hp : p < N) (hl : cells.length = N) : Holds N cells p [] :=
  ⟨hl, Nat.zero_le N, hp, fun _ hk => absurd hk (Nat.not_lt_zero _)⟩

theorem Holds.push (h : Holds N cells p items) (hroom : items.length < N) :
    Holds N (cells.set ((p + items.length) % N) a) p (items ++ [a]) := by
  have hstart := h.start
  refine ⟨by rw [length_set, h.size], by rw [length_append]; exact hroom, hstart, fun k hk => ?_⟩
  rw [length_append, length_singleton] at hk
  by_cases hlast : k = items.length
  · subst k
    rw [List.getElem?_set_self (by rw [h.size]; exact Nat.mod_lt _ (by omega)), List.getElem?_append_right le_rfl,
      Nat.sub_self]
    rfl
  · have hne : (p + items.length) % N ≠ (p + k) % N := (place_ne (p := p) (by omega) (by omega) (by omega)).symm
    rw [List.getElem?_set_ne hne, List.getElem?_append_left (by omega)]
    exact h.cell k (by omega)

theorem Holds.head (h : Holds N cells p (a :: items)) : cells[p]? = some a := by
  have hcell := h.cell 0 (by simp)
  rwa [Nat.add_zero, Nat.mod_eq_of_lt h.start, List.getElem?_cons_zero] at hcell

theorem Holds.pop (h : Holds N cells p (a :: items)) : Holds N cells (next N p) items := by
  have hfits := h.fits
  rw [length_cons] at hfits
  refine ⟨h.size, by omega, next_lt h.start, fun k hk => ?_⟩
  rw [next_add h.start, h.cell (k + 1) (by rw [length_cons]; omega), List.getElem?_cons_succ]

theorem Holds.push_full (h : Holds N cells p items) (hfull : items.length = N) :
    Holds N (cells.set ((p + items.length) % N) a) (next N p) (items.tail ++ [a]) := by
  have hstart := h.start
  cases items with
  | nil =>
    rw [length_nil] at hfull
    omega
  | cons b items =>
    have hrest := h.pop
    rw [length_cons] at hfull
    have hplace : (p + (b :: items).length) % N = (next N p + items.length) % N := by
      rw [next_add hstart, length_cons]
    rw [hplace, tail_cons]
    exact hrest.push (by omega)

end Ring

namespace RecentRing

variable {α : Type} {N n p k : Nat} {slots : Nat → α} {recent : List α} {a : α}

/-- The slot `p` places before the one that takes the next entry, once there have been `n` of them. -/
def slot (N n p : Nat) : Nat := (n - p) % N

def reach (N n : Nat) : Nat := min n (N - 1)

def Holds (N : Nat) (slots : Nat → α) (recent : List α) : Prop :=
  ∀ k, k < reach N recent.length → recent[k]? = some (slots (slot N recent.length (k + 1)))

theorem slot_eq (hp : p < N) (hn : p ≤ n) : slot N n p = if p ≤ n % N then n % N - p else n % N + N - p := by
  have hdiv := Nat.div_add_mod n N
  have hmod := Nat.mod_lt n (show 0 < N by omega)
  unfold slot
  split
  next hle =>
    have hsplit : n - p = n % N - p + N * (n / N) := by omega
    rw [hsplit, Nat.add_mul_mod_self_left, Nat.mod_eq_of_lt (by omega)]
  next hgt =>
    -- the place lies in the round before
    obtain ⟨q, hq⟩ : ∃ q, n / N = q + 1 := by
      refine Nat.exists_eq_succ_of_ne_zero fun hzero => ?_
      rw [hzero, Nat.mul_zero] at hdiv
      omega
    rw [hq, Nat.mul_succ] at hdiv
    have hsplit : n - p = n % N + N - p + N * q := by omega
    rw [hsplit, Nat.add_mul_mod_self_left, Nat.mod_eq_of_lt (by omega)]

theorem slot_zero : slot N n 0 = n % N := rfl

theorem mod_eq (h : n < N) : n % N = n := Nat.mod_eq_of_lt h

theorem slot_next (hp : p < reach N n) :
    (if slot N n p = 0 then reach N n else slot N n p - 1) = slot N n (p + 1) ∧ slot N n (p + 1) ≠ n % N := by
  unfold reach at hp ⊢
  have hsmall : n < N → n % N = n := mod_eq
  rw [slot_eq (by omega) (by omega), slot_eq (by omega) (by omega)]
  constructor
  · split_ifs <;> omega
  · split_ifs <;> omega

theorem slot_last (hN : 0 < N) (hp : p = reach N n) :
    (if slot N n p = 0 then reach N n else slot N n p - 1) = n % N := by
  unfold reach at hp ⊢
  have hmod := Nat.mod_lt n hN
  have hsmall : n < N → n % N = n := mod_eq
  rw [slot_eq (by omega) (by omega)]
  split_ifs <;> omega

theorem slot_back (hp : p < reach N n) :
    (if reach N n < slot N n (p + 1) + 1 then 0 else slot N n (p + 1) + 1) = slot N n p := by
  unfold reach at hp ⊢
  have hmod := Nat.mod_lt n (show 0 < N by omega)
  have hsmall : n < N → n % N = n := mod_eq
  rw [slot_eq (by omega) (by omega), slot_eq (by omega) (by omega)]
  split_ifs <;> omega

theorem slot_eq_zero_iff (hN : 0 < N) (hp : p ≤ reach N n) : slot N n p = n % N ↔ p = 0 := by
  unfold reach at hp
  rw [slot_eq (by omega) (by omega)]
  split_ifs <;> omega

theorem Holds.put (hN : 0 < N) (h : Holds N slots recent) {slots' : Nat → α} (hnew : slots' (recent.length % N) = a)
    (hold : ∀ i, i ≠ recent.length % N → slots' i = slots i) : Holds N slots' (a :: recent) := by
  intro k hk
  rw [List.length_cons] at hk ⊢
  cases k with
  | zero =>
    rw [List.getElem?_cons_zero, slot, Nat.zero_add, Nat.add_sub_cancel, hnew]
  | succ k =>
    have hk' : k + 1 < reach N recent.length + 1 := by
      unfold reach at hk ⊢
      omega
    have hshift : slot N (recent.length + 1) (k + 1 + 1) = slot N recent.length (k + 1) := by
      unfold slot
      rw [Nat.add_sub_add_right]
    have hne : slot N recent.length (k + 1) ≠ recent.length % N := by
      intro heq
      have hzero := (slot_eq_zero_iff hN (by omega)).mp heq
      exact absurd hzero (Nat.succ_ne_zero k)
    rw [List.getElem?_cons_succ, hshift, hold _ hne]
    exact h k (by omega)

theorem next_place (hN : 0 < N) : (if N ≤ n % N + 1 then 0 else n % N + 1) = (n + 1) % N := by
  have hdiv := Nat.div_add_mod n N
  have hmod := Nat.mod_lt n hN
  split
  next hwrap =>
    have hsplit : n + 1 = 0 + N * (n / N + 1) := by
      rw [Nat.mul_succ]
      omega
    rw [hsplit, Nat.add_mul_mod_self_left, Nat.zero_mod]
  next hin =>
    have hsplit : n + 1 = n % N + 1 + N * (n / N) := by omega
    rw [hsplit, Nat.add_mul_mod_self_left, Nat.mod_eq_of_lt (not_le.mp hin)]

theorem reach_grows (hN : 0 < N) :
    (if reach N n < (n + 1) % N then (n + 1) % N else reach N n) = reach N (n + 1) := by
  have hmod := Nat.mod_lt (n + 1) hN
  have hsmall : n + 1 < N → (n + 1) % N = n + 1 := mod_eq
  unfold reach
  split_ifs <;> omega

end RecentRing

namespace RecentWindow

variable {α : Type} {n : Nat} {past key : List α}

/-- The last `n` items, or all of them if they are fewer. -/
def recent (n : Nat) (past : List α) : List α := past.drop (past.length - n)

theorem recent_nil : recent n ([] : List α) = [] := List.drop_nil

theorem recent_length : (recent n past).length = min n past.length := by
  unfold recent
  rw [List.length_drop]
  omega

theorem recent_all (h : past.length ≤ n) : recent n past = past := by
  unfold recent
  rw [Nat.sub_eq_zero_of_le h]
  rfl

theorem recent_fill (c : α) (h : past.length < n) : recent n (past ++ [c]) = recent n past ++ [c] := by
  unfold recent
  rw [List.length_append, List.length_singleton, Nat.sub_eq_zero_of_le h, Nat.sub_eq_zero_of_le (le_of_lt h)]
  rfl

theorem recent_shift (c : α) (hn : 0 < n) (h : n ≤ past.length) :
    recent n (past ++ [c]) = (recent n past).tail ++ [c] := by
  have hstart : (past ++ [c]).length - n = past.length - n + 1 := by
    rw [List.length_append, List.length_singleton]
    omega
  unfold recent
  rw [hstart, List.drop_append_of_le_length (by omega), List.tail_drop]

theorem recent_append (past key : List α) : recent n (recent n past ++ key) = recent n (past ++ key) := by
  unfold recent
  rw [List.length_append, List.length_append, List.length_drop, ← List.drop_append_of_le_length (by omega), List.drop_drop]
  congr 1
  omega

theorem suffix_recent_iff (h : key.length ≤ n) : key <:+ recent n past ↔ key <:+ past := by
  constructor
  · exact fun hk => hk.trans (List.drop_suffix _ _)
  · intro hk
    apply List.suffix_of_suffix_length_le hk (List.drop_suffix _ _)
    rw [← recent, recent_length]
    exact Nat.le_min.mpr ⟨h, hk.length_le⟩

end RecentWindow
