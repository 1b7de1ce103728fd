import Mathlib.Data.Nat.Bitwise
import Mathlib.Logic.Function.Iterate

namespace ShiftRegister

/-- One shift: a one that is shifted out puts in the feedback `P`. -/
def shift (P x : Nat) : Nat := if x % 2 = 1 then P ^^^ (x / 2) else x / 2

def feed (P x : Nat) (b : Bool) : Nat := shift P (x ^^^ b.toNat)

/-- The number whose bits these are, the lowest one first. -/
def value : List Bool → Nat
  | [] => 0
  | b :: bs => b.toNat ^^^ 2 * value bs

variable {P n k x y : Nat} {bs cs pre mid mid' post : List Bool}

theorem shift_xor (P x y : Nat) : shift P (x ^^^ y) = shift P x ^^^ shift P y := by
  have hhalf : (x ^^^ y) / 2 = x / 2 ^^^ y / 2 := Nat.xor_div_two
  have hlow : (x ^^^ y) % 2 = (x + y) % 2 := Nat.xor_mod_two_eq
  unfold shift
  rw [hhalf, hlow]
  by_cases hx : x % 2 = 1 <;> by_cases hy : y % 2 = 1
  · rw [if_neg (by omega), if_pos hx, if_pos hy]
    calc x / 2 ^^^ y / 2 = (P ^^^ P) ^^^ (x / 2 ^^^ y / 2) := by rw [Nat.xor_self, Nat.zero_xor]
      _ = P ^^^ x / 2 ^^^ (P ^^^ y / 2) := by ac_rfl
  · rw [if_pos (by omega), if_pos hx, if_neg hy, Nat.xor_assoc]
  · rw [if_pos (by omega), if_neg hx, if_pos hy]
    ac_rfl
  · rw [if_neg (by omega), if_neg hx, if_neg hy]

theorem shift_double (P x : Nat) : shift P (2 * x) = x := by
  unfold shift
  rw [if_neg (by omega)]
  omega

theorem shift_lt (hP : P < 2 ^ n) (hx : x < 2 ^ n) : shift P x < 2 ^ n := by
  have hhalf : x / 2 < 2 ^ n := by omega
  unfold shift
  split
  · exact Nat.xor_lt_two_pow hP hhalf
  · exact hhalf

/-- Only zero is shifted to zero: the feedback reaches the highest bit. -/
theorem shift_eq_zero (hP : 2 ^ n ≤ P) (hx : x < 2 ^ (n + 1)) (h : shift P x = 0) : x = 0 := by
  unfold shift at h
  split at h
  · have heq : P = x / 2 := Nat.xor_eq_zero_iff.mp h
    omega
  · omega

theorem shifts_xor (P n x y : Nat) : (shift P)^[n] (x ^^^ y) = (shift P)^[n] x ^^^ (shift P)^[n] y := by
  induction n generalizing x y with
  | zero => rfl
  | succ n ih =>
    rw [Function.iterate_succ_apply, Function.iterate_succ_apply, Function.iterate_succ_apply, shift_xor, ih]

theorem shifts_double (P n x : Nat) : (shift P)^[n] (2 ^ n * x) = x := by
  induction n with
  | zero => simp
  | succ n ih => rw [Function.iterate_succ_apply, pow_succ, mul_comm (2 ^ n), mul_assoc, shift_double, ih]

theorem shifts_eq_zero (hlow : 2 ^ n ≤ P) (hP : P < 2 ^ (n + 1)) (hx : x < 2 ^ (n + 1)) (h : (shift P)^[k] x = 0) :
    x = 0 := by
  induction k generalizing x with
  | zero => exact h
  | succ k ih => exact shift_eq_zero hlow hx (ih (shift_lt hP hx) h)

/-- What the register holds after some bits. -/
theorem feeds (P x : Nat) (bs : List Bool) : bs.foldl (feed P) x = (shift P)^[bs.length] (x ^^^ value bs) := by
  induction bs generalizing x with
  | nil => simp [value]
  | cons b bs ih =>
    have hfirst : feed P x b ^^^ value bs = shift P (x ^^^ value (b :: bs)) := by
      rw [value, ← Nat.xor_assoc, shift_xor P (x ^^^ b.toNat), shift_double]
      rfl
    rw [List.foldl_cons, ih, hfirst, List.length_cons, Function.iterate_succ_apply]

theorem feeds_lt (hP : P < 2 ^ n) (hn : 0 < n) (hx : x < 2 ^ n) : bs.foldl (feed P) x < 2 ^ n := by
  induction bs generalizing x with
  | nil => exact hx
  | cons b bs ih =>
    have hbit : b.toNat < 2 ^ n := lt_of_lt_of_le (Bool.toNat_lt b) (Nat.pow_le_pow_right (Nat.succ_pos 1) hn)
    exact ih (shift_lt hP (Nat.xor_lt_two_pow hx hbit))

theorem value_cons (b : Bool) (bs : List Bool) : value (b :: bs) = b.toNat + 2 * value bs := by
  have hhalf : value (b :: bs) / 2 = value bs := by
    rw [value, Nat.xor_div_two]
    cases b <;> simp
  have hlow : value (b :: bs) % 2 = b.toNat := by
    rw [value, Nat.xor_mod_two_eq]
    cases b <;> simp
  omega

theorem value_lt (bs : List Bool) : value bs < 2 ^ bs.length := by
  induction bs with
  | nil => decide
  | cons b bs ih =>
    have hbit := Bool.toNat_lt b
    rw [value_cons, List.length_cons, pow_succ]
    omega

theorem value_injective (hlen : bs.length = cs.length) (h : value bs = value cs) : bs = cs := by
  induction bs generalizing cs with
  | nil => exact (List.eq_nil_of_length_eq_zero hlen.symm).symm
  | cons b bs ih =>
    cases cs with
    | nil => cases hlen
    | cons c cs =>
      rw [value_cons, value_cons] at h
      have hbit : b = c := by
        cases b <;> cases c <;> simp only [Bool.toNat_true, Bool.toNat_false] at h ⊢ <;> omega
      rw [hbit] at h
      rw [hbit, ih (Nat.succ.inj hlen) (by omega)]

/-- From two states the same bits lead to the same one only if they are the same. -/
theorem feeds_injective (hlow : 2 ^ n ≤ P) (hP : P < 2 ^ (n + 1)) (hx : x < 2 ^ (n + 1)) (hy : y < 2 ^ (n + 1))
    (h : bs.foldl (feed P) x = bs.foldl (feed P) y) : x = y := by
  rw [feeds, feeds, shifts_xor, shifts_xor P _ y, Nat.xor_left_inj] at h
  have hzero : (shift P)^[bs.length] (x ^^^ y) = 0 := by
    rw [shifts_xor, h, Nat.xor_self]
  exact Nat.xor_eq_zero_iff.mp (shifts_eq_zero hlow hP (Nat.xor_lt_two_pow hx hy) hzero)

/-- A change within as many bits as the register is long shows at the end. -/
theorem burst_shows (hlow : 2 ^ n ≤ P) (hP : P < 2 ^ (n + 1)) (hx : x < 2 ^ (n + 1)) (hlen : mid.length = mid'.length)
    (hshort : mid.length ≤ n + 1) (hne : mid ≠ mid') :
    (pre ++ mid ++ post).foldl (feed P) x ≠ (pre ++ mid' ++ post).foldl (feed P) x := by
  intro h
  rw [List.foldl_append, List.foldl_append, List.foldl_append, List.foldl_append] at h
  have hstart : pre.foldl (feed P) x < 2 ^ (n + 1) := feeds_lt hP (Nat.succ_pos n) hx
  have hmid := feeds_injective hlow hP (feeds_lt hP (Nat.succ_pos n) hstart) (feeds_lt hP (Nat.succ_pos n) hstart) h
  rw [feeds P _ mid, feeds P _ mid', ← hlen, shifts_xor, shifts_xor P _ _ (value mid'), Nat.xor_right_inj] at hmid
  have hzero : (shift P)^[mid.length] (value mid ^^^ value mid') = 0 := by
    rw [shifts_xor, hmid, Nat.xor_self]
  have hvalue := value_lt mid
  have hvalue' := value_lt mid'
  rw [← hlen] at hvalue'
  have hsmall := lt_of_lt_of_le (Nat.xor_lt_two_pow hvalue hvalue') (Nat.pow_le_pow_right (by decide) hshort)
  exact hne (value_injective hlen (Nat.xor_eq_zero_iff.mp (shifts_eq_zero hlow hP hsmall hzero)))

end ShiftRegister
