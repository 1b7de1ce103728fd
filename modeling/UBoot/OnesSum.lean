import Mathlib.Algebra.GroupWithZero.Nat
import UBoot.Words

namespace OnesSum

open FlashCells List Words

def words : List UInt8 → List Nat
  | [] => []
  | [a] => [256 * a.toNat]
  | a :: b :: bytes => (256 * a.toNat + b.toNat) :: words bytes

def onesAdd (x y : Nat) : Nat := if x + y < 65536 then x + y else x + y - 65535

def onesSum (ws : List Nat) : Nat := ws.foldl onesAdd 0

/-- The sum of a message with its checksum has all bits set. -/
def Verifies (bytes : List UInt8) : Prop := onesSum (words bytes) = 65535

instance (bytes : List UInt8) : Decidable (Verifies bytes) := inferInstanceAs (Decidable (_ = _))

def swappedSum : List UInt8 → Nat
  | [] => 0
  | [a] => a.toNat
  | a :: b :: bytes => a.toNat + 256 * b.toNat + swappedSum bytes

theorem words_lt (bytes : List UInt8) : ∀ w ∈ words bytes, w < 65536 := by
  fun_induction words bytes with
  | case1 => exact fun w hw => absurd hw not_mem_nil
  | case2 a =>
    intro w hw
    have ha := a.toNat_lt
    rw [mem_singleton.mp hw]
    omega
  | case3 a b bytes ih =>
    intro w hw
    have ha := a.toNat_lt
    have hb := b.toNat_lt
    rcases mem_cons.mp hw with rfl | hw
    · omega
    · exact ih w hw

theorem onesAdd_spec {x y : Nat} (hx : x ≤ 65535) (hy : y < 65536) :
    onesAdd x y ≤ 65535 ∧ onesAdd x y % 65535 = (x + y) % 65535 ∧ (onesAdd x y = 0 ↔ x + y = 0) := by
  unfold onesAdd
  split
  · exact ⟨by omega, rfl, Iff.rfl⟩
  · exact ⟨by omega, by omega, by omega⟩

theorem foldl_onesAdd {ws : List Nat} {x : Nat} (hx : x ≤ 65535) (hws : ∀ w ∈ ws, w < 65536) :
    ws.foldl onesAdd x ≤ 65535 ∧ ws.foldl onesAdd x % 65535 = (x + ws.sum) % 65535 ∧
      (ws.foldl onesAdd x = 0 ↔ x + ws.sum = 0) := by
  induction ws generalizing x with
  | nil => exact ⟨hx, rfl, Iff.rfl⟩
  | cons w ws ih =>
    obtain ⟨hle, hmod, hzero⟩ := onesAdd_spec hx (hws w mem_cons_self)
    obtain ⟨hle', hmod', hzero'⟩ := ih hle fun v hv => hws v (mem_cons_of_mem w hv)
    rw [foldl_cons, sum_cons]
    exact ⟨hle', by omega, by omega⟩

theorem swappedSum_words (bytes : List UInt8) : (words bytes).sum % 65535 = 256 * swappedSum bytes % 65535 ∧
      ((words bytes).sum = 0 ↔ swappedSum bytes = 0) := by
  fun_induction words bytes with
  | case1 => exact ⟨rfl, Iff.rfl⟩
  | case2 a =>
    unfold swappedSum
    rw [sum_singleton]
    omega
  | case3 a b bytes ih =>
    unfold swappedSum
    rw [sum_cons]
    omega

theorem verifies_iff {bytes : List UInt8} :
    Verifies bytes ↔ swappedSum bytes % 65535 = 0 ∧ swappedSum bytes ≠ 0 := by
  obtain ⟨hle, hmod, hzero⟩ := foldl_onesAdd (x := 0) (Nat.zero_le _) (words_lt bytes)
  obtain ⟨hswapped, hzero'⟩ := swappedSum_words bytes
  unfold Verifies onesSum
  rw [zero_add] at hmod hzero
  omega

/-- The sum of the first `n` words of a memory as a little-endian processor loads them. -/
def wordSum (m : Flash) (n : Nat) : Nat := ((List.range n).map fun i => le16 m (2 * i)).sum

theorem wordSum_succ (m : Flash) (n : Nat) : wordSum m (n + 1) = wordSum m n + le16 m (2 * n) := by
  unfold wordSum
  rw [range_succ, map_append, sum_append]
  rfl

theorem wordSum_le (m : Flash) (n : Nat) : wordSum m n ≤ 65535 * n := by
  induction n with
  | zero => exact le_refl _
  | succ n ih =>
    have hlt := le16_lt m (2 * n)
    rw [wordSum_succ]
    omega

theorem wordSum_congr {m m' : Flash} {n : Nat} (h : ∀ x, x < 2 * n → m' x = m x) :
    wordSum m' n = wordSum m n := by
  induction n with
  | zero => rfl
  | succ n ih =>
    rw [wordSum_succ, wordSum_succ, ih fun x hx => h x (by omega),
      le16_congr (h _ (by omega)) (h _ (by omega))]

theorem wordSum_putLe16 (m : Flash) {n k v : Nat} (hk : k < n) (hv : v < 65536) (h0 : le16 m (2 * k) = 0) :
    wordSum (putLe16 m (2 * k) v) n = wordSum m n + v := by
  induction n with
  | zero => omega
  | succ n ih =>
    rw [wordSum_succ, wordSum_succ]
    rcases Nat.lt_succ_iff_lt_or_eq.mp hk with hlt | rfl
    · rw [ih hlt, le16_congr (putLe16_outside (by omega)) (putLe16_outside (by omega))]
      omega
    · have hfront : wordSum (putLe16 m (2 * k) v) k = wordSum m k :=
        wordSum_congr fun x hx => putLe16_outside (by omega)
      rw [le16_putLe16 hv, h0, hfront]
      omega

theorem swappedSum_append {front bytes : List UInt8} (h : front.length % 2 = 0) :
    swappedSum (front ++ bytes) = swappedSum front + swappedSum bytes := by
  fun_induction swappedSum front with
  | case1 => rw [nil_append, zero_add]
  | case2 a => cases h
  | case3 a b front ih =>
    rw [length_cons, length_cons] at h
    rw [cons_append, cons_append, swappedSum, ih (by omega)]
    omega

theorem swappedSum_even (m : Flash) (k : Nat) : swappedSum (read m 0 (2 * k)) = wordSum m k := by
  induction k with
  | zero => rfl
  | succ k ih =>
    have hlast : swappedSum (read m (0 + 2 * k) 2) = le16 m (2 * k) := by
      rw [zero_add]
      exact add_zero _
    rw [Nat.mul_succ, read_append, swappedSum_append (by rw [read_length]; omega), ih, hlast, wordSum_succ]

theorem swappedSum_read (m : Flash) (n : Nat) :
    swappedSum (read m 0 n) = wordSum m (n / 2) + if n % 2 = 1 then (m (n - 1)).toNat else 0 := by
  rcases Nat.mod_two_eq_zero_or_one n with heven | hodd
  · have hn : n = 2 * (n / 2) := by omega
    rw [if_neg (by omega), add_zero, ← swappedSum_even m (n / 2), ← hn]
  · have hn : n = 2 * (n / 2) + 1 := by omega
    have hlast : swappedSum (read m (0 + 2 * (n / 2)) 1) = (m (n - 1)).toNat := by
      rw [zero_add, show n - 1 = 2 * (n / 2) by omega]
      rfl
    have hread : read m 0 n = read m 0 (2 * (n / 2)) ++ read m (0 + 2 * (n / 2)) 1 := by
      rw [← read_append, ← hn]
    rw [if_pos hodd, hread, swappedSum_append (by rw [read_length]; omega), swappedSum_even, hlast]

def foldCarry (sum : Nat) : Nat := sum % 65536 + sum / 65536

theorem foldCarry_twice {sum : Nat} (h : sum < 4294901760) :
    foldCarry (foldCarry sum) ≤ 65535 ∧ foldCarry (foldCarry sum) % 65535 = sum % 65535 ∧
      (foldCarry (foldCarry sum) = 0 ↔ sum = 0) := by
  unfold foldCarry
  refine ⟨by omega, by omega, by omega⟩

end OnesSum
