import Mathlib.Data.List.Basic
import Mathlib.Data.List.GetD
import Mathlib.Data.Nat.Bitwise

namespace ByteWords

open List

def ofBytes : List UInt8 → Nat
  | [] => 0
  | b :: bs => 256 * ofBytes bs + b.toNat

def toBytes : Nat → Nat → List UInt8
  | 0, _ => []
  | n + 1, v => UInt8.ofNat v :: toBytes n (v / 256)

/-- A register of `n` bytes takes a byte at its upper end and loses the lowest one. -/
def shiftIn (n r : Nat) (c : UInt8) : Nat :=
  r / 256 ^ n * 256 ^ n + ((r % 256 ^ n) >>> 8 ||| c.toNat <<< (8 * (n - 1)))

variable {n r v : Nat} {b c : UInt8} {xs ys bs : List UInt8}

theorem pow_256 (n : Nat) : 256 ^ n = 2 ^ (8 * n) := by
  rw [Nat.pow_mul]

theorem ofBytes_lt (bs : List UInt8) : ofBytes bs < 256 ^ bs.length := by
  induction bs with
  | nil => exact Nat.one_pos
  | cons b bs ih =>
    have hb := b.toNat_lt
    rw [ofBytes, length_cons, pow_succ]
    omega

@[simp] theorem length_toBytes (n v : Nat) : (toBytes n v).length = n := by
  induction n generalizing v with
  | zero => rfl
  | succ n ih => rw [toBytes, length_cons, ih]

theorem ofBytes_toBytes (n v : Nat) : ofBytes (toBytes n v) = v % 256 ^ n := by
  induction n generalizing v with
  | zero => rw [pow_zero, Nat.mod_one, toBytes, ofBytes]
  | succ n ih =>
    have hsplit : v % 256 ^ (n + 1) = v % 256 + 256 * (v / 256 % 256 ^ n) := by
      rw [Nat.pow_succ', Nat.mod_mul]
    rw [toBytes, ofBytes, ih, UInt8.toNat_ofNat', hsplit]
    omega

theorem toBytes_ofBytes (bs : List UInt8) : toBytes bs.length (ofBytes bs) = bs := by
  induction bs with
  | nil => rfl
  | cons b bs ih =>
    have hb := b.toNat_lt
    have hbyte : UInt8.ofNat (256 * ofBytes bs + b.toNat) = b := by
      apply UInt8.toNat_inj.mp
      rw [UInt8.toNat_ofNat']
      omega
    rw [length_cons, toBytes, ofBytes, hbyte, show (256 * ofBytes bs + b.toNat) / 256 = ofBytes bs by
      omega, ih]

theorem ofBytes_concat (bs : List UInt8) (c : UInt8) :
    ofBytes (bs ++ [c]) = c.toNat * 256 ^ bs.length + ofBytes bs := by
  induction bs with
  | nil => simp [ofBytes]
  | cons b bs ih =>
    rw [cons_append, ofBytes, ih, ofBytes, length_cons, Nat.pow_succ', mul_add,
      mul_left_comm, add_assoc]

theorem ofBytes_and (h : xs.length = ys.length) :
    ofBytes xs &&& ofBytes ys = ofBytes (List.zipWith (· &&& ·) xs ys) := by
  induction xs generalizing ys with
  | nil => simp [ofBytes]
  | cons x xs ih =>
    cases ys with
    | nil => simp at h
    | cons y ys =>
      have hx := x.toNat_lt
      have hy := y.toNat_lt
      have hxy : x.toNat &&& y.toNat < 2 ^ 8 := Nat.and_lt_two_pow _ hy
      rw [zipWith_cons_cons, ofBytes, ofBytes, ofBytes, ← ih (Nat.succ.inj h)]
      apply Nat.eq_of_testBit_eq
      intro i
      rw [Nat.testBit_and, UInt8.toNat_and, show 256 = 2 ^ 8 from rfl,
        Nat.testBit_two_pow_mul_add _ hx, Nat.testBit_two_pow_mul_add _ hy,
        Nat.testBit_two_pow_mul_add _ hxy]
      split
      · rw [Nat.testBit_and]
      · rw [Nat.testBit_and]

theorem ofBytes_inj (h : xs.length = ys.length) : ofBytes xs = ofBytes ys ↔ xs = ys := by
  constructor
  · intro heq
    rw [← toBytes_ofBytes xs, ← toBytes_ofBytes ys, h, heq]
  · exact fun heq => congrArg ofBytes heq

theorem ofBytes_covers (h : xs.length = ys.length) : ofBytes xs &&& ofBytes ys = ofBytes ys ↔
      ∀ i, i < ys.length → xs.getD i 0 &&& ys.getD i 0 = ys.getD i 0 := by
  have hlen : (List.zipWith (· &&& ·) xs ys).length = ys.length := by simp [h]
  rw [ofBytes_and h, ofBytes_inj hlen]
  constructor
  · intro heq i hi
    have hget := congrArg (fun zs : List UInt8 => zs.getD i 0) heq
    simpa [List.getD, hi, h] using hget
  · intro hall
    apply ext_getElem hlen
    intro i h₁ h₂
    have hget := hall i h₂
    simpa [List.getD, h₂, h] using hget

theorem shiftIn_window (h : bs.length = n) (hr : r % 256 ^ (n + 1) = ofBytes (b :: bs)) (c : UInt8) :
    shiftIn (n + 1) r c % 256 ^ (n + 1) = ofBytes (bs ++ [c]) := by
  have hb := b.toNat_lt
  have hlow : (r % 256 ^ (n + 1)) >>> 8 = ofBytes bs := by
    rw [hr, ofBytes, Nat.shiftRight_eq_div_pow]
    omega
  have hlt : ofBytes bs < 2 ^ (8 * n) := by
    rw [← pow_256, ← h]
    exact ofBytes_lt bs
  have hor : (ofBytes bs ||| c.toNat <<< (8 * n)) = ofBytes (bs ++ [c]) := by
    rw [Nat.lor_comm, ← Nat.shiftLeft_add_eq_or_of_lt hlt, Nat.shiftLeft_eq, ofBytes_concat, h, pow_256]
  have hwin := ofBytes_lt (bs ++ [c])
  rw [length_append, h, length_singleton] at hwin
  unfold shiftIn
  rw [hlow, Nat.add_sub_cancel, hor, Nat.mul_add_mod_self_right, Nat.mod_eq_of_lt hwin]

theorem foldl_shiftIn (hn : 0 < n) {win : List UInt8} (h : win.length = n)
    (hr : r % 256 ^ n = ofBytes win) (bs : List UInt8) :
    bs.foldl (shiftIn n) r % 256 ^ n = ofBytes ((win ++ bs).drop bs.length) := by
  obtain ⟨k, rfl⟩ : ∃ k, n = k + 1 := ⟨n - 1, by omega⟩
  induction bs generalizing r win with
  | nil => simpa using hr
  | cons c bs ih =>
    obtain ⟨b, rest, rfl⟩ : ∃ b rest, win = b :: rest := exists_cons_of_length_eq_add_one h
    have hrest : rest.length = k := Nat.succ.inj h
    have hstep := ih (by rw [length_append, hrest, length_singleton])
      (shiftIn_window hrest hr c)
    rw [foldl_cons, hstep, cons_append, length_cons, drop_succ_cons,
      append_assoc, singleton_append]

theorem foldl_shiftIn_full (hn : 0 < n) (r : Nat) (h : bs.length = n) :
    bs.foldl (shiftIn n) r % 256 ^ n = ofBytes bs := by
  rw [foldl_shiftIn hn (length_toBytes n r) (ofBytes_toBytes n r).symm bs, h]
  rw [drop_left' (length_toBytes n r)]

end ByteWords
