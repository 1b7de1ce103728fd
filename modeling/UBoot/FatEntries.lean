import Mathlib.Algebra.Order.Group.Nat
import UBoot.Fat

namespace UBoot.Fat

open FlashCells Words

def fatTable (d : Disk) (fs : Fsdata) : Flash :=
  fun x => d.bytes ((d.partOffset + fs.fatSect) * 512 + x)

def storedEntry (fatsize : Nat) (t : Flash) (c : Nat) : Nat :=
  if fatsize = 32 then le32 t (4 * c)
  else if fatsize = 16 then le16 t (2 * c)
  else if c % 2 = 0 then le16 t (c + c / 2) % 4096
  else le16 t (c + c / 2) / 16

def fatEntry (fatsize : Nat) (t : Flash) (c : Nat) : Nat :=
  if fatsize = 32 then storedEntry fatsize t c % 268435456 else storedEntry fatsize t c

def entryEnd (fatsize c : Nat) : Nat :=
  if fatsize = 32 then 4 * c + 4 else if fatsize = 16 then 2 * c + 2 else c + c / 2 + 2

def InTable (fs : Fsdata) (c : Nat) : Prop := entryEnd fs.fatsize c ≤ fs.fatlength * 512

/-- A table of one of the three widths that lies on the disk. -/
structure HasTable (d : Disk) (fs : Fsdata) : Prop where
  width : fs.fatsize = 12 ∨ fs.fatsize = 16 ∨ fs.fatsize = 32
  fits : d.partOffset + fs.fatSect + fs.fatlength ≤ d.size

def blockOf (fs : Fsdata) (c : Nat) : Nat := c / fatBufSize fs.fatsize

def Holds (d : Disk) (fs : Fsdata) (fatbuf : Flash) (n : Nat) : Prop :=
  ∀ x, x < 3072 → fatbuf x = fatTable d fs (n * 3072 + x)

variable {d : Disk} {fs : Fsdata} {c : Nat}

theorem and_mask (x k : Nat) : x &&& (2 ^ k - 1) = x % 2 ^ k := Nat.and_two_pow_sub_one_eq_mod x k

theorem and_shift {x k j : Nat} (hx : x < 2 ^ (k + j)) : (x &&& ((2 ^ j - 1) * 2 ^ k)) >>> k = x / 2 ^ k := by
  rw [Nat.shiftRight_and_distrib, Nat.shiftRight_eq_div_pow, Nat.shiftRight_eq_div_pow,
    Nat.mul_div_cancel _ (Nat.two_pow_pos k), Nat.and_two_pow_sub_one_eq_mod]
  apply Nat.mod_eq_of_lt
  rw [Nat.div_lt_iff_lt_mul (Nat.two_pow_pos k), ← pow_add, add_comm j k]
  exact hx

theorem shift_or {x y k : Nat} (hy : y < 2 ^ k) : x <<< k ||| y = x * 2 ^ k + y := by
  rw [← Nat.shiftLeft_add_eq_or_of_lt hy, Nat.shiftLeft_eq]

theorem bufEntry_twelve (b : Flash) (o : Nat) : bufEntry 12 b o = storedEntry 12 b o := by
  have hval := le16_lt b (2 * (o * 3 / 4))
  have hvalBytes : ∀ a, le16 b a = (b a).toNat + 256 * (b (a + 1)).toNat := fun _ => rfl
  unfold bufEntry storedEntry
  simp only [Nat.reduceEqDiff, if_false]
  have hlow := and_mask (le16 b (2 * (o * 3 / 4))) 12
  have hone : (le16 b (2 * (o * 3 / 4)) &&& 0xf000) >>> 12 = le16 b (2 * (o * 3 / 4)) / 4096 :=
    and_shift (k := 12) (j := 4) hval
  have htwo : (le16 b (2 * (o * 3 / 4)) &&& 0xff00) >>> 8 = le16 b (2 * (o * 3 / 4)) / 256 :=
    and_shift (k := 8) (j := 8) hval
  have hthree : (le16 b (2 * (o * 3 / 4)) &&& 0xfff0) >>> 4 = le16 b (2 * (o * 3 / 4)) / 16 :=
    and_shift (k := 4) (j := 12) hval
  have hbyte := and_mask (le16 b (2 * (o * 3 / 4 + 1))) 8
  have hnibble := and_mask (le16 b (2 * (o * 3 / 4 + 1))) 4
  simp only [Nat.reducePow, Nat.reduceSub] at hlow hbyte hnibble
  obtain ⟨k, hk⟩ : ∃ k, k = o / 4 := ⟨_, rfl⟩
  rcases (by omega : o % 4 = 0 ∨ o % 4 = 1 ∨ o % 4 = 2 ∨ o % 4 = 3) with h | h | h | h
  · rw [if_pos h, if_pos (by omega), hlow, show 2 * (o * 3 / 4) = o + o / 2 by omega]
  · rw [if_neg (by omega), if_pos h, if_neg (by omega), hone, hbyte, shift_or (k := 4) (by omega),
      hvalBytes, hvalBytes, hvalBytes, show o + o / 2 = 2 * (o * 3 / 4) + 1 by omega,
      show 2 * (o * 3 / 4 + 1) = 2 * (o * 3 / 4) + 1 + 1 by omega]
    have h₀ := (b (2 * (o * 3 / 4))).toNat_lt
    have h₁ := (b (2 * (o * 3 / 4) + 1)).toNat_lt
    have h₂ := (b (2 * (o * 3 / 4) + 1 + 1)).toNat_lt
    omega
  · rw [if_neg (by omega), if_neg (by omega), if_pos h, if_pos (by omega), htwo, hnibble,
      shift_or (k := 8) (by omega), hvalBytes, hvalBytes, hvalBytes,
      show o + o / 2 = 2 * (o * 3 / 4) + 1 by omega,
      show 2 * (o * 3 / 4 + 1) = 2 * (o * 3 / 4) + 1 + 1 by omega]
    have h₀ := (b (2 * (o * 3 / 4))).toNat_lt
    have h₁ := (b (2 * (o * 3 / 4) + 1)).toNat_lt
    have h₂ := (b (2 * (o * 3 / 4) + 1 + 1)).toNat_lt
    omega
  · rw [if_neg (by omega), if_neg (by omega), if_neg (by omega), if_neg (by omega), hthree,
      show 2 * (o * 3 / 4) = o + o / 2 by omega]

theorem HasTable.bufSize_pos (h : HasTable d fs) : 0 < fatBufSize fs.fatsize := by
  rcases h.width with hw | hw | hw <;> rw [hw] <;> decide

theorem HasTable.blockOf_lt (h : HasTable d fs) (hc : InTable fs c) : blockOf fs c * 6 < fs.fatlength := by
  unfold InTable entryEnd at hc
  unfold blockOf fatBufSize
  rcases h.width with hw | hw | hw
  · simp only [hw, Nat.reduceEqDiff, if_false, if_true] at hc ⊢
    omega
  · simp only [hw, Nat.reduceEqDiff, if_false, if_true] at hc ⊢
    omega
  · simp only [hw, if_true] at hc ⊢
    omega

theorem bufEntry_of_holds (h : HasTable d fs) {b : Flash} (hb : Holds d fs b (blockOf fs c)) :
    bufEntry fs.fatsize b (c - blockOf fs c * fatBufSize fs.fatsize) =
      storedEntry fs.fatsize (fatTable d fs) c := by
  unfold Holds blockOf at hb
  unfold blockOf
  rcases h.width with hw | hw | hw
  · rw [hw] at hb ⊢
    have hsize : fatBufSize 12 = 2048 := rfl
    rw [hsize] at hb ⊢
    have hword : ∀ o, o + 1 < 3072 → le16 b o = le16 (fatTable d fs) (c / 2048 * 3072 + o) := by
      intro o ho
      exact le16_congr (hb o (by omega)) ((hb (o + 1) (by omega)).trans (congrArg (fatTable d fs) (by omega)))
    rw [bufEntry_twelve]
    unfold storedEntry
    simp only [Nat.reduceEqDiff, if_false]
    rw [hword _ (by omega), show c / 2048 * 3072 + (c - c / 2048 * 2048 + (c - c / 2048 * 2048) / 2) =
      c + c / 2 by omega, show (c - c / 2048 * 2048) % 2 = c % 2 by omega]
  · rw [hw] at hb ⊢
    have hsize : fatBufSize 16 = 1536 := rfl
    rw [hsize] at hb ⊢
    unfold bufEntry storedEntry
    simp only [Nat.reduceEqDiff, if_false, if_true]
    exact le16_congr
      ((hb _ (by omega)).trans (congrArg (fatTable d fs) (by omega)))
      ((hb _ (by omega)).trans (congrArg (fatTable d fs) (by omega)))
  · rw [hw] at hb ⊢
    have hsize : fatBufSize 32 = 768 := rfl
    rw [hsize] at hb ⊢
    unfold bufEntry storedEntry
    simp only [if_true]
    apply le32_congr
    intro i hi
    exact (hb _ (by omega)).trans (congrArg (fatTable d fs) (by omega))

theorem HasTable.startblock (h : HasTable d fs) {n : Nat} (hn : n * 6 < fs.fatlength) :
    ((n * 6 + fs.fatSect) % 4294967296 + d.partOffset) % 4294967296 = d.partOffset + fs.fatSect + n * 6 := by
  have hfits := h.fits
  have hsize := d.size_lt
  omega

theorem fatGetsize_eq {n : Nat} (hn : n < fs.fatlength) : fatGetsize fs = 6 := by
  unfold fatGetsize
  exact if_neg (by omega)

/-- Whether the `n`-th read, of the block of an entry, succeeds. -/
def blockRead (d : Disk) (fs : Fsdata) (n c : Nat) : Bool :=
  d.ok n (d.partOffset + fs.fatSect + blockOf fs c * 6) 6

/-- The buffer after the `n`-th read, which has failed. -/
def afterFailure (d : Disk) (n : Nat) (fatbuf : Flash) : Flash :=
  patch fatbuf 0 3072 fun x => d.spoilt n (x - 0) (fatbuf x)

theorem getFatent_buffered (h : HasTable d fs) {st : Store} (hst : st.fatbufnum = some (blockOf fs c)) :
    getFatent d fs st c = (bufEntry fs.fatsize st.fatbuf (c - blockOf fs c * fatBufSize fs.fatsize), st) := by
  have hpos := h.bufSize_pos
  unfold getFatent
  rw [if_neg (by omega)]
  rw [if_neg]
  · rfl
  · rw [hst]
    exact not_not.mpr rfl

theorem getFatent_read (h : HasTable d fs) (hc : InTable fs c) {st : Store}
    (hst : st.fatbufnum ≠ some (blockOf fs c)) (hok : blockRead d fs st.reads c = true) :
    ∃ b, Holds d fs b (blockOf fs c) ∧ getFatent d fs st c = (storedEntry fs.fatsize (fatTable d fs) c,
        { st with reads := st.reads + 1, fatbuf := b, fatbufnum := some (blockOf fs c) }) := by
  have hlt := h.blockOf_lt hc
  have hpos := h.bufSize_pos
  have hread : diskRead d st.reads ((blockOf fs c * 6 + fs.fatSect) % 4294967296) (fatGetsize fs)
      st.fatbuf 0 = (true, patch st.fatbuf 0 3072 fun x =>
        d.bytes ((d.partOffset + fs.fatSect + blockOf fs c * 6) * 512 + (x - 0))) := by
    unfold diskRead
    rw [h.startblock hlt, fatGetsize_eq (n := blockOf fs c) (by omega)]
    exact if_pos hok
  have hholds : Holds d fs (patch st.fatbuf 0 3072 fun x =>
      d.bytes ((d.partOffset + fs.fatSect + blockOf fs c * 6) * 512 + (x - 0))) (blockOf fs c) := by
    intro x hx
    rw [patch_inside (by omega) (by omega)]
    unfold fatTable
    exact congrArg d.bytes (by omega)
  refine ⟨_, hholds, ?_⟩
  unfold getFatent
  rw [if_neg (by omega)]
  rw [if_pos fun he => hst he.symm, show c / fatBufSize fs.fatsize = blockOf fs c from rfl, hread,
    if_pos rfl, bufEntry_of_holds h hholds]

theorem getFatent_failed (h : HasTable d fs) (hc : InTable fs c) {st : Store}
    (hst : st.fatbufnum ≠ some (blockOf fs c)) (hok : blockRead d fs st.reads c = false) :
    getFatent d fs st c =
      (0, { st with reads := st.reads + 1, fatbuf := afterFailure d st.reads st.fatbuf }) := by
  have hlt := h.blockOf_lt hc
  have hpos := h.bufSize_pos
  have hread : diskRead d st.reads ((blockOf fs c * 6 + fs.fatSect) % 4294967296) (fatGetsize fs)
      st.fatbuf 0 = (false, afterFailure d st.reads st.fatbuf) := by
    unfold diskRead
    rw [h.startblock hlt, fatGetsize_eq (n := blockOf fs c) (by omega)]
    exact if_neg (Bool.eq_false_iff.mp hok)
  unfold getFatent
  rw [if_neg (by omega)]
  rw [if_pos fun he => hst he.symm, show c / fatBufSize fs.fatsize = blockOf fs c from rfl, hread,
    if_neg Bool.false_ne_true]

end UBoot.Fat
