import Mathlib.Data.List.Basic
import UBoot.ShiftRegister

namespace UBoot

/-- The exclusive-or pattern that `make_crc_table` builds from the polynomial's terms. -/
def crcPoly : UInt32 :=
  ([0, 1, 2, 4, 5, 7, 8, 10, 11, 12, 16, 22, 23, 26] : List UInt32).foldl
    (fun poly p => poly ||| ((1 : UInt32) <<< (31 - p))) 0

def crcBit (c : UInt32) : UInt32 :=
  if c &&& 1 = 1 then crcPoly ^^^ (c >>> 1) else c >>> 1

/-- `crc_table[n]`. -/
def crcTable (n : UInt32) : UInt32 :=
  crcBit (crcBit (crcBit (crcBit (crcBit (crcBit (crcBit (crcBit n)))))))

example : crcTable 1 = 0x77073096 ∧ crcTable 255 = 0x2d02ef8d := by decide +kernel

/-- `crc32` of lib_generic, one `DO1` for each byte. -/
def crc32 (crc : UInt32) (buf : List UInt8) : UInt32 :=
  (buf.foldl (fun crc b => crcTable ((crc ^^^ b.toUInt32) &&& 0xff) ^^^ (crc >>> 8))
    (crc ^^^ 0xffffffff)) ^^^ 0xffffffff

section Bits

open ShiftRegister

/-- The bits of a byte, the least significant one first. -/
def bitsOf (b : UInt8) : List Bool := (List.range 8).map b.toNat.testBit

def bitStream (buf : List UInt8) : List Bool := buf.flatMap bitsOf

variable {buf buf' : List UInt8} {pre mid mid' post : List Bool}

theorem crcPoly_range : 2 ^ 31 ≤ crcPoly.toNat ∧ crcPoly.toNat < 2 ^ (31 + 1) := by decide +kernel

theorem crcBit_toNat (c : UInt32) : (crcBit c).toNat = shift crcPoly.toNat c.toNat := by
  have hlow : c &&& 1 = 1 ↔ c.toNat % 2 = 1 := by
    rw [← UInt32.toNat_inj, UInt32.toNat_and]
    exact Nat.and_one_is_mod c.toNat ▸ Iff.rfl
  have hhalf : (c >>> 1).toNat = c.toNat / 2 := by
    rw [UInt32.toNat_shiftRight]
    exact Nat.shiftRight_eq_div_pow c.toNat 1
  unfold crcBit shift
  by_cases h : c.toNat % 2 = 1
  · rw [if_pos h, if_pos (hlow.mpr h), UInt32.toNat_xor, hhalf]
  · rw [if_neg h, if_neg fun hc => h (hlow.mp hc), hhalf]

theorem crcTable_toNat (n : UInt32) : (crcTable n).toNat = (shift crcPoly.toNat)^[8] n.toNat := by
  unfold crcTable
  simp only [crcBit_toNat]
  rfl

theorem value_byte : ∀ n : Fin 256, value ((List.range 8).map n.val.testBit) = n.val := by decide +kernel

theorem split_byte (z : Nat) : z = z % 256 ^^^ 2 ^ 8 * (z / 256) := by
  apply Nat.eq_of_testBit_eq
  intro i
  rw [Nat.testBit_xor, show 256 = 2 ^ 8 from rfl, Nat.testBit_mod_two_pow, Nat.testBit_two_pow_mul,
    Nat.testBit_div_two_pow]
  by_cases hi : i < 8
  · simp [hi, show ¬8 ≤ i by omega]
  · simp [hi, show 8 ≤ i by omega]

/-- A byte by the table is its eight bits in the register. -/
theorem crc32_byte (crc : UInt32) (b : UInt8) :
    (crcTable ((crc ^^^ b.toUInt32) &&& 0xff) ^^^ (crc >>> 8)).toNat =
      (bitsOf b).foldl (feed crcPoly.toNat) crc.toNat := by
  have hvalue : value (bitsOf b) = b.toNat := value_byte ⟨b.toNat, b.toNat_lt⟩
  have hhigh : (crc.toNat ^^^ b.toNat) / 256 = crc.toNat / 256 := by
    rw [show 256 = 2 ^ 8 from rfl, Nat.xor_div_two_pow, Nat.div_eq_of_lt b.toNat_lt, Nat.xor_zero]
  rw [feeds, hvalue, split_byte (crc.toNat ^^^ b.toNat), hhigh]
  change _ = (shift crcPoly.toNat)^[8] _
  rw [shifts_xor, shifts_double, UInt32.toNat_xor, crcTable_toNat, UInt32.toNat_and, UInt32.toNat_xor,
    UInt32.toNat_shiftRight]
  congr 2
  · exact Nat.and_two_pow_sub_one_eq_mod (crc.toNat ^^^ b.toNat) 8
  · exact Nat.shiftRight_eq_div_pow crc.toNat 8

theorem crc32_bits (crc : UInt32) (buf : List UInt8) : (crc32 crc buf).toNat =
      (bitStream buf).foldl (feed crcPoly.toNat) (crc ^^^ 0xffffffff).toNat ^^^ 0xffffffff := by
  unfold crc32 bitStream
  rw [UInt32.toNat_xor]
  congr 1
  generalize crc ^^^ 0xffffffff = reg
  induction buf generalizing reg with
  | nil => rfl
  | cons b buf ih => rw [List.foldl_cons, ih, crc32_byte, List.flatMap_cons, List.foldl_append]

theorem crc32_eq_iff {crc : UInt32} : crc32 crc buf = crc32 crc buf' ↔
      (bitStream buf).foldl (feed crcPoly.toNat) (crc ^^^ 0xffffffff).toNat =
        (bitStream buf').foldl (feed crcPoly.toNat) (crc ^^^ 0xffffffff).toNat := by
  rw [← UInt32.toNat_inj, crc32_bits, crc32_bits, Nat.xor_left_inj]

/-- `crc32` tells two buffers apart that differ only within 32 bits in a row. -/
theorem crc32_burst (crc : UInt32) (h : bitStream buf = pre ++ mid ++ post)
    (h' : bitStream buf' = pre ++ mid' ++ post) (hlen : mid.length = mid'.length) (hshort : mid.length ≤ 32)
    (hne : mid ≠ mid') : crc32 crc buf ≠ crc32 crc buf' := by
  intro heq
  have hbits := crc32_eq_iff.mp heq
  rw [h, h'] at hbits
  exact burst_shows crcPoly_range.1 crcPoly_range.2 (UInt32.toNat_lt _) hlen hshort hne hbits

/-- Two bytes whose bits differ from the seventh of the first one to the first of the second one. -/
theorem crc32_burst_bytes : crc32 0 [1, 2, 3] ≠ crc32 0 [0x41, 3, 3] :=
  @crc32_burst [1, 2, 3] [0x41, 3, 3] [true, false, false, false, false, false] [false, false, false]
    [true, false, true] ([true, false, false, false, false, false, false] ++ bitsOf 3) 0 (by decide +kernel)
    (by decide +kernel) rfl (by decide) (by decide)

end Bits

end UBoot
