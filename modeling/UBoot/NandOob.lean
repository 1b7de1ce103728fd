import UBoot.FlashCells
import UBoot.NandErase
import UBoot.Scatter

namespace UBoot

open FlashCells List Scatter

structure NandOobfree where
  offset : Nat
  length : Nat

structure NandEcclayout where
  eccpos : List Nat
  oobfree : List NandOobfree

/-- The case `MTD_OOB_AUTO` of `nand_fill_oob`. -/
def fillAuto : List NandOobfree → Nat → List UInt8 → Flash → Flash
  | [], _, _, oobPoi => oobPoi
  | free :: rest, woffs, oob, oobPoi =>
    if free.length = 0 ∨ oob = [] then oobPoi
    else if woffs ≠ 0 ∧ free.length ≤ woffs then fillAuto rest (woffs - free.length) oob oobPoi
    else
      let bytes := min oob.length (free.length - woffs)
      fillAuto rest 0 (oob.drop bytes) (store oobPoi (free.offset + woffs) (oob.take bytes))

def nandFillOob (layout : NandEcclayout) (oob : List UInt8) (ops : MtdOobOps) (oobPoi : Flash) : Flash :=
  match ops.mode with
  | .place | .raw => store oobPoi ops.ooboffs (oob.take ops.ooblen)
  | .auto => fillAuto layout.oobfree ops.ooboffs (oob.take ops.ooblen) oobPoi

/-- The case `MTD_OOB_AUTO` of `nand_transfer_oob`. -/
def transferAuto (oobPoi : Flash) : List NandOobfree → Nat → Nat → List UInt8
  | [], _, _ => []
  | free :: rest, roffs, len =>
    if free.length = 0 ∨ len = 0 then []
    else if roffs ≠ 0 ∧ free.length ≤ roffs then transferAuto oobPoi rest (roffs - free.length) len
    else
      let bytes := min len (free.length - roffs)
      read oobPoi (free.offset + roffs) bytes ++ transferAuto oobPoi rest 0 (len - bytes)

def nandTransferOob (layout : NandEcclayout) (ops : MtdOobOps) (len : Nat) (oobPoi : Flash) : List UInt8 :=
  match ops.mode with
  | .place | .raw => read oobPoi ops.ooboffs len
  | .auto => transferAuto oobPoi layout.oobfree ops.ooboffs len

def freeBytes : List NandOobfree → List Nat
  | [] => []
  | free :: rest =>
    if free.length = 0 then [] else List.range' free.offset free.length ++ freeBytes rest

theorem store_eq_scatter (m : Flash) (a : Nat) {bs : List UInt8} {k : Nat} (hk : bs.length ≤ k) :
    store m a bs = scatter (List.range' a k) bs m := by
  induction bs generalizing a m k with
  | nil =>
    funext x
    rw [scatter_no_values]
    exact store_outside (by rw [length_nil]; omega)
  | cons b bs ih =>
    obtain ⟨k, rfl⟩ : ∃ j, k = j + 1 := ⟨k - 1, by rw [length_cons] at hk; omega⟩
    rw [List.range'_succ, scatter_cons, ← ih _ _ (Nat.le_of_succ_le_succ hk)]
    funext x
    simp only [store, patch, length_cons]
    by_cases hx : x = a
    · subst x
      simp
    · rw [Function.update_of_ne hx]
      by_cases h : a + 1 ≤ x ∧ x < a + 1 + bs.length
      · rw [if_pos h, if_pos (by omega), show x - a = (x - (a + 1)) + 1 by omega, getD_cons_succ]
      · rw [if_neg h, if_neg (by omega)]

theorem read_eq_map (m : Flash) (a n : Nat) : read m a n = (List.range' a n).map m := by
  rw [List.range'_eq_map_range, map_map]
  rfl

theorem drop_freeBytes {free : NandOobfree} (h0 : free.length ≠ 0) (rest : List NandOobfree) {k : Nat}
    (hk : k < free.length) : (freeBytes (free :: rest)).drop k =
      List.range' (free.offset + k) (free.length - k) ++ freeBytes rest := by
  have hle : k ≤ (List.range' free.offset free.length).length := by
    rw [length_range']
    omega
  rw [freeBytes, if_neg h0, drop_append_of_le_length hle, drop_range', Nat.mul_one]

theorem drop_freeBytes_past {free : NandOobfree} (h0 : free.length ≠ 0) (rest : List NandOobfree)
    {k : Nat} (hk : free.length ≤ k) :
    (freeBytes (free :: rest)).drop k = (freeBytes rest).drop (k - free.length) := by
  have hle : (List.range' free.offset free.length).length ≤ k := by
    rw [length_range']
    exact hk
  rw [freeBytes, if_neg h0, drop_append, drop_of_length_le hle, nil_append, length_range']

theorem fillAuto_eq (frees : List NandOobfree) (woffs : Nat) (oob : List UInt8) (m : Flash) :
    fillAuto frees woffs oob m = scatter ((freeBytes frees).drop woffs) oob m := by
  induction frees generalizing woffs oob m with
  | nil => simp [fillAuto, freeBytes]
  | cons free rest ih =>
    unfold fillAuto
    by_cases h0 : free.length = 0
    · simp [freeBytes, h0]
    by_cases hoob : oob = []
    · simp [hoob]
    rw [if_neg (not_or.mpr ⟨h0, hoob⟩)]
    split
    next h => rw [ih, drop_freeBytes_past h0 rest h.2]
    next h =>
      obtain ⟨k, hk⟩ : ∃ k, k = free.length - woffs := ⟨_, rfl⟩
      have htake : oob.take (min oob.length k) = oob.take k := by
        rw [Nat.min_comm]
        exact take_eq_take_min.symm
      have hdrop : oob.drop (min oob.length k) = oob.drop k := by
        rw [Nat.min_comm]
        exact drop_eq_drop_min.symm
      have hlen : (oob.take k).length ≤ k := length_take_le k oob
      rw [drop_freeBytes h0 rest (by omega), ← hk]
      dsimp only
      rw [htake, hdrop, ih, drop_zero, store_eq_scatter _ _ hlen, scatter_append, length_range']

theorem transferAuto_eq (m : Flash) (frees : List NandOobfree) (roffs len : Nat) :
    transferAuto m frees roffs len = (((freeBytes frees).drop roffs).take len).map m := by
  induction frees generalizing roffs len with
  | nil => simp [transferAuto, freeBytes]
  | cons free rest ih =>
    unfold transferAuto
    by_cases h0 : free.length = 0
    · simp [freeBytes, h0]
    by_cases hlen : len = 0
    · simp [hlen]
    rw [if_neg (not_or.mpr ⟨h0, hlen⟩)]
    split
    next h => rw [ih, drop_freeBytes_past h0 rest h.2]
    next h =>
      obtain ⟨k, hk⟩ : ∃ k, k = free.length - roffs := ⟨_, rfl⟩
      have hleft : len - min len k = len - k := by omega
      have htake : (List.range' (free.offset + roffs) k).take len =
          List.range' (free.offset + roffs) (min len k) := by
        rcases le_total len k with hle | hle
        · rw [take_range'_of_length_ge hle, min_eq_left hle]
        · rw [take_range'_of_length_le hle, min_eq_right hle]
      rw [drop_freeBytes h0 rest (by omega), ← hk]
      dsimp only
      rw [ih, drop_zero, take_append, length_range', map_append, htake, hleft,
        read_eq_map]

theorem transferAuto_eq_iff {frees : List NandOobfree} {offs : Nat} {oob : List UInt8}
    (hfit : offs + oob.length ≤ (freeBytes frees).length) (m : Flash) :
    transferAuto m frees offs oob.length = oob ↔
      ∀ i, i < oob.length → m ((freeBytes frees).getD (offs + i) 0) = oob.getD i 0 := by
  have hlen : ((((freeBytes frees).drop offs).take oob.length).map m).length = oob.length := by
    rw [length_map, length_take, length_drop]
    omega
  rw [transferAuto_eq, ext_getElem_iff]
  constructor
  · rintro ⟨_, h⟩ i hi
    have hget := h i (by omega) hi
    rw [getElem_map, getElem_take, getElem_drop] at hget
    rw [getD_eq_getElem _ _ (by omega), getD_eq_getElem _ _ hi, hget]
  · intro h
    refine ⟨hlen, fun i hi hi' => ?_⟩
    have hget := h i hi'
    rw [getD_eq_getElem _ _ (by omega), getD_eq_getElem _ _ hi'] at hget
    rw [getElem_map, getElem_take, getElem_drop, hget]

theorem transferAuto_fillAuto {frees : List NandOobfree} {offs : Nat} {oob : List UInt8}
    (hn : (freeBytes frees).Nodup) (hfit : offs + oob.length ≤ (freeBytes frees).length) (m : Flash) :
    transferAuto (fillAuto frees offs oob m) frees offs oob.length = oob := by
  rw [transferAuto_eq, fillAuto_eq]
  apply map_take_scatter (hn.sublist (drop_sublist _ _))
  rw [length_drop]
  omega

end UBoot
