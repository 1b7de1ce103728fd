import Mathlib.Algebra.Order.Group.Nat
import Mathlib.Logic.Function.Basic
import UBoot.FlashCells

namespace UBoot.MemmoveWd

open FlashCells

/-- The loop of `memmove` that goes up. -/
def copyUp : Nat → Flash → Nat → Nat → Flash
  | 0, m, _, _ => m
  | count + 1, m, tmp, s => copyUp count (Function.update m tmp (m s)) (tmp + 1) (s + 1)

/-- The loop of `memmove` that goes down, for the bytes that are left. -/
def copyDown : Nat → Flash → Nat → Nat → Flash
  | 0, m, _, _ => m
  | count + 1, m, dest, src => copyDown count (Function.update m (dest + count) (m (src + count))) dest src

def memmove (m : Flash) (dest src count : Nat) : Flash :=
  if dest ≤ src then copyUp count m dest src else copyDown count m dest src

def wdLoop (chunksz : Nat) : Nat → Flash → Nat → Nat → Nat → Option Flash
  | 0, m, _, _, len => if len = 0 then some m else none
  | fuel + 1, m, dst, src, len =>
    if len = 0 then some m
    else
      let tail := if chunksz < len then chunksz else len
      wdLoop chunksz fuel (memmove m dst src tail) (dst + tail) (src + tail) (len - tail)

/-- `memmove_wd`, with `CONFIG_HW_WATCHDOG` or `CONFIG_WATCHDOG` or without. Each chunk takes a byte at least. -/
def memmoveWd (watchdog : Bool) (m : Flash) (dst src len chunksz : Nat) : Option Flash :=
  if watchdog then wdLoop chunksz len m dst src len else some (memmove m dst src len)

/-- By the time the byte is moved an earlier chunk has been put where it was. -/
def Overtaken (dst src chunksz i : Nat) : Prop :=
  src < dst ∧ dst ≤ src + i ∧ (src + i - dst) / chunksz < i / chunksz

/-- Each byte that is overtaken is the same as the one that has been put there. -/
def Repeats (m : Flash) (dst src len chunksz : Nat) : Prop :=
  ∀ i, i < len → Overtaken dst src chunksz i → m (src + (src + i - dst)) = m (src + i)

variable {m m' : Flash} {dst src len chunksz n i : Nat}

theorem copyUp_eq (h : dst ≤ src) : copyUp n m dst src = patch m dst n fun x => m (src + (x - dst)) := by
  induction n generalizing m dst src with
  | zero =>
    funext x
    rw [copyUp, patch, if_neg (by omega)]
  | succ n ih =>
    funext x
    rw [copyUp, ih (by omega)]
    unfold patch
    by_cases hfirst : x = dst
    · subst x
      rw [if_neg (by omega), if_pos (by omega), Function.update_self]
      dsimp only
      rw [Nat.sub_self, add_zero]
    · by_cases hin : dst + 1 ≤ x ∧ x < dst + 1 + n
      · have hplace : src + 1 + (x - (dst + 1)) = src + (x - dst) := by omega
        rw [if_pos hin, if_pos (by omega)]
        dsimp only
        rw [hplace, Function.update_of_ne (by omega)]
      · rw [if_neg hin, if_neg (by omega), Function.update_of_ne hfirst]

theorem copyDown_eq (h : src < dst) : copyDown n m dst src = patch m dst n fun x => m (src + (x - dst)) := by
  induction n generalizing m with
  | zero =>
    funext x
    rw [copyDown, patch, if_neg (by omega)]
  | succ n ih =>
    funext x
    rw [copyDown, ih]
    unfold patch
    by_cases hlast : x = dst + n
    · subst x
      rw [if_neg (by omega), if_pos (by omega), Function.update_self]
      dsimp only
      rw [Nat.add_sub_cancel_left]
    · by_cases hin : dst ≤ x ∧ x < dst + n
      · rw [if_pos hin, if_pos (by omega)]
        dsimp only
        rw [Function.update_of_ne (by omega)]
      · rw [if_neg hin, if_neg (by omega), Function.update_of_ne hlast]

theorem memmove_eq (m : Flash) (dst src n : Nat) : memmove m dst src n = patch m dst n fun x => m (src + (x - dst)) := by
  unfold memmove
  split
  next h => exact copyUp_eq h
  next h => exact copyDown_eq (by omega)

/-- The memory when the first bytes have been moved. -/
structure Moved (m : Flash) (dst src chunksz n : Nat) (m' : Flash) : Prop where
  outside : ∀ x, x < dst ∨ dst + n ≤ x → m' x = m x
  overtaken : ∀ i, i < n → Overtaken dst src chunksz i → m' (dst + i) = m' (src + i)
  others : ∀ i, i < n → ¬Overtaken dst src chunksz i → m' (dst + i) = m (src + i)

theorem Moved.start (m : Flash) (dst src chunksz : Nat) : Moved m dst src chunksz 0 m :=
  ⟨fun _ _ => rfl, fun _ h => absurd h (Nat.not_lt_zero _), fun _ h => absurd h (Nat.not_lt_zero _)⟩

theorem Moved.chunk {q tail : Nat} (h : Moved m dst src chunksz (chunksz * q) m') (hc : 0 < chunksz)
    (htail : tail ≤ chunksz) :
    Moved m dst src chunksz (chunksz * q + tail)
      (memmove m' (dst + chunksz * q) (src + chunksz * q) tail) := by
  have hround : ∀ i, chunksz * q ≤ i → i < chunksz * q + tail → i / chunksz = q := by
    intro i hle hlt
    exact Nat.div_eq_of_lt_le (by rw [mul_comm]; exact hle) (by rw [Nat.succ_mul, mul_comm]; omega)
  have hbefore : ∀ j, j / chunksz < q ↔ j < chunksz * q := by
    intro j
    rw [Nat.div_lt_iff_lt_mul hc, mul_comm]
  have hmoved : ∀ i, chunksz * q ≤ i → i < chunksz * q + tail →
      memmove m' (dst + chunksz * q) (src + chunksz * q) tail (dst + i) = m' (src + i) := by
    intro i hle hlt
    rw [memmove_eq, patch_inside (by omega) (by omega)]
    exact congrArg m' (by omega)
  have hkept : ∀ x, x < dst + chunksz * q ∨ dst + (chunksz * q + tail) ≤ x →
      memmove m' (dst + chunksz * q) (src + chunksz * q) tail x = m' x := by
    intro x hx
    rw [memmove_eq, patch_outside (by omega)]
  refine ⟨fun x hx => ?_, fun i hi ho => ?_, fun i hi ho => ?_⟩
  · rw [hkept x (by omega), h.outside x (by omega)]
  · obtain ⟨hup, hle, hdiv⟩ := ho
    by_cases hnew : chunksz * q ≤ i
    · rw [hround i hnew hi, hbefore] at hdiv
      rw [hmoved i hnew hi, hkept (src + i) (by omega)]
    · rw [hkept (dst + i) (by omega), hkept (src + i) (by omega)]
      exact h.overtaken i (by omega) ⟨hup, hle, hdiv⟩
  · by_cases hnew : chunksz * q ≤ i
    · rw [hmoved i hnew hi]
      apply h.outside
      by_contra hin
      refine ho ⟨by omega, by omega, ?_⟩
      rw [hround i hnew hi, hbefore]
      omega
    · rw [hkept (dst + i) (by omega)]
      exact h.others i (by omega) ho

theorem wdLoop_moved {q k : Nat} (hc : 0 < chunksz) (hf : k ≤ n)
    (h : Moved m dst src chunksz (chunksz * q) m') :
    ∃ m'', wdLoop chunksz n m' (dst + chunksz * q) (src + chunksz * q) k = some m'' ∧
      Moved m dst src chunksz (chunksz * q + k) m'' := by
  induction n generalizing q m' k with
  | zero =>
    obtain rfl : k = 0 := by omega
    exact ⟨m', rfl, h⟩
  | succ n ih =>
    by_cases hend : k = 0
    · subst k
      exact ⟨m', rfl, h⟩
    · by_cases hlong : chunksz < k
      · have hchunk := h.chunk hc (le_refl chunksz)
        rw [← Nat.mul_succ] at hchunk
        obtain ⟨m'', hloop, hm⟩ := ih (q := q + 1) (k := k - chunksz) (by omega) hchunk
        refine ⟨m'', ?_, ?_⟩
        · rw [wdLoop, if_neg hend]
          dsimp only
          rw [if_pos hlong, add_assoc, add_assoc, ← Nat.mul_succ]
          exact hloop
        · have hall : chunksz * (q + 1) + (k - chunksz) = chunksz * q + k := by
            rw [Nat.mul_succ]
            omega
          rw [← hall]
          exact hm
      · have hchunk := h.chunk hc (Nat.le_of_not_lt hlong)
        refine ⟨_, ?_, hchunk⟩
        rw [wdLoop, if_neg hend]
        dsimp only
        rw [if_neg hlong, Nat.sub_self]
        cases n <;> rfl

theorem Moved.eq_iff (h : Moved m dst src chunksz len m') : m' = memmove m dst src len ↔ Repeats m dst src len chunksz := by
  have hmove : ∀ i, i < len → memmove m dst src len (dst + i) = m (src + i) := by
    intro i hi
    rw [memmove_eq, patch_inside (by omega) (by omega), Nat.add_sub_cancel_left]
  constructor
  · rintro rfl i hi ho
    have hfrom := h.overtaken i hi ho
    obtain ⟨hup, hle, -⟩ := ho
    have hplace : src + i = dst + (src + i - dst) := by omega
    rw [hmove i hi, hplace, hmove _ (by omega), ← hplace] at hfrom
    exact hfrom.symm
  · intro hrep
    have hall : ∀ i, i < len → m' (dst + i) = m (src + i) := by
      intro i
      induction i using Nat.strong_induction_on with
      | _ i ih =>
        intro hi
        by_cases ho : Overtaken dst src chunksz i
        · have hplace : src + i = dst + (src + i - dst) := by
            have := ho.2.1
            omega
          have hlt : src + i - dst < i := by
            have := ho.1
            omega
          rw [h.overtaken i hi ho, hplace, ih _ hlt (by omega), hrep i hi ho, ← hplace]
        · exact h.others i hi ho
    funext x
    by_cases hx : dst ≤ x ∧ x < dst + len
    · obtain ⟨i, rfl⟩ : ∃ i, x = dst + i := ⟨x - dst, by omega⟩
      rw [hall i (by omega), hmove i (by omega)]
    · rw [h.outside x (by omega), memmove_eq, patch_outside (by omega)]

theorem exists_overtaken (hc : 0 < chunksz) (hup : src < dst) (hover : dst < src + len) (hlong : chunksz < len) :
    ∃ i, i < len ∧ Overtaken dst src chunksz i := by
  by_cases hfar : chunksz ≤ dst - src
  · refine ⟨dst - src, by omega, hup, by omega, ?_⟩
    have hzero : src + (dst - src) - dst = 0 := by omega
    rw [hzero, Nat.zero_div]
    exact Nat.div_pos hfar hc
  · refine ⟨chunksz, hlong, hup, by omega, ?_⟩
    rw [Nat.div_eq_of_lt (by omega), Nat.div_self hc]
    exact Nat.one_pos

/-- With a watchdog the chunks go up whatever the overlap. The memory is as `memmove` leaves it exactly if what is
overtaken repeats, and so for every memory exactly if the range does not move up into itself or is one chunk. -/
theorem memmove_wd_iff (watchdog : Bool) (dst src len chunksz : Nat) (hc : 0 < chunksz) :
    (∀ m, memmoveWd watchdog m dst src len chunksz = some (memmove m dst src len) ↔
      watchdog = false ∨ Repeats m dst src len chunksz) ∧
    ((∀ m, memmoveWd watchdog m dst src len chunksz = some (memmove m dst src len)) ↔
      watchdog = false ∨ dst ≤ src ∨ src + len ≤ dst ∨ len ≤ chunksz) := by
  have heach : ∀ m, memmoveWd watchdog m dst src len chunksz = some (memmove m dst src len) ↔
      watchdog = false ∨ Repeats m dst src len chunksz := by
    intro m
    cases watchdog with
    | false => exact ⟨fun _ => .inl rfl, fun _ => rfl⟩
    | true =>
      obtain ⟨m', hloop, hm⟩ := wdLoop_moved (q := 0) hc (le_refl len) (Moved.start m dst src chunksz)
      rw [Nat.mul_zero, add_zero, add_zero] at hloop
      rw [Nat.mul_zero, zero_add] at hm
      unfold memmoveWd
      rw [if_pos rfl, hloop, Option.some.injEq, hm.eq_iff]
      exact ⟨.inr, fun h => h.resolve_left (by simp)⟩
  refine ⟨heach, ?_⟩
  simp only [heach]
  constructor
  · intro h
    cases watchdog with
    | false => exact .inl rfl
    | true =>
      right
      by_contra hno
      simp only [not_or, not_le] at hno
      obtain ⟨hup, hover, hlong⟩ := hno
      obtain ⟨i, hi, ho⟩ := exists_overtaken hc hup hover hlong
      have hle := ho.2.1
      have hrep := (h fun x => if x = src + i then 1 else 0).resolve_left (by simp) i hi ho
      simp at hrep
      omega
  · rintro (hoff | hdown | hapart | hshort) m
    · exact .inl hoff
    · exact .inr fun i hi ho => absurd ho.1 (by omega)
    · exact .inr fun i hi ho => absurd ho.2.1 (by omega)
    · refine .inr fun i hi ho => absurd ho.2.2 ?_
      rw [Nat.div_eq_of_lt (by omega : i < chunksz)]
      exact Nat.not_lt_zero _

theorem memmove_wd_iff_chunk :
    (∀ m, memmoveWd true m 1 0 2 2 = some (memmove m 1 0 2) ↔ true = false ∨ Repeats m 1 0 2 2) ∧
    ((∀ m, memmoveWd true m 1 0 2 2 = some (memmove m 1 0 2)) ↔ true = false ∨ 1 ≤ 0 ∨ 0 + 2 ≤ 1 ∨ 2 ≤ 2) :=
  memmove_wd_iff true 1 0 2 2 (by decide)

/-- Two bytes moved up by one, a byte at a time. -/
theorem second_byte_lost : ¬∀ (watchdog : Bool) (m : Flash) (dst src len chunksz : Nat), 0 < chunksz →
    memmoveWd watchdog m dst src len chunksz = some (memmove m dst src len) := by
  intro h
  have hm := h true (fun x => UInt8.ofNat x) 1 0 2 1 (by decide)
  have hsecond := congrArg (fun r => r.map fun m' => m' 2) hm
  revert hsecond
  decide

end UBoot.MemmoveWd
