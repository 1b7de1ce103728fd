import Mathlib.Algebra.Order.Group.Nat
import UBoot.GoodSpace

namespace UBoot

/-- A NAND device with the flags that `do_nand` sets for a YAFFS image. -/
structure NandInfo where
  size : Nat
  erasesize : Nat
  writesize : Nat
  oobsize : Nat
  rwOob : Nat
  skipFb : Nat
  /-- `nand_block_isbad` by the address of the block, also of one past the device. -/
  isbad : Nat → Bool
  erasable : 0 < erasesize
  wholeBlocks : erasesize ∣ size
  wholePages : writesize ∣ erasesize
  /-- A chip has 2 GiB at most. -/
  addressable : size < 2 ^ 32

namespace NandInfo

variable (n : NandInfo)

/-- `offset & (nand->erasesize - 1)`: the erase size is a power of two. -/
def blockOffset (offset : Nat) : Nat := offset % n.erasesize

/-- `offset & ~(nand->erasesize - 1)`, with a mask of 32 bits. -/
def blockStart (offset : Nat) : Nat := offset % 2 ^ 32 / n.erasesize * n.erasesize

def good (a : Nat) : Bool := !n.isbad (a / n.erasesize * n.erasesize)

end NandInfo

/-- The loop of `get_len_incl_bad`; the last two arguments are `len_excl_bad` and
`len_incl_bad`. -/
def lenInclBadFuel (n : NandInfo) (length : Nat) : Nat → Nat → Nat → Nat → Nat
  | 0, _, _, incl => incl
  | fuel + 1, offset, excl, incl =>
    if excl < length then
      let blockLen := n.erasesize - n.blockOffset offset
      let excl := if n.isbad (n.blockStart offset) then excl else excl + blockLen
      if n.size ≤ offset + blockLen then incl + blockLen
      else lenInclBadFuel n length fuel (offset + blockLen) excl (incl + blockLen)
    else incl

/-- `get_len_incl_bad`: its loop takes at most one round for each block. -/
def getLenInclBad (n : NandInfo) (offset length : Nat) : Nat :=
  lenInclBadFuel n length (n.size + 1) offset 0 0

/-- What a skipping write leaves: the return code, `*length`, `nand->skip_fb` and
the state of the device. -/
structure SkipResult (σ : Type) where
  rc : Int
  length : Nat
  skipFb : Nat
  state : σ

/-- `nand_write` by offset, length and place in the buffer. The first answer is its
return code, the second the length it reports. -/
abbrev NandWrite (σ : Type) := Nat → Nat → Nat → σ → (Int × Nat) × σ

/-- How far `p_buffer` moves on behind `len` bytes of data. -/
def NandInfo.bufferStep (n : NandInfo) (len : Nat) : Nat :=
  if n.rwOob = 1 then len + len / n.writesize * n.oobsize else len

variable {σ : Type}

def skipWriteFuel (n : NandInfo) (write : NandWrite σ) (length : Nat) :
    Nat → Nat → Nat → Nat → Nat → σ → Option (SkipResult σ)
  | 0, _, _, _, _, _ => none
  | fuel + 1, offset, left, p, skipFb, s =>
    if 0 < left then
      let blockLeft := n.erasesize - n.blockOffset offset
      if n.isbad (n.blockStart offset) then
        skipWriteFuel n write length fuel (offset + blockLeft) left p skipFb s
      else if skipFb = 1 then
        skipWriteFuel n write length fuel (offset + blockLeft) left p 0 s
      else
        let writeSize := if left < blockLeft then left else blockLeft
        match write offset writeSize p s with
        | ((rval, written), s) =>
          if rval ≠ 0 then some ⟨rval, length - left, skipFb, s⟩
          else
            skipWriteFuel n write length fuel (offset + written) (left - written)
              (p + n.bufferStep written) skipFb s
    else some ⟨0, length, skipFb, s⟩

def EINVAL : Int := 22

/-- `nand_write_skip_bad` behind the checks of its alignment. -/
def skipWrite (n : NandInfo) (write : NandWrite σ) (fuel offset length : Nat) (s : σ) :
    Option (SkipResult σ) :=
  let lenInclBad := getLenInclBad n offset length
  if n.size < offset + lenInclBad then some ⟨-EINVAL, length, n.skipFb, s⟩
  else if lenInclBad = length ∧ n.rwOob = 0 then
    match write offset length 0 s with
    | ((rval, written), s) => some ⟨rval, written, n.skipFb, s⟩
  else skipWriteFuel n write length fuel offset length 0 n.skipFb s

/-- `nand_write_skip_bad`. The fuel bounds the rounds of its loop. -/
def nandWriteSkipBad (n : NandInfo) (write : NandWrite σ) (fuel offset length : Nat) (s : σ) :
    Option (SkipResult σ) :=
  if n.rwOob = 1 then
    if length % (n.oobsize + n.writesize) ≠ 0 then some ⟨-EINVAL, 0, n.skipFb, s⟩
    else skipWrite n write fuel offset (length / (n.writesize + n.oobsize) * n.writesize) s
  else if offset % n.writesize ≠ 0 ∨ length % n.writesize ≠ 0 then
    some ⟨-EINVAL, length, n.skipFb, s⟩
  else skipWrite n write fuel offset length s

open GoodSpace

namespace NandInfo

variable (n : NandInfo)

def next (a : Nat) : Nat := a + (n.erasesize - n.blockOffset a)

variable {n} {a b : Nat}

theorem blockOffset_lt (a : Nat) : n.blockOffset a < n.erasesize := Nat.mod_lt a n.erasable

theorem lt_next (a : Nat) : a < n.next a := by
  have := n.blockOffset_lt a
  unfold next
  omega

theorem next_eq (a : Nat) : n.next a = (a / n.erasesize + 1) * n.erasesize := by
  have hmod := n.blockOffset_lt a
  have hdiv := Nat.div_add_mod' a n.erasesize
  unfold next
  rw [Nat.succ_mul]
  unfold blockOffset at *
  omega

theorem next_dvd (a : Nat) : n.erasesize ∣ n.next a := ⟨a / n.erasesize + 1, by rw [next_eq, mul_comm]⟩

theorem next_le (hb : n.erasesize ∣ b) (hab : a < b) : n.next a ≤ b := by
  obtain ⟨k, rfl⟩ := hb
  rw [next_eq, mul_comm n.erasesize]
  exact Nat.mul_le_mul_right _ (Nat.succ_le_of_lt
    ((Nat.div_lt_iff_lt_mul n.erasable).mpr (by rwa [mul_comm])))

theorem next_le_size (h : a < n.size) : n.next a ≤ n.size := next_le n.wholeBlocks h

theorem page_dvd_next (a : Nat) : n.writesize ∣ n.next a := Nat.dvd_trans n.wholePages (next_dvd a)

theorem blockStart_eq (h : a < n.size) : n.blockStart a = a / n.erasesize * n.erasesize := by
  unfold blockStart
  rw [Nat.mod_eq_of_lt (h.trans n.addressable)]

theorem isbad_blockStart (h : a < n.size) : n.isbad (n.blockStart a) = !n.good a := by
  rw [blockStart_eq h, good, Bool.not_not]

theorem good_of_block (h₁ : a ≤ b) (h₂ : b < n.next a) : n.good b = n.good a := by
  have hle : a / n.erasesize ≤ b / n.erasesize := Nat.div_le_div_right h₁
  have hlt : b / n.erasesize < a / n.erasesize + 1 :=
    (Nat.div_lt_iff_lt_mul n.erasable).mpr (by rwa [next_eq] at h₂)
  unfold good
  rw [show b / n.erasesize = a / n.erasesize by omega]

theorem goods_block_bad (hg : n.good a = false) : goods n.good a (n.next a) = [] :=
  goods_none fun _ h₁ h₂ => by rw [good_of_block h₁ h₂, hg]

theorem goods_block_good (hg : n.good a = true) : goods n.good a (n.next a) = List.range' a (n.next a - a) :=
  goods_all fun _ h₁ h₂ => by rw [good_of_block h₁ h₂, hg]

theorem goods_in_block {k : Nat} (hg : n.good a = true) (hk : a + k ≤ n.next a) :
    goods n.good a (a + k) = List.range' a k := by
  rw [goods_all fun x h₁ h₂ => by rw [good_of_block h₁ (by omega), hg], Nat.add_sub_cancel_left]

theorem goods_step (h : a < n.size) :
    goods n.good a n.size = goods n.good a (n.next a) ++ goods n.good (n.next a) n.size :=
  goods_append (lt_next a).le (next_le_size h)

end NandInfo

open NandInfo

variable {n : NandInfo} {l f o x i : Nat}

theorem lenInclBadFuel_succ (ho : o < n.size) (hl : x < l) : lenInclBadFuel n l (f + 1) o x i =
      if n.size ≤ n.next o then i + (n.next o - o)
      else lenInclBadFuel n l f (n.next o)
        (if n.good o then x + (n.next o - o) else x) (i + (n.next o - o)) := by
  have hstep : n.erasesize - n.blockOffset o = n.next o - o := by unfold next; omega
  have hnext : o + (n.next o - o) = n.next o := by have := lt_next (n := n) o; omega
  simp only [lenInclBadFuel, if_pos hl, isbad_blockStart ho, hstep, hnext]
  cases n.good o <;> rfl

theorem lenInclBadFuel_done (hl : l ≤ x) : lenInclBadFuel n l f o x i = i := by
  cases f with
  | zero => rfl
  | succ f => rw [lenInclBadFuel, if_neg (by omega)]

theorem lenInclBadFuel_spec (ho : o < n.size) (hf : n.size < o + f) :
    ∃ o', lenInclBadFuel n l f o x i = i + (o' - o) ∧ o ≤ o' ∧ o' ≤ n.size ∧ (x < l → n.erasesize ∣ o') ∧
      (l ≤ x + (goods n.good o o').length ∨ o' = n.size) := by
  induction f generalizing o x i with
  | zero => omega
  | succ f ih =>
    by_cases hl : x < l
    · rw [lenInclBadFuel_succ ho hl]
      have hlt := lt_next (n := n) o
      have hle := next_le_size ho
      split
      next hend =>
        refine ⟨n.next o, rfl, hlt.le, hle, fun _ => next_dvd o, .inr ?_⟩
        omega
      next hend =>
        obtain ⟨o', hlen, h₁, h₂, h₃, h₄⟩ := ih (o := n.next o)
          (x := if n.good o then x + (n.next o - o) else x)
          (i := i + (n.next o - o)) (by omega) (by omega)
        refine ⟨o', by omega, by omega, h₂, ?_, ?_⟩
        · intro _
          by_cases hx : (if n.good o then x + (n.next o - o) else x) < l
          · exact h₃ hx
          · rw [lenInclBadFuel_done (by omega)] at hlen
            rw [show o' = n.next o by omega]
            exact next_dvd o
        · rcases h₄ with h | h
          · left
            rw [goods_append hlt.le h₁, List.length_append]
            cases hg : n.good o with
            | true =>
              rw [goods_block_good hg, List.length_range']
              rw [hg, if_pos rfl] at h
              omega
            | false =>
              rw [hg, if_neg Bool.false_ne_true] at h
              omega
          · exact .inr h
    · exact ⟨o, by rw [lenInclBadFuel_done (by omega)]; omega, le_rfl, ho.le, fun h => absurd h hl,
        .inl (by omega)⟩

theorem lenInclBadFuel_full (hf : n.size < o + f) (ho : o < n.size) {k : Nat}
    (hk : n.erasesize ∣ o + k) (hend : o + k ≤ n.size) (hx : x + k = l) (hpos : 0 < k)
    (hgood : ∀ a, o ≤ a → a < o + k → n.good a = true) :
    lenInclBadFuel n l f o x i = i + k := by
  induction f generalizing o x i k with
  | zero => omega
  | succ f ih =>
    have hlt := lt_next (n := n) o
    have hle := next_le (a := o) hk (by omega)
    rw [lenInclBadFuel_succ ho (by omega), if_pos (hgood o (le_refl o) (by omega))]
    split
    next h => omega
    next h =>
      by_cases hlast : n.next o = o + k
      · rw [lenInclBadFuel_done (by omega)]
        omega
      · have hnext : n.next o + (k - (n.next o - o)) = o + k := by omega
        have hrest := ih (o := n.next o) (x := x + (n.next o - o)) (i := i + (n.next o - o))
          (k := k - (n.next o - o)) (by omega) (by omega) (by rwa [hnext]) (by omega) (by omega)
          (by omega) fun a h₁ h₂ => hgood a (by omega) (by omega)
        rw [hrest]
        omega

theorem getLenInclBad_spec (ho : o < n.size) : ∃ o', getLenInclBad n o l = o' - o ∧ o ≤ o' ∧ o' ≤ n.size ∧
      (0 < l → n.erasesize ∣ o') ∧
      (l ≤ (goods n.good o o').length ∨ o' = n.size) := by
  obtain ⟨o', hlen, h₁, h₂, h₃, h₄⟩ := lenInclBadFuel_spec (n := n) (l := l)
    (f := n.size + 1) (x := 0) (i := 0) ho (by omega)
  rw [zero_add] at hlen h₄
  exact ⟨o', hlen, h₁, h₂, h₃, h₄⟩

theorem getLenInclBad_eq_iff (ho : o < n.size) (hpos : 0 < l)
    (hroom : l ≤ (goods n.good o n.size).length) :
    getLenInclBad n o l = l ↔ n.erasesize ∣ o + l ∧ o + l ≤ n.size ∧
        ∀ a, o ≤ a → a < o + l → n.good a = true := by
  constructor
  · intro h
    obtain ⟨o', hlen, h₁, h₂, h₃, h₄⟩ := getLenInclBad_spec (n := n) (l := l) ho
    have ho' : o' = o + l := by omega
    subst ho'
    have hfull : o + l - o ≤ (goods n.good o (o + l)).length := by
      rcases h₄ with h₄ | h₄
      · omega
      · rw [h₄]
        omega
    exact ⟨h₃ hpos, h₂, fun a ha hb => good_of_full hfull ha hb⟩
  · rintro ⟨hk, hend, hgood⟩
    have := lenInclBadFuel_full (f := n.size + 1) (x := 0) (i := 0) (by omega) ho hk hend
      (zero_add _) hpos hgood
    rwa [zero_add] at this

theorem getLenInclBad_outside (ho : n.size ≤ o) (hpos : 0 < l) : n.size < o + getLenInclBad n o l := by
  have hmod := n.blockOffset_lt o
  unfold getLenInclBad
  rw [lenInclBadFuel, if_pos hpos]
  simp only
  rw [if_pos (by omega)]
  omega

end UBoot
