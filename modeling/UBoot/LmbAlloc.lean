import Mathlib.Algebra.GroupWithZero.Nat
import UBoot.LmbFree

namespace UBoot

open Extents Slices

theorem add_roundUp_le {align place size bound : Nat} (halign : 0 < align) (hplace : place % align = 0)
    (hle : place + size ≤ bound) (hround : size % align = 0 ∨ bound % align < size % align) :
    place + (size + (align - 1)) / align * align ≤ bound := by
  have hp := Nat.div_add_mod place align
  have hs := Nat.div_add_mod size align
  have hb := Nat.div_add_mod bound align
  have hlt := Nat.mod_lt size halign
  rw [mul_comm _ align]
  rcases hround with h0 | hround
  · have hq : (size + (align - 1)) / align = size / align := by
      apply Nat.div_eq_of_lt_le
      · rw [mul_comm]
        omega
      · rw [Nat.succ_mul, mul_comm]
        omega
    rw [hq]
    omega
  · have hq : (size + (align - 1)) / align ≤ size / align + 1 := by
      apply Nat.le_of_lt_succ
      apply Nat.div_lt_of_lt_mul
      have hdist : align * (size / align + 1).succ = align * (size / align) + align + align := by
        rw [Nat.mul_succ, Nat.mul_succ]
      omega
    have hlow : align * (place / align + size / align) < align * (bound / align) := by
      rw [Nat.mul_add]
      omega
    have hsteps := Nat.lt_of_mul_lt_mul_left hlow
    calc place + align * ((size + (align - 1)) / align)
        ≤ align * (place / align) + align * (size / align + 1) := by
          have := Nat.mul_le_mul_left align hq
          omega
      _ = align * (place / align + size / align + 1) := by
          rw [← Nat.mul_add, add_assoc]
      _ ≤ align * (bound / align) := Nat.mul_le_mul_left align hsteps
      _ ≤ bound := Nat.mul_div_le bound align

theorem le_roundUp {align : Nat} (halign : 0 < align) (size : Nat) :
    size ≤ (size + (align - 1)) / align * align := by
  have hparts := Nat.div_add_mod (size + (align - 1)) align
  have hlt := Nat.mod_lt (size + (align - 1)) halign
  rw [mul_comm]
  omega

variable {size align : UInt32} {k : Nat}
variable {lmb : Lmb}

theorem lmbAlignDown_toNat (halign : align.toNat = 2 ^ k) (addr : UInt32) :
    (lmbAlignDown addr align).toNat = addr.toNat - addr.toNat % align.toNat := by
  have hpos : 0 < 2 ^ k := Nat.two_pow_pos k
  have hmask : (align - 1).toNat = 2 ^ k - 1 := by
    have := align.toNat_lt
    rw [UInt32.toNat_sub, UInt32.toNat_one]
    omega
  have hrest : (addr &&& (align - 1)).toNat = addr.toNat % align.toNat := by
    rw [UInt32.toNat_and, hmask, Nat.and_two_pow_sub_one_eq_mod, halign]
  have hparts : (addr &&& ~~~(align - 1)) + (addr &&& (align - 1)) = addr := by
    apply UInt32.toBitVec_inj.mp
    rw [UInt32.toBitVec_add, BitVec.add_eq_or_of_and_eq_zero]
    · ext i hi
      simp
      cases addr.toBitVec[i] <;> cases (align.toBitVec - 1#32)[i] <;> rfl
    · ext i hi
      simp
      cases addr.toBitVec[i] <;> cases (align.toBitVec - 1#32)[i] <;> simp
  have hsum := congrArg UInt32.toNat hparts
  rw [UInt32.toNat_add, hrest] at hsum
  have hle := Nat.mod_le addr.toNat align.toNat
  have hlt := (addr &&& ~~~(align - 1)).toNat_lt
  unfold lmbAlignDown
  omega

theorem lmbAlignDown_mod (halign : align.toNat = 2 ^ k) (addr : UInt32) :
    (lmbAlignDown addr align).toNat % align.toNat = 0 := by
  have hparts := Nat.div_add_mod addr.toNat align.toNat
  have hmul : addr.toNat - addr.toNat % align.toNat = align.toNat * (addr.toNat / align.toNat) := by omega
  rw [lmbAlignDown_toNat halign, hmul]
  exact Nat.mul_mod_right _ _

theorem lmbAlignUp_toNat (halign : align.toNat = 2 ^ k) (hfit : size.toNat + align.toNat ≤ 2 ^ 32) :
    (lmbAlignUp size align).toNat = (size.toNat + (align.toNat - 1)) / align.toNat * align.toNat := by
  have hpos : 0 < align.toNat := by
    rw [halign]
    exact Nat.two_pow_pos k
  have hsum : (size + (align - 1)).toNat = size.toNat + (align.toNat - 1) := by
    rw [UInt32.toNat_add, UInt32.toNat_sub, UInt32.toNat_one]
    omega
  have hdown := lmbAlignDown_toNat halign (size + (align - 1))
  have hparts := Nat.div_add_mod (size.toNat + (align.toNat - 1)) align.toNat
  rw [hsum] at hdown
  rw [mul_comm _ align.toNat]
  unfold lmbAlignDown at hdown
  unfold lmbAlignUp
  omega

/-- A place inside of memory where the range asked for is apart from the table. -/
structure Lmb.Place (lmb : Lmb) (size align : UInt32) (place : UInt32) : Prop where
  nonzero : place ≠ 0
  aligned : place.toNat % align.toNat = 0
  inside : ∃ p ∈ lmb.memory.extents, p.lo ≤ place.toNat ∧ place.toNat + size.toNat ≤ p.hi
  free : lmb.reserved.overlaps place size = none

theorem Lmb.Place.roundUp {place : UInt32} (h : lmb.Place size align place)
    (halign : align.toNat = 2 ^ k) (hend : ∀ p ∈ lmb.memory.extents, p.hi < 2 ^ 32) :
    (lmbAlignUp size align).toNat = (size.toNat + (align.toNat - 1)) / align.toNat * align.toNat := by
  obtain ⟨p, hp, _, hhigh⟩ := h.inside
  have hmax := hend p hp
  have hpos : 0 < place.toNat := Nat.pos_of_ne_zero fun h0 => h.nonzero (UInt32.toNat_inj.mp h0)
  have hge := Nat.le_of_dvd hpos (Nat.dvd_of_mod_eq_zero h.aligned)
  exact lmbAlignUp_toNat halign (by omega)

/-- The bounds of the table and of memory leave room for what the size is rounded up by. -/
def Lmb.Rounds (lmb : Lmb) (size align : UInt32) : Prop :=
  size.toNat % align.toNat = 0 ∨ (∀ e ∈ lmb.reserved.extents, e.lo % align.toNat < size.toNat % align.toNat) ∧
      ∀ e ∈ lmb.memory.extents, e.hi % align.toNat < size.toNat % align.toNat

theorem Lmb.Place.inside_memory {place : UInt32} (h : lmb.Place size align place)
    (halign : align.toNat = 2 ^ k) (hend : ∀ p ∈ lmb.memory.extents, p.hi < 2 ^ 32)
    (hrounds : lmb.Rounds size align) {a : Nat}
    (ha : (⟨place, lmbAlignUp size align⟩ : LmbProperty).extent.Contains a) :
    Covers lmb.memory.extents a := by
  obtain ⟨p, hp, hlow, hhigh⟩ := h.inside
  have hpos : 0 < align.toNat := by
    rw [halign]
    exact Nat.two_pow_pos k
  have hle := add_roundUp_le hpos h.aligned hhigh (hrounds.imp_right fun hr => hr.2 p hp)
  refine ⟨p, hp, ?_⟩
  simp only [Extent.Contains, LmbProperty.extent, h.roundUp halign hend] at ha ⊢
  omega

theorem Lmb.Place.apart {place : UInt32} (h : lmb.Place size align place)
    (halign : align.toNat = 2 ^ k) (hend : ∀ p ∈ lmb.memory.extents, p.hi < 2 ^ 32)
    (hrounds : lmb.Rounds size align) (hmax : ∀ e ∈ lmb.reserved.extents, e.hi < 2 ^ 32) {a : Nat}
    (ha : (⟨place, lmbAlignUp size align⟩ : LmbProperty).extent.Contains a) :
    ¬Covers lmb.reserved.extents a := by
  rintro ⟨e, he, hin⟩
  obtain ⟨p, hp, _, hhigh⟩ := h.inside
  have hpos : 0 < align.toNat := by
    rw [halign]
    exact Nat.two_pow_pos k
  have hmem := hend p hp
  have hside : e.hi ≤ place.toNat ∨ place.toNat + size.toNat ≤ e.lo := by
    have hmaxe := hmax e he
    obtain ⟨q, hq, rfl⟩ := List.mem_map.mp he
    obtain ⟨j, _, hj, rfl⟩ := mem_slice.mp hq
    have hno := List.find?_eq_none.mp h.free j (List.mem_range.mpr hj)
    simp only [lmbAddrsOverlap, Bool.and_eq_true, decide_eq_true_eq] at hno
    simp only [LmbProperty.extent] at hmaxe ⊢
    rw [UInt32.lt_iff_toNat_lt, UInt32.lt_iff_toNat_lt, UInt32.toNat_add, UInt32.toNat_add] at hno
    omega
  simp only [Extent.Contains, LmbProperty.extent, h.roundUp halign hend] at ha hin
  rcases hside with hbelow | habove
  · omega
  · have hle := add_roundUp_le hpos h.aligned habove (hrounds.imp_right fun hr => hr.1 e he)
    omega

/-- An address below `base` that the inner loop would take. -/
structure Lmb.ClearBelow (lmb : Lmb) (size align lmbbase base q : UInt32) : Prop where
  nonzero : q ≠ 0
  low : lmbbase ≤ q
  high : q ≤ base
  aligned : q.toNat % align.toNat = 0
  unwrapped : q = base ∨ q.toNat + size.toNat < 2 ^ 32
  free : lmb.reserved.overlaps q size = none

theorem overlaps_none_iff {rgn : LmbRegion} {q : UInt32} : rgn.overlaps q size = none ↔
    ∀ j, j < rgn.cnt → ¬lmbAddrsOverlap q size (rgn.region j).base (rgn.region j).size := by
  unfold LmbRegion.overlaps
  rw [List.find?_eq_none]
  simp only [List.mem_range]

theorem Lmb.ClearBelow.next {lmbbase base q : UInt32} {j : Nat} (halign : align.toNat = 2 ^ k)
    (hj : lmb.reserved.overlaps base size = some j) (h : lmb.ClearBelow size align lmbbase base q) :
    size ≤ (lmb.reserved.region j).base ∧
      lmb.ClearBelow size align lmbbase (lmbAlignDown ((lmb.reserved.region j).base - size) align) q := by
  have hover := List.find?_some hj
  have hcnt := List.mem_range.mp (List.mem_of_find?_eq_some hj)
  have hno := overlaps_none_iff.mp h.free j hcnt
  simp only [lmbAddrsOverlap, Bool.and_eq_true, decide_eq_true_eq] at hover hno
  have hne : q ≠ base := by
    rintro rfl
    exact hno hover
  have hend := h.unwrapped.resolve_left hne
  have hlow : q < (lmb.reserved.region j).base + (lmb.reserved.region j).size := by
    have hq := UInt32.le_iff_toNat_le.mp h.high
    have hb := UInt32.lt_iff_toNat_lt.mp hover.1
    exact UInt32.lt_iff_toNat_lt.mpr (by omega)
  have hbehind : q.toNat + size.toNat ≤ (lmb.reserved.region j).base.toNat := by
    have hnot : ¬(lmb.reserved.region j).base < q + size := fun hlt => hno ⟨hlow, hlt⟩
    rw [UInt32.lt_iff_toNat_lt, UInt32.toNat_add, Nat.mod_eq_of_lt hend] at hnot
    omega
  have hroom : size ≤ (lmb.reserved.region j).base := UInt32.le_iff_toNat_le.mpr (by omega)
  have hdown := lmbAlignDown_toNat halign ((lmb.reserved.region j).base - size)
  rw [UInt32.toNat_sub_of_le _ _ hroom] at hdown
  have hparts := Nat.div_add_mod ((lmb.reserved.region j).base.toNat - size.toNat) align.toNat
  have hle : q.toNat ≤ align.toNat * (((lmb.reserved.region j).base.toNat - size.toNat) / align.toNat) := by
    have hq := Nat.div_add_mod q.toNat align.toNat
    rw [h.aligned] at hq
    rw [← hq]
    exact Nat.mul_le_mul_left _ (Nat.div_le_div_right (by omega))
  exact ⟨hroom, h.nonzero, h.low, UInt32.le_iff_toNat_le.mpr (by omega), h.aligned, .inr hend, h.free⟩

theorem next_lower {base : UInt32} {j : Nat} (halign : align.toNat = 2 ^ k)
    (hj : lmb.reserved.overlaps base size = some j) (hroom : size ≤ (lmb.reserved.region j).base) :
    (lmbAlignDown ((lmb.reserved.region j).base - size) align).toNat < base.toNat ∧
      (lmbAlignDown ((lmb.reserved.region j).base - size) align).toNat + size.toNat < 2 ^ 32 := by
  have hover := List.find?_some hj
  simp only [lmbAddrsOverlap, Bool.and_eq_true, decide_eq_true_eq] at hover
  have hdown := lmbAlignDown_toNat halign ((lmb.reserved.region j).base - size)
  have hlt := UInt32.lt_iff_toNat_lt.mp hover.2
  have hle := UInt32.le_iff_toNat_le.mp hroom
  rw [UInt32.toNat_add] at hlt
  rw [UInt32.toNat_sub_of_le _ _ hroom] at hdown
  omega

theorem lmbAllocIn_spec (lmb : Lmb) (size lmbbase : UInt32) (halign : align.toNat = 2 ^ k)
    {fuel : Nat} {base : UInt32} (hfuel : base.toNat < fuel) (hbase : base.toNat % align.toNat = 0) :
    (lmbAllocIn lmb size align lmbbase fuel base = some none ∧
        ∀ q, ¬lmb.ClearBelow size align lmbbase base q) ∨
      ∃ place, lmb.ClearBelow size align lmbbase base place ∧
        (∀ q, lmb.ClearBelow size align lmbbase base q → q ≤ place) ∧
        lmbAllocIn lmb size align lmbbase fuel base =
          (lmb.reserved.add place (lmbAlignUp size align)).map fun r =>
            some (if r.1 < 0 then 0 else place, { lmb with reserved := r.2 }) := by
  induction fuel generalizing base with
  | zero => omega
  | succ fuel ih =>
    unfold lmbAllocIn
    split
    next hin =>
      split
      next hfree =>
        exact .inr ⟨base, ⟨hin.1, hin.2, UInt32.le_refl _, hbase, .inl rfl, hfree⟩, fun q hq => hq.high, rfl⟩
      next j hj =>
        dsimp only
        split
        next hshort =>
          exact .inl ⟨rfl, fun q hq => UInt32.not_le.mpr hshort (hq.next halign hj).1⟩
        next hroom =>
          have hroom := UInt32.not_lt.mp hroom
          obtain ⟨hlower, hend⟩ := next_lower halign hj hroom
          have hrest := ih (lt_of_lt_of_le hlower (Nat.le_of_lt_succ hfuel)) (lmbAlignDown_mod halign _)
          have hback : ∀ q, lmb.ClearBelow size align lmbbase
              (lmbAlignDown ((lmb.reserved.region j).base - size) align) q →
              lmb.ClearBelow size align lmbbase base q := by
            intro q hq
            refine ⟨hq.nonzero, hq.low, ?_, hq.aligned, .inr ?_, hq.free⟩
            · exact UInt32.le_trans hq.high (UInt32.le_iff_toNat_le.mpr (le_of_lt hlower))
            · exact hq.unwrapped.elim (fun h => h ▸ hend) id
          rcases hrest with ⟨hrun, hnone⟩ | ⟨place, hplace, hhigh, hrun⟩
          · exact .inl ⟨hrun, fun q hq => hnone q (hq.next halign hj).2⟩
          · exact .inr ⟨place, hback place hplace, fun q hq => hhigh q (hq.next halign hj).2, hrun⟩
    next hout =>
      refine .inl ⟨rfl, fun q hq => hout ⟨?_, UInt32.le_trans hq.low hq.high⟩⟩
      rintro rfl
      exact hq.nonzero (UInt32.le_antisymm hq.high (UInt32.le_iff_toNat_le.mpr (Nat.zero_le _)))

theorem lmbAllocTop_fits {p : LmbProperty} {maxAddr base : UInt32} (halign : align.toNat = 2 ^ k)
    (hend : p.extent.hi < 2 ^ 32) (hlimit : maxAddr = lmbAllocAnywhere ∨ size ≤ maxAddr)
    (htop : lmbAllocTop p size align maxAddr = some base) :
    base.toNat % align.toNat = 0 ∧ base.toNat + size.toNat ≤ p.extent.hi := by
  simp only [LmbProperty.extent] at hend ⊢
  unfold lmbAllocTop at htop
  split at htop
  · cases htop
  next hroom =>
    have hle := UInt32.le_iff_toNat_le.mp (UInt32.not_lt.mp hroom)
    have hsum : (p.base + p.size).toNat = p.base.toNat + p.size.toNat := by
      rw [UInt32.toNat_add]
      omega
    split at htop
    · cases Option.some.inj htop
      refine ⟨lmbAlignDown_mod halign _, ?_⟩
      have hfit : size ≤ p.base + p.size := by
        rw [UInt32.le_iff_toNat_le, hsum]
        omega
      rw [lmbAlignDown_toNat halign, UInt32.toNat_sub_of_le _ _ hfit, hsum]
      omega
    next hsome =>
      split at htop
      next hbelow =>
        cases Option.some.inj htop
        refine ⟨lmbAlignDown_mod halign _, ?_⟩
        rw [lmbAlignDown_toNat halign]
        by_cases hlow : p.base + p.size ≤ maxAddr
        · have hmin : min (p.base + p.size) maxAddr = p.base + p.size := if_pos hlow
          have hfit : size ≤ p.base + p.size := by
            rw [UInt32.le_iff_toNat_le, hsum]
            omega
          rw [hmin, UInt32.toNat_sub_of_le _ _ hfit, hsum]
          omega
        · have hmin : min (p.base + p.size) maxAddr = maxAddr := if_neg hlow
          have hfit := UInt32.le_iff_toNat_le.mp (hlimit.resolve_left hsome)
          rw [UInt32.le_iff_toNat_le, hsum] at hlow
          rw [hmin, UInt32.toNat_sub_of_le _ _ (hlimit.resolve_left hsome)]
          omega
      · cases htop

theorem lmbAllocFrom_cases {maxAddr : UInt32} (halign : align.toNat = 2 ^ k)
    (hend : ∀ p ∈ lmb.memory.extents, p.hi < 2 ^ 32)
    (hlimit : maxAddr = lmbAllocAnywhere ∨ size ≤ maxAddr) {i : Nat} (hi : i ≤ lmb.memory.cnt) :
    lmbAllocFrom lmb size align maxAddr i = some (0, lmb) ∨
      ∃ place, lmb.Place size align place ∧ lmbAllocFrom lmb size align maxAddr i =
        (lmb.reserved.add place (lmbAlignUp size align)).map fun r =>
          (if r.1 < 0 then 0 else place, { lmb with reserved := r.2 }) := by
  induction i with
  | zero => exact .inl rfl
  | succ i ih =>
    have ih := ih (Nat.le_of_succ_le hi)
    have hmem : (lmb.memory.region i).extent ∈ lmb.memory.extents := LmbRegion.mem_extents hi
    unfold lmbAllocFrom
    dsimp only
    split
    · exact ih
    next base htop =>
      obtain ⟨haligned, hfits⟩ := lmbAllocTop_fits halign (hend _ hmem) hlimit htop
      have hin := lmbAllocIn_spec lmb size (lmb.memory.region i).base halign
        (Nat.lt_add_one base.toNat) haligned
      rcases hin with ⟨hnone, _⟩ | ⟨place, hclear, _, hall⟩
      · rw [hnone]
        exact ih
      · refine .inr ⟨place, ⟨hclear.nonzero, hclear.aligned, ⟨_, hmem, ?_, ?_⟩, hclear.free⟩, ?_⟩
        · exact UInt32.le_iff_toNat_le.mp hclear.low
        · have := UInt32.le_iff_toNat_le.mp hclear.high
          omega
        · rw [hall]
          cases lmb.reserved.add place (lmbAlignUp size align) <;> rfl

end UBoot
