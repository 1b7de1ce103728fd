import UBoot.LmbAllocRuns

namespace UBoot

open Extents Slices

variable {lmb : Lmb} {rgn : LmbRegion} {p : LmbProperty} {size align maxAddr base q : UInt32} {i k : Nat}

/-- Memory as the caller has asked for it, apart from what is reserved. -/
structure Lmb.Usable (lmb : Lmb) (size align maxAddr base : UInt32) : Prop where
  aligned : base.toNat % align.toNat = 0
  inside : ∃ e ∈ lmb.memory.extents, e.lo ≤ base.toNat ∧ base.toNat + size.toNat ≤ e.hi
  below : maxAddr ≠ 0 → base.toNat + size.toNat ≤ maxAddr.toNat
  apart : ∀ a, base.toNat ≤ a → a < base.toNat + size.toNat → ¬Covers lmb.reserved.extents a

/-- An aligned address below the place where the search of a region starts, whose range meets no reserved
region as `lmb_overlaps_region` compares them. -/
def Lmb.Clear (lmb : Lmb) (size align maxAddr : UInt32) (i : Nat) (q : UInt32) : Prop :=
  i < lmb.memory.cnt ∧ ∃ top, lmbAllocTop (lmb.memory.region i) size align maxAddr = some top ∧
    lmb.ClearBelow size align (lmb.memory.region i).base top q

/-- A sum or a difference about this address wraps: the limit is below the size, the region ends with the
address space above the limit, or the range meets a reserved region and one of them ends there. -/
def Lmb.Wraps (lmb : Lmb) (size maxAddr : UInt32) (i : Nat) (q : UInt32) : Prop :=
  maxAddr ≠ 0 ∧ maxAddr < size ∨
  maxAddr ≠ 0 ∧ 2 ^ 32 ≤ (lmb.memory.region i).extent.hi ∧ maxAddr.toNat < q.toNat + size.toNat ∨
  ∃ e ∈ lmb.reserved.extents, (2 ^ 32 ≤ e.hi ∨ 2 ^ 32 ≤ q.toNat + size.toNat) ∧
    e.lo < e.hi ∧ e.lo < q.toNat + size.toNat ∧ q.toNat < e.hi

/-- `lmb_add_region` has a place for the range. -/
def LmbRegion.Takes (rgn : LmbRegion) (base size : UInt32) : Prop :=
  rgn.cnt = 1 ∧ (rgn.region 0).size = 0 ∨ rgn.findNear base size ≠ none ∨
    rgn.cnt < maxLmbRegions ∧ ¬(rgn.cnt = 0 ∧ rgn.regionsAdjacent 0 1)

theorem coalesce_some (h : rgn.cnt ≠ 0) (r1 r2 : Nat) : ∃ rgn', rgn.coalesce r1 r2 = some rgn' := by
  unfold LmbRegion.coalesce LmbRegion.remove
  exact ⟨_, if_neg h⟩

theorem grown_taken {j : Nat} (h : rgn.cnt ≠ 0) (grown : LmbProperty) : ∃ rc rgn',
    (if j + 1 < (rgn.set j grown).cnt ∧ (rgn.set j grown).regionsAdjacent j (j + 1) then
      ((rgn.set j grown).coalesce j (j + 1)).map fun rgn => ((2 : Int), rgn)
    else some (1, rgn.set j grown)) = some (rc, rgn') ∧ ¬rc < 0 := by
  split
  · obtain ⟨rgn', hrgn⟩ := coalesce_some (show (rgn.set j grown).cnt ≠ 0 from h) j (j + 1)
    rw [hrgn]
    exact ⟨2, rgn', rfl, by decide⟩
  · exact ⟨1, _, rfl, by decide⟩

theorem add_takes : (∃ rc rgn', rgn.add base size = some (rc, rgn') ∧ ¬rc < 0) ↔ rgn.Takes base size := by
  unfold LmbRegion.add LmbRegion.Takes
  split
  next hdummy =>
    exact iff_of_true ⟨0, _, rfl, by decide⟩ (.inl hdummy)
  next hdummy =>
    split
    next j hnear =>
      refine iff_of_true ?_ (.inr (.inl (by simp [hnear])))
      have hcnt : rgn.cnt ≠ 0 := by
        have hj := List.mem_range.mp (List.mem_of_find?_eq_some hnear)
        omega
      dsimp only
      split
      · exact ⟨0, _, rfl, by decide⟩
      · exact grown_taken hcnt _
    next hnear =>
      have hnear : ¬rgn.findNear base size ≠ none := fun h => h hnear
      split
      next hstale =>
        have hnone : rgn.coalesce 0 1 = none := by
          unfold LmbRegion.coalesce LmbRegion.remove
          exact if_pos hstale.1
        rw [hnone]
        refine iff_of_false ?_ ?_
        · rintro ⟨_, _, h, _⟩
          cases h
        · rintro (h | h | h)
          · exact hdummy h
          · exact hnear h
          · exact h.2 hstale
      next hstale =>
        split
        next hfull =>
          refine iff_of_false ?_ ?_
          · rintro ⟨_, _, h, hrc⟩
            rw [← (Prod.mk.inj (Option.some.inj h)).1] at hrc
            exact hrc (by decide)
          · rintro (h | h | h)
            · exact hdummy h
            · exact hnear h
            · exact not_le.mpr h.1 hfull
        next hroom =>
          exact iff_of_true ⟨0, _, rfl, by decide⟩ (.inr (.inr ⟨not_le.mp hroom, hstale⟩))

theorem lmbAllocTop_aligned (halign : align.toNat = 2 ^ k) (h : lmbAllocTop p size align maxAddr = some base) :
    base.toNat % align.toNat = 0 := by
  unfold lmbAllocTop at h
  split at h
  · cases h
  split at h
  · rw [← Option.some.inj h]
    exact lmbAlignDown_mod halign _
  split at h
  · rw [← Option.some.inj h]
    exact lmbAlignDown_mod halign _
  · cases h

/-- From the region below index `n` down the search reserves the highest clear address, or there is none. -/
def Lmb.Searched (lmb : Lmb) (size align maxAddr : UInt32) (n : Nat) : Prop :=
  (lmbAllocFrom lmb size align maxAddr n = some (0, lmb) ∧ ∀ i q, i < n → ¬lmb.Clear size align maxAddr i q) ∨
    ∃ i place, lmb.Clear size align maxAddr i place ∧
      (∀ j q, j < n → lmb.Clear size align maxAddr j q → j < i ∨ j = i ∧ q ≤ place) ∧
      lmbAllocFrom lmb size align maxAddr n = (lmb.reserved.add place (lmbAlignUp size align)).map fun r =>
          (if r.1 < 0 then 0 else place, { lmb with reserved := r.2 })

theorem Lmb.Searched.skip {n : Nat} (h : lmb.Searched size align maxAddr n)
    (hnone : ∀ q, ¬lmb.Clear size align maxAddr n q)
    (hrun : lmbAllocFrom lmb size align maxAddr (n + 1) = lmbAllocFrom lmb size align maxAddr n) :
    lmb.Searched size align maxAddr (n + 1) := by
  unfold Lmb.Searched
  rw [hrun]
  rcases h with ⟨hfail, hlow⟩ | ⟨i, place, hclear, hlow, hall⟩
  · refine .inl ⟨hfail, fun i q hi hq => ?_⟩
    rcases Nat.lt_succ_iff_lt_or_eq.mp hi with hi | rfl
    · exact hlow i q hi hq
    · exact hnone q hq
  · refine .inr ⟨i, place, hclear, fun j q hj hq => ?_, hall⟩
    rcases Nat.lt_succ_iff_lt_or_eq.mp hj with hj | rfl
    · exact hlow j q hj hq
    · exact absurd hq (hnone q)

theorem lmbAllocFrom_spec (halign : align.toNat = 2 ^ k) {n : Nat} (hn : n ≤ lmb.memory.cnt) :
    lmb.Searched size align maxAddr n := by
  induction n with
  | zero => exact .inl ⟨rfl, fun _ _ hi => absurd hi (Nat.not_lt_zero _)⟩
  | succ n ih =>
    have ih := ih (Nat.le_of_succ_le hn)
    cases htop : lmbAllocTop (lmb.memory.region n) size align maxAddr with
    | none =>
      apply ih.skip
      · rintro q ⟨_, top, h, _⟩
        rw [htop] at h
        cases h
      · rw [lmbAllocFrom]
        simp only [htop]
    | some top =>
      have hclear : ∀ q, lmb.Clear size align maxAddr n q →
          lmb.ClearBelow size align (lmb.memory.region n).base top q := by
        rintro q ⟨_, top', h, hq⟩
        rw [htop] at h
        rwa [Option.some.inj h]
      have hin := lmbAllocIn_spec lmb size (lmb.memory.region n).base halign (Nat.lt_add_one top.toNat)
        (lmbAllocTop_aligned halign htop)
      rcases hin with ⟨hnone, hlow⟩ | ⟨place, hplace, hhigh, hall⟩
      · apply ih.skip
        · exact fun q hq => hlow q (hclear q hq)
        · rw [lmbAllocFrom]
          simp only [htop, hnone]
          rfl
      · refine .inr ⟨n, place, ⟨hn, top, htop, hplace⟩, fun j q hj hq => ?_, ?_⟩
        · rcases Nat.lt_succ_iff_lt_or_eq.mp hj with hj | rfl
          · exact .inl hj
          · exact .inr ⟨rfl, hhigh q (hclear q hq)⟩
        · rw [lmbAllocFrom]
          simp only [htop, hall]
          cases lmb.reserved.add place (lmbAlignUp size align) <;> rfl

theorem Lmb.ClearBelow.inside (halign : align.toNat = 2 ^ k)
    (htop : lmbAllocTop (lmb.memory.region i) size align maxAddr = some base)
    (h : lmb.ClearBelow size align (lmb.memory.region i).base base q)
    (hwraps : ¬lmb.Wraps size maxAddr i q) :
    q.toNat + size.toNat ≤ (lmb.memory.region i).extent.hi ∧
      (maxAddr ≠ 0 → q.toNat + size.toNat ≤ maxAddr.toNat) := by
  have hlow := UInt32.le_iff_toNat_le.mp h.low
  have hhigh := UInt32.le_iff_toNat_le.mp h.high
  have hlimit : maxAddr ≠ 0 → size ≤ maxAddr := fun h0 => UInt32.not_lt.mp fun hlt => hwraps (.inl ⟨h0, hlt⟩)
  have hend : maxAddr ≠ 0 → 2 ^ 32 ≤ (lmb.memory.region i).extent.hi → q.toNat + size.toNat ≤ maxAddr.toNat :=
    fun h0 hhi => not_lt.mp fun hlt => hwraps (.inr (.inl ⟨h0, hhi, hlt⟩))
  simp only [LmbProperty.extent] at hend ⊢
  obtain ⟨r, hr⟩ : ∃ r, r = lmb.memory.region i := ⟨_, rfl⟩
  rw [← hr] at htop hlow hend ⊢
  have hsum := UInt32.toNat_add r.base r.size
  have hmax := maxAddr.toNat_lt
  have hsize := size.toNat_lt
  unfold lmbAllocTop at htop
  split at htop
  · cases htop
  next hroom =>
    have hroom := UInt32.le_iff_toNat_le.mp (UInt32.not_lt.mp hroom)
    split at htop
    next hany =>
      rw [← Option.some.inj htop, lmbAlignDown_toNat halign, UInt32.toNat_sub, hsum] at hhigh
      exact ⟨by omega, fun h0 => absurd hany h0⟩
    next hsome =>
      have hlimit := UInt32.le_iff_toNat_le.mp (hlimit hsome)
      split at htop
      next hbelow =>
        rw [← Option.some.inj htop, lmbAlignDown_toNat halign, UInt32.toNat_sub] at hhigh
        have hend := hend hsome
        by_cases hhi : 2 ^ 32 ≤ r.base.toNat + r.size.toNat
        · exact ⟨by have := hend hhi; omega, fun _ => hend hhi⟩
        · rw [Nat.mod_eq_of_lt (by omega)] at hsum
          by_cases hle : r.base + r.size ≤ maxAddr
          · rw [show min (r.base + r.size) maxAddr = r.base + r.size from if_pos hle, hsum] at hhigh
            rw [UInt32.le_iff_toNat_le, hsum] at hle
            exact ⟨by omega, fun _ => by omega⟩
          · rw [show min (r.base + r.size) maxAddr = maxAddr from if_neg hle] at hhigh
            rw [UInt32.le_iff_toNat_le, hsum] at hle
            exact ⟨by omega, fun _ => by omega⟩
      · cases htop

theorem apart_of_free (hfree : lmb.reserved.overlaps q size = none) (hwraps : ¬lmb.Wraps size maxAddr i q)
    (a : Nat) (hlow : q.toNat ≤ a) (hhigh : a < q.toNat + size.toNat) : ¬Covers lmb.reserved.extents a := by
  rintro ⟨e, he, hin⟩
  unfold Extent.Contains at hin
  have hends : ¬(2 ^ 32 ≤ e.hi ∨ 2 ^ 32 ≤ q.toNat + size.toNat) := fun h =>
    hwraps (.inr (.inr ⟨e, he, h, by omega, by omega, by omega⟩))
  obtain ⟨r, hr, rfl⟩ := List.mem_map.mp he
  obtain ⟨j, _, hj, rfl⟩ := mem_slice.mp hr
  have hno := overlaps_none_iff.mp hfree j hj
  simp only [LmbProperty.extent] at hin hends
  simp only [lmbAddrsOverlap, Bool.and_eq_true, decide_eq_true_eq] at hno
  rw [UInt32.lt_iff_toNat_lt, UInt32.lt_iff_toNat_lt, UInt32.toNat_add, UInt32.toNat_add] at hno
  omega

theorem usable_iff (hsize : size ≠ 0) (halign : align.toNat = 2 ^ k) (h : lmb.Clear size align maxAddr i q) :
    lmb.Usable size align maxAddr q ↔ ¬lmb.Wraps size maxAddr i q := by
  obtain ⟨hi, top, htop, hclear⟩ := h
  constructor
  · rintro husable (⟨hsome, hlt⟩ | ⟨hsome, _, hlt⟩ | ⟨e, he, _, hproper, hlow, hhigh⟩)
    · have hbelow := husable.below hsome
      have hlt := UInt32.lt_iff_toNat_lt.mp hlt
      omega
    · have hbelow := husable.below hsome
      omega
    · refine husable.apart (max q.toNat e.lo) (le_max_left _ _) ?_ ⟨e, he, le_max_right _ _, ?_⟩
      · have hpos : 0 < size.toNat := Nat.pos_of_ne_zero fun h0 => hsize (UInt32.toNat_inj.mp h0)
        exact Nat.max_lt.mpr ⟨Nat.lt_add_of_pos_right hpos, hlow⟩
      · exact Nat.max_lt.mpr ⟨hhigh, hproper⟩
  · intro hwraps
    obtain ⟨hin, hbelow⟩ := hclear.inside halign htop hwraps
    refine ⟨hclear.aligned, ⟨_, LmbRegion.mem_extents hi, UInt32.le_iff_toNat_le.mp hclear.low, hin⟩, hbelow, ?_⟩
    exact apart_of_free hclear.free hwraps

/-- Memory from `__lmb_alloc_base` is usable exactly if each clear address about which something wraps is one
that the table of the reserved regions has no place for, or a higher one is clear. -/
theorem lmb_alloc_base_usable_iff (hsize : size ≠ 0) (halign : ∃ k, align.toNat = 2 ^ k) :
    (∀ base lmb', lmbAllocBase lmb size align maxAddr = some (base, lmb') → base ≠ 0 →
        lmb.Usable size align maxAddr base) ↔
      ∀ i q, lmb.Clear size align maxAddr i q → lmb.Wraps size maxAddr i q →
        ¬lmb.reserved.Takes q (lmbAlignUp size align) ∨
          ∃ j q', lmb.Clear size align maxAddr j q' ∧ (i < j ∨ i = j ∧ q < q') := by
  obtain ⟨k, halign⟩ := halign
  unfold lmbAllocBase
  rcases lmbAllocFrom_spec halign (le_refl lmb.memory.cnt) with
    ⟨hfail, hnone⟩ | ⟨i, place, hclear, hhigh, hall⟩
  · refine iff_of_true (fun base lmb' h hne => ?_) fun i q hq => absurd hq (hnone i q hq.1)
    rw [hfail] at h
    exact absurd (Prod.mk.inj (Option.some.inj h)).1.symm hne
  · rw [hall]
    have hiff := usable_iff hsize halign hclear
    constructor
    · intro h j q hq hwraps
      rcases hhigh j q hq.1 hq with hlt | ⟨rfl, hle⟩
      · exact .inr ⟨i, place, hclear, .inl hlt⟩
      by_cases heq : q = place
      · subst q
        refine .inl fun htakes => ?_
        obtain ⟨rc, rgn', hadd, hrc⟩ := add_takes.mpr htakes
        rw [hadd, Option.map_some, if_neg hrc] at h
        obtain ⟨_, _, _, hplace⟩ := hclear
        exact hiff.mp (h place _ rfl hplace.nonzero) hwraps
      · exact .inr ⟨j, place, hclear, .inr ⟨rfl, UInt32.lt_of_le_of_ne hle heq⟩⟩
    · intro h base lmb' hrun hne
      obtain ⟨⟨rc, rgn'⟩, hadd, hbase⟩ := Option.map_eq_some_iff.mp hrun
      have hbase := (Prod.mk.inj hbase).1
      by_cases hrc : rc < 0
      · rw [if_pos hrc] at hbase
        exact absurd hbase.symm hne
      rw [if_neg hrc] at hbase
      subst base
      refine hiff.mpr fun hwraps => ?_
      rcases h i place hclear hwraps with hfull | ⟨j, q, hq, hhigher⟩
      · exact hfull (add_takes.mp ⟨rc, rgn', hadd, hrc⟩)
      · rcases hhigh j q hq.1 hq with hlt | ⟨rfl, hle⟩
        · omega
        · rcases hhigher with hlt | ⟨_, hlt⟩
          · exact absurd hlt (lt_irrefl _)
          · exact UInt32.not_lt.mpr hle hlt

theorem lmb_alloc_base_usable_bank :
    (∀ base lmb', lmbAllocBase (lmbOneBank ⟨0xf000, 0x1000⟩) 0x800 0x100 0 = some (base, lmb') → base ≠ 0 →
        (lmbOneBank ⟨0xf000, 0x1000⟩).Usable 0x800 0x100 0 base) ↔
      ∀ i q, (lmbOneBank ⟨0xf000, 0x1000⟩).Clear 0x800 0x100 0 i q →
        (lmbOneBank ⟨0xf000, 0x1000⟩).Wraps 0x800 0 i q →
        ¬(lmbOneBank ⟨0xf000, 0x1000⟩).reserved.Takes q (lmbAlignUp 0x800 0x100) ∨
          ∃ j q', (lmbOneBank ⟨0xf000, 0x1000⟩).Clear 0x800 0x100 0 j q' ∧ (i < j ∨ i = j ∧ q < q') :=
  lmb_alloc_base_usable_iff (by decide) ⟨8, rfl⟩

/-- A size above the limit is taken from the end of the address space. -/
theorem alloc_above_limit : (lmbOneBank ⟨0xf000, 0x1000⟩).memory.extents.Pairwise (fun e f => e.hi ≤ f.lo) ∧
    (lmbOneBank ⟨0xf000, 0x1000⟩).reserved.extents.Pairwise (fun e f => e.hi ≤ f.lo) ∧
    (∃ lmb', lmbAllocBase (lmbOneBank ⟨0xf000, 0x1000⟩) 0x2000 0x1000 0x1800 = some (0xfffff000, lmb')) ∧
    ¬(lmbOneBank ⟨0xf000, 0x1000⟩).Usable 0x2000 0x1000 0x1800 0xfffff000 := by
  refine ⟨List.pairwise_singleton _ _, List.pairwise_singleton _ _, ⟨_, rfl⟩, fun h => ?_⟩
  have hbelow := h.below (by decide)
  exact absurd hbelow (by decide)

end UBoot
