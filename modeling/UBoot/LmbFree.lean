import UBoot.LmbAdd

namespace UBoot

open Extents List Slices

namespace LmbRegion

variable {rgn : LmbRegion} {base size : UInt32} {p : LmbProperty} {i : Nat} {e : Extent}

/-- A sound table that covers what another does, less one range. -/
structure Lessens (rgn rgn' : LmbRegion) (e : Extent) : Prop where
  sound : rgn'.Sound
  covers : ∀ a, Covers rgn'.extents a ↔ Covers rgn.extents a ∧ ¬e.Contains a

theorem Lessens.of_ordered {rgn' : LmbRegion} (h : rgn.Sound) (hfew : rgn'.cnt ≤ maxLmbRegions)
    (hord : Ordered rgn'.extents) (hb : ∀ f ∈ rgn'.extents, f.hi ≤ 2 ^ 32)
    (hcov : ∀ a, Covers rgn'.extents a ↔ Covers rgn.extents a ∧ ¬e.Contains a) : Lessens rgn rgn' e := by
  refine ⟨⟨hfew, hord, hb, ?_⟩, hcov⟩
  rw [hcov, hcov]
  rintro ⟨⟨hlow, _⟩, ⟨hhigh, _⟩⟩
  exact h.oneEnd ⟨hlow, hhigh⟩

theorem remove_lessens (h : rgn.Sound) (hi : i < rgn.cnt) :
    ∃ rgn', rgn.remove i = some rgn' ∧ rgn'.cnt = rgn.cnt - 1 ∧ Lessens rgn rgn' (rgn.region i).extent := by
  obtain ⟨rgn', hr, hcnt, hext⟩ := remove_extents hi
  have hsplit := extents_split hi
  have hord := h.ordered
  have hb := h.bounded
  have hfew := h.few
  rw [hsplit] at hord hb
  refine ⟨rgn', hr, hcnt, Lessens.of_ordered h (by omega) ?_ ?_ ?_⟩
  · rw [hext]
    exact (ordered_split.mp hord).1
  · intro f hf
    rw [hext] at hf
    apply hb f
    rw [mem_append, mem_cons]
    exact (mem_append.mp hf).imp_right .inr
  · intro a
    rw [hext, hsplit, covers_split]
    constructor
    · intro ha
      exact ⟨.inr ha, fun hin => hord.apart hin ha⟩
    · rintro ⟨hin | ha, hout⟩
      · exact absurd hin hout
      · exact ha

theorem set_lessens (h : rgn.Sound) (hi : i < rgn.cnt) (hlo : (rgn.region i).extent.lo ≤ p.extent.lo)
    (hhi : p.extent.hi ≤ (rgn.region i).extent.hi) (hproper : p.extent.lo < p.extent.hi)
    (he : ∀ a, e.Contains a → (rgn.region i).extent.Contains a)
    (hp : ∀ a, p.extent.Contains a ↔ (rgn.region i).extent.Contains a ∧ ¬e.Contains a) :
    Lessens rgn (rgn.set i p) e := by
  have hset := set_extents hi p
  have hsplit := extents_split hi
  have hord := h.ordered
  have hb := h.bounded
  rw [hsplit] at hord hb
  have hmax := hb (rgn.region i).extent (mem_append_right _ mem_cons_self)
  refine Lessens.of_ordered h h.few ?_ ?_ ?_
  · rw [hset]
    exact hord.shrink hlo hhi hproper
  · intro f hf
    rw [hset, mem_append, mem_cons] at hf
    rcases hf with hf | rfl | hf
    · exact hb f (mem_append_left _ hf)
    · exact le_trans hhi hmax
    · exact hb f (mem_append_right _ (mem_cons_of_mem _ hf))
  · intro a
    rw [hset, hsplit, covers_split, covers_split, hp]
    constructor
    · rintro (⟨hin, hout⟩ | ha)
      · exact ⟨.inl hin, hout⟩
      · exact ⟨.inr ha, fun hea => hord.apart (he a hea) ha⟩
    · rintro ⟨hin | ha, hout⟩
      · exact .inl ⟨hin, hout⟩
      · exact .inr ha

/-- The sum of base and size of the range to be freed does not wrap, or it wraps as that of the
only region does. -/
def EndsInside (rgn : LmbRegion) (base size : UInt32) : Prop :=
  base.toNat + size.toNat < 2 ^ 32 ∨
    base.toNat + size.toNat = 2 ^ 32 ∧ rgn.cnt = 1 ∧ (rgn.region 0).extent.hi = 2 ^ 32

theorem found_inside (h : rgn.Sound) (hend : rgn.EndsInside base size) (hi : i < rgn.cnt)
    (hlow : (rgn.region i).base ≤ base) (hhigh : base + size ≤ (rgn.region i).base + (rgn.region i).size) :
    base.toNat + size.toNat ≤ (rgn.region i).extent.hi ∧
      ((rgn.region i).base + (rgn.region i).size = base + size ↔
        (rgn.region i).extent.hi = base.toNat + size.toNat) := by
  have hproper := h.ordered.proper _ (mem_extents hi)
  have hmax := h.bounded _ (mem_extents hi)
  have hb' := (rgn.region i).base.toNat_lt
  have hs' := (rgn.region i).size.toNat_lt
  rw [UInt32.le_iff_toNat_le] at hlow hhigh
  rw [← UInt32.toNat_inj]
  simp only [LmbProperty.extent, UInt32.toNat_add] at hproper hmax hlow hhigh ⊢
  rcases hend with hend | ⟨hend, hone, hlast⟩
  · omega
  · have h0 : i = 0 := by omega
    subst i
    simp only [LmbProperty.extent] at hlast
    omega

theorem front_lessens (h : rgn.Sound) (hi : i < rgn.cnt) (hbase : (rgn.region i).base = base)
    (hhigh : base.toNat + size.toNat < (rgn.region i).extent.hi) :
    Lessens rgn (rgn.set i ⟨base + size, (rgn.region i).size - size⟩)
      (⟨base, size⟩ : LmbProperty).extent := by
  have hmax := h.bounded _ (mem_extents hi)
  subst base
  simp only [LmbProperty.extent] at hhigh hmax
  have hfin : ((rgn.region i).base + size).toNat = (rgn.region i).base.toNat + size.toNat := by
    rw [UInt32.toNat_add]
    omega
  have hrest : ((rgn.region i).size - size).toNat = (rgn.region i).size.toNat - size.toNat := by
    have hs := (rgn.region i).size.toNat_lt
    rw [UInt32.toNat_sub]
    omega
  apply set_lessens h hi <;> simp only [LmbProperty.extent, Extent.Contains, hfin, hrest]
  · omega
  · omega
  · omega
  · intro a
    omega
  · intro a
    omega

theorem back_lessens (h : rgn.Sound) (hi : i < rgn.cnt) (hlow : (rgn.region i).extent.lo < base.toNat)
    (hhigh : (rgn.region i).extent.hi = base.toNat + size.toNat) :
    Lessens rgn (rgn.set i ⟨(rgn.region i).base, (rgn.region i).size - size⟩)
      (⟨base, size⟩ : LmbProperty).extent := by
  simp only [LmbProperty.extent] at hlow hhigh
  have hrest : ((rgn.region i).size - size).toNat = (rgn.region i).size.toNat - size.toNat := by
    have hs := (rgn.region i).size.toNat_lt
    rw [UInt32.toNat_sub]
    omega
  apply set_lessens h hi <;> simp only [LmbProperty.extent, Extent.Contains, hrest]
  · omega
  · omega
  · omega
  · intro a
    omega
  · intro a
    omega

/-- The range lies within an entry of a full table, and what is behind it cannot be added to the
next one. -/
def SplitsFull (rgn : LmbRegion) (base size : UInt32) : Prop :=
  rgn.cnt = maxLmbRegions ∧ size ≠ 0 ∧ ∃ e ∈ rgn.extents, e.lo < base.toNat ∧
    base.toNat + size.toNat < e.hi ∧ ∀ f ∈ rgn.extents, f.lo ≠ e.hi

theorem split_lessens (h : rgn.Sound) (hi : i < rgn.cnt)
    (hlow : (rgn.region i).extent.lo < base.toNat)
    (hhigh : base.toNat + size.toNat < (rgn.region i).extent.hi) :
    ∃ rc rgn', (rgn.set i ⟨(rgn.region i).base, base - (rgn.region i).base⟩).add (base + size)
        ((rgn.region i).base + (rgn.region i).size - (base + size)) = some (rc, rgn') ∧
      (rc = -1 ∧ rgn.SplitsFull base size ∨
        0 ≤ rc ∧ Lessens rgn rgn' (⟨base, size⟩ : LmbProperty).extent) := by
  have hmem := mem_extents hi
  have hmax := h.bounded _ hmem
  simp only [LmbProperty.extent] at hlow hhigh hmax
  have hfront : (base - (rgn.region i).base).toNat = base.toNat - (rgn.region i).base.toNat := by
    rw [UInt32.toNat_sub]
    omega
  have hfin : (base + size).toNat = base.toNat + size.toNat := by
    rw [UInt32.toNat_add]
    omega
  have hback : ((rgn.region i).base + (rgn.region i).size - (base + size)).toNat =
      (rgn.region i).base.toNat + (rgn.region i).size.toNat - (base.toNat + size.toNat) := by
    rw [UInt32.toNat_sub, hfin, UInt32.toNat_add]
    omega
  have hcut : Lessens rgn (rgn.set i ⟨(rgn.region i).base, base - (rgn.region i).base⟩)
      ⟨base.toNat, (rgn.region i).extent.hi⟩ := by
    apply set_lessens h hi <;> simp only [LmbProperty.extent, Extent.Contains, hfront]
    · omega
    · omega
    · omega
    · intro a
      omega
    · intro a
      omega
  have hbackExt : (⟨base + size, (rgn.region i).base + (rgn.region i).size - (base + size)⟩ :
      LmbProperty).extent = ⟨base.toNat + size.toNat, (rgn.region i).extent.hi⟩ := by
    simp only [LmbProperty.extent, hfin, hback]
    congr 1
    omega
  have hfresh : (rgn.set i ⟨(rgn.region i).base, base - (rgn.region i).base⟩).Fresh
      ⟨base.toNat + size.toNat, (rgn.region i).extent.hi⟩ := by
    have hold : ∀ a, (⟨base.toNat + size.toNat, (rgn.region i).extent.hi⟩ : Extent).Contains a ∨
        Covers (rgn.set i ⟨(rgn.region i).base, base - (rgn.region i).base⟩).extents a →
          Covers rgn.extents a := by
      rintro a (ha | ha)
      · refine ⟨_, hmem, ?_⟩
        simp only [Extent.Contains, LmbProperty.extent] at ha ⊢
        omega
      · exact ((hcut.covers a).mp ha).1
    refine ⟨hhigh, hmax, fun a ha hcov => ((hcut.covers a).mp hcov).2 ?_, ?_⟩
    · simp only [Extent.Contains] at ha ⊢
      omega
    · rintro ⟨hlowest, hhighest⟩
      exact h.oneEnd ⟨hold _ hlowest, hold _ hhighest⟩
  rw [← hbackExt] at hfresh
  obtain ⟨rc, rgn', hadd, hres⟩ := add_extends hcut.sound (fun h0 => absurd h0 (Nat.ne_zero_of_lt hi)) hfresh
  refine ⟨rc, rgn', hadd, ?_⟩
  rcases hres with ⟨hrc, _, hfull, hnone⟩ | ⟨hrc, hext⟩
  · have hfar := List.find?_eq_none.mp hnone
    simp only [mem_range, decide_eq_true_eq, not_or, ne_eq, not_not] at hfar
    refine .inl ⟨hrc, hfull, fun h0 => ?_, _, hmem, hlow, hhigh, fun f hf heq => ?_⟩
    · -- with no hole the part behind would be put back to the one before
      refine lmbAddrsAdjacent_below ?_ (hfar i hi).2
      rw [set_region_self, hfin, h0, UInt32.toNat_zero]
      dsimp only
      omega
    · obtain ⟨p, hp, rfl⟩ := mem_map.mp hf
      obtain ⟨k, _, hk, rfl⟩ := mem_slice.mp hp
      have hki : k ≠ i := by
        rintro rfl
        simp only [LmbProperty.extent] at heq
        omega
      refine lmbAddrsAdjacent_above ?_ (hfar k hk).2
      rw [set_region_of_ne hki, hfin, hback]
      simp only [LmbProperty.extent] at heq
      omega
  · refine .inr ⟨hrc, hext.sound, fun a => ?_⟩
    rw [hext.covers, hcut.covers, hbackExt]
    have hin : (rgn.region i).extent.Contains a → Covers rgn.extents a := fun ha => ⟨_, hmem, ha⟩
    simp only [Extent.Contains, LmbProperty.extent] at hin ⊢
    constructor
    · rintro (ha | ⟨ha, hout⟩)
      · exact ⟨hin (by omega), by omega⟩
      · exact ⟨ha, by omega⟩
    · rintro ⟨ha, hout⟩
      by_cases hbehind : base.toNat + size.toNat ≤ a ∧
          a < (rgn.region i).base.toNat + (rgn.region i).size.toNat
      · exact .inl hbehind
      · exact .inr ⟨ha, by omega⟩

theorem free_lessens (h : rgn.Sound) (hend : rgn.EndsInside base size) :
    ∃ rc rgn', rgn.free base size = some (rc, rgn') ∧ (rc = -1 ∧ (rgn' = rgn ∨ rgn.SplitsFull base size) ∨
        0 ≤ rc ∧ Lessens rgn rgn' (⟨base, size⟩ : LmbProperty).extent ∧
          ∀ a, (⟨base, size⟩ : LmbProperty).extent.Contains a → Covers rgn.extents a) := by
  unfold free
  dsimp only
  split
  · exact ⟨-1, rgn, rfl, .inl ⟨rfl, .inl rfl⟩⟩
  next i hfind =>
    have hi := mem_range.mp (mem_of_find?_eq_some hfind)
    have hfound := List.find?_some hfind
    simp only [decide_eq_true_eq] at hfound
    obtain ⟨hin, hends⟩ := found_inside h hend hi hfound.1 hfound.2
    have hlow := UInt32.le_iff_toNat_le.mp hfound.1
    have hmem := mem_extents hi
    have hcov : ∀ a, (⟨base, size⟩ : LmbProperty).extent.Contains a → Covers rgn.extents a := by
      intro a ha
      refine ⟨_, hmem, ?_⟩
      simp only [Extent.Contains, LmbProperty.extent] at ha hin ⊢
      omega
    by_cases hall : (rgn.region i).base = base ∧ (rgn.region i).base + (rgn.region i).size = base + size
    · obtain ⟨rgn', hr, _, hless⟩ := remove_lessens h hi
      have hsame : (rgn.region i).extent = (⟨base, size⟩ : LmbProperty).extent := by
        have hhi := hends.mp hall.2
        simp only [LmbProperty.extent, hall.1] at hhi ⊢
        rw [hhi]
      rw [if_pos hall, hr]
      rw [hsame] at hless
      exact ⟨0, rgn', rfl, .inr ⟨Int.le_refl 0, hless, hcov⟩⟩
    rw [if_neg hall]
    by_cases hfront : (rgn.region i).base = base
    · rw [if_pos hfront]
      refine ⟨0, _, rfl, .inr ⟨Int.le_refl 0, ?_, hcov⟩⟩
      have hne : (rgn.region i).extent.hi ≠ base.toNat + size.toNat := fun hhi =>
        hall ⟨hfront, hends.mpr hhi⟩
      exact front_lessens h hi hfront (by omega)
    rw [if_neg hfront]
    have hbelow : (rgn.region i).extent.lo < base.toNat := by
      have hne : (rgn.region i).base.toNat ≠ base.toNat := fun heq => hfront (UInt32.toNat_inj.mp heq)
      exact lt_of_le_of_ne hlow hne
    by_cases hback : (rgn.region i).base + (rgn.region i).size = base + size
    · rw [if_pos hback]
      exact ⟨0, _, rfl, .inr ⟨Int.le_refl 0, back_lessens h hi hbelow (hends.mp hback), hcov⟩⟩
    rw [if_neg hback]
    have hne : (rgn.region i).extent.hi ≠ base.toNat + size.toNat := fun hhi => hback (hends.mpr hhi)
    have habove : base.toNat + size.toNat < (rgn.region i).extent.hi := by omega
    obtain ⟨rc, rgn', hadd, hres⟩ := split_lessens h hi hbelow habove
    refine ⟨rc, rgn', hadd, ?_⟩
    rcases hres with ⟨hrc, hfull⟩ | ⟨hrc, hless⟩
    · exact .inl ⟨hrc, .inr hfull⟩
    · exact .inr ⟨hrc, hless, hcov⟩

end LmbRegion

end UBoot
