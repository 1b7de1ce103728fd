import UBoot.Lmb

namespace UBoot

open Extents List Slices

variable {base1 base2 size1 size2 : UInt32}

theorem lmbAddrsAdjacent_cases
    (h1 : base1.toNat + size1.toNat ≤ 2 ^ 32) (h2 : base2.toNat + size2.toNat ≤ 2 ^ 32)
    (hends : ¬(base1.toNat + size1.toNat = 2 ^ 32 ∧ base2.toNat = 0))
    (hends' : ¬(base2.toNat + size2.toNat = 2 ^ 32 ∧ base1.toNat = 0))
    (h : lmbAddrsAdjacent base1 size1 base2 size2 ≠ 0) :
    (0 < lmbAddrsAdjacent base1 size1 base2 size2 ∧ base2.toNat = base1.toNat + size1.toNat) ∨
      (¬0 < lmbAddrsAdjacent base1 size1 base2 size2 ∧ base1.toNat = base2.toNat + size2.toNat) := by
  unfold lmbAddrsAdjacent at h ⊢
  by_cases hup : base2 = base1 + size1
  · have hnat := congrArg UInt32.toNat hup
    rw [UInt32.toNat_add] at hnat
    rw [if_pos hup]
    exact .inl ⟨by decide, by omega⟩
  · rw [if_neg hup] at h ⊢
    by_cases hdown : base1 = base2 + size2
    · have hnat := congrArg UInt32.toNat hdown
      rw [UInt32.toNat_add] at hnat
      rw [if_pos hdown]
      exact .inr ⟨by decide, by omega⟩
    · rw [if_neg hdown] at h
      exact absurd rfl h

theorem lmbAddrsAdjacent_above (h : base2.toNat = base1.toNat + size1.toNat) :
    lmbAddrsAdjacent base1 size1 base2 size2 ≠ 0 := by
  have hb2 := base2.toNat_lt
  have hup : base2 = base1 + size1 := by
    apply UInt32.toNat_inj.mp
    rw [UInt32.toNat_add]
    omega
  rw [lmbAddrsAdjacent, if_pos hup]
  decide

theorem lmbAddrsAdjacent_below (h : base1.toNat = base2.toNat + size2.toNat) :
    lmbAddrsAdjacent base1 size1 base2 size2 ≠ 0 := by
  have hb1 := base1.toNat_lt
  have hdown : base1 = base2 + size2 := by
    apply UInt32.toNat_inj.mp
    rw [UInt32.toNat_add]
    omega
  rw [lmbAddrsAdjacent, if_pos hdown]
  split <;> decide

namespace LmbRegion

variable {rgn : LmbRegion} {base size : UInt32} {p : LmbProperty} {i : Nat} {a : Nat}
  {pre post : List Extent} {e : Extent}

theorem mem_extents (h : i < rgn.cnt) : (rgn.region i).extent ∈ rgn.extents :=
  mem_map_of_mem (mem_slice.mpr ⟨i, Nat.zero_le i, h, rfl⟩)

theorem Sound.ends (h : rgn.Sound) {f : Extent} (he : e ∈ rgn.extents) (hf : f ∈ rgn.extents) :
    ¬(e.lo = 0 ∧ f.hi = 2 ^ 32) := by
  rintro ⟨hlo, hhi⟩
  have hpe := h.ordered.proper e he
  have hpf := h.ordered.proper f hf
  refine h.oneEnd ⟨⟨e, he, ?_⟩, ⟨f, hf, ?_⟩⟩ <;> unfold Extent.Contains <;> omega

theorem Sound.apart (h : rgn.Sound) {j k : Nat} (hjk : j < k) (hk : k < rgn.cnt) :
    (rgn.region j).extent.hi ≤ (rgn.region k).extent.lo := by
  have hmem : (rgn.region j).extent ∈ rgn.before k :=
    mem_map_of_mem (mem_slice.mpr ⟨j, Nat.zero_le j, hjk, rfl⟩)
  have hord := h.ordered
  rw [extents_split hk] at hord
  exact (ordered_split.mp hord).2.2.1 _ hmem

theorem Sound.sorted (h : rgn.Sound) {j k : Nat} (hjk : j ≤ k) (hk : k < rgn.cnt) :
    (rgn.region j).base ≤ (rgn.region k).base := by
  rcases eq_or_lt_of_le hjk with rfl | hlt
  · exact UInt32.le_refl _
  have hle := h.apart hlt hk
  simp only [LmbProperty.extent] at hle
  apply UInt32.le_iff_toNat_le.mpr
  omega

theorem Sound.touch (h : rgn.Sound) (hi : i + 1 < rgn.cnt) (hadj : rgn.regionsAdjacent i (i + 1)) :
    (rgn.region (i + 1)).extent.lo = (rgn.region i).extent.hi := by
  have hmem := mem_extents (Nat.lt_of_succ_lt hi)
  have hmem' := mem_extents hi
  have hle := h.apart (Nat.lt_add_one i) hi
  have hproper := h.ordered.proper _ hmem
  have hproper' := h.ordered.proper _ hmem'
  have hmax := h.bounded _ hmem
  have hmax' := h.bounded _ hmem'
  have hends := h.ends hmem hmem'
  have hends' := h.ends hmem' hmem
  simp only [LmbProperty.extent] at hle hproper hproper' hmax hmax' hends hends' ⊢
  have hne := of_decide_eq_true hadj
  rcases lmbAddrsAdjacent_cases hmax hmax' (by omega) (by omega) hne with ⟨_, htouch⟩ | ⟨_, htouch⟩
  · exact htouch
  · omega

/-- A table of at most eight regions that covers what a sound one does, and one range more. -/
structure Extends (rgn rgn' : LmbRegion) (e : Extent) : Prop where
  some : 0 < rgn'.cnt
  sound : rgn'.Sound
  covers : ∀ a, Covers rgn'.extents a ↔ e.Contains a ∨ Covers rgn.extents a

/-- The new range is no part of the table, and with it the table does not reach both ends of the
address space. -/
structure Fresh (rgn : LmbRegion) (e : Extent) : Prop where
  proper : e.lo < e.hi
  bounded : e.hi ≤ 2 ^ 32
  free : ∀ a, e.Contains a → ¬Covers rgn.extents a
  oneEnd : ¬((e.Contains 0 ∨ Covers rgn.extents 0) ∧
    (e.Contains (2 ^ 32 - 1) ∨ Covers rgn.extents (2 ^ 32 - 1)))

theorem Fresh.ends (hf : rgn.Fresh e) {f : Extent} (hmem : f ∈ rgn.extents) (hproper : f.lo < f.hi) :
    ¬(e.lo = 0 ∧ f.hi = 2 ^ 32) ∧ ¬(f.lo = 0 ∧ e.hi = 2 ^ 32) ∧ ¬(e.lo = 0 ∧ e.hi = 2 ^ 32) := by
  have he := hf.proper
  have hcov : ∀ a, f.Contains a → e.Contains a ∨ Covers rgn.extents a := fun a ha => .inr ⟨f, hmem, ha⟩
  refine ⟨?_, ?_, ?_⟩
  · rintro ⟨hlo, hhi⟩
    refine hf.oneEnd ⟨.inl ?_, hcov _ ?_⟩ <;> unfold Extent.Contains <;> omega
  · rintro ⟨hlo, hhi⟩
    refine hf.oneEnd ⟨hcov _ ?_, .inl ?_⟩ <;> unfold Extent.Contains <;> omega
  · rintro ⟨hlo, hhi⟩
    refine hf.oneEnd ⟨.inl ?_, .inl ?_⟩ <;> unfold Extent.Contains <;> omega

theorem Extends.of_ordered {rgn' : LmbRegion} (hf : rgn.Fresh e) (hsome : 0 < rgn'.cnt)
    (hfew : rgn'.cnt ≤ maxLmbRegions) (hord : Ordered rgn'.extents)
    (hb : ∀ f ∈ rgn'.extents, f.hi ≤ 2 ^ 32)
    (hcov : ∀ a, Covers rgn'.extents a ↔ e.Contains a ∨ Covers rgn.extents a) : Extends rgn rgn' e := by
  refine ⟨hsome, ⟨hfew, hord, hb, ?_⟩, hcov⟩
  rw [hcov, hcov]
  exact hf.oneEnd

theorem insert_extends (h : rgn.Sound) (hempty : rgn.cnt = 0 → base < (rgn.region 0).base)
    (hfew : rgn.cnt < maxLmbRegions)
    (hf : rgn.Fresh (⟨base, size⟩ : LmbProperty).extent) :
    Extends rgn (rgn.insert base size) (⟨base, size⟩ : LmbProperty).extent := by
  obtain ⟨k, hk, hbelow, habove, hext⟩ := insert_extents base size (fun j k => h.sorted) hempty
  have hsplit : rgn.extents = rgn.before k ++ rgn.after k := by
    rw [extents, before, after, ← map_append, slice_append (Nat.zero_le k) hk]
  have hord : Ordered (rgn.insert base size).extents := by
    rw [hext]
    apply Ordered.insert
    · rw [← hsplit]
      exact h.ordered
    · exact hf.proper
    · intro f hmem
      obtain ⟨q, hq, rfl⟩ := mem_map.mp hmem
      obtain ⟨j, _, hj, rfl⟩ := mem_slice.mp hq
      exact UInt32.le_iff_toNat_le.mp (hbelow j hj)
    · intro f hmem
      obtain ⟨q, hq, rfl⟩ := mem_map.mp hmem
      obtain ⟨j, hkj, hj, rfl⟩ := mem_slice.mp hq
      exact le_of_lt (UInt32.lt_iff_toNat_lt.mp (habove j hkj hj))
    · rw [← hsplit]
      exact hf.free
  have hsome : 0 < (rgn.insert base size).cnt := Nat.succ_pos _
  refine Extends.of_ordered hf hsome hfew hord ?_ ?_
  · intro f hmem
    rw [hext, mem_append, mem_cons] at hmem
    rcases hmem with hmem | rfl | hmem
    · exact h.bounded f (by rw [hsplit]; exact mem_append_left _ hmem)
    · exact hf.bounded
    · exact h.bounded f (by rw [hsplit]; exact mem_append_right _ hmem)
  · intro a
    rw [hext, covers_split, ← hsplit]

theorem set_extends (h : rgn.Sound) (hi : i < rgn.cnt) (hf : rgn.Fresh e)
    (hlo : p.extent.lo ≤ (rgn.region i).extent.lo) (hhi : (rgn.region i).extent.hi ≤ p.extent.hi)
    (hmax : p.extent.hi ≤ 2 ^ 32)
    (hp : ∀ a, p.extent.Contains a ↔ e.Contains a ∨ (rgn.region i).extent.Contains a) :
    Extends rgn (rgn.set i p) e := by
  have hsplit := extents_split hi
  have hset := set_extents hi p
  have hord : Ordered (rgn.set i p).extents := by
    rw [hset]
    have hold := h.ordered
    rw [hsplit] at hold
    apply hold.grow hlo hhi
    intro a ha hna
    have hea := ((hp a).mp ha).resolve_right hna
    have := hf.free a hea
    rw [hsplit, covers_split, not_or] at this
    exact this.2
  refine Extends.of_ordered hf (lt_of_le_of_lt (Nat.zero_le i) hi) h.few hord ?_ ?_
  · intro f hmem
    rw [hset, mem_append, mem_cons] at hmem
    have hold := h.bounded
    rw [hsplit] at hold
    rcases hmem with hmem | rfl | hmem
    · exact hold f (mem_append_left _ hmem)
    · exact hmax
    · exact hold f (mem_append_right _ (mem_cons_of_mem _ hmem))
  · intro a
    rw [hset, hsplit, covers_split, covers_split, hp]
    exact or_assoc

theorem coalesce_sound (h : rgn.Sound) (hi : i + 1 < rgn.cnt)
    (htouch : (rgn.region (i + 1)).extent.lo = (rgn.region i).extent.hi) :
    ∃ rgn', rgn.coalesce i (i + 1) = some rgn' ∧ 0 < rgn'.cnt ∧ rgn'.Sound ∧
      ∀ a, Covers rgn'.extents a ↔ Covers rgn.extents a := by
  obtain ⟨rgn', hr, hcnt, hext⟩ := coalesce_extents hi rfl
  have hmem := mem_extents (Nat.lt_of_succ_lt hi)
  have hmem' := mem_extents hi
  have hproper := h.ordered.proper _ hmem
  have hproper' := h.ordered.proper _ hmem'
  have hmax := h.bounded _ hmem'
  have hends := h.ends hmem hmem'
  have hold : rgn.extents = rgn.before i ++ (rgn.region i).extent :: (rgn.region (i + 1)).extent ::
      rgn.after (i + 2) := by
    rw [extents_split (Nat.lt_of_succ_lt hi)]
    congr 2
    rw [after, slice_cons hi, map_cons]
    rfl
  have hp : (⟨(rgn.region i).base, (rgn.region i).size + (rgn.region (i + 1)).size⟩ :
      LmbProperty).extent = ⟨(rgn.region i).extent.lo, (rgn.region (i + 1)).extent.hi⟩ := by
    simp only [LmbProperty.extent] at htouch hmax hends ⊢
    rw [UInt32.toNat_add]
    congr 1
    omega
  rw [hp] at hext
  have hcov : ∀ a, Covers rgn'.extents a ↔ Covers rgn.extents a := by
    intro a
    rw [hext, hold]
    exact covers_join htouch (le_of_lt hproper) (le_of_lt hproper')
  have hord := h.ordered
  have hbounded := h.bounded
  rw [hold] at hord hbounded
  refine ⟨rgn', hr, by omega, ⟨?_, ?_, ?_, ?_⟩, hcov⟩
  · have := h.few
    omega
  · rw [hext]
    exact hord.join htouch
  · intro f hf
    rw [hext, mem_append, mem_cons] at hf
    rcases hf with hf | rfl | hf
    · exact hbounded f (mem_append_left _ hf)
    · exact hmax
    · apply hbounded f
      rw [mem_append, mem_cons, mem_cons]
      exact .inr (.inr (.inr hf))
  · rw [hcov, hcov]
    exact h.oneEnd

theorem grown_extends (h : rgn.Sound) (hi : i < rgn.cnt)
    (hf : rgn.Fresh (⟨base, size⟩ : LmbProperty).extent)
    (hnear : lmbAddrsAdjacent base size (rgn.region i).base (rgn.region i).size ≠ 0)
    (hp : p = if 0 < lmbAddrsAdjacent base size (rgn.region i).base (rgn.region i).size then
        ⟨(rgn.region i).base - size, (rgn.region i).size + size⟩
      else ⟨(rgn.region i).base, (rgn.region i).size + size⟩) :
    Extends rgn (rgn.set i p) (⟨base, size⟩ : LmbProperty).extent := by
  have hmem := mem_extents hi
  have hproper := hf.proper
  have hmax := hf.bounded
  have hproper' := h.ordered.proper _ hmem
  have hmax' := h.bounded _ hmem
  have hends := h.ends hmem hmem
  obtain ⟨hlow, hhigh, hboth⟩ := hf.ends hmem (h.ordered.proper _ hmem)
  simp only [LmbProperty.extent] at hproper hmax hproper' hmax' hends hlow hhigh hboth
  have hside := lmbAddrsAdjacent_cases hmax hmax' (by omega) (by omega) hnear
  have hb' := (rgn.region i).base.toNat_lt
  rcases hside with ⟨hpos, htouch⟩ | ⟨hneg, htouch⟩
  · rw [if_pos hpos] at hp
    have hbase : ((rgn.region i).base - size).toNat = base.toNat := by
      rw [UInt32.toNat_sub]
      omega
    have hsize : ((rgn.region i).size + size).toNat = (rgn.region i).size.toNat + size.toNat := by
      rw [UInt32.toNat_add]
      omega
    subst p
    apply set_extends h hi hf <;> simp only [LmbProperty.extent, Extent.Contains, hbase, hsize]
    · omega
    · omega
    · omega
    · intro a
      omega
  · rw [if_neg hneg] at hp
    have hsize : ((rgn.region i).size + size).toNat = (rgn.region i).size.toNat + size.toNat := by
      rw [UInt32.toNat_add]
      omega
    subst p
    apply set_extends h hi hf <;> simp only [LmbProperty.extent, Extent.Contains, hsize]
    · omega
    · omega
    · omega
    · intro a
      omega

theorem add_dummy (hcnt : rgn.cnt = 1) (hdummy : (rgn.region 0).size = 0)
    (hproper : 0 < size.toNat) (hmax : base.toNat + size.toNat ≤ 2 ^ 32)
    (hends : ¬((⟨base, size⟩ : LmbProperty).extent.Contains 0 ∧
      (⟨base, size⟩ : LmbProperty).extent.Contains (2 ^ 32 - 1))) :
    ∃ rgn', rgn.add base size = some (0, rgn') ∧ rgn'.Sound ∧
      ∀ a, Covers rgn'.extents a ↔ (⟨base, size⟩ : LmbProperty).extent.Contains a := by
  have hext := set_extents (Nat.lt_of_lt_of_eq Nat.one_pos hcnt.symm) ⟨base, size⟩
  have hafter : rgn.after 1 = [] := by
    rw [after, slice_empty (le_of_eq hcnt)]
    rfl
  have hbefore : rgn.before 0 = [] := rfl
  rw [hbefore, hafter, nil_append] at hext
  have hcov : ∀ a, Covers (rgn.set 0 ⟨base, size⟩).extents a ↔
      (⟨base, size⟩ : LmbProperty).extent.Contains a := by
    intro a
    rw [hext, covers_cons]
    exact or_iff_left covers_nil
  have hfew : (rgn.set 0 ⟨base, size⟩).cnt ≤ maxLmbRegions := by
    change rgn.cnt ≤ 8
    omega
  refine ⟨_, if_pos ⟨hcnt, hdummy⟩, ⟨hfew, ?_, ?_, ?_⟩, hcov⟩
  · rw [hext]
    refine ⟨pairwise_singleton _ _, fun e he => ?_⟩
    rw [mem_singleton.mp he]
    exact Nat.lt_add_of_pos_right hproper
  · intro e he
    rw [hext] at he
    rw [mem_singleton.mp he]
    exact hmax
  · rw [hcov, hcov]
    exact hends

/-- The code that adds a range does not take what an empty table has left for its entries. -/
def Ready (rgn : LmbRegion) (base : UInt32) : Prop :=
  rgn.cnt = 0 → base < (rgn.region 0).base ∧ ¬rgn.regionsAdjacent 0 1

instance (rgn : LmbRegion) (base : UInt32) : Decidable (rgn.Ready base) :=
  inferInstanceAs (Decidable (_ → _))

theorem add_extends (h : rgn.Sound) (hready : rgn.Ready base)
    (hf : rgn.Fresh (⟨base, size⟩ : LmbProperty).extent) :
    ∃ rc rgn', rgn.add base size = some (rc, rgn') ∧
      (rc = -1 ∧ rgn' = rgn ∧ rgn.cnt = maxLmbRegions ∧ rgn.findNear base size = none ∨
        0 ≤ rc ∧ Extends rgn rgn' (⟨base, size⟩ : LmbProperty).extent) := by
  have hproper := hf.proper
  have hmax := hf.bounded
  simp only [LmbProperty.extent] at hproper hmax
  have hnodummy : ¬(rgn.cnt = 1 ∧ (rgn.region 0).size = 0) := by
    rintro ⟨hcnt, h0⟩
    have hmem : (rgn.region 0).extent ∈ rgn.extents := mem_extents (by omega)
    have := h.ordered.proper _ hmem
    simp only [LmbProperty.extent, h0, UInt32.toNat_zero] at this
    omega
  unfold add
  rw [if_neg hnodummy]
  split
  next i hfind =>
    obtain ⟨hstop, hi⟩ : _ ∧ i < rgn.cnt := by
      have hs := List.find?_some hfind
      have hm := mem_range.mp (mem_of_find?_eq_some hfind)
      exact ⟨hs, hm⟩
    have hmem := mem_extents hi
    have hne : rgn.region i ≠ ⟨base, size⟩ := by
      intro heq
      refine hf.free base.toNat ?_ ⟨_, hmem, ?_⟩
      · simp only [Extent.Contains, LmbProperty.extent]
        omega
      · rw [heq]
        simp only [Extent.Contains, LmbProperty.extent]
        omega
    rw [if_neg hne]
    have hnear : lmbAddrsAdjacent base size (rgn.region i).base (rgn.region i).size ≠ 0 := by
      simp only [decide_eq_true_eq] at hstop
      exact hstop.resolve_left hne
    obtain ⟨grown, hgrown⟩ : ∃ grown : LmbProperty, grown =
      if 0 < lmbAddrsAdjacent base size (rgn.region i).base (rgn.region i).size then
        ⟨(rgn.region i).base - size, (rgn.region i).size + size⟩
      else ⟨(rgn.region i).base, (rgn.region i).size + size⟩ := ⟨_, rfl⟩
    have hext := grown_extends h hi hf hnear hgrown
    dsimp only
    rw [← hgrown]
    split
    next hnext =>
      have htouch : ((rgn.set i grown).region (i + 1)).extent.lo = ((rgn.set i grown).region i).extent.hi :=
        hext.sound.touch hnext.1 hnext.2
      obtain ⟨rgn', hr, hsome, hsound, hcov⟩ := coalesce_sound hext.sound hnext.1 htouch
      rw [hr]
      refine ⟨2, rgn', rfl, .inr ⟨by decide, hsome, hsound, fun a => ?_⟩⟩
      rw [hcov, hext.covers]
    · exact ⟨1, _, rfl, .inr ⟨by decide, hext⟩⟩
  next hnone =>
    rw [if_neg fun hstale => (hready hstale.1).2 hstale.2]
    split
    next hfull => exact ⟨-1, rgn, rfl, .inl ⟨rfl, rfl, le_antisymm h.few hfull, hnone⟩⟩
    next hfew => exact ⟨0, _, rfl, .inr ⟨Int.le_refl 0, insert_extends h (fun h0 => (hready h0).1) (by omega) hf⟩⟩

end LmbRegion

end UBoot
