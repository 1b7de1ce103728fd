import UBoot.LmbAlloc
import UBoot.Runs

namespace UBoot

open Extents Slices Runs

inductive LmbAllocCall where
  | allocBase (size align maxAddr : UInt32)
  | free (base size : UInt32)

def lmbAllocStep (lmb : Lmb) : LmbAllocCall → Option (Int × Lmb)
  | .allocBase size align maxAddr =>
    (lmbAllocBase lmb size align maxAddr).map fun r => (r.1.toNat, r.2)
  | .free base size => lmbFree lmb base size

def LmbAllocCall.Failed : LmbAllocCall → Int → Prop
  | .allocBase _ _ _, rc => rc = 0
  | .free _ _, rc => rc < 0

/-- The reserved regions are in order and apart, and in memory. -/
structure Lmb.Tidy (lmb : Lmb) : Prop where
  apart : lmb.reserved.extents.Pairwise fun e f => e.hi ≤ f.lo
  inside : ∀ a, Covers lmb.reserved.extents a → Covers lmb.memory.extents a

/-- Memory that ends before the address space does, and at most eight reserved regions that are
not empty, or the dummy one of `lmb_init`. -/
structure Lmb.Plain (lmb : Lmb) : Prop where
  memory : ∀ e ∈ lmb.memory.extents, e.hi < 2 ^ 32
  few : lmb.reserved.cnt ≤ maxLmbRegions
  proper : lmb.reserved.cnt = 1 ∧ (lmb.reserved.region 0).size = 0 ∨ ∀ e ∈ lmb.reserved.extents, e.lo < e.hi

def LmbAllocSafe (lmb : Lmb) : LmbAllocCall → Prop
  | .allocBase size align maxAddr =>
    size ≠ 0 ∧ (∃ k, align.toNat = 2 ^ k) ∧ (maxAddr = lmbAllocAnywhere ∨ size ≤ maxAddr) ∧
      lmb.Rounds size align ∧
      -- the table is not one that `lmb_free` has emptied and left with entries to be taken again
      (lmb.reserved.cnt = 0 → ¬lmb.reserved.regionsAdjacent 0 1 ∧
        ∀ a, (lmb.reserved.region 0).extent.Contains a → Covers lmb.memory.extents a)
  | .free base size => base.toNat + size.toNat < 2 ^ 32 ∧ ¬lmb.reserved.SplitsFull base size

/-- What every call keeps. -/
structure Lmb.Kept (lmb : Lmb) : Prop where
  memory : ∀ e ∈ lmb.memory.extents, e.hi < 2 ^ 32
  table : lmb.reserved.cnt = 1 ∧ (lmb.reserved.region 0).size = 0 ∨ lmb.reserved.Sound
  inside : ∀ a, Covers lmb.reserved.extents a → Covers lmb.memory.extents a

variable {lmb : Lmb} {base size align maxAddr place : UInt32} {k : Nat} {rgn : LmbRegion} {e : Extent}

theorem not_covers_last (hmem : ∀ e ∈ lmb.memory.extents, e.hi < 2 ^ 32) :
    ¬Covers lmb.memory.extents (2 ^ 32 - 1) := by
  rintro ⟨e, he, hin⟩
  have := hmem e he
  unfold Extent.Contains at hin
  omega

theorem hi_le_of_inside (hmem : ∀ e ∈ lmb.memory.extents, e.hi < 2 ^ 32) (hproper : e.lo < e.hi)
    (hin : ∀ a, e.Contains a → Covers lmb.memory.extents a) : e.hi ≤ 2 ^ 32 := by
  have hlast : e.Contains (e.hi - 1) := by
    unfold Extent.Contains
    omega
  obtain ⟨f, hf, hfin⟩ := hin _ hlast
  have := hmem f hf
  unfold Extent.Contains at hfin
  omega

theorem sound_of_tidy (hmem : ∀ e ∈ lmb.memory.extents, e.hi < 2 ^ 32) (hfew : rgn.cnt ≤ maxLmbRegions)
    (hord : Ordered rgn.extents) (hin : ∀ a, Covers rgn.extents a → Covers lmb.memory.extents a) :
    rgn.Sound := by
  refine ⟨hfew, hord, fun e he => ?_, fun hboth => not_covers_last hmem (hin _ hboth.2)⟩
  exact hi_le_of_inside hmem (hord.proper e he) fun a ha => hin a ⟨e, he, ha⟩

theorem Lmb.Plain.kept (h : lmb.Plain) (ht : lmb.Tidy) : lmb.Kept := by
  refine ⟨h.memory, h.proper.imp_right fun hproper => ?_, ht.inside⟩
  exact sound_of_tidy h.memory h.few ⟨ht.apart, hproper⟩ ht.inside

theorem Lmb.Kept.tidy (h : lmb.Kept) : lmb.Tidy := by
  refine ⟨?_, h.inside⟩
  rcases h.table with ⟨hcnt, _⟩ | hsound
  · have hone : lmb.reserved.extents = [(lmb.reserved.region 0).extent] := by
      rw [LmbRegion.extents, hcnt]
      rfl
    rw [hone]
    exact List.pairwise_singleton _ _
  · exact hsound.ordered.sorted

theorem add_emptied (h0 : rgn.cnt = 0) (hadj : ¬rgn.regionsAdjacent 0 1)
    (hge : ¬base < (rgn.region 0).base) : rgn.add base size = some (0, ⟨1, rgn.region⟩) := by
  have hnone : rgn.findNear base size = none := by
    rw [LmbRegion.findNear, h0]
    rfl
  have hinsert : rgn.insert base size = ⟨1, rgn.region⟩ := by
    simp only [LmbRegion.insert, h0, LmbRegion.shiftUp]
    rw [if_neg hge]
  rw [LmbRegion.add, if_neg (by omega), hnone, hinsert]
  rw [if_neg fun hstale => hadj hstale.2, h0]
  rfl

theorem extents_one (region : Nat → LmbProperty) :
    (⟨1, region⟩ : LmbRegion).extents = [(region 0).extent] := rfl

theorem add_kept (h : lmb.Kept) (hsize : size ≠ 0) (halign : align.toNat = 2 ^ k)
    (hrounds : lmb.Rounds size align) (hplace : lmb.Place size align place)
    (hstale : lmb.reserved.cnt = 0 → ¬lmb.reserved.regionsAdjacent 0 1 ∧
      ∀ a, (lmb.reserved.region 0).extent.Contains a → Covers lmb.memory.extents a) :
    ∃ rc rgn', lmb.reserved.add place (lmbAlignUp size align) = some (rc, rgn') ∧
      Lmb.Kept { lmb with reserved := rgn' } ∧ (rc < 0 → rgn' = lmb.reserved) := by
  have hin := fun a => hplace.inside_memory halign h.memory hrounds (a := a)
  have hpos : 0 < (lmbAlignUp size align).toNat := by
    have hsizePos : 0 < size.toNat := Nat.pos_of_ne_zero fun h0 => hsize (UInt32.toNat_inj.mp h0)
    have hA : 0 < align.toNat := by
      rw [halign]
      exact Nat.two_pow_pos k
    have hle := le_roundUp hA size.toNat
    rw [hplace.roundUp halign h.memory]
    omega
  have hproper : (⟨place, lmbAlignUp size align⟩ : LmbProperty).extent.lo <
      (⟨place, lmbAlignUp size align⟩ : LmbProperty).extent.hi := Nat.lt_add_of_pos_right hpos
  have hmax := hi_le_of_inside h.memory hproper hin
  have hlast : ¬(⟨place, lmbAlignUp size align⟩ : LmbProperty).extent.Contains (2 ^ 32 - 1) :=
    fun hc => not_covers_last h.memory (hin _ hc)
  rcases h.table with ⟨hcnt, hdummy⟩ | hsound
  · obtain ⟨rgn', hadd, hsound, hcov⟩ := LmbRegion.add_dummy hcnt hdummy hpos hmax fun hc => hlast hc.2
    exact ⟨0, rgn', hadd, ⟨h.memory, .inr hsound, fun a ha => hin a ((hcov a).mp ha)⟩,
      fun hrc => absurd hrc (by decide)⟩
  · by_cases hempty : lmb.reserved.cnt = 0 ∧ ¬place < (lmb.reserved.region 0).base
    · have hone := extents_one lmb.reserved.region
      obtain ⟨hadj, hold⟩ := hstale hempty.1
      have hinside : ∀ a, Covers (⟨1, lmb.reserved.region⟩ : LmbRegion).extents a →
          Covers lmb.memory.extents a := by
        rw [hone]
        intro a ha
        rcases covers_cons.mp ha with ha | ha
        · exact hold a ha
        · exact absurd ha covers_nil
      refine ⟨0, _, add_emptied hempty.1 hadj hempty.2, ⟨h.memory, ?_, hinside⟩,
        fun hrc => absurd hrc (by decide)⟩
      by_cases h0 : (lmb.reserved.region 0).size = 0
      · exact .inl ⟨rfl, h0⟩
      · refine .inr (sound_of_tidy h.memory (Nat.succ_le_succ (Nat.zero_le 7)) ?_ hinside)
        rw [hone]
        refine ⟨List.pairwise_singleton _ _, fun e he => ?_⟩
        rw [List.mem_singleton.mp he]
        exact Nat.lt_add_of_pos_right (Nat.pos_of_ne_zero fun hz => h0 (UInt32.toNat_inj.mp hz))
    · have hready : lmb.reserved.Ready place := fun h0 =>
        ⟨not_not.mp fun hge => hempty ⟨h0, hge⟩, (hstale h0).1⟩
      have hbelow : ∀ e ∈ lmb.reserved.extents, e.hi < 2 ^ 32 := by
        intro e he
        have hle := hsound.bounded e he
        have hpe := hsound.ordered.proper e he
        by_contra hge
        refine not_covers_last h.memory (h.inside _ ⟨e, he, ?_⟩)
        unfold Extent.Contains
        omega
      have hfresh : lmb.reserved.Fresh (⟨place, lmbAlignUp size align⟩ : LmbProperty).extent := by
        refine ⟨hproper, hmax, fun a => hplace.apart halign h.memory hrounds hbelow, ?_⟩
        rintro ⟨_, hc | hc⟩
        · exact hlast hc
        · exact not_covers_last h.memory (h.inside _ hc)
      obtain ⟨rc, rgn', hadd, hres⟩ := LmbRegion.add_extends hsound hready hfresh
      refine ⟨rc, rgn', hadd, ?_⟩
      rcases hres with ⟨_, rfl, _⟩ | ⟨hrc, hext⟩
      · exact ⟨h, fun _ => rfl⟩
      · refine ⟨⟨h.memory, .inr hext.sound, fun a ha => ?_⟩, fun hneg => absurd hrc (Int.not_le.mpr hneg)⟩
        rcases (hext.covers a).mp ha with ha | ha
        · exact hin a ha
        · exact h.inside a ha

theorem lmbAllocBase_kept (h : lmb.Kept) (hsafe : LmbAllocSafe lmb (.allocBase size align maxAddr)) :
    ∃ rc lmb', lmbAllocStep lmb (.allocBase size align maxAddr) = some (rc, lmb') ∧ lmb'.Kept ∧
      (rc = 0 → lmb' = lmb) := by
  obtain ⟨hsize, ⟨k, halign⟩, hlimit, hrounds, hstale⟩ := hsafe
  rcases lmbAllocFrom_cases halign h.memory hlimit (le_refl lmb.memory.cnt) with hfail | ⟨place, hplace, hall⟩
  · refine ⟨0, lmb, ?_, h, fun _ => rfl⟩
    rw [lmbAllocStep, lmbAllocBase, hfail]
    rfl
  · obtain ⟨rc, rgn', hadd, hkept, hneg⟩ := add_kept h hsize halign hrounds hplace hstale
    refine ⟨(if rc < 0 then 0 else place : UInt32).toNat, { lmb with reserved := rgn' }, ?_, hkept,
      fun h0 => ?_⟩
    · rw [lmbAllocStep, lmbAllocBase, hall, hadd]
      rfl
    · by_cases hrc : rc < 0
      · rw [hneg hrc]
      · have hz : place.toNat = 0 := by
          simp only [if_neg hrc] at h0
          omega
        exact absurd (UInt32.toNat_inj.mp hz) hplace.nonzero

theorem free_dummy (hcnt : rgn.cnt = 1) (hdummy : (rgn.region 0).size = 0)
    (hend : base.toNat + size.toNat < 2 ^ 32) :
    rgn.free base size = some (-1, rgn) ∨ ∃ rgn', rgn.free base size = some (0, rgn') ∧ rgn'.cnt = 0 := by
  unfold LmbRegion.free
  dsimp only
  split
  · exact .inl rfl
  next i hfind =>
    have hi := List.mem_range.mp (List.mem_of_find?_eq_some hfind)
    have h0 : i = 0 := by omega
    subst i
    have hfound := List.find?_some hfind
    simp only [decide_eq_true_eq, hdummy, UInt32.add_zero] at hfound ⊢
    have hlow := UInt32.le_iff_toNat_le.mp hfound.1
    have hhigh := UInt32.le_iff_toNat_le.mp hfound.2
    rw [UInt32.toNat_add] at hhigh
    have hsize : size = 0 := by
      apply UInt32.toNat_inj.mp
      rw [UInt32.toNat_zero]
      omega
    have hbase : (rgn.region 0).base = base := by
      apply UInt32.toNat_inj.mp
      omega
    obtain ⟨rgn', hr, hcnt', _⟩ := LmbRegion.remove_extents hi
    rw [hsize, UInt32.add_zero, hbase, if_pos ⟨rfl, rfl⟩, hr]
    exact .inr ⟨rgn', rfl, by omega⟩

theorem lmbFree_kept (h : lmb.Kept) (hsafe : LmbAllocSafe lmb (.free base size)) :
    ∃ rc lmb', lmbAllocStep lmb (.free base size) = some (rc, lmb') ∧ lmb'.Kept ∧ (rc < 0 → lmb' = lmb) := by
  obtain ⟨hend, hsplit⟩ := hsafe
  rcases h.table with ⟨hcnt, hdummy⟩ | hsound
  · rcases free_dummy hcnt hdummy hend with hfree | ⟨rgn', hfree, hempty⟩
    · refine ⟨-1, lmb, ?_, h, fun _ => rfl⟩
      rw [lmbAllocStep, lmbFree, hfree]
      rfl
    · refine ⟨0, { lmb with reserved := rgn' }, ?_, ?_, fun hrc => absurd hrc (by decide)⟩
      · rw [lmbAllocStep, lmbFree, hfree]
        rfl
      · have hnil : rgn'.extents = [] := by
          rw [LmbRegion.extents, slice_empty (le_of_eq hempty)]
          rfl
        have hin : ∀ a, Covers rgn'.extents a → Covers lmb.memory.extents a := by
          rw [hnil]
          exact fun a ha => absurd ha covers_nil
        refine ⟨h.memory, .inr (sound_of_tidy h.memory ?_ ?_ hin), hin⟩
        · rw [hempty]
          exact Nat.zero_le _
        · rw [hnil]
          exact Ordered.nil
  · obtain ⟨rc, rgn', hfree, hres⟩ := LmbRegion.free_lessens hsound (.inl hend)
    refine ⟨rc, { lmb with reserved := rgn' }, ?_, ?_⟩
    · rw [lmbAllocStep, lmbFree, hfree]
      rfl
    · rcases hres with ⟨_, rfl | hfull⟩ | ⟨hrc, hless, _⟩
      · exact ⟨h, fun _ => rfl⟩
      · exact absurd hfull hsplit
      · refine ⟨⟨h.memory, .inr hless.sound, fun a ha => ?_⟩, fun hneg => absurd hrc (Int.not_le.mpr hneg)⟩
        exact h.inside a ((hless.covers a).mp ha).1

theorem lmbAllocStep_kept {call : LmbAllocCall} (h : lmb.Kept) (hsafe : LmbAllocSafe lmb call) :
    ∃ rc lmb', lmbAllocStep lmb call = some (rc, lmb') ∧ lmb'.Kept ∧ (call.Failed rc → lmb' = lmb) := by
  cases call with
  | allocBase size align maxAddr => exact lmbAllocBase_kept h hsafe
  | free base size => exact lmbFree_kept h hsafe

/-- As long as no call meets one of the cases of `LmbAllocSafe`, the reserved regions stay in
order, apart and in memory, and a call that fails changes nothing. -/
theorem lmb_stays_tidy {calls : List LmbAllocCall} (hplain : lmb.Plain) (htidy : lmb.Tidy)
    (hsafe : Meets lmbAllocStep LmbAllocSafe lmb calls) :
    ∃ answers lmb', run lmbAllocStep lmb calls = some (answers, lmb') ∧ lmb'.Tidy ∧
      ∀ call, LmbAllocSafe lmb' call → ∃ rc lmb'', lmbAllocStep lmb' call = some (rc, lmb'') ∧
        (call.Failed rc → lmb'' = lmb') := by
  have hstep : ∀ s call, Lmb.Kept s → True → LmbAllocSafe s call →
      ∃ rc t, lmbAllocStep s call = some (rc, t) ∧ t.Kept := by
    intro s call hs _ hcall
    obtain ⟨rc, t, hrun, ht, _⟩ := lmbAllocStep_kept hs hcall
    exact ⟨rc, t, hrun, ht⟩
  obtain ⟨answers, lmb', hrun, hkept⟩ := run_total hstep (hplain.kept htidy) (fun _ _ => trivial) hsafe
  refine ⟨answers, lmb', hrun, hkept.tidy, fun call hcall => ?_⟩
  obtain ⟨rc, lmb'', hcallRun, _, hfail⟩ := lmbAllocStep_kept hkept hcall
  exact ⟨rc, lmb'', hcallRun, hfail⟩

def lmbOneBank (used : LmbProperty) : Lmb := ⟨⟨1, fun _ => ⟨0x1000, 0xf000⟩⟩, ⟨1, fun _ => used⟩⟩

theorem lmbOneBank_tidy {used : LmbProperty} (hlow : 0x1000 ≤ used.extent.lo)
    (hhigh : used.extent.hi ≤ 0x10000) : (lmbOneBank used).Tidy := by
  refine ⟨List.pairwise_singleton _ _, ?_⟩
  rintro a ⟨e, he, hin⟩
  cases List.mem_singleton.mp he
  refine ⟨(⟨0x1000, 0xf000⟩ : LmbProperty).extent, List.mem_singleton.mpr rfl, ?_⟩
  have hlo : (⟨0x1000, 0xf000⟩ : LmbProperty).extent.lo = 0x1000 := by decide
  have hhi : (⟨0x1000, 0xf000⟩ : LmbProperty).extent.hi = 0x10000 := by decide
  unfold Extent.Contains at hin ⊢
  change used.extent.lo ≤ a ∧ a < used.extent.hi at hin
  rw [hlo, hhi]
  omega

theorem lmb_stays_tidy_split : ∃ answers lmb',
    run lmbAllocStep (lmbOneBank ⟨0xf000, 0x1000⟩) [.allocBase 0x800 0x100 0,
      .allocBase 0x1000 0x1000 0x8000, .free 0x7400 0x400] = some (answers, lmb') ∧ lmb'.Tidy ∧
      ∀ call, LmbAllocSafe lmb' call → ∃ rc lmb'', lmbAllocStep lmb' call = some (rc, lmb'') ∧
        (call.Failed rc → lmb'' = lmb') := by
  refine lmb_stays_tidy ⟨by decide, by decide, .inr (by decide)⟩
    (lmbOneBank_tidy (by decide) (by decide)) ?_
  refine Meets.cons rfl ⟨by decide, ⟨8, rfl⟩, by decide, .inl rfl, fun h => absurd h (by decide)⟩ ?_
  refine Meets.cons rfl ⟨by decide, ⟨12, rfl⟩, by decide, .inl rfl, fun h => absurd h (by decide)⟩ ?_
  exact Meets.cons rfl ⟨by decide, fun h => absurd h.1 (by decide)⟩ trivial

/-- A size that is rounded up after the place for it has been found takes addresses of the next
region. -/
theorem alloc_rounded_into_region : ∃ lmb',
    (lmbOneBank ⟨0x8800, 0x800⟩).Plain ∧ (lmbOneBank ⟨0x8800, 0x800⟩).Tidy ∧
    run lmbAllocStep (lmbOneBank ⟨0x8800, 0x800⟩) [.allocBase 0x800 0x1000 0x8800] =
      some ([0x8000], lmb') ∧ ¬lmb'.Tidy := by
  refine ⟨_, ⟨by decide, by decide, .inr (by decide)⟩, lmbOneBank_tidy (by decide) (by decide),
    rfl, fun h => ?_⟩
  have hle : (0x9000 : Nat) ≤ 0x8800 := (List.pairwise_cons.mp h.apart).1 _ List.mem_cons_self
  exact absurd hle (by decide)

end UBoot
