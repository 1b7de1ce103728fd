import UBoot.KeyOrder
import UBoot.MtdCmds

namespace UBoot.Mtd

open KeyOrder

variable {mtd : MtdInfo}

def Part.start (p : Part) : Nat := p.offset.toNat
def Part.stop (p : Part) : Nat := p.offset.toNat + p.size.toNat

def EraseRegion.block (r : EraseRegion) (j : Nat) : Nat := r.offset + j * r.erasesize.toNat

/-- Where a block that is erased as one begins, or the last one ends. -/
def MtdInfo.Boundary (mtd : MtdInfo) (x : Nat) : Prop :=
  if mtd.eraseregions = [] then mtd.erasesize.toNat ∣ x
  else (∃ r ∈ mtd.eraseregions, ∃ j, j < r.numblocks.toNat ∧ x = r.block j) ∨
    ∃ r, mtd.eraseregions.getLast? = some r ∧ x = r.block r.numblocks.toNat

/-- A partition that lies on the device, in whole blocks. -/
structure Part.Sound (mtd : MtdInfo) (part : Part) : Prop where
  positive : 0 < part.size.toNat
  inside : part.stop ≤ mtd.size
  noWrap : part.stop < 2 ^ 32
  startsAt : mtd.Boundary part.start
  endsAt : mtd.Boundary part.stop

theorem sum_toNat {a b : UInt32} (h : a < a + b) : (a + b).toNat = a.toNat + b.toNat ∧ 0 < b.toNat := by
  have hb := b.toNat_lt
  have hsum := UInt32.toNat_add a b
  have hlt := UInt32.lt_iff_toNat_lt.mp h
  omega

theorem EraseRegion.block_lt {r : EraseRegion} {j : Nat} (hj : j < r.numblocks.toNat)
    (hpos : 0 < r.erasesize.toNat)
    (hlow : r.offset + r.numblocks.toNat * r.erasesize.toNat ≤ 2 ^ 32) : r.block j < 2 ^ 32 := by
  have hstep : (j + 1) * r.erasesize.toNat ≤ r.numblocks.toNat * r.erasesize.toNat :=
    Nat.mul_le_mul_right _ hj
  rw [Nat.succ_mul] at hstep
  unfold EraseRegion.block
  omega

theorem EraseRegion.starts_toNat {r : EraseRegion} {x : UInt32} (hpos : 0 < r.erasesize.toNat)
    (hlow : r.offset + r.numblocks.toNat * r.erasesize.toNat ≤ 2 ^ 32) (h : x ∈ r.starts) :
    ∃ j, j < r.numblocks.toNat ∧ x.toNat = r.block j := by
  obtain ⟨j, hj, rfl⟩ := List.mem_map.mp h
  have hj := List.mem_range.mp hj
  refine ⟨j, hj, ?_⟩
  have hlt := r.block_lt hj hpos hlow
  have hjlt : j < 2 ^ 32 := hj.trans r.numblocks.toNat_lt
  unfold EraseRegion.block at hlt ⊢
  rw [UInt32.toNat_add, UInt32.toNat_mul, UInt32.toNat_ofNat', UInt32.toNat_ofNat',
    Nat.mod_eq_of_lt hjlt, Nat.mod_eq_of_lt (show r.offset < 2 ^ 32 by omega),
    Nat.mod_eq_of_lt (show j * r.erasesize.toNat < 2 ^ 32 by omega)]
  omega

theorem EraseRegion.stop_toNat {r : EraseRegion} {x : UInt32} (hx : 0 < x.toNat)
    (hlow : r.offset + r.numblocks.toNat * r.erasesize.toNat ≤ 2 ^ 32) (h : r.stop = x) :
    x.toNat = r.block r.numblocks.toNat := by
  subst h
  unfold EraseRegion.stop EraseRegion.block at *
  rw [UInt32.toNat_add, UInt32.toNat_mul, UInt32.toNat_ofNat'] at hx ⊢
  omega

theorem boundary_of_starts {x : UInt32} (hne : mtd.eraseregions ≠ [])
    (h : x ∈ mtd.eraseregions.flatMap EraseRegion.starts) : mtd.Boundary x.toNat := by
  obtain ⟨r, hr, hx⟩ := List.mem_flatMap.mp h
  obtain ⟨hpos, hlow⟩ := mtd.low r hr
  unfold MtdInfo.Boundary
  rw [if_neg hne]
  exact .inl ⟨r, hr, EraseRegion.starts_toNat hpos hlow hx⟩

theorem boundaries_of_eraseblock {chips : Chips} {id : Id} {part : Part}
    (hm : chips id.type id.num = some mtd) (hlt : part.offset < part.offset + part.size)
    (h : partValidateEraseblock chips id part = true) : mtd.Boundary part.start ∧ mtd.Boundary part.stop := by
  obtain ⟨hstop, hpos⟩ := sum_toNat hlt
  simp only [partValidateEraseblock, hm] at h
  split at h
  next hr =>
    obtain ⟨hoff, hsize⟩ := of_decide_eq_true h
    have hoff : mtd.erasesize.toNat ∣ part.offset.toNat := by
      apply Nat.dvd_of_mod_eq_zero
      rw [← UInt32.toNat_mod, hoff]
      rfl
    have hsize : mtd.erasesize.toNat ∣ part.size.toNat := by
      apply Nat.dvd_of_mod_eq_zero
      rw [← UInt32.toNat_mod, hsize]
      rfl
    unfold MtdInfo.Boundary
    rw [if_pos hr, if_pos hr]
    exact ⟨hoff, Nat.dvd_add hoff hsize⟩
  next hr =>
    obtain ⟨hstart, hend⟩ := of_decide_eq_true h
    refine ⟨boundary_of_starts hr hstart, ?_⟩
    unfold Part.stop
    rw [← hstop]
    rcases hend with hend | hend
    · exact boundary_of_starts hr hend
    · obtain ⟨r, hlast, hend⟩ := Option.map_eq_some_iff.mp hend
      have hlow := (mtd.low r (List.mem_of_getLast? hlast)).2
      unfold MtdInfo.Boundary
      rw [if_neg hr]
      exact .inr ⟨r, hlast, EraseRegion.stop_toNat (by omega) hlow hend⟩

theorem partValidate_eq_some {chips : Chips} {id : Id} {p part : Part}
    (h : partValidate chips id p = some part) :
    (∃ size, part = { p with size := size } ∧ (p.size ≠ sizeRemaining → size = p.size)) ∧
      part.offset < part.offset + part.size ∧ part.offset + part.size ≤ id.size ∧
      partValidateEraseblock chips id part = true := by
  have hform : ∃ size, (if p.size = sizeRemaining then { p with size := id.size - p.offset } else p) =
      { p with size := size } ∧ (p.size ≠ sizeRemaining → size = p.size) := by
    by_cases hs : p.size = sizeRemaining
    · rw [if_pos hs]
      exact ⟨_, rfl, fun hne => absurd hs hne⟩
    · rw [if_neg hs]
      exact ⟨p.size, rfl, fun _ => rfl⟩
  obtain ⟨size, hform, hsize⟩ := hform
  unfold partValidate at h
  simp only [hform] at h
  split at h
  · cases h
  · split at h
    · cases h
    next hlt =>
      split at h
      · cases h
      next hend =>
        split at h
        next herase =>
          cases Option.some.inj h
          exact ⟨⟨size, rfl, hsize⟩, UInt32.not_le.mp hlt, UInt32.not_lt.mp hend, herase⟩
        · cases h

theorem partValidate_self {chips : Chips} {id : Id} {part : Part}
    (hlt : part.offset < part.offset + part.size) (hend : part.offset + part.size ≤ id.size)
    (herase : partValidateEraseblock chips id part = true) : partValidate chips id part = some part := by
  have hsum := sum_toNat hlt
  have hendNat := UInt32.le_iff_toNat_le.mp hend
  have hidlt := id.size.toNat_lt
  have hself : (if part.size = sizeRemaining then { part with size := id.size - part.offset } else part)
      = part := by
    by_cases hs : part.size = sizeRemaining
    · have hmax : part.size.toNat = 4294967295 := by
        rw [hs]
        rfl
      have hoff : part.offset = 0 := UInt32.toNat_inj.mp (by
        change part.offset.toNat = 0
        omega)
      have hid : id.size = part.size := UInt32.toNat_inj.mp (by omega)
      rw [if_pos hs, hoff, UInt32.sub_zero, hid]
      obtain ⟨_, _, _, _, _, _⟩ := part
      cases hoff
      rfl
    · exact if_neg hs
  unfold partValidate
  simp only [hself]
  have hoff : ¬id.size < part.offset := by
    rw [UInt32.lt_iff_toNat_lt]
    omega
  rw [if_neg hoff, if_neg (UInt32.not_le.mpr hlt), if_neg (UInt32.not_lt.mpr hend), if_pos herase]

theorem partValidate_again {chips : Chips} {id : Id} {p part : Part}
    (h : partValidate chips id p = some part) : partValidate chips id part = some part := by
  obtain ⟨_, hlt, hend, herase⟩ := partValidate_eq_some h
  exact partValidate_self hlt hend herase

theorem sound_of_validate {chips : Chips} {id : Id} {part : Part}
    (hm : chips id.type id.num = some mtd) (hsize : id.size = UInt32.ofNat mtd.size)
    (h : partValidate chips id part = some part) : part.Sound mtd := by
  obtain ⟨_, hlt, hend, herase⟩ := partValidate_eq_some h
  obtain ⟨hsum, hpos⟩ := sum_toNat hlt
  have hendNat := UInt32.le_iff_toNat_le.mp hend
  have hid : id.size.toNat ≤ mtd.size := by
    rw [hsize, UInt32.toNat_ofNat']
    exact Nat.mod_le _ _
  have hidlt := id.size.toNat_lt
  obtain ⟨hstart, hstop⟩ := boundaries_of_eraseblock hm hlt herase
  refine ⟨hpos, ?_, ?_, hstart, hstop⟩
  · unfold Part.stop
    omega
  · unfold Part.stop
    omega

/-- The list of a device: in order of the offsets, with one partition at offset 0 at most. -/
structure Sorted (parts : List Part) : Prop where
  order : Ordered Part.start parts
  oneFirst : (atKey Part.start 0 parts).length ≤ 1

theorem start_eq_iff (p q : Part) : p.offset = q.offset ↔ p.start = q.start := UInt32.toNat_inj.symm

theorem sortAdd_eq_some {part : Part} {parts parts' : List Part} {pi : Option Part}
    (h : sortAdd part parts = some (parts', pi)) :
    parts' = place Part.start part parts ∧ pi = parts.find? (fun p => part.start ≤ p.start) := by
  induction parts generalizing parts' with
  | nil =>
    cases h
    exact ⟨rfl, rfl⟩
  | cons p parts ih =>
    unfold sortAdd at h
    split at h
    · cases h
    · split at h
      next hle =>
        cases h
        have hle : part.start ≤ p.start := UInt32.le_iff_toNat_le.mp hle
        exact ⟨(place_cons_of_le parts hle).symm, by simp [hle]⟩
      next hle =>
        obtain ⟨⟨rest, found⟩, hr, h⟩ := Option.map_eq_some_iff.mp h
        obtain ⟨rfl, rfl⟩ := Prod.mk.inj h
        have hlt : p.start < part.start := UInt32.lt_iff_toNat_lt.mp (UInt32.not_le.mp hle)
        obtain ⟨hrest, hfound⟩ := ih hr
        rw [hrest, hfound, place_cons_of_lt parts hlt, List.find?_cons_of_neg (by simp [hlt])]
        exact ⟨rfl, rfl⟩

theorem sortAdd_eq_none_iff {part : Part} {parts : List Part} (h : Ordered Part.start parts) :
    sortAdd part parts = none ↔ part.start = 0 ∧ atKey Part.start 0 parts ≠ [] := by
  have hzero : ∀ p : Part, p.offset = 0 ↔ p.start = 0 := fun p => by
    rw [← UInt32.toNat_inj]
    rfl
  induction parts with
  | nil => simp [sortAdd, atKey]
  | cons p parts ih =>
    obtain ⟨hp, hparts⟩ := List.pairwise_cons.mp h
    unfold sortAdd
    by_cases hsecond : part.offset = p.offset ∧ p.offset = 0
    · rw [if_pos hsecond]
      have hp0 := (hzero p).mp hsecond.2
      have hpart0 := (hzero part).mp (hsecond.1.trans hsecond.2)
      simp [atKey, hp0, hpart0]
    · rw [if_neg hsecond]
      by_cases hle : part.offset ≤ p.offset
      · rw [if_pos hle]
        rw [start_eq_iff, hzero] at hsecond
        constructor
        · intro hsome
          cases hsome
        · rintro ⟨h0, hne⟩
          obtain ⟨q, hq⟩ := List.exists_mem_of_ne_nil _ hne
          obtain ⟨hq, hq0⟩ := List.mem_filter.mp hq
          have hq0 := of_decide_eq_true hq0
          rcases List.mem_cons.mp hq with rfl | hq
          · exact absurd ⟨by omega, hq0⟩ hsecond
          · have := hp q hq
            exact absurd ⟨by omega, by omega⟩ hsecond
      · rw [if_neg hle, Option.map_eq_none_iff]
        have hlt : p.start < part.start := UInt32.lt_iff_toNat_lt.mp (UInt32.not_le.mp hle)
        constructor
        · intro hnone
          have := ((ih hparts).mp hnone).1
          omega
        · rintro ⟨h0, _⟩
          omega

theorem Sorted.place {part : Part} {parts : List Part} (h : Sorted parts)
    (hsome : sortAdd part parts ≠ none) : Sorted (place Part.start part parts) := by
  refine ⟨h.order.place, ?_⟩
  rw [atKey_place h.order]
  split
  next h0 =>
    by_cases hnil : atKey Part.start 0 parts = []
    · rw [hnil]
      exact le_rfl
    · exact absurd ((sortAdd_eq_none_iff h.order).mpr ⟨h0, hnil⟩) hsome
  · exact h.oneFirst

theorem Sorted.sublist {parts parts' : List Part} (h : Sorted parts) (hsub : parts'.Sublist parts) :
    Sorted parts' :=
  ⟨h.order.sublist hsub, (hsub.filter _).length_le.trans h.oneFirst⟩

def State.Points (s : State) : Prop :=
  ∀ addr, s.currentMtdDev = some addr →
    ∃ dev part, s.at addr = some dev ∧ mtdPartInfo dev s.currentMtdPartnum = some part

def State.currentText (s : State) : Option Str :=
  (s.currentMtdDev.bind s.at).map fun dev => partitionText dev.id s.currentMtdPartnum

def State.saved (s : State) : State :=
  { s with env := { s.env with partition := s.currentText }, lastPartition := s.currentText.getD [] }

theorem indexPartitions_eq_some_iff {s t : State} : indexPartitions s = some t ↔ t = s ∧ t.Points := by
  have hpoints : indexPartitions s = some t ↔ t = s ∧ s.Points := by
    unfold indexPartitions State.Points
    cases hc : s.currentMtdDev with
    | none => simp [eq_comm]
    | some addr =>
      cases hat : s.at addr with
      | none => simp [hat]
      | some dev => cases hp : mtdPartInfo dev s.currentMtdPartnum <;> simp [hat, hp, eq_comm]
  rw [hpoints]
  constructor
  · rintro ⟨rfl, hp⟩
    exact ⟨rfl, hp⟩
  · rintro ⟨rfl, hp⟩
    exact ⟨rfl, hp⟩

theorem currentSave_eq_some_iff {s t : State} : currentSave s = some t ↔ t = s.saved ∧ t.Points := by
  by_cases hread : ∀ addr, s.currentMtdDev = some addr → s.at addr ≠ none
  · have hsave : currentSave s = indexPartitions s.saved := by
      unfold currentSave State.saved State.currentText
      cases hc : s.currentMtdDev with
      | none => simp
      | some addr =>
        obtain ⟨dev, hat⟩ := Option.ne_none_iff_exists'.mp (hread addr hc)
        simp [hat]
    rw [hsave, indexPartitions_eq_some_iff]
  · simp only [not_forall, not_not] at hread
    obtain ⟨addr, hc, hat⟩ := hread
    have hnone : currentSave s = none := by simp [currentSave, hc, hat]
    rw [hnone]
    constructor
    · intro h
      cases h
    · rintro ⟨rfl, hp⟩
      obtain ⟨dev, _, hat', _⟩ := hp addr hc
      exact absurd hat (by
        rw [show s.at addr = some dev from hat']
        exact Option.some_ne_none dev)

def Dev.grown (dev : Dev) (part : Part) : Dev :=
  { dev with parts := place Part.start part dev.parts, numParts := dev.numParts + 1 }

def Dev.shrunk (dev : Dev) (part : Part) : Dev :=
  { dev with
    parts := dev.parts.filter fun p => p.addr ≠ part.addr
    numParts := dev.numParts - 1 }

def State.shifts (s : State) (dev : Dev) (part : Part) : Bool :=
  shiftsCurrent s dev (dev.parts.find? fun p => part.start ≤ p.start)

/-- After `part_sort_add` -/
def State.partCome (s : State) (dev : Dev) (part : Part) : State :=
  if s.shifts dev part then
    { s.put (dev.grown part) with currentMtdPartnum := s.currentMtdPartnum + 1 }.saved
  else s.put (dev.grown part)

theorem partSortAdd_eq_some_iff {s t : State} {dev : Dev} {part : Part} {r : Option Dev} :
    partSortAdd s dev part = some (r, t) ↔ (sortAdd part dev.parts = none ∧ r = none ∧ t = s) ∨
        (sortAdd part dev.parts ≠ none ∧ r = some (dev.grown part) ∧ t = s.partCome dev part ∧ t.Points) := by
  unfold partSortAdd
  cases hadd : sortAdd part dev.parts with
  | none => simp [eq_comm]
  | some added =>
    obtain ⟨parts, pi⟩ := added
    obtain ⟨rfl, rfl⟩ := sortAdd_eq_some hadd
    simp only [Option.bind_eq_bind, Option.bind_eq_some_iff, reduceCtorEq, false_and, false_or, ne_eq,
      not_false_eq_true, true_and]
    unfold State.partCome State.shifts
    split
    · simp only [currentSave_eq_some_iff]
      constructor
      · rintro ⟨u, ⟨rfl, hp⟩, h⟩
        cases h
        exact ⟨rfl, rfl, hp⟩
      · rintro ⟨rfl, rfl, hp⟩
        exact ⟨_, ⟨rfl, hp⟩, rfl⟩
    · simp only [indexPartitions_eq_some_iff]
      constructor
      · rintro ⟨u, ⟨rfl, hp⟩, h⟩
        cases h
        exact ⟨rfl, rfl, hp⟩
      · rintro ⟨rfl, rfl, hp⟩
        exact ⟨_, ⟨rfl, hp⟩, rfl⟩

/-- After `device_del` -/
def State.devGone (s : State) (dev : Dev) : State :=
  let t := { s with devices := s.devices.filter fun d => d.addr ≠ dev.addr }
  if s.currentMtdDev = some dev.addr then
    { t with
      currentMtdDev := t.devices.head?.map Dev.addr
      currentMtdPartnum := if t.devices = [] then s.currentMtdPartnum else 0 }.saved
  else t

theorem deviceDel_eq_some_iff {s t : State} {dev : Dev} :
    deviceDel s dev = some t ↔ t = s.devGone dev ∧ t.Points := by
  unfold deviceDel State.devGone
  by_cases hc : s.currentMtdDev = some dev.addr
  · simp only [if_pos hc]
    cases hd : s.devices.filter fun d => d.addr ≠ dev.addr with
    | nil =>
      simp only [currentSave_eq_some_iff]
      rfl
    | cons d ds =>
      simp only [currentSave_eq_some_iff]
      rfl
  · simp only [if_neg hc, indexPartitions_eq_some_iff]

/-- After `part_del` -/
def State.partGone (s : State) (dev : Dev) (part : Part) : State :=
  if dev.numParts = 1 then s.devGone dev
  else
    let t := s.put (dev.shrunk part)
    match if s.currentMtdDev = some dev.addr then mtdPartInfo dev s.currentMtdPartnum else none with
    | some curr =>
      { t with currentMtdPartnum := afterDel s.currentMtdPartnum curr part }.saved
    | none => t

theorem partDel_eq_some_iff {s t : State} {dev : Dev} {part : Part} :
    partDel s dev part = some t ↔ t = s.partGone dev part ∧ t.Points := by
  unfold partDel State.partGone
  by_cases h1 : dev.numParts = 1
  · simp only [if_pos h1, deviceDel_eq_some_iff]
  · simp only [if_neg h1]
    by_cases hc : s.currentMtdDev = some dev.addr
    · simp only [if_pos hc]
      cases hm : mtdPartInfo dev s.currentMtdPartnum with
      | none =>
        simp only [indexPartitions_eq_some_iff]
        rfl
      | some curr =>
        simp only [currentSave_eq_some_iff]
        rfl
    · simp only [if_neg hc, indexPartitions_eq_some_iff]
      rfl

/-- After `device_add` -/
def State.devCome (s : State) (dev : Dev) : State :=
  if s.devices = [] then
    { s with devices := [dev], currentMtdDev := some dev.addr, currentMtdPartnum := 0 }.saved
  else { s with devices := s.devices ++ [dev] }

theorem deviceAdd_eq_some_iff {s t : State} {dev : Dev} :
    deviceAdd s dev = some t ↔ t = s.devCome dev ∧ t.Points := by
  unfold deviceAdd State.devCome
  split
  · rw [currentSave_eq_some_iff]
  · rw [indexPartitions_eq_some_iff]

end UBoot.Mtd
