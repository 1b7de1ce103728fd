import Mathlib.Data.List.Induction

namespace UBoot.FindSector

/-- `start` with all its `CONFIG_SYS_MAX_FLASH_SECT` entries, of which `sector_count` are used. -/
structure FlashInfo where
  start : List Nat
  sectorCount : Nat
  size : Nat

/-- The loop that searches forwards, with the number of sectors behind `sector`; no result is a read behind `start`. -/
def forwards (info : FlashInfo) (addr : Nat) : Nat → Nat → Option Nat
  | 0, sector => info.start[sector]?.map fun _ => sector
  | behind + 1, sector =>
    match info.start[sector]? with
    | none => none
    | some s => if s < addr then forwards info addr behind (sector + 1) else some sector

/-- The loop that searches backwards. -/
def backwards (info : FlashInfo) (addr : Nat) : Nat → Option Nat
  | 0 => info.start[0]?.map fun _ => 0
  | sector + 1 =>
    match info.start[sector + 1]? with
    | none => none
    | some s => if s > addr then backwards info addr sector else some (sector + 1)

/-- `find_sector`: the sector, which is also the new `saved_sector`. -/
def findSector (info : FlashInfo) (addr saved : Nat) : Option Nat :=
  match forwards info addr (info.sectorCount - 1 - saved) saved with
  | none => none
  | some sector => backwards info addr sector

/-- `saved_sector` behind calls for any banks. -/
def savedSector (calls : List (FlashInfo × Nat)) : Option Nat :=
  calls.foldl (fun saved c => saved.bind (findSector c.1 c.2)) (some 0)

def FlashInfo.base (info : FlashInfo) : Nat := info.start.headD 0

/-- A bank with sectors that ascend up to its end. What the entries behind them hold does not matter. -/
structure FlashInfo.IsBank (info : FlashInfo) (maxSect : Nat) : Prop where
  entries : info.start.length = maxSect
  used : 0 < info.sectorCount
  fits : info.sectorCount ≤ maxSect
  ascending : (info.start.take info.sectorCount).Pairwise (· < ·)
  below : ∀ s ∈ info.start.take info.sectorCount, s < info.base + info.size

def FlashInfo.Inside (info : FlashInfo) (addr : Nat) : Prop := info.base ≤ addr ∧ addr < info.base + info.size

/-- The sector with this index has the address. -/
structure FlashInfo.IsSectorOf (info : FlashInfo) (addr sector : Nat) : Prop where
  counted : sector < info.sectorCount
  starts : ∃ s, info.start[sector]? = some s ∧ s ≤ addr
  ends : ∀ s, sector + 1 < info.sectorCount → info.start[sector + 1]? = some s → addr < s
  inside : addr < info.base + info.size

variable {info : FlashInfo} {addr saved maxSect sector behind : Nat}

variable (addr) in
theorem backwards_spec (h : sector < info.start.length) : ∃ k, backwards info addr sector = some k ∧ k ≤ sector ∧
    (∀ j s, k < j → j ≤ sector → info.start[j]? = some s → addr < s) ∧
    (k = 0 ∨ ∃ s, info.start[k]? = some s ∧ s ≤ addr) := by
  induction sector with
  | zero =>
    refine ⟨0, ?_, Nat.le_refl _, fun j s hj hle => ?_, .inl rfl⟩
    · rw [backwards, List.getElem?_eq_getElem h]
      rfl
    · omega
  | succ sector ih =>
    rw [backwards, List.getElem?_eq_getElem h]
    dsimp only
    split
    next habove =>
      obtain ⟨k, hk, hle, hbehind, hstop⟩ := ih (by omega)
      refine ⟨k, hk, by omega, fun j s hj hjle hs => ?_, hstop⟩
      rcases Nat.lt_or_eq_of_le hjle with hlt | rfl
      · exact hbehind j s hj (by omega) hs
      · rw [List.getElem?_eq_getElem h] at hs
        cases hs
        exact habove
    next hnot =>
      exact ⟨sector + 1, rfl, Nat.le_refl _, fun j s hj hle => by omega,
        .inr ⟨_, List.getElem?_eq_getElem h, by omega⟩⟩

variable (addr) in
theorem forwards_spec (h : sector + behind < info.start.length) : ∃ k, forwards info addr behind sector = some k ∧
    sector ≤ k ∧ k ≤ sector + behind ∧ (k = sector + behind ∨ ∃ s, info.start[k]? = some s ∧ addr ≤ s) := by
  induction behind generalizing sector with
  | zero =>
    refine ⟨sector, ?_, Nat.le_refl _, Nat.le_refl _, .inl rfl⟩
    rw [forwards, List.getElem?_eq_getElem (by omega)]
    rfl
  | succ behind ih =>
    have hlt : sector < info.start.length := by omega
    rw [forwards, List.getElem?_eq_getElem hlt]
    dsimp only
    split
    next hbelow =>
      obtain ⟨k, hk, hle, hle', hstop⟩ := ih (show sector + 1 + behind < info.start.length by omega)
      refine ⟨k, hk, by omega, by omega, hstop.imp (fun heq => by omega) id⟩
    next hnot =>
      exact ⟨sector, rfl, Nat.le_refl _, by omega, .inr ⟨_, List.getElem?_eq_getElem hlt, by omega⟩⟩

theorem findSector_reads (h : info.IsBank maxSect) (hsaved : saved < maxSect) :
    ∃ k, findSector info addr saved = some k ∧ k < maxSect := by
  have hlen := h.entries
  have hfits := h.fits
  have hroom : saved + (info.sectorCount - 1 - saved) < info.start.length := by omega
  obtain ⟨k, hk, _, hle, _⟩ := forwards_spec addr hroom
  obtain ⟨k', hk', hle', _⟩ := backwards_spec addr (show k < info.start.length by omega)
  refine ⟨k', ?_, by omega⟩
  unfold findSector
  rw [hk]
  exact hk'

theorem savedSector_reads {calls : List (FlashInfo × Nat)} (hpos : 0 < maxSect) (h : ∀ c ∈ calls, c.1.IsBank maxSect) :
    ∃ saved, savedSector calls = some saved ∧ saved < maxSect := by
  unfold savedSector
  induction calls using List.reverseRecOn with
  | nil => exact ⟨0, rfl, hpos⟩
  | append_singleton calls c ih =>
    obtain ⟨saved, hsaved, hlt⟩ := ih fun c hc => h c (List.mem_append_left _ hc)
    rw [List.foldl_append, hsaved]
    exact findSector_reads (h c (List.mem_append_right _ List.mem_cons_self)) hlt

theorem FlashInfo.IsBank.base_entry (h : info.IsBank maxSect) : info.start[0]? = some info.base := by
  have hlen := h.entries
  have hused := h.used
  have hfits := h.fits
  obtain ⟨s, start, hstart⟩ := List.exists_cons_of_length_pos (show 0 < info.start.length by omega)
  unfold FlashInfo.base
  rw [hstart]
  rfl

theorem FlashInfo.IsBank.next_above (h : info.IsBank maxSect) {s s' : Nat} (hlt : sector + 1 < info.sectorCount)
    (hs : info.start[sector]? = some s) (hs' : info.start[sector + 1]? = some s') : s < s' := by
  obtain ⟨hk, rfl⟩ := List.getElem?_eq_some_iff.mp hs
  obtain ⟨hk', rfl⟩ := List.getElem?_eq_some_iff.mp hs'
  have hsorted := List.pairwise_iff_getElem.mp h.ascending sector (sector + 1)
    (List.length_take.symm ▸ by omega) (List.length_take.symm ▸ by omega) (Nat.lt_succ_self sector)
  simpa using hsorted

theorem FlashInfo.IsBank.sectorOf (h : info.IsBank maxSect) (hin : info.Inside addr) (hcount : sector < info.sectorCount)
    (hstop : sector = 0 ∨ ∃ s, info.start[sector]? = some s ∧ s ≤ addr)
    (hends : ∀ s, sector + 1 < info.sectorCount → info.start[sector + 1]? = some s → addr < s) :
    info.IsSectorOf addr sector := by
  refine ⟨hcount, ?_, hends, hin.2⟩
  rcases hstop with rfl | hstarts
  · exact ⟨info.base, h.base_entry, hin.1⟩
  · exact hstarts

theorem findSector_sector_iff (h : info.IsBank maxSect) (hin : info.Inside addr) (hsaved : saved < maxSect) :
    (∃ k, findSector info addr saved = some k ∧ info.IsSectorOf addr k) ↔
      ∀ k s, info.sectorCount ≤ k → k ≤ saved → info.start[k]? = some s → addr < s := by
  have hlen := h.entries
  have hused := h.used
  have hfits := h.fits
  have hroom : saved + (info.sectorCount - 1 - saved) < info.start.length := by omega
  obtain ⟨k, hk, hfrom, hto, hend⟩ := forwards_spec addr hroom
  obtain ⟨r, hr, hle, hbehind, hstop⟩ := backwards_spec addr (show k < info.start.length by omega)
  have hfound : findSector info addr saved = some r := by
    unfold findSector
    rw [hk]
    exact hr
  constructor
  · rintro ⟨r', hr', hsector⟩ j s hcount hjle hs
    cases hfound.symm.trans hr'
    have hcounted := hsector.counted
    exact hbehind j s (by omega) (by omega) hs
  · intro habove
    have hcount : r < info.sectorCount := by
      by_contra hnot
      rcases hstop with rfl | ⟨s, hs, hsle⟩
      · omega
      · have hlt := habove r s (by omega) (by omega) hs
        omega
    refine ⟨r, hfound, h.sectorOf hin hcount hstop fun s hnext hs => ?_⟩
    rcases Nat.lt_or_eq_of_le hle with hlt | rfl
    · exact hbehind (r + 1) s (Nat.lt_succ_self r) hlt hs
    · -- the loop forwards has stopped below the last sector, so at an entry that is not below the address
      rcases hend with heq | ⟨s', hs', haddr⟩
      · omega
      · have hascending := h.next_above hnext hs' hs
        omega

/-- Behind any calls the sector with the address is found, unless the last one of them has left an index behind the
sectors of the bank, and an entry from the sectors up to there is not above the address. -/
theorem find_sector_iff {calls : List (FlashInfo × Nat)} (hcalls : ∀ c ∈ calls, c.1.IsBank maxSect)
    (h : info.IsBank maxSect) (hin : info.Inside addr) : ∃ saved, savedSector calls = some saved ∧
      ((∃ k, findSector info addr saved = some k ∧ info.IsSectorOf addr k) ↔
        ∀ k s, info.sectorCount ≤ k → k ≤ saved → info.start[k]? = some s → addr < s) := by
  have hused := h.used
  have hfits := h.fits
  obtain ⟨saved, hsaved, hlt⟩ := savedSector_reads (by omega) hcalls
  exact ⟨saved, hsaved, findSector_sector_iff h hin hlt⟩

def threeSectors : FlashInfo := { start := [0x1000, 0x2000, 0x3000], sectorCount := 3, size := 0x3000 }

def oneSector : FlashInfo := { start := [0x8000, 0, 0], sectorCount := 1, size := 0x1000 }

theorem threeSectors_bank : threeSectors.IsBank 3 := ⟨rfl, by decide, by decide, by decide, by decide⟩

theorem oneSector_bank : oneSector.IsBank 3 := ⟨rfl, by decide, by decide, by decide, by decide⟩

theorem sector_found_behind_another : ∃ saved, savedSector [(oneSector, 0x8010)] = some saved ∧
      ((∃ k, findSector threeSectors 0x2fff saved = some k ∧ threeSectors.IsSectorOf 0x2fff k) ↔
        ∀ k s, threeSectors.sectorCount ≤ k → k ≤ saved → threeSectors.start[k]? = some s → 0x2fff < s) :=
  find_sector_iff (by simpa using oneSector_bank) threeSectors_bank ⟨by decide, by decide⟩

/-- Behind a call for the third sector of one bank the only sector of the other is not found. -/
theorem sector_behind_the_last : ¬∃ saved k, savedSector [(threeSectors, 0x3000)] = some saved ∧
    findSector oneSector 0x8000 saved = some k ∧ oneSector.IsSectorOf 0x8000 k := by
  rintro ⟨saved, k, hsaved, hfound, hsector⟩
  have hsaved' : savedSector [(threeSectors, 0x3000)] = some 2 := by decide
  cases hsaved'.symm.trans hsaved
  have hfound' : findSector oneSector 0x8000 2 = some 2 := by decide
  cases hfound'.symm.trans hfound
  exact absurd hsector.counted (by decide)

end UBoot.FindSector
