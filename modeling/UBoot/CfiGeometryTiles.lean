import UBoot.CfiGeometry

namespace UBoot.CfiGeometry

open List

open Extents (Extent Tiles)

section
variable {sizes more : List Nat} {e e' : Extent} {a k lo hi : Nat} {es : List Extent}

def tilesFrom : Nat → List Nat → List Extent
  | _, [] => []
  | a, size :: sizes => ⟨a, a + size⟩ :: tilesFrom (a + size) sizes

theorem tilesFrom_tiles (h : ∀ size ∈ sizes, 0 < size) : Tiles a (a + sizes.sum) (tilesFrom a sizes) := by
  induction sizes generalizing a with
  | nil => exact (add_zero a).symm
  | cons size sizes ih =>
    rw [sum_cons, ← add_assoc]
    exact ⟨rfl, Nat.lt_add_of_pos_right (h size mem_cons_self), ih fun s hs => h s (mem_cons_of_mem _ hs)⟩

theorem next_of_tiles (h : Tiles lo hi es) (he : es[k]? = some e) :
    (∀ e', es[k + 1]? = some e' → e.hi = e'.lo) ∧ (k + 1 = es.length → e.hi = hi) := by
  have hdrop := h.drop he
  obtain ⟨hk, rfl⟩ := List.getElem?_eq_some_iff.mp he
  rw [drop_eq_getElem_cons hk] at hdrop
  obtain ⟨_, _, hrest⟩ := hdrop
  constructor
  · intro e' he'
    obtain ⟨hk', rfl⟩ := List.getElem?_eq_some_iff.mp he'
    rw [drop_eq_getElem_cons hk'] at hrest
    exact hrest.1.symm
  · intro hlast
    rw [hlast, drop_length] at hrest
    exact hrest

end

section
variable {maxSect step ratio count : Nat} {protect : Nat → Bool} {sects : List (Nat × Bool)} {sector base : Nat}
  {regions : List UInt32} {sizes more : List Nat}

def startsFrom : Nat → List Nat → List Nat
  | _, [] => []
  | a, size :: sizes => a :: startsFrom ((a + size) % 2 ^ 32) sizes

theorem startsFrom_length : (startsFrom sector sizes).length = sizes.length := by
  induction sizes generalizing sector with
  | nil => rfl
  | cons size sizes ih => rw [startsFrom, length_cons, length_cons, ih]

theorem startsFrom_append (hsector : sector < 2 ^ 32) : startsFrom sector (sizes ++ more) =
    startsFrom sector sizes ++ startsFrom ((sector + sizes.sum) % 2 ^ 32) more := by
  induction sizes generalizing sector with
  | nil =>
    rw [nil_append, sum_nil, add_zero, Nat.mod_eq_of_lt hsector]
    rfl
  | cons size sizes ih =>
    rw [cons_append, startsFrom, ih (Nat.mod_lt _ (by decide)), startsFrom, sum_cons, cons_append,
      Nat.mod_add_mod, add_assoc]

theorem startsFrom_eq (hpos : ∀ size ∈ sizes, 0 < size) (hend : sector + sizes.sum ≤ 2 ^ 32) :
    startsFrom sector sizes = (tilesFrom sector sizes).map Extent.lo := by
  induction sizes generalizing sector with
  | nil => rfl
  | cons size sizes ih =>
    rw [sum_cons] at hend
    have hrest := fun s hs => hpos s (mem_cons_of_mem _ hs)
    rw [startsFrom, tilesFrom, map_cons]
    refine congrArg (sector :: ·) ?_
    cases sizes with
    | nil => rfl
    | cons next sizes =>
      have hnext := hrest next mem_cons_self
      rw [sum_cons] at hend
      rw [Nat.mod_eq_of_lt (by omega)]
      exact ih hrest (by rw [sum_cons]; omega)

theorem sectorLoop_eq (hroom : sects.length + count ≤ maxSect) (hsector : sector < 2 ^ 32) :
    sectorLoop maxSect step protect count (sects, sector) =
      (sects ++ (startsFrom sector (List.replicate count step)).map (fun a => (a, protect a)),
        (sector + (List.replicate count step).sum) % 2 ^ 32) := by
  induction count generalizing sects sector with
  | zero =>
    rw [sectorLoop, replicate_zero, sum_nil, add_zero, Nat.mod_eq_of_lt hsector]
    exact congrArg (·, sector) (append_nil _).symm
  | succ count ih =>
    rw [sectorLoop, if_neg (by omega), ih (by rw [length_append, length_singleton]; omega)
      (Nat.mod_lt _ (by decide)), replicate_succ, startsFrom, map_cons, sum_cons, append_assoc,
      Nat.mod_add_mod, add_assoc]
    rfl

theorem sectorLoop_length (h : sects.length ≤ maxSect) :
    (sectorLoop maxSect step protect count (sects, sector)).1.length ≤ maxSect := by
  induction count generalizing sects sector with
  | zero => exact h
  | succ count ih =>
    rw [sectorLoop]
    split
    · exact h
    next hroom => exact ih (by rw [length_append, length_singleton]; omega)

def sectorSizes (ratio : Nat) (regions : List UInt32) : List Nat :=
  regions.flatMap fun tmp => List.replicate (regionCount tmp) (regionSize tmp * ratio)

theorem sectorSizes_length : (sectorSizes ratio regions).length = (regions.map regionCount).sum := by
  induction regions with
  | nil => rfl
  | cons tmp regions ih =>
    rw [sectorSizes, flatMap_cons, length_append, length_replicate, map_cons, sum_cons, ← ih]
    rfl

theorem sectorSizes_sum :
    (sectorSizes ratio regions).sum = (regions.map fun tmp => regionCount tmp * regionSize tmp).sum * ratio := by
  induction regions with
  | nil => exact (zero_mul ratio).symm
  | cons tmp regions ih =>
    rw [sectorSizes, flatMap_cons, sum_append, map_cons, sum_cons, Nat.add_mul, ← ih,
      sum_replicate_nat, mul_assoc]
    rfl

theorem regionSize_pos (tmp : UInt32) : 0 < regionSize tmp := by
  unfold regionSize
  split
  · omega
  · decide

theorem sectorSizes_pos (hratio : 0 < ratio) {size : Nat} (h : size ∈ sectorSizes ratio regions) : 0 < size := by
  obtain ⟨tmp, _, hsize⟩ := mem_flatMap.mp h
  rw [(mem_replicate.mp hsize).2]
  exact Nat.mul_pos (regionSize_pos tmp) hratio

variable (protect) in
theorem regionLoop_eq {rest i : Nat} (hregions : i + rest ≤ regions.length) (hmax : i + rest ≤ maxRegions)
    (hroom : sects.length + (sectorSizes ratio ((regions.drop i).take rest)).length ≤ maxSect)
    (hsector : sector < 2 ^ 32) :
    ∃ sector', regionLoop maxSect ratio protect regions rest i (sects, sector) =
      some (sects ++ (startsFrom sector (sectorSizes ratio ((regions.drop i).take rest))).map
        (fun a => (a, protect a)), sector') := by
  induction rest generalizing i sects sector with
  | zero =>
    refine ⟨sector, ?_⟩
    rw [regionLoop, take_zero]
    exact congrArg (fun sects => some (sects, sector)) (append_nil _).symm
  | succ rest ih =>
    have hi : i < regions.length := by omega
    rw [drop_eq_getElem_cons hi, take_succ_cons, sectorSizes, flatMap_cons] at hroom ⊢
    rw [length_append, length_replicate] at hroom
    rw [regionLoop, if_neg (by omega), List.getElem?_eq_getElem hi]
    dsimp only
    rw [sectorLoop_eq (by omega) hsector]
    refine (ih (by omega) (by omega) ?_ (Nat.mod_lt _ (by decide))).imp fun sector' hrest => hrest.trans ?_
    · rw [length_append, length_map, startsFrom_length, length_replicate, add_assoc]
      exact hroom
    · rw [startsFrom_append hsector, map_append, append_assoc]
      rfl

theorem regionLoop_outside {rest i : Nat} {s : List (Nat × Bool) × Nat} (hregions : regions.length = maxRegions)
    (hi : i ≤ maxRegions) (hrest : maxRegions < i + rest) :
    regionLoop maxSect ratio protect regions rest i s = none := by
  induction rest generalizing i s with
  | zero => omega
  | succ rest ih =>
    rw [regionLoop, if_neg (by omega)]
    rcases Nat.lt_or_eq_of_le hi with hlt | rfl
    · rw [List.getElem?_eq_getElem (by omega)]
      exact ih hlt (by omega)
    · rw [List.getElem?_eq_none (by omega)]

theorem regionLoop_some {rest i : Nat} {s : List (Nat × Bool) × Nat} (h : i + rest ≤ regions.length) :
    ∃ s', regionLoop maxSect ratio protect regions rest i s = some s' := by
  induction rest generalizing i s with
  | zero => exact ⟨s, rfl⟩
  | succ rest ih =>
    rw [regionLoop]
    split
    · exact ⟨s, rfl⟩
    · rw [List.getElem?_eq_getElem (by omega)]
      exact ih (by omega)

theorem regionLoop_length {rest i : Nat} {s s' : List (Nat × Bool) × Nat} (h : s.1.length ≤ maxSect)
    (hloop : regionLoop maxSect ratio protect regions rest i s = some s') : s'.1.length ≤ maxSect := by
  induction rest generalizing i s with
  | zero =>
    cases Option.some.inj hloop
    exact h
  | succ rest ih =>
    rw [regionLoop] at hloop
    split at hloop
    · cases Option.some.inj hloop
      exact h
    · split at hloop
      · cases hloop
      · exact ih (sectorLoop_length h) hloop

end

section
variable {chip : Chip}

theorem cfiReverseGeometry_some (hpos : 0 < chip.numEraseRegions.toNat) (hle : chip.numEraseRegions.toNat ≤ maxRegions) :
    ∃ regions, cfiReverseGeometry chip = some regions ∧ regions.length = maxRegions ∧
      (regions.take chip.numEraseRegions.toNat).Perm chip.announced := by
  have hmod : (chip.numEraseRegions.toNat + (2 ^ 32 - 1)) % 2 ^ 32 = chip.numEraseRegions.toNat - 1 := by
    unfold maxRegions at hle
    omega
  unfold cfiReverseGeometry Chip.announced
  rw [hmod]
  generalize chip.numEraseRegions.toNat = n at hpos hle
  have hlen := chip.regions
  generalize chip.eraseRegionInfo = regions at hlen
  match regions, hlen with
  | [a, b, c, d], _ =>
    have hn : n = 1 ∨ n = 2 ∨ n = 3 ∨ n = 4 := by
      unfold maxRegions at hle
      omega
    rcases hn with rfl | rfl | rfl | rfl
    · exact ⟨_, rfl, rfl, List.Perm.refl _⟩
    · exact ⟨_, rfl, rfl, reverse_perm [a, b]⟩
    · exact ⟨_, rfl, rfl, reverse_perm [a, b, c]⟩
    · exact ⟨_, rfl, rfl, reverse_perm [a, b, c, d]⟩

theorem cfiReverseGeometry_zero (h : chip.numEraseRegions.toNat = 0) : cfiReverseGeometry chip = none := by
  unfold cfiReverseGeometry
  rw [h]
  show reverseLoop (4294967294 + 1) 0 chip.eraseRegionInfo = none
  have hlast : chip.eraseRegionInfo[4294967294 + 1]? = none :=
    List.getElem?_eq_none (chip.regions ▸ by decide)
  rw [reverseLoop, if_pos (by decide), hlast]
  cases chip.eraseRegionInfo[0]? with
  | none => rfl
  | some tmp => rfl

theorem reverseLoop_length {i j : Nat} {regions regions' : List UInt32} (h : reverseLoop j i regions = some regions') :
    regions'.length = regions.length := by
  induction j generalizing i regions with
  | zero => rw [Option.some.inj h]
  | succ j ih =>
    rw [reverseLoop] at h
    split at h
    · split at h
      · rw [ih h, length_set, length_set]
      · cases h
    · rw [Option.some.inj h]

theorem fixups_cases (chip : Chip) : fixups chip = some chip.eraseRegionInfo ∨ fixups chip = cfiReverseGeometry chip := by
  unfold fixups flashFixupAmd flashFixupAtmel flashFixupStm
  split
  · split
    · split
      · split
        · exact .inr rfl
        · exact .inl rfl
      · split
        · exact .inr rfl
        · exact .inl rfl
    · exact .inl rfl
  · split
    · split
      · exact .inr rfl
      · exact .inl rfl
    · split
      · split
        · split
          · split
            · exact .inr rfl
            · exact .inl rfl
          · exact .inl rfl
        · exact .inl rfl
      · exact .inl rfl

/-- Only the fixup for Atmel reverses regions that are not there. -/
def ReversesNothing (chip : Chip) : Prop :=
  chip.numEraseRegions.toNat = 0 ∧ chip.manufacturerId = 0x001f ∧ atmelReverses chip = true

theorem fixups_zero (h : chip.numEraseRegions.toNat = 0) (hnot : ¬ReversesNothing chip) :
    fixups chip = some chip.eraseRegionInfo := by
  have hone : ¬chip.numEraseRegions > 1 := by
    intro hgt
    have hlt := UInt8.lt_iff_toNat_lt.mp hgt
    rw [h] at hlt
    exact absurd hlt (by decide)
  unfold fixups flashFixupAmd flashFixupAtmel flashFixupStm
  rw [if_neg hone, if_neg hone]
  split
  · rfl
  · split
    next hid => exact if_neg fun hreverses => hnot ⟨h, hid, hreverses⟩
    · exact ite_self _

theorem ReversesNothing.outside (h : ReversesNothing chip) : fixups chip = none := by
  unfold fixups flashFixupAtmel
  rw [if_neg (by rw [h.2.1]; decide), if_pos h.2.1, if_pos h.2.2]
  exact cfiReverseGeometry_zero h.1

theorem fixups_some (hle : chip.numEraseRegions.toNat ≤ maxRegions) (hnot : ¬ReversesNothing chip) :
    ∃ regions, fixups chip = some regions ∧ regions.length = maxRegions ∧
      (regions.take chip.numEraseRegions.toNat).Perm chip.announced := by
  rcases Nat.eq_zero_or_pos chip.numEraseRegions.toNat with hzero | hpos
  · exact ⟨_, fixups_zero hzero hnot, chip.regions, List.Perm.refl _⟩
  · rcases fixups_cases chip with hsame | hreversed
    · exact ⟨_, hsame, chip.regions, List.Perm.refl _⟩
    · rw [hreversed]
      exact cfiReverseGeometry_some hpos hle

theorem fixups_length {regions : List UInt32} (h : fixups chip = some regions) : regions.length = maxRegions := by
  rcases fixups_cases chip with hsame | hreversed
  · cases hsame.symm.trans h
    exact chip.regions
  · exact (reverseLoop_length (hreversed.symm.trans h)).trans chip.regions

end

section
variable {es : List Extent} {e : Extent} {info : FlashInfo} {base : Nat}

theorem measured_eq (h : Tiles base (base + info.size) es) (hsize : info.size < 2 ^ 32) (hstart : info.start = es.map Extent.lo)
    (hcount : info.sectorCount = info.start.length) (haddr : base + info.size ≤ 2 ^ 32) : measured info = es := by
  have hlen : info.sectorCount = es.length := by rw [hcount, hstart, length_map]
  unfold measured
  refine ext_getElem? fun k => ?_
  rcases lt_or_ge k es.length with hk | hk
  · have hek := List.getElem?_eq_getElem hk
    have hbounds := h.bounds (getElem_mem hk)
    have hread : ∀ k' (hk' : k' < es.length), info.start[k']?.getD 0 = es[k'].lo := by
      intro k' hk'
      rw [hstart, List.getElem?_map, List.getElem?_eq_getElem hk']
      rfl
    obtain ⟨hnext, hlast⟩ := next_of_tiles h hek
    rw [List.getElem?_map, List.getElem?_range (hlen ▸ hk), hek]
    have hmeasure : flashSectorSize info k = es[k].hi - es[k].lo := by
      unfold flashSectorSize
      dsimp only
      rw [hread k hk, hlen]
      split
      next hne =>
        have hk' : k + 1 < es.length := by omega
        have hjoin := hnext es[k + 1] (List.getElem?_eq_getElem hk')
        rw [hread (k + 1) hk']
        omega
      next heq =>
        have hfirst : es[0].lo = base := by
          cases es with
          | nil => exact absurd hk (Nat.not_lt_zero k)
          | cons e es => exact h.1
        rw [hread 0 (by omega), hfirst]
        omega
    show some (Extent.mk _ _) = _
    rw [hread k hk, hmeasure]
    have hhi : es[k].lo + (es[k].hi - es[k].lo) = es[k].hi := by omega
    rw [hhi]
  · rw [List.getElem?_eq_none hk, List.getElem?_eq_none (by rw [length_map, length_range]; omega)]

end

section
variable {maxSect : Nat} {port : Port} {chip : Chip} {base : Nat}

theorem flashGetSize_inside_iff : (flashGetSize maxSect port chip base).Inside maxSect ↔
    ((intelCmdset chip.pId || amdCmdset chip.pId) = true →
      chip.numEraseRegions.toNat ≤ maxRegions ∧ ¬ReversesNothing chip) := by
  unfold flashGetSize
  split
  next hvendor =>
    dsimp only
    split
    next hfix =>
      refine iff_of_false id fun h => ?_
      obtain ⟨regions, hregions, _⟩ := fixups_some (h hvendor).1 (h hvendor).2
      cases hfix.symm.trans hregions
    next regions hfix =>
      have hlen := fixups_length hfix
      split
      next hloop =>
        refine iff_of_false id fun h => ?_
        obtain ⟨hle, _⟩ := h hvendor
        have hread : 0 + chip.numEraseRegions.toNat ≤ regions.length := by omega
        obtain ⟨s', hsome⟩ := regionLoop_some hread
        cases hloop.symm.trans hsome
      next sects sector hloop =>
        have hroom := regionLoop_length (Nat.zero_le maxSect) hloop
        refine iff_of_true ⟨?_, ?_⟩ fun _ => ⟨?_, fun hnothing => ?_⟩
        · rw [length_map]
          exact hroom
        · rw [length_map]
          exact hroom
        · by_contra hgt
          cases (regionLoop_outside hlen (Nat.zero_le _) (by omega)).symm.trans hloop
        · cases hnothing.outside.symm.trans hfix
  next hvendor => exact iff_of_true trivial fun h => absurd h hvendor

theorem announced_sectors_pos (hsome : chip.numEraseRegions.toNat ≠ 0) (hle : chip.numEraseRegions.toNat ≤ maxRegions) :
    0 < (chip.announced.map regionCount).sum := by
  have hregions := chip.regions
  cases hannounced : chip.announced with
  | nil =>
    have hlength := congrArg List.length hannounced
    unfold Chip.announced at hlength
    rw [length_take, length_nil] at hlength
    omega
  | cons tmp regions =>
    rw [map_cons, sum_cons]
    exact Nat.add_pos_left (Nat.succ_pos _) _

theorem flashGetSize_decoded {regions : List UInt32} {sects : List (Nat × Bool)} {sector : Nat}
    (hvendor : (intelCmdset chip.pId || amdCmdset chip.pId) = true) (hfix : fixups chip = some regions)
    (hloop : regionLoop maxSect (sizeRatio port chip) (fun sector => intelCmdset chip.pId && chip.isProtected sector)
      regions chip.numEraseRegions.toNat 0 ([], base) = some (sects, sector)) :
    flashGetSize maxSect port chip base =
      .decoded ⟨sects.map Prod.fst, sects.map Prod.snd, sects.length % 2 ^ 16, bankSize port chip⟩ := by
  unfold flashGetSize
  rw [if_pos hvendor, hfix]
  dsimp only
  rw [hloop]

theorem flashGetSize_fits (hvendor : (intelCmdset chip.pId || amdCmdset chip.pId) = true)
    (hnothing : ¬ReversesNothing chip) (hfits : Fits maxSect port chip base) (hbase : base < 2 ^ 32)
    (hmax : maxSect < 2 ^ 16) :
    ∃ info sizes, flashGetSize maxSect port chip base = .decoded info ∧ info.start = startsFrom base sizes ∧
      info.sectorCount = info.start.length ∧ info.size = bankSize port chip ∧ info.size = sizes.sum ∧
      sizes.length = (chip.announced.map regionCount).sum ∧ (0 < sizeRatio port chip → ∀ size ∈ sizes, 0 < size) := by
  obtain ⟨regions, hfix, hlen, hperm⟩ := fixups_some hfits.regions hnothing
  have hregions := hfits.regions
  have hcount : (sectorSizes (sizeRatio port chip) (regions.take chip.numEraseRegions.toNat)).length =
      (chip.announced.map regionCount).sum := by
    rw [sectorSizes_length, (hperm.map regionCount).sum_eq]
  have hsum : (sectorSizes (sizeRatio port chip) (regions.take chip.numEraseRegions.toNat)).sum = bankSize port chip := by
    rw [sectorSizes_sum, (hperm.map fun tmp => regionCount tmp * regionSize tmp).sum_eq, hfits.size]
  have hread : 0 + chip.numEraseRegions.toNat ≤ regions.length := by omega
  have hroom : ([] : List (Nat × Bool)).length + (sectorSizes (sizeRatio port chip)
      ((regions.drop 0).take chip.numEraseRegions.toNat)).length ≤ maxSect := by
    rw [drop_zero, hcount, length_nil, zero_add]
    exact hfits.sectors
  obtain ⟨sector, hloop⟩ := regionLoop_eq (fun sector => intelCmdset chip.pId && chip.isProtected sector) hread
    (by omega) hroom hbase
  rw [drop_zero, nil_append] at hloop
  refine ⟨_, sectorSizes (sizeRatio port chip) (regions.take chip.numEraseRegions.toNat),
    flashGetSize_decoded hvendor hfix hloop, ?_, ?_, rfl, hsum.symm, hcount, fun hratio size => sectorSizes_pos hratio⟩
  · rw [map_map]
    exact map_id _
  · have hfew := hfits.sectors
    simp only [length_map, startsFrom_length, hcount]
    omega

/-- The decoding stays inside its arrays, and a geometry that fits gives sectors that tile the bank, exactly if there
are at most four regions, no regions that are not there are reversed, and the size ratio has not become 0. -/
theorem flash_get_size_right_iff (hbase : base < 2 ^ 32) (hmax : maxSect < 2 ^ 16) :
    Right maxSect port chip base (flashGetSize maxSect port chip base) ↔
      ((intelCmdset chip.pId || amdCmdset chip.pId) = true →
        chip.numEraseRegions.toNat ≤ maxRegions ∧ ¬ReversesNothing chip ∧
          (Fits maxSect port chip base → sizeRatio port chip ≠ 0 ∨ chip.numEraseRegions.toNat = 0)) := by
  constructor
  · intro hright hvendor
    obtain ⟨hle, hnothing⟩ := flashGetSize_inside_iff.mp hright.inside hvendor
    refine ⟨hle, hnothing, fun hfits => ?_⟩
    by_contra hnot
    obtain ⟨hratio, hsome⟩ := not_or.mp hnot
    obtain ⟨info, hinfo, htiled⟩ := hright.tiled hvendor hfits
    obtain ⟨info', sizes, hinfo', hstart, hcount, hbank, _, hlength, _⟩ :=
      flashGetSize_fits hvendor hnothing hfits hbase hmax
    cases Outcome.decoded.inj (hinfo.symm.trans hinfo')
    have hsize : info.size = 0 := by
      rw [hbank, bankSize, not_not.mp hratio]
      rfl
    have hpos : 0 < info.sectorCount := by
      rw [hcount, hstart, startsFrom_length, hlength]
      exact announced_sectors_pos hsome hle
    have hfirst : (measured info)[0]? ≠ none := by
      unfold measured
      simp [hpos]
    obtain ⟨e, he⟩ := Option.ne_none_iff_exists'.mp hfirst
    have hbounds := htiled.tiles.bounds (mem_of_getElem? he)
    omega
  · intro h
    refine ⟨flashGetSize_inside_iff.mpr fun hvendor => ⟨(h hvendor).1, (h hvendor).2.1⟩, fun hvendor hfits => ?_⟩
    obtain ⟨hle, hnothing, hratio⟩ := h hvendor
    obtain ⟨info, sizes, hinfo, hstart, hcount, hbank, hsum, hlength, hpos⟩ :=
      flashGetSize_fits hvendor hnothing hfits hbase hmax
    have hall : ∀ size ∈ sizes, 0 < size := by
      rcases hratio hfits with hratio | hzero
      · exact hpos (Nat.pos_of_ne_zero hratio)
      · have hnil : chip.announced = [] := by
          unfold Chip.announced
          rw [hzero, take_zero]
        rw [hnil] at hlength
        rw [eq_nil_of_length_eq_zero hlength]
        exact fun size hmem => absurd hmem not_mem_nil
    have haddr := hfits.addressable
    have hsize : info.size < 2 ^ 32 := by
      rw [hbank]
      exact Nat.mod_lt _ (by decide)
    rw [← hbank] at haddr
    have htiles : Tiles base (base + info.size) (tilesFrom base sizes) := hsum ▸ tilesFrom_tiles hall
    have hlo : info.start = (tilesFrom base sizes).map Extent.lo := hstart.trans (startsFrom_eq hall (hsum ▸ haddr))
    refine ⟨info, hinfo, hcount, ?_, ?_⟩
    · rw [hlo, pairwise_map]
      refine htiles.ordered.sorted.imp_of_mem fun he _ hle => ?_
      exact lt_of_lt_of_le (htiles.ordered.proper _ he) hle
    · rw [measured_eq htiles hsize hlo hcount haddr]
      exact htiles

end

def oneRegion : Chip where
  numEraseRegions := 1
  eraseRegionInfo := [0x00200007, 0, 0, 0]
  devSize := 16
  pId := 2
  pAdr := 0
  interfaceDesc := 1
  manufacturerId := 0
  deviceId := 0
  readUchar := fun _ => 0
  isProtected := fun _ => false
  regions := rfl

def wordPort : Port := { portwidth := 2, chipwidth := 2, port := by decide, chip := by decide, chip_le := by decide }

theorem one_region_right : Right 128 wordPort oneRegion 0x8000000 (flashGetSize 128 wordPort oneRegion 0x8000000) :=
  (flash_get_size_right_iff (by decide) (by decide)).mpr fun _ =>
    ⟨by decide, fun h => absurd h.1 (by decide), fun _ => .inl (by decide)⟩

/-- With five regions the fifth one is read behind the array. -/
theorem fifth_region_read : ¬Right 128 wordPort { oneRegion with numEraseRegions := 5 } 0x8000000
      (flashGetSize 128 wordPort { oneRegion with numEraseRegions := 5 } 0x8000000) := by
  intro h
  exact absurd (flashGetSize_inside_iff.mp h.inside (by decide)).1 (by decide)

end UBoot.CfiGeometry
