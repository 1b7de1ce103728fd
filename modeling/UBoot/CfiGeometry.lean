import Mathlib.Algebra.GroupWithZero.Nat
import Mathlib.Algebra.Order.BigOperators.Group.List
import UBoot.Extents

namespace UBoot.CfiGeometry

open Extents (Extent Tiles)

/-- `NUM_ERASE_REGIONS` -/
def maxRegions : Nat := 4

def flashCfiX8X16 : Nat := 2

/-- What a chip answers: fields of its query structure, its ids, the bytes at an offset, and the protection bits. -/
structure Chip where
  numEraseRegions : UInt8
  eraseRegionInfo : List UInt32
  devSize : UInt8
  pId : Nat
  pAdr : Nat
  interfaceDesc : Nat
  manufacturerId : Nat
  deviceId : Nat
  readUchar : Nat → UInt8
  isProtected : Nat → Bool
  regions : eraseRegionInfo.length = maxRegions

/-- The widths with which the chip is found. -/
structure Port where
  portwidth : Nat
  chipwidth : Nat
  port : portwidth ∈ [1, 2, 4, 8]
  chip : chipwidth ∈ [1, 2, 4, 8]
  chip_le : chipwidth ≤ portwidth

def intelCmdset (vendor : Nat) : Bool := vendor == 1 || vendor == 3 || vendor == 512
def amdCmdset (vendor : Nat) : Bool := vendor == 2 || vendor == 4

def Chip.cfiVersion (chip : Chip) : Nat :=
  if chip.pAdr = 0 then 0 else (chip.readUchar (chip.pAdr + 3)).toNat * 256 + (chip.readUchar (chip.pAdr + 4)).toNat

/-- The loop of `cfi_reverse_geometry`; no result is an access outside `erase_region_info`. -/
def reverseLoop : Nat → Nat → List UInt32 → Option (List UInt32)
  | 0, _, regions => some regions
  | j + 1, i, regions =>
    if i < j + 1 then
      match regions[i]?, regions[j + 1]? with
      | some a, some b => reverseLoop j (i + 1) ((regions.set i b).set (j + 1) a)
      | _, _ => none
    else some regions

/-- `cfi_reverse_geometry`, where `j` is an `unsigned int`. -/
def cfiReverseGeometry (chip : Chip) : Option (List UInt32) :=
  reverseLoop ((chip.numEraseRegions.toNat + (2 ^ 32 - 1)) % 2 ^ 32) 0 chip.eraseRegionInfo

def flashFixupAmd (chip : Chip) : Option (List UInt32) :=
  if chip.numEraseRegions > 1 then
    if chip.cfiVersion < 0x3131 then
      if chip.deviceId &&& 0x80 ≠ 0 then cfiReverseGeometry chip else some chip.eraseRegionInfo
    else if chip.readUchar (chip.pAdr + 0xf) = 3 then cfiReverseGeometry chip
    else some chip.eraseRegionInfo
  else some chip.eraseRegionInfo

/-- `reverse_geometry` of `flash_fixup_atmel` -/
def atmelReverses (chip : Chip) : Bool :=
  let reverse := chip.pAdr ≠ 0 ∧ chip.readUchar (chip.pAdr + 6) &&& 1 = 0
  if chip.deviceId = 0xd6 ∨ chip.deviceId = 0xd2 then !decide reverse else decide reverse

def flashFixupAtmel (chip : Chip) : Option (List UInt32) :=
  if atmelReverses chip then cfiReverseGeometry chip else some chip.eraseRegionInfo

def flashFixupStm (chip : Chip) : Option (List UInt32) :=
  if chip.numEraseRegions > 1 then
    if chip.cfiVersion < 0x3131 then
      if chip.deviceId = 0x22CA ∨ chip.deviceId = 0x2256 then cfiReverseGeometry chip else some chip.eraseRegionInfo
    else some chip.eraseRegionInfo
  else some chip.eraseRegionInfo

def fixups (chip : Chip) : Option (List UInt32) :=
  if chip.manufacturerId = 0x0001 then flashFixupAmd chip
  else if chip.manufacturerId = 0x001f then flashFixupAtmel chip
  else if chip.manufacturerId = 0x0020 then flashFixupStm chip
  else some chip.eraseRegionInfo

def sizeRatio (port : Port) (chip : Chip) : Nat :=
  let ratio := port.portwidth / port.chipwidth
  if chip.interfaceDesc = flashCfiX8X16 ∧ port.chipwidth = 1 then ratio / 2 else ratio

def regionCount (tmp : UInt32) : Nat := tmp.toNat % 65536 + 1

def regionSize (tmp : UInt32) : Nat :=
  if tmp.toNat / 65536 % 65536 ≠ 0 then tmp.toNat / 65536 % 65536 * 256 else 128

/-- The loop over the sectors of one region, with `start` and `protect` up to `sect_cnt`, and with `sector`. -/
def sectorLoop (maxSect step : Nat) (protect : Nat → Bool) : Nat → List (Nat × Bool) × Nat → List (Nat × Bool) × Nat
  | 0, s => s
  | count + 1, (sects, sector) =>
    if sects.length ≥ maxSect then (sects, sector)
    else sectorLoop maxSect step protect count (sects ++ [(sector, protect sector)], (sector + step) % 2 ^ 32)

/-- The loop over the regions from the i-th one on. -/
@[grind =] def regionLoop (maxSect ratio : Nat) (protect : Nat → Bool) (regions : List UInt32) :
    Nat → Nat → List (Nat × Bool) × Nat → Option (List (Nat × Bool) × Nat)
  | 0, _, s => some s
  | rest + 1, i, s =>
    if i > maxRegions then some s
    else
      match regions[i]? with
      | none => none
      | some tmp => regionLoop maxSect ratio protect regions rest (i + 1)
          (sectorLoop maxSect (regionSize tmp * ratio) protect (regionCount tmp) s)

/-- `flash_info_t` with the entries of `start` and `protect` that are written. -/
structure FlashInfo where
  start : List Nat
  protect : List Bool
  sectorCount : Nat
  size : Nat

inductive Outcome where
  | outside
  | unknownCommandSet
  | decoded (info : FlashInfo)

/-- `info->size`, which has 32 bits. -/
def bankSize (port : Port) (chip : Chip) : Nat := 2 ^ chip.devSize.toNat % 2 ^ 32 * sizeRatio port chip % 2 ^ 32

/-- `flash_get_size` for a chip that is found. -/
def flashGetSize (maxSect : Nat) (port : Port) (chip : Chip) (base : Nat) : Outcome :=
  if intelCmdset chip.pId || amdCmdset chip.pId then
    let protect := fun sector => intelCmdset chip.pId && chip.isProtected sector
    match fixups chip with
    | none => .outside
    | some regions =>
      match regionLoop maxSect (sizeRatio port chip) protect regions chip.numEraseRegions.toNat 0 ([], base) with
      | none => .outside
      | some (sects, _) =>
        .decoded ⟨sects.map Prod.fst, sects.map Prod.snd, sects.length % 2 ^ 16, bankSize port chip⟩
  else .unknownCommandSet

def flashSectorSize (info : FlashInfo) (sect : Nat) : Nat :=
  let start := fun k => info.start[k]?.getD 0
  if sect ≠ info.sectorCount - 1 then (start (sect + 1) + (2 ^ 32 - start sect)) % 2 ^ 32
  else (start 0 + info.size + (2 ^ 32 - start sect)) % 2 ^ 32

/-- The sectors as `flash_sector_size` measures them. -/
def measured (info : FlashInfo) : List Extent :=
  (List.range info.sectorCount).map fun k =>
    ⟨info.start[k]?.getD 0, info.start[k]?.getD 0 + flashSectorSize info k⟩

def Chip.announced (chip : Chip) : List UInt32 := chip.eraseRegionInfo.take chip.numEraseRegions.toNat

/-- A geometry for which the table is large enough: no more regions than there are, whose size is the one of the chips,
and whose sectors are no more than the table has. -/
structure Fits (maxSect : Nat) (port : Port) (chip : Chip) (base : Nat) : Prop where
  regions : chip.numEraseRegions.toNat ≤ maxRegions
  size : (chip.announced.map fun tmp => regionCount tmp * regionSize tmp).sum * sizeRatio port chip = bankSize port chip
  sectors : (chip.announced.map regionCount).sum ≤ maxSect
  addressable : base + bankSize port chip ≤ 2 ^ 32

/-- The sectors ascend and tile the bank. -/
structure FlashInfo.Tiled (info : FlashInfo) (base : Nat) : Prop where
  counted : info.sectorCount = info.start.length
  ascending : info.start.Pairwise (· < ·)
  tiles : Tiles base (base + info.size) (measured info)

def Outcome.Inside (maxSect : Nat) : Outcome → Prop
  | .outside => False
  | .unknownCommandSet => True
  | .decoded info => info.start.length ≤ maxSect ∧ info.protect.length ≤ maxSect

structure Right (maxSect : Nat) (port : Port) (chip : Chip) (base : Nat) (o : Outcome) : Prop where
  inside : o.Inside maxSect
  tiled : (intelCmdset chip.pId || amdCmdset chip.pId) = true → Fits maxSect port chip base →
    ∃ info, o = .decoded info ∧ info.Tiled base

end UBoot.CfiGeometry
