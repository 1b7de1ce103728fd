import UBoot.Crc32
import UBoot.PartDosExact

namespace UBoot.Part

variable (d : BlockDev)

/-- `le64_to_int` of eight bytes at an offset. -/
def Block.le64 (b : Block) (i : Nat) (h : i + 8 ≤ 512) : UInt64 :=
  ((b ⟨i + 7, by omega⟩).toUInt64 <<< 56) + ((b ⟨i + 6, by omega⟩).toUInt64 <<< 48) +
    ((b ⟨i + 5, by omega⟩).toUInt64 <<< 40) + ((b ⟨i + 4, by omega⟩).toUInt64 <<< 32) +
    ((b ⟨i + 3, by omega⟩).toUInt64 <<< 24) + ((b ⟨i + 2, by omega⟩).toUInt64 <<< 16) +
    ((b ⟨i + 1, by omega⟩).toUInt64 <<< 8) + (b ⟨i, by omega⟩).toUInt64

/-- `le32_to_int` of four bytes at an offset. -/
def Block.le32 (b : Block) (i : Nat) (h : i + 4 ≤ 512) : UInt32 :=
  le32ToInt (b ⟨i, by omega⟩) (b ⟨i + 1, by omega⟩) (b ⟨i + 2, by omega⟩) (b ⟨i + 3, by omega⟩)

def Block.signature (b : Block) : UInt64 := b.le64 0 (by decide)
def Block.headerSize (b : Block) : UInt32 := b.le32 12 (by decide)
def Block.headerCrc32 (b : Block) : UInt32 := b.le32 16 (by decide)
def Block.myLba (b : Block) : UInt64 := b.le64 24 (by decide)
def Block.firstUsableLba (b : Block) : UInt64 := b.le64 40 (by decide)
def Block.lastUsableLba (b : Block) : UInt64 := b.le64 48 (by decide)
def Block.partitionEntryLba (b : Block) : UInt64 := b.le64 72 (by decide)
def Block.numPartitionEntries (b : Block) : UInt32 := b.le32 80 (by decide)
def Block.sizeofPartitionEntry (b : Block) : UInt32 := b.le32 84 (by decide)
def Block.partitionEntryArrayCrc32 (b : Block) : UInt32 := b.le32 88 (by decide)

def gptHeaderSignature : UInt64 := 0x5452415020494645

/-- The first bytes of the header, with zeros in the place of `header_crc32`. -/
def Block.crcBytes (b : Block) (len : Nat) (h : len ≤ 512) : List UInt8 :=
  List.ofFn fun i : Fin len => if 16 ≤ i.val ∧ i.val < 20 then 0 else b ⟨i, by omega⟩

/-- What a run can do wrong. -/
inductive Fault where
  | outsideHeader | outsideEntries | nullPointer
deriving DecidableEq

abbrev Entries := List UInt8

/-- A read of `count` blocks into the allocated array. -/
def readBlocks (start : UInt32) : Nat → Option Entries
  | 0 => some []
  | count + 1 => (readBlocks start count).bind fun bytes =>
      (d.blockRead (start + UInt32.ofNat count)).map fun b => bytes ++ List.ofFn b

/-- `alloc_read_gpt_entries`: no entries for NULL. `malloc` tells which sizes can be allocated. -/
def allocReadGptEntries (malloc : UInt32 → Bool) (head : Block) : Option Entries :=
  let count := head.numPartitionEntries * head.sizeofPartitionEntry
  if count = 0 ∨ malloc count = false then none
  else readBlocks d head.partitionEntryLba.toUInt32 (count / 512).toNat

/-- `is_gpt_valid`: whether the table is valid, the header, and the variable that `pgpt_pte` points to. The
argument is the content of this variable, or none where `pgpt_pte` is NULL. -/
def isGptValid (malloc : UInt32 → Bool) (lba : UInt64) (pgptPte : Option (Option Entries)) :
    Except Fault (Bool × Option (Option Entries)) :=
  match d.blockRead lba.toUInt32 with
  | none => .ok (false, pgptPte)
  | some head =>
    if head.signature ≠ gptHeaderSignature then .ok (false, pgptPte)
    else if h : head.headerSize.toNat ≤ 512 then
      if crc32 0 (head.crcBytes head.headerSize.toNat h) ≠ head.headerCrc32 then .ok (false, pgptPte)
      else if head.myLba ≠ lba then .ok (false, pgptPte)
      else if d.lba.toUInt64 < head.firstUsableLba then .ok (false, pgptPte)
      else if d.lba.toUInt64 < head.lastUsableLba then .ok (false, pgptPte)
      else
        match pgptPte with
        | none => .error .nullPointer
        | some _ =>
          match allocReadGptEntries d malloc head with
          | none => .ok (false, some none)
          | some pte =>
            let len := (head.numPartitionEntries * head.sizeofPartitionEntry).toNat
            if pte.length < len then .error .outsideEntries
            else .ok (crc32 0 (pte.take len) = head.partitionEntryArrayCrc32, some (some pte))
    else .error .outsideHeader

def entryLe64 (pte : Entries) (i : Nat) : Except Fault UInt64 :=
  if i + 8 ≤ pte.length then
    .ok (((pte.drop i).take 8).foldr (fun b n => (n <<< 8) + b.toUInt64) 0)
  else .error .outsideEntries

/-- `get_partition_info_efi`: start and size, or none for -1. Its `pgpt_pte` is NULL. -/
def getPartitionInfoEfi (malloc : UInt32 → Bool) (part : Int) : Except Fault (Option (UInt32 × UInt32)) :=
  if part < 1 then .ok none
  else
    match isGptValid d malloc 1 none with
    | .error e => .error e
    | .ok (false, _) => .ok none
    | .ok (true, none) => .error .nullPointer
    | .ok (true, some none) => .error .nullPointer
    | .ok (true, some (some pte)) =>
      match entryLe64 pte ((part - 1).toNat * 128 + 32), entryLe64 pte ((part - 1).toNat * 128 + 40) with
      | .ok startingLba, .ok endingLba =>
        .ok (some (startingLba.toUInt32, endingLba.toUInt32 + 1 - startingLba.toUInt32))
      | _, _ => .error .outsideEntries

/-- The header passes the checks for a table at block 1. -/
structure BlockDev.Accepts (d : BlockDev) (head : Block) : Prop where
  signature : head.signature = gptHeaderSignature
  headerSize : head.headerSize.toNat ≤ 512
  headerCrc : crc32 0 (head.crcBytes head.headerSize.toNat headerSize) = head.headerCrc32
  myLba : head.myLba = 1
  firstUsable : head.firstUsableLba ≤ d.lba.toUInt64
  lastUsable : head.lastUsableLba ≤ d.lba.toUInt64

/-- A valid table: its header is accepted, the entries are of 128 bytes or a larger power of two, they lie on
the disk from the entry block on, and their checksum is right. -/
structure BlockDev.ValidGpt (d : BlockDev) (head : Block) (entries : Entries) : Prop where
  read : d.blockRead 1 = some head
  accepted : d.Accepts head
  entrySize : ∃ k, head.sizeofPartitionEntry.toNat = 128 * 2 ^ k
  length : entries.length = head.numPartitionEntries.toNat * head.sizeofPartitionEntry.toNat
  stored : ∀ i, i < entries.length → ∃ b, d.blockRead (UInt32.ofNat (head.partitionEntryLba.toNat + i / 512)) = some b ∧
    entries[i]? = some (b ⟨i % 512, Nat.mod_lt i (by decide)⟩)
  arrayCrc : crc32 0 entries = head.partitionEntryArrayCrc32

def entryInUse (head : Block) (entries : Entries) (part : Nat) : Option Entries :=
  let entry := (entries.drop ((part - 1) * head.sizeofPartitionEntry.toNat)).take 128
  if part ≤ head.numPartitionEntries.toNat ∧ ¬(entry.take 16).all (· == 0) then some entry else none

def entryExtent (entry : Entries) : UInt32 × UInt32 :=
  let le64 (i : Nat) : UInt64 := ((entry.drop i).take 8).foldr (fun b n => (n <<< 8) + b.toUInt64) 0
  ((le64 32).toUInt32, (le64 40).toUInt32 + 1 - (le64 32).toUInt32)

/-- The lookup of a part makes no fault, and where the table is valid it returns the part's entry. -/
def BlockDev.GptLookupRight (d : BlockDev) (malloc : UInt32 → Bool) (part : Int) : Prop :=
  ∃ r, getPartitionInfoEfi d malloc part = .ok r ∧
    ∀ head entries, d.ValidGpt head entries → 1 ≤ part → r = (entryInUse head entries part.toNat).map entryExtent

variable {d : BlockDev} {malloc : UInt32 → Bool} {part : Int} {head : Block}

theorem isGptValid_accepted (hread : d.blockRead 1 = some head) (h : d.Accepts head) :
    isGptValid d malloc 1 none = .error .nullPointer := by
  unfold isGptValid
  change (match d.blockRead 1 with | none => _ | some head => _) = _
  rw [hread]
  dsimp only
  rw [if_neg (not_not.mpr h.signature), dif_pos h.headerSize, if_neg (not_not.mpr h.headerCrc),
    if_neg (not_not.mpr h.myLba), if_neg (UInt64.not_lt.mpr h.firstUsable), if_neg (UInt64.not_lt.mpr h.lastUsable)]

theorem isGptValid_long (hread : d.blockRead 1 = some head) (hsig : head.signature = gptHeaderSignature)
    (hlong : ¬head.headerSize.toNat ≤ 512) : isGptValid d malloc 1 none = .error .outsideHeader := by
  unfold isGptValid
  change (match d.blockRead 1 with | none => _ | some head => _) = _
  rw [hread]
  dsimp only
  rw [if_neg (not_not.mpr hsig), dif_neg hlong]

theorem isGptValid_refused (h : ∀ head, d.blockRead 1 = some head → head.signature = gptHeaderSignature →
    head.headerSize.toNat ≤ 512 ∧ ¬d.Accepts head) : isGptValid d malloc 1 none = .ok (false, none) := by
  unfold isGptValid
  change (match d.blockRead 1 with | none => _ | some head => _) = _
  cases hread : d.blockRead 1 with
  | none => rfl
  | some head =>
    dsimp only
    by_cases hsig : head.signature = gptHeaderSignature
    · obtain ⟨hsize, hrefused⟩ := h head hread hsig
      rw [if_neg (not_not.mpr hsig), dif_pos hsize]
      split
      · rfl
      next hcrc =>
        split
        · rfl
        next hlba =>
          split
          · rfl
          next hfirst =>
            split
            · rfl
            next hlast =>
              exact absurd ⟨hsig, hsize, not_not.mp hcrc, not_not.mp hlba, UInt64.not_lt.mp hfirst,
                UInt64.not_lt.mp hlast⟩ hrefused
    · exact if_pos hsig

theorem BlockDev.GptLookupRight.refused (h : d.GptLookupRight malloc part) (hpart : ¬part < 1)
    (hread : d.blockRead 1 = some head) (hsig : head.signature = gptHeaderSignature) :
    head.headerSize.toNat ≤ 512 ∧ ¬d.Accepts head := by
  obtain ⟨r, hr, -⟩ := h
  unfold getPartitionInfoEfi at hr
  rw [if_neg hpart] at hr
  refine ⟨?_, fun haccepted => ?_⟩
  · by_contra hlong
    rw [isGptValid_long hread hsig hlong] at hr
    cases hr
  · rw [isGptValid_accepted hread haccepted] at hr
    cases hr

/-- `get_partition_info_efi` does what it should exactly where it has nothing to look up: the part number is
below 1, or the header is refused, and that before a checksum of more than a block. -/
theorem get_partition_info_efi_iff (d : BlockDev) (malloc : UInt32 → Bool) (part : Int) :
    d.GptLookupRight malloc part ↔ part < 1 ∨ ∀ head, d.blockRead 1 = some head →
      head.signature = gptHeaderSignature → head.headerSize.toNat ≤ 512 ∧ ¬d.Accepts head := by
  constructor
  · intro h
    by_cases hpart : part < 1
    · exact .inl hpart
    · exact .inr fun head hread hsig => h.refused hpart hread hsig
  · rintro (hpart | hrefused)
    · exact ⟨none, if_pos hpart, fun _ _ _ hge => absurd hpart (by omega)⟩
    · refine ⟨none, ?_, fun head _ hvalid _ => ?_⟩
      · unfold getPartitionInfoEfi
        rw [isGptValid_refused hrefused]
        exact ite_self _
      · exact absurd hvalid.accepted (hrefused head hvalid.read hvalid.accepted.signature).2

def gptBlock : Block := blockOf
  [(0, 0x45), (1, 0x46), (2, 0x49), (3, 0x20), (4, 0x50), (5, 0x41), (6, 0x52), (7, 0x54), (10, 1), (12,
    0x5c), (16, 0x52), (17, 0x7d), (18, 0xa0), (19, 0x76), (24, 1), (32, 9), (40, 3), (48, 8), (72, 2), (80,
    4), (84, 0x80), (88, 0x76), (89, 0x57), (90, 0x51), (91, 0x34)]

def gptDisk : BlockDev where
  ifType := .ide
  dev := 0
  lba := 10
  blockRead s := if s = 1 then some gptBlock else if s = 2 then some (blockOf [(0, 0xa2), (32, 4), (40, 8)]) else none
  beyond s hs := by
    have hone : s ≠ 1 := by
      rintro rfl
      exact absurd hs (by decide)
    have htwo : s ≠ 2 := by
      rintro rfl
      exact absurd hs (by decide)
    rw [if_neg hone, if_neg htwo]

/-- `DO1` of `crc32` -/
def crcStep (crc : UInt32) (b : UInt8) : UInt32 := crcTable ((crc ^^^ b.toUInt32) &&& 0xff) ^^^ (crc >>> 8)

theorem gptBlock_crc : crc32 0 (gptBlock.crcBytes gptBlock.headerSize.toNat (by decide)) = 0x76a07d52 := by
  have hbytes : gptBlock.crcBytes gptBlock.headerSize.toNat (by decide) =
      [0x45, 0x46, 0x49, 0x20, 0x50, 0x41, 0x52, 0x54, 0, 0, 1, 0, 0x5c, 0, 0, 0, 0, 0, 0, 0, 0, 0, 0] ++
      ([0, 1, 0, 0, 0, 0, 0, 0, 0, 9, 0, 0, 0, 0, 0, 0, 0, 3, 0, 0, 0, 0, 0] ++
      ([0, 0, 8, 0, 0, 0, 0, 0, 0, 0, 0, 0, 0, 0, 0, 0, 0, 0, 0, 0, 0, 0, 0] ++
      [0, 0, 0, 2, 0, 0, 0, 0, 0, 0, 0, 4, 0, 0, 0, 0x80, 0, 0, 0, 0x76, 0x57, 0x51, 0x34])) := by decide
  rw [hbytes]
  change (List.foldl crcStep 0xffffffff _) ^^^ 0xffffffff = _
  rw [List.foldl_append, List.foldl_append, List.foldl_append]
  have h0 : List.foldl crcStep 0xffffffff [0x45, 0x46, 0x49, 0x20, 0x50, 0x41, 0x52, 0x54, 0, 0, 1, 0, 0x5c, 0, 0, 0, 0, 0, 0, 0, 0, 0, 0] = 0xd9d408f1 := by
    decide +kernel
  have h1 : List.foldl crcStep 0xd9d408f1 [0, 1, 0, 0, 0, 0, 0, 0, 0, 9, 0, 0, 0, 0, 0, 0, 0, 3, 0, 0, 0, 0, 0] = 0xc92fe490 := by
    decide +kernel
  have h2 : List.foldl crcStep 0xc92fe490 [0, 0, 8, 0, 0, 0, 0, 0, 0, 0, 0, 0, 0, 0, 0, 0, 0, 0, 0, 0, 0, 0, 0] = 0x3e179a9 := by
    decide +kernel
  have h3 : List.foldl crcStep 0x3e179a9 [0, 0, 0, 2, 0, 0, 0, 0, 0, 0, 0, 4, 0, 0, 0, 0x80, 0, 0, 0, 0x76, 0x57, 0x51, 0x34] = 0x895f82ad := by
    decide +kernel
  rw [h0, h1, h2, h3]
  decide

/-- The pointer for the entries is NULL, so no valid table is looked up. -/
theorem valid_gpt_stored_through_null : ¬∀ (d : BlockDev) (malloc : UInt32 → Bool) (part : Int),
    d.GptLookupRight malloc part := by
  intro h
  have haccepted : gptDisk.Accepts gptBlock :=
    ⟨by decide, by decide, gptBlock_crc, by decide, by decide, by decide⟩
  exact ((h gptDisk (fun _ => true) 1).refused (by decide) rfl haccepted.signature).2 haccepted

end UBoot.Part
