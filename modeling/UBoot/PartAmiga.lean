import UBoot.PartDos

namespace UBoot.Part

open Loops

/-- The byte order of the processor. -/
inductive ByteOrder where
  | little | big

variable (o : ByteOrder) (d : BlockDev)

/-- The `i`-th `u16` of a block. -/
def Block.half (b : Block) (i : Fin 256) : UInt16 :=
  let lo := b ⟨2 * i, by omega⟩
  let hi := b ⟨2 * i + 1, by omega⟩
  match o with
  | .little => (hi.toUInt16 <<< 8) + lo.toUInt16
  | .big => (lo.toUInt16 <<< 8) + hi.toUInt16

instance block_longs_ne : NeZero 128 := ⟨Nat.succ_ne_zero 127⟩

/-- The `i`-th `u32` of a block. -/
def Block.long (b : Block) (i : Fin 128) : UInt32 :=
  let b0 := b ⟨4 * i, by omega⟩
  let b1 := b ⟨4 * i + 1, by omega⟩
  let b2 := b ⟨4 * i + 2, by omega⟩
  let b3 := b ⟨4 * i + 3, by omega⟩
  match o with
  | .little => le32ToInt b0 b1 b2 b3
  | .big => le32ToInt b3 b2 b1 b0

def amigaIdRdisk : UInt32 := 0x5244534B
def amigaIdPart : UInt32 := 0x50415254
def amigaIdBoot : UInt32 := 0x424f4f54

/-- `summed_longs` of a `block_header` -/
def Block.summedLongs (b : Block) : UInt32 := b.long o 1

/-- The loop of `sum_block` over so many words. A read outside the block is a failure. -/
def sumLongs (b : Block) : Nat → Option UInt32
  | 0 => some 0
  | n + 1 => (sumLongs b n).bind fun sum => if h : n < 128 then some (sum + b.long o ⟨n, h⟩) else none

/-- `sum_block`: whether the sum is not zero. -/
def sumBlock (b : Block) : Option Bool := (sumLongs o b (b.summedLongs o).toNat).map (· != 0)

/-- `get_rdisk` and `get_bootcode` but for the identifier: the first of these blocks that has it and sums up
to zero. -/
def findBlock (id : UInt32) : List UInt32 → Option (Option Block)
  | [] => some none
  | i :: rest =>
    match d.blockRead i with
    | none => findBlock id rest
    | some b =>
      if b.long o 0 = id then
        (sumBlock o b).bind fun bad => if bad then findBlock id rest else some (some b)
      else findBlock id rest

/-- The blocks below the limit, `amiga_scanlimit` or 16. -/
def scanned (limit : Int) : List UInt32 := (List.range limit.toNat).map UInt32.ofNat

def getRdisk (limit : Int) : Option (Option Block) := findBlock o d amigaIdRdisk (scanned limit)

def getBootcode (limit : Int) : Option (Option Block) := findBlock o d amigaIdBoot (scanned limit)

def Block.partitionList (rdb : Block) : UInt32 := rdb.long o 7

/-- `p->next` -/
def Block.next (p : Block) : UInt32 := p.long o 4

/-- The BCPL string `p->drive_name`: a length, as an unsigned `char`, and the bytes. -/
def Block.driveName (p : Block) : List UInt8 :=
  List.ofFn fun i : Fin (p 36).toNat => p ⟨37 + i, by have := (p 36).toNat_lt; omega⟩

/-- One round of the loop of `find_partition`. -/
def findRound (s : Int × UInt32) : Option ((Int × UInt32) ⊕ Option Block) :=
  if s.2 = 0xFFFFFFFF then some (.inr none)
  else
    match d.blockRead s.2 with
    | none => some (.inr none)
    | some p =>
      if p.long o 0 = amigaIdPart then
        (sumBlock o p).map fun bad =>
          if bad then .inl s else if s.1 = 0 then .inr (some p) else .inl (s.1 - 1, p.next o)
      else some (.inr none)

/-- `find_partition`, with the rigid disk block. -/
def findPartition (limit : Int) (partnum : Int) : Comp (Option (Option (Block × Block))) :=
  (Comp.pure (getRdisk o d limit)).andThen fun rdb =>
    match rdb with
    | none => Comp.pure (some none)
    | some rdb =>
      (Comp.loop (fun s => Comp.round (findRound o d s)) (partnum, rdb.partitionList o)).andThen fun p =>
        Comp.pure (some (p.map fun p => (rdb, p)))

/-- The words of `amiga_part_geometry` in the environment of a partition block. -/
def Block.lowCyl (p : Block) : UInt32 := p.long o 41
def Block.highCyl (p : Block) : UInt32 := p.long o 42
def Block.blockPerTrack (p : Block) : UInt32 := p.long o 37
def Block.surfaces (p : Block) : UInt32 := p.long o 35
def Block.dosType (p : Block) : UInt32 := p.long o 48

/-- What `get_partition_info_amiga` puts into `info`. -/
def amigaInfo (rdb p : Block) : Option DiskPartition :=
  (Field.write (p.driveName ++ [0])).bind fun name =>
    let t := p.dosType o
    (Field.write [(t >>> 24).toUInt8, (t >>> 16).toUInt8, (t >>> 8).toUInt8, 0x5c, t.toUInt8 + 0x30, 0]).map fun type =>
      { start := p.lowCyl o * p.blockPerTrack o * p.surfaces o
        size := (p.highCyl o - p.lowCyl o + 1) * p.blockPerTrack o * p.surfaces o - 1
        blksz := rdb.long o 4
        name := name
        type := type }

def getPartitionInfoAmiga (limit part : Int) : Comp (Option (Option DiskPartition)) :=
  (findPartition o d limit (part - 1)).andThen fun found =>
    match found with
    | none => Comp.pure (some none)
    | some (rdb, p) => Comp.pure ((amigaInfo o rdb p).map some)

/-- `bstr_print` copies the name into a buffer of 256 bytes. -/
def bstrPrint (p : Block) : Option (List UInt8) :=
  if p.driveName.length + 1 ≤ 256 then some p.driveName else none

/-- One round of the loop of `print_part_amiga`, with the names that were printed. -/
def printRound (s : List (List UInt8) × UInt32) : Option ((List (List UInt8) × UInt32) ⊕ List (List UInt8)) :=
  if s.2 = 0xFFFFFFFF then some (.inr s.1)
  else
    match d.blockRead s.2 with
    | none => some (.inr s.1)
    | some p =>
      if p.long o 0 = amigaIdPart then
        (sumBlock o p).bind fun bad =>
          if bad then some (.inl s) else (bstrPrint p).map fun name => .inl (s.1 ++ [name], p.next o)
      else some (.inr s.1)

/-- `print_part_amiga`: the names in the table, and whether the disk is called bootable. -/
def printPartAmiga (limit : Int) : Comp (Option (List (List UInt8) × Bool)) :=
  (Comp.pure (getRdisk o d limit)).andThen fun rdb =>
    match rdb with
    | none => Comp.pure (some ([], false))
    | some rdb =>
      (Comp.loop (fun s => Comp.round (printRound o d s)) ([], rdb.partitionList o)).andThen fun names =>
        Comp.pure ((getBootcode o d limit).map fun boot => (names, boot.isSome))

def divide (a b : Nat) : Option Nat := if b = 0 then none else some (a / b)

/-- `blk_size` of the driver descriptor -/
def Block.blkSize (ddb : Block) : Nat := (ddb.half o 1).toNat

def partMacReadDdb : Option Block :=
  match d.blockRead 0 with
  | none => none
  | some ddb => if ddb.half o 0 = 0x4552 then some ddb else none

def readPartitionMap (i : UInt32) : Option Block :=
  match d.blockRead i with
  | none => none
  | some mpart => if mpart.half o 0 = 0x504d then some mpart else none

/-- One round of the loop of `print_part_mac`, with `i` and `n`. -/
def macRound (blkSize : Nat) (s : UInt32 × UInt32) : Option ((UInt32 × UInt32) ⊕ Unit) :=
  if s.1 ≤ s.2 then
    match readPartitionMap o d s.1 with
    | none => some (.inr ())
    | some mpart =>
      (divide 1024 blkSize).bind fun perKb =>
        (divide (mpart.long o 3).toNat perKb).map fun _ => .inl (s.1 + 1, mpart.long o 1)
  else some (.inr ())

def printPartMac : Comp (Option Unit) :=
  match partMacReadDdb o d with
  | none => Comp.pure (some ())
  | some ddb =>
    (Comp.pure ((divide (1024 * 1024) (ddb.blkSize o)).bind fun perMb => divide (ddb.long o 1).toNat perMb)).andThen
      fun _ => Comp.loop (fun s => Comp.round (macRound o d (ddb.blkSize o) s)) (1, 1)

/-- One round of the loop of `part_mac_read_pdb`. -/
def pdbRound (part n : Int) : Int ⊕ Option Block :=
  match readPartitionMap o d (UInt32.ofInt n) with
  | none => .inr none
  | some pdb =>
    if n = part then .inr (some pdb)
    else if part < 1 ∨ part > (pdb.long o 1).toNat then .inr none
    else .inl part

def partMacReadPdb (part : Int) : Comp (Option Block) :=
  Comp.loop (fun n => Comp.pure (pdbRound o d part n)) 1

def Block.bytes (b : Block) (start len : Nat) (h : start + len ≤ 512) : List UInt8 :=
  List.ofFn fun i : Fin len => b ⟨start + i, by omega⟩

/-- What `get_partition_info_mac` puts into `info`. -/
def macInfo (ddb mpart : Block) : Option DiskPartition :=
  (Field.write (mpart.bytes 48 32 (by decide))).bind fun type =>
    (Field.write (mpart.bytes 16 32 (by decide))).map fun name =>
      { start := mpart.long o 2
        size := mpart.long o 3
        blksz := UInt32.ofNat (ddb.blkSize o)
        name := name
        type := type }

def getPartitionInfoMac (part : Int) : Comp (Option (Option DiskPartition)) :=
  match partMacReadDdb o d with
  | none => Comp.pure (some none)
  | some ddb =>
    (partMacReadPdb o d part).bind fun pdb =>
      match pdb with
      | none => Comp.pure (some none)
      | some mpart => Comp.pure ((macInfo o ddb mpart).map some)

end UBoot.Part
