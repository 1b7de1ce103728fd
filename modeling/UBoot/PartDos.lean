import Mathlib.Data.Nat.Digits.Defs
import UBoot.TreeWalk

namespace UBoot.Part

open List Loops

/-- A block of `DEFAULT_SECTOR_SIZE` bytes. -/
abbrev Block := Fin 512 → UInt8

instance block_size_ne : NeZero 512 := ⟨Nat.succ_ne_zero 511⟩

inductive IfType where
  | unknown | ide | scsi | atapi | usb | doc | mmc | sd | sata | sdhc
deriving DecidableEq

/-- `block_dev_desc_t`: `blockRead` gives the block where a read of one block returns 1. -/
structure BlockDev where
  ifType : IfType
  dev : Nat
  lba : UInt32
  blockRead : UInt32 → Option Block
  beyond : ∀ s, lba ≤ s → blockRead s = none

/-- What was written to a field of 32 bytes, from its start on. -/
structure Field where
  bytes : List UInt8
  fits : bytes.length ≤ 32

def Field.write (bytes : List UInt8) : Option Field :=
  if h : bytes.length ≤ 32 then some ⟨bytes, h⟩ else none

/-- `disk_partition_t` -/
structure DiskPartition where
  start : UInt32
  size : UInt32
  blksz : UInt32
  name : Field
  type : Field

/-- The fields of `dos_partition_t` that are read. -/
structure DosPartition where
  bootInd : UInt8
  sysInd : UInt8
  start4 : UInt32
  size4 : UInt32
deriving DecidableEq

def le32ToInt (b0 b1 b2 b3 : UInt8) : UInt32 :=
  (b3.toUInt32 <<< 24) + (b2.toUInt32 <<< 16) + (b1.toUInt32 <<< 8) + b0.toUInt32

def Block.entry (b : Block) (i : Fin 4) : DosPartition where
  bootInd := b ⟨0x1be + 16 * i, by omega⟩
  sysInd := b ⟨0x1be + 16 * i + 4, by omega⟩
  start4 := le32ToInt (b ⟨0x1be + 16 * i + 8, by omega⟩) (b ⟨0x1be + 16 * i + 9, by omega⟩)
    (b ⟨0x1be + 16 * i + 10, by omega⟩) (b ⟨0x1be + 16 * i + 11, by omega⟩)
  size4 := le32ToInt (b ⟨0x1be + 16 * i + 12, by omega⟩) (b ⟨0x1be + 16 * i + 13, by omega⟩)
    (b ⟨0x1be + 16 * i + 14, by omega⟩) (b ⟨0x1be + 16 * i + 15, by omega⟩)

/-- The four entries in the order of the loops. -/
def Block.table (b : Block) : List DosPartition := (List.finRange 4).map b.entry

def isExtended (partType : UInt8) : Bool := partType == 0x5 || partType == 0xf || partType == 0x85

inductive BlockType where
  | dosMbr | dosPbr
deriving DecidableEq

/-- The signature at `DOS_PART_MAGIC_OFFSET`. -/
def Block.signed (b : Block) : Bool := b 0x1fe == 0x55 && b 0x1ff == 0xaa

/-- `test_block_type`, without a value for -1. -/
def testBlockType (b : Block) : Option BlockType :=
  if b.signed then
    if b 0x36 == 0x46 && b 0x37 == 0x41 && b 0x38 == 0x54 then some .dosPbr else some .dosMbr
  else none

/-- `ext_part_sector` and `relative`. -/
structure Spot where
  ext : UInt32
  rel : UInt32
deriving DecidableEq

def Spot.follow (s : Spot) (pt : DosPartition) : Spot :=
  let lbaStart := pt.start4 + s.rel
  ⟨lbaStart, if s.ext = 0 then lbaStart else s.rel⟩

def nextNum (ext : UInt32) (pt : DosPartition) (partNum : Nat) : Nat :=
  if ext = 0 ∨ pt.sysInd ≠ 0 ∧ isExtended pt.sysInd = false then partNum + 1 else partNum

/-- A printed line. -/
structure Line where
  num : Nat
  start : UInt32
  size : UInt32
  type : UInt8
  extd : Bool
deriving DecidableEq

def printOnePart (pt : DosPartition) (ext : UInt32) (partNum : Nat) : Line :=
  ⟨partNum, ext + pt.start4, pt.size4, pt.sysInd, isExtended pt.sysInd⟩

/-- The first loop of `print_partition_extended`: the lines and the part number behind it. -/
def printTable (ext : UInt32) : Nat → List DosPartition → List Line × Nat
  | partNum, [] => ([], partNum)
  | partNum, pt :: rest =>
    let below := printTable ext (nextNum ext pt partNum) rest
    if pt.sysInd ≠ 0 ∧ (ext = 0 ∨ isExtended pt.sysInd = false) then
      (printOnePart pt ext partNum :: below.1, below.2)
    else below

/-- One call of `print_partition_extended`: what it prints and the calls it makes. -/
def printNode (d : BlockDev) (s : Spot × Nat) : List Line × List (Spot × Nat) :=
  match d.blockRead s.1.ext with
  | none => ([], [])
  | some b =>
    match testBlockType b with
    | none => ([], [])
    | some .dosPbr => ([⟨1, 0, d.lba, b 0x15, false⟩], [])
    | some .dosMbr =>
      let lines := printTable s.1.ext s.2 b.table
      (lines.1, (b.table.filter fun pt => isExtended pt.sysInd).map fun pt => (s.1.follow pt, lines.2))

def printPartitionExtended (d : BlockDev) (s : Spot) (partNum : Nat) : Comp (List Line) :=
  Comp.walk (fun t => (printNode d t).1) (fun t => (printNode d t).2) (s, partNum)

def printPartDos (d : BlockDev) : Comp (List Line) := printPartitionExtended d ⟨0, 0⟩ 1

/-- The text of `%d`. -/
def decimal (n : Int32) : List UInt8 := (toString n.toInt).toList.map fun c => c.toNat.toUInt8

def ascii (text : String) : List UInt8 := text.toList.map fun c => c.toNat.toUInt8

def IfType.namePrefix : IfType → String
  | .ide | .sata | .atapi => "hd"
  | .scsi => "sd"
  | .usb => "usbd"
  | .doc => "docd"
  | _ => "xx"

/-- The fields of `info`, or none where a text does not fit into its field. -/
def fillInfo (d : BlockDev) (ext : UInt32) (hit : Nat × DosPartition) : Option DiskPartition :=
  (Field.write (ascii d.ifType.namePrefix ++ [UInt8.ofNat (97 + d.dev)] ++ decimal (Int32.ofNat hit.1) ++ [0])).bind
    fun name => (Field.write (ascii "U-Boot" ++ [0])).map fun type =>
      ⟨ext + hit.2.start4, hit.2.size4, 512, name, type⟩

/-- The first loop of `get_partition_info_extended`: the entry it finds, or the part number behind it. -/
def findInTable (ext : UInt32) (whichPart : Int) : Nat → List DosPartition → (Nat × DosPartition) ⊕ Nat
  | partNum, [] => .inr partNum
  | partNum, pt :: rest =>
    if pt.bootInd &&& ~~~0x80 = 0 ∧ pt.sysInd ≠ 0 ∧ (partNum : Int) = whichPart ∧ isExtended pt.sysInd = false then
      .inl (partNum, pt)
    else findInTable ext whichPart (nextNum ext pt partNum) rest

/-- One call of `get_partition_info_extended`: the call it ends with, or what it returns. The outer
`Option` is a text that does not fit, the inner one the return value -1. -/
def lookupRound (d : BlockDev) (whichPart : Int) (s : Spot × Nat) : (Spot × Nat) ⊕ Option (Option DiskPartition) :=
  match d.blockRead s.1.ext with
  | none => .inr (some none)
  | some b =>
    if b.signed then
      match findInTable s.1.ext whichPart s.2 b.table with
      | .inl hit => .inr ((fillInfo d s.1.ext hit).map some)
      | .inr partNum =>
        match b.table.find? fun pt => isExtended pt.sysInd with
        | some pt => .inl (s.1.follow pt, partNum)
        | none => .inr (some none)
    else .inr (some none)

def getPartitionInfoExtended (d : BlockDev) (s : Spot) (partNum : Nat) (whichPart : Int) :
    Comp (Option (Option DiskPartition)) :=
  Comp.loop (fun t => Comp.pure (lookupRound d whichPart t)) (s, partNum)

def getPartitionInfoDos (d : BlockDev) (part : Int) : Comp (Option (Option DiskPartition)) :=
  getPartitionInfoExtended d ⟨0, 0⟩ 1 part

theorem decimal_length (n : Int32) : (decimal n).length ≤ 11 := by
  have hlo := n.le_toInt
  have hhi := n.toInt_lt
  unfold decimal
  rw [length_map]
  cases hn : n.toInt with
  | ofNat k =>
    rw [hn, Int.ofNat_eq_natCast] at hhi
    have hlen : (Nat.toDigits 10 k).length ≤ 10 := Nat.toDigits_length 10 k 10 (by decide) (by omega)
    change (Nat.repr k).toList.length ≤ 11
    rw [Nat.repr, String.toList_ofList]
    omega
  | negSucc k =>
    rw [hn] at hlo
    have hlen : (Nat.toDigits 10 (k + 1)).length ≤ 10 := Nat.toDigits_length 10 (k + 1) 10 (by decide) (by omega)
    change ("-" ++ Nat.repr (k + 1)).toList.length ≤ 11
    rw [Nat.repr, String.toList_append, length_append, @String.toList_ofList (Nat.toDigits 10 (k + 1))]
    change 1 + _ ≤ 11
    omega

theorem Field.write_fits {bytes : List UInt8} (h : bytes.length ≤ 32) :
    Field.write bytes = some ⟨bytes, h⟩ := dif_pos h

theorem IfType.namePrefix_length (t : IfType) : (ascii t.namePrefix).length ≤ 4 := by
  cases t <;> decide

theorem fillInfo_fits (d : BlockDev) (ext : UInt32) (hit : Nat × DosPartition) :
    ∃ info, fillInfo d ext hit = some info ∧ info.start = ext + hit.2.start4 ∧ info.size = hit.2.size4 := by
  have hstarts := d.ifType.namePrefix_length
  have hnum := decimal_length (Int32.ofNat hit.1)
  have hname : (ascii d.ifType.namePrefix ++ [UInt8.ofNat (97 + d.dev)] ++ decimal (Int32.ofNat hit.1) ++
      [0]).length ≤ 32 := by
    simp only [length_append, length_singleton]
    omega
  have htype : (ascii "U-Boot" ++ [0]).length ≤ 32 := by decide
  refine ⟨⟨ext + hit.2.start4, hit.2.size4, 512, ⟨_, hname⟩, ⟨_, htype⟩⟩, ?_, rfl, rfl⟩
  unfold fillInfo
  rw [Field.write_fits hname, Field.write_fits htype]
  rfl

variable {ext : UInt32} {num n : Nat} {pt : DosPartition} {tbl : List DosPartition} {whichPart : Int}

def DosPartition.Plain (pt : DosPartition) : Prop := pt.sysInd ≠ 0 ∧ isExtended pt.sysInd = false

instance : Decidable pt.Plain := instDecidableAnd

def DosPartition.ValidBoot (pt : DosPartition) : Prop := pt.bootInd &&& ~~~0x80 = 0

instance : Decidable pt.ValidBoot := inferInstanceAs (Decidable (_ = _))

@[grind =] def numbered (ext : UInt32) : Nat → List DosPartition → List (Nat × DosPartition)
  | _, [] => []
  | partNum, pt :: rest =>
    if pt.Plain then (partNum, pt) :: numbered ext (nextNum ext pt partNum) rest
    else numbered ext (nextNum ext pt partNum) rest

def numBehind (ext : UInt32) (partNum : Nat) (tbl : List DosPartition) : Nat := (printTable ext partNum tbl).2

theorem nextNum_ge : num ≤ nextNum ext pt num := by
  unfold nextNum
  split <;> omega

theorem nextNum_plain (h : pt.Plain) : nextNum ext pt num = num + 1 := if_pos (.inr h)

theorem numBehind_cons : numBehind ext num (pt :: tbl) = numBehind ext (nextNum ext pt num) tbl := by
  unfold numBehind
  rw [printTable]
  split <;> rfl

theorem numBehind_ge (ext : UInt32) (num : Nat) (tbl : List DosPartition) : num ≤ numBehind ext num tbl := by
  induction tbl generalizing num with
  | nil => exact le_refl num
  | cons pt rest ih =>
    rw [numBehind_cons]
    exact nextNum_ge.trans (ih _)

theorem numBehind_mbr (h : ext = 0) : numBehind ext num tbl = num + tbl.length := by
  induction tbl generalizing num with
  | nil => rfl
  | cons pt rest ih =>
    rw [numBehind_cons, ih, nextNum, if_pos (.inl h), length_cons]
    omega

theorem numbered_bounds {e : Nat × DosPartition} (h : e ∈ numbered ext num tbl) :
    num ≤ e.1 ∧ e.1 < numBehind ext num tbl := by
  induction tbl generalizing num with
  | nil => cases h
  | cons pt rest ih =>
    have hle : num ≤ nextNum ext pt num := nextNum_ge
    rw [numBehind_cons]
    rw [numbered] at h
    split at h
    next hplain =>
      rcases mem_cons.mp h with rfl | h
      · have hge := numBehind_ge ext (nextNum ext pt num) rest
        rw [nextNum_plain hplain] at hge ⊢
        exact ⟨le_refl num, hge⟩
      · obtain ⟨hlo, hhi⟩ := ih h
        exact ⟨hle.trans hlo, hhi⟩
    · obtain ⟨hlo, hhi⟩ := ih h
      exact ⟨hle.trans hlo, hhi⟩

theorem numbered_unique {p q : DosPartition} (hp : (n, p) ∈ numbered ext num tbl)
    (hq : (n, q) ∈ numbered ext num tbl) : p = q := by
  induction tbl generalizing num with
  | nil => cases hp
  | cons pt rest ih =>
    rw [numbered] at hp hq
    split at hp
    next hplain =>
      rw [if_pos hplain, nextNum_plain hplain] at hq
      rw [nextNum_plain hplain] at hp
      have hrest : ∀ x, (num, x) ∉ numbered ext (num + 1) rest := by
        intro x hx
        have hlo := (numbered_bounds hx).1
        omega
      rcases mem_cons.mp hp with heq | hbelow
      · cases heq
        rcases mem_cons.mp hq with heq | hq
        · cases heq
          rfl
        · exact absurd hq (hrest q)
      · rcases mem_cons.mp hq with heq | hq
        · cases heq
          exact absurd hbelow (hrest p)
        · exact ih hbelow hq
    next hplain =>
      rw [if_neg hplain] at hq
      exact ih hp hq

theorem numbered_entry {e : Nat × DosPartition} (h : e ∈ numbered ext num tbl) : e.2 ∈ tbl ∧ e.2.Plain := by
  induction tbl generalizing num with
  | nil => cases h
  | cons pt rest ih =>
    rw [numbered] at h
    split at h
    next hplain =>
      rcases mem_cons.mp h with rfl | h
      · exact ⟨mem_cons_self, hplain⟩
      · exact ⟨mem_cons_of_mem _ (ih h).1, (ih h).2⟩
    · exact ⟨mem_cons_of_mem _ (ih h).1, (ih h).2⟩

theorem exists_numbered (ext : UInt32) (num : Nat) (h : pt ∈ tbl) (hplain : pt.Plain) : ∃ n, (n, pt) ∈ numbered ext num tbl := by
  induction tbl generalizing num with
  | nil => cases h
  | cons head rest ih =>
    rw [numbered]
    rcases mem_cons.mp h with rfl | h
    · rw [if_pos hplain]
      exact ⟨num, mem_cons_self⟩
    · obtain ⟨n, hn⟩ := ih (nextNum ext head num) h
      refine ⟨n, ?_⟩
      split
      · exact mem_cons_of_mem _ hn
      · exact hn

theorem mem_printTable {l : Line} : l ∈ (printTable ext num tbl).1 ∧ l.extd = false ↔
    ∃ e ∈ numbered ext num tbl, l = printOnePart e.2 ext e.1 := by
  induction tbl generalizing num with
  | nil => exact ⟨fun h => (by cases h.1), fun ⟨_, h, _⟩ => (by cases h)⟩
  | cons pt rest ih =>
    rw [printTable, numbered]
    by_cases hplain : pt.Plain
    · rw [if_pos ⟨hplain.1, .inr hplain.2⟩, if_pos hplain]
      simp only [mem_cons, exists_eq_or_imp]
      constructor
      · rintro ⟨rfl | hl, hext⟩
        · exact .inl rfl
        · exact .inr (ih.mp ⟨hl, hext⟩)
      · rintro (rfl | h)
        · exact ⟨.inl rfl, hplain.2⟩
        · obtain ⟨hl, hext⟩ := ih.mpr h
          exact ⟨.inr hl, hext⟩
    · rw [if_neg hplain]
      split
      next hlisted =>
        simp only [mem_cons]
        refine ⟨?_, fun h => ⟨.inr (ih.mpr h).1, (ih.mpr h).2⟩⟩
        rintro ⟨rfl | hl, hext⟩
        · exact absurd ⟨hlisted.1, hext⟩ hplain
        · exact ih.mp ⟨hl, hext⟩
      · exact ih

theorem printTable_bounds {l : Line} (h : l ∈ (printTable ext num tbl).1) :
    num ≤ l.num ∧ l.num < numBehind ext num tbl := by
  induction tbl generalizing num with
  | nil => cases h
  | cons pt rest ih =>
    have hle : num ≤ nextNum ext pt num := nextNum_ge
    rw [numBehind_cons]
    rw [printTable] at h
    split at h
    next hlisted =>
      rcases mem_cons.mp h with rfl | h
      · have hge := numBehind_ge ext (nextNum ext pt num) rest
        have hnext : nextNum ext pt num = num + 1 := by
          refine if_pos ?_
          rcases hlisted.2 with hmbr | hext
          · exact .inl hmbr
          · exact .inr ⟨hlisted.1, hext⟩
        rw [hnext] at hge ⊢
        exact ⟨le_refl num, hge⟩
      · obtain ⟨hlo, hhi⟩ := ih h
        exact ⟨hle.trans hlo, hhi⟩
    · obtain ⟨hlo, hhi⟩ := ih h
      exact ⟨hle.trans hlo, hhi⟩

theorem printTable_distinct : ((printTable ext num tbl).1.map Line.num).Nodup := by
  induction tbl generalizing num with
  | nil => exact nodup_nil
  | cons pt rest ih =>
    rw [printTable]
    split
    next hlisted =>
      rw [map_cons, nodup_cons]
      refine ⟨fun hmem => ?_, ih⟩
      obtain ⟨l, hl, hnum⟩ := mem_map.mp hmem
      have hlo := (printTable_bounds hl).1
      have hnext : nextNum ext pt num = num + 1 := by
        refine if_pos ?_
        rcases hlisted.2 with hmbr | hext
        · exact .inl hmbr
        · exact .inr ⟨hlisted.1, hext⟩
      change l.num = num at hnum
      omega
    · exact ih

theorem findInTable_cases (ext : UInt32) (whichPart : Int) (num : Nat) (tbl : List DosPartition) : (∃ e ∈ numbered ext num tbl, e.2.ValidBoot ∧ (e.1 : Int) = whichPart ∧
      findInTable ext whichPart num tbl = .inl e) ∨
    (∀ e ∈ numbered ext num tbl, e.2.ValidBoot → (e.1 : Int) ≠ whichPart) ∧
      findInTable ext whichPart num tbl = .inr (numBehind ext num tbl) := by
  induction tbl generalizing num with
  | nil => exact .inr ⟨fun e he => (by cases he), rfl⟩
  | cons pt rest ih =>
    rw [findInTable, numBehind_cons]
    by_cases hhit : pt.bootInd &&& ~~~0x80 = 0 ∧ pt.sysInd ≠ 0 ∧ (num : Int) = whichPart ∧
        isExtended pt.sysInd = false
    · have hplain : pt.Plain := ⟨hhit.2.1, hhit.2.2.2⟩
      rw [if_pos hhit, numbered, if_pos hplain]
      exact .inl ⟨(num, pt), mem_cons_self, hhit.1, hhit.2.2.1, rfl⟩
    · rw [if_neg hhit]
      rcases ih (nextNum ext pt num) with ⟨e, he, hboot, hnum, hfind⟩ | ⟨hno, hfind⟩
      · refine .inl ⟨e, ?_, hboot, hnum, hfind⟩
        rw [numbered]
        split
        · exact mem_cons_of_mem _ he
        · exact he
      · refine .inr ⟨fun e he hboot hnum => ?_, hfind⟩
        rw [numbered] at he
        split at he
        next hplain =>
          rcases mem_cons.mp he with rfl | he
          · exact hhit ⟨hboot, hplain.1, hnum, hplain.2⟩
          · exact hno e he hboot hnum
        · exact hno e he hboot hnum

theorem findInTable_hit {e : Nat × DosPartition} : findInTable ext whichPart num tbl = .inl e ↔
    e ∈ numbered ext num tbl ∧ e.2.ValidBoot ∧ (e.1 : Int) = whichPart := by
  rcases findInTable_cases ext whichPart num tbl with
    ⟨e', he', hboot, hnum, hfind⟩ | ⟨hno, hfind⟩
  · rw [hfind, Sum.inl.injEq]
    refine ⟨fun h => h ▸ ⟨he', hboot, hnum⟩, fun ⟨he, _, hnum'⟩ => ?_⟩
    obtain ⟨n, p⟩ := e
    obtain ⟨n', p'⟩ := e'
    obtain rfl : n = n' := Int.ofNat.inj (hnum'.trans hnum.symm)
    rw [numbered_unique he he']
  · rw [hfind]
    exact ⟨nofun, fun ⟨he, hboot, hnum⟩ => absurd hnum (hno e he hboot)⟩

theorem findInTable_behind {k : Nat} (h : findInTable ext whichPart num tbl = .inr k) :
    k = numBehind ext num tbl := by
  rcases findInTable_cases ext whichPart num tbl with
    ⟨_, -, -, -, hfind⟩ | ⟨-, hfind⟩
  · cases hfind.symm.trans h
  · cases hfind.symm.trans h
    rfl

theorem findInTable_outside (h : whichPart < num ∨ (numBehind ext num tbl : Int) ≤ whichPart) :
    findInTable ext whichPart num tbl = .inr (numBehind ext num tbl) := by
  rcases findInTable_cases ext whichPart num tbl with
    ⟨e, he, -, hnum, -⟩ | ⟨-, hfind⟩
  · obtain ⟨hlo, hhi⟩ := numbered_bounds he
    omega
  · exact hfind

end UBoot.Part
