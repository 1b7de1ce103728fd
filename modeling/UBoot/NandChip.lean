import UBoot.NandErase
import UBoot.NandSkipBad

namespace UBoot

/-- What stays the same of `struct mtd_info` and `struct nand_chip`. -/
structure NandChip where
  size : Nat
  erasesize : Nat
  writesize : Nat
  oobsize : Nat
  oobavail : Nat
  subpagesize : Nat
  /-- `NAND_SUBPAGE_READ` -/
  subpageRead : Bool
  hasPages : 0 < writesize
  subpages : subpagesize ∣ writesize
  hasSubpages : 1 < subpagesize

/-- What one call leaves in `struct nand_chip` for the next. -/
structure ChipState where
  ops : MtdOobOps
  pagebuf : Option Nat
deriving DecidableEq

/-- `chip->ops` comes zeroed, and no page is in the buffer. -/
def ChipState.init : ChipState := ⟨⟨.place, 0, 0, none, none⟩, none⟩

/-- The functions of `chip->ecc` that go to the page. -/
inductive PageFunc
  | readPage
  | readSubpage
  | readPageRaw
  | writePage
  | writePageRaw
deriving DecidableEq

structure PageAccess where
  func : PageFunc
  page : Nat
deriving DecidableEq

/-- What the chip answers during one call. -/
structure ChipAnswers where
  writeProtected : Bool
  /-- The return code of a page function. -/
  page : Nat → Int
  /-- What the counters of bit errors make of a read. -/
  stats : Int
  checkbad : Nat → Bool
  eraseFails : Nat → Bool
  writeOobFails : Nat → Bool

def EIO : Int := 5
def EROFS : Int := 30

/-- What a call returns, the mode that it found, the length it reports and the pages that
it went to. -/
structure ChipTrace where
  rc : Int
  mode : OobMode
  retlen : Nat
  pages : List PageAccess
deriving DecidableEq

variable (c : NandChip) (answers : ChipAnswers)

/-- The loop of `nand_do_read_ops`: its return code, what is left to read, the pages and
`chip->pagebuf`. -/
def readOpsFuel (mode : OobMode) (oob : Bool) :
    Nat → Nat → Nat → Nat → Option Nat → Int → Int × Nat × List PageAccess × Option Nat
  | 0, _, _, readlen, pagebuf, ret => (ret, readlen, [], pagebuf)
  | fuel + 1, realpage, col, readlen, pagebuf, ret =>
    let bytes := min (c.writesize - col) readlen
    let aligned := bytes = c.writesize
    if pagebuf ≠ some realpage ∨ oob then
      let func :=
        if mode = .raw then .readPageRaw
        else if ¬aligned ∧ c.subpageRead ∧ ¬oob then .readSubpage
        else .readPage
      let ret := answers.page realpage
      if ret < 0 then (ret, readlen, [⟨func, realpage⟩], pagebuf)
      else
        let pagebuf := if ¬aligned ∧ ¬c.subpageRead ∧ ¬oob then some realpage else pagebuf
        if readlen - bytes = 0 then (ret, 0, [⟨func, realpage⟩], pagebuf)
        else
          match readOpsFuel mode oob fuel (realpage + 1) 0 (readlen - bytes) pagebuf ret with
          | (ret, left, pages, pagebuf) => (ret, left, ⟨func, realpage⟩ :: pages, pagebuf)
    else if readlen - bytes = 0 then (ret, 0, [], pagebuf)
    else readOpsFuel mode oob fuel (realpage + 1) 0 (readlen - bytes) pagebuf ret

def nandDoReadOps (ofs len : Nat) (s : ChipState) : ChipTrace × ChipState :=
  match readOpsFuel c answers s.ops.mode s.ops.oobbuf.isSome len (ofs / c.writesize)
      (ofs % c.writesize) len s.pagebuf 0 with
  | (ret, left, pages, pagebuf) =>
    (⟨if ret ≠ 0 then ret else answers.stats, s.ops.mode, len - left, pages⟩, { s with pagebuf := pagebuf })

/-- The loop of `nand_do_write_ops`. -/
def writeOpsFuel (mode : OobMode) :
    Nat → Nat → Nat → Nat → Option Nat → Int × Nat × List PageAccess × Option Nat
  | 0, _, _, writelen, pagebuf => (0, writelen, [], pagebuf)
  | fuel + 1, realpage, column, writelen, pagebuf =>
    let partly := column ≠ 0 ∨ writelen < c.writesize - 1
    let bytes := if partly then min (c.writesize - column) writelen else c.writesize
    let pagebuf := if partly then none else pagebuf
    let func := if mode = .raw then .writePageRaw else .writePage
    let ret := answers.page realpage
    if ret ≠ 0 then (ret, writelen, [⟨func, realpage⟩], pagebuf)
    else if writelen - bytes = 0 then (0, 0, [⟨func, realpage⟩], pagebuf)
    else
      match writeOpsFuel mode fuel (realpage + 1) 0 (writelen - bytes) pagebuf with
      | (ret, left, pages, pagebuf) => (ret, left, ⟨func, realpage⟩ :: pages, pagebuf)

def nandDoWriteOps (ofs len : Nat) (s : ChipState) : ChipTrace × ChipState :=
  if len = 0 then (⟨0, s.ops.mode, 0, []⟩, s)
  else if ofs % c.subpagesize ≠ 0 ∨ len % c.subpagesize ≠ 0 then (⟨-EINVAL, s.ops.mode, 0, []⟩, s)
  else if (ofs % c.writesize ≠ 0 ∨ len % c.writesize ≠ 0) ∧ s.ops.oobbuf.isSome then
    (⟨-EINVAL, s.ops.mode, 0, []⟩, s)
  else if answers.writeProtected then (⟨- EIO, s.ops.mode, 0, []⟩, s)
  else
    let cached := s.pagebuf.any fun p => ofs ≤ p * c.writesize ∧ p * c.writesize < ofs + len
    match writeOpsFuel c answers s.ops.mode len (ofs / c.writesize) (ofs % c.writesize) len
        (if cached then none else s.pagebuf) with
    | (ret, left, pages, pagebuf) => (⟨ret, s.ops.mode, len - left, pages⟩, { s with pagebuf := pagebuf })

/-- `nand_read` into a buffer that holds `buf`. -/
def nandRead (ofs len : Nat) (buf : List UInt8) (s : ChipState) : ChipTrace × ChipState :=
  if c.size < ofs + len then (⟨-EINVAL, s.ops.mode, len, []⟩, s)
  else if len = 0 then (⟨0, s.ops.mode, len, []⟩, s)
  else nandDoReadOps c answers ofs len { s with ops := { s.ops with datbuf := some buf, oobbuf := none } }

def yaffsData (pages : Nat) (buf : List UInt8) : List UInt8 :=
  (List.range pages).flatMap fun i => (buf.drop ((c.writesize + c.oobsize) * i)).take c.writesize

def yaffsOob (pages : Nat) (buf : List UInt8) : List UInt8 :=
  (List.range pages).flatMap fun i =>
    (buf.drop ((c.writesize + c.oobsize) * i + c.writesize)).take c.oobsize

/-- `nand_write` with the flag `rw_oob` of its device. -/
def nandWrite (rwOob : Bool) (ofs len : Nat) (buf : List UInt8) (s : ChipState) : ChipTrace × ChipState :=
  if c.size < ofs + len then (⟨-EINVAL, s.ops.mode, len, []⟩, s)
  else if len = 0 then (⟨0, s.ops.mode, len, []⟩, s)
  else
    let pages := len / c.writesize
    let ops :=
      if rwOob then
        { s.ops with
          datbuf := some (yaffsData c pages buf)
          oobbuf := some (yaffsOob c pages buf)
          ooblen := c.oobsize
          -- the mode found here is kept in `opsmode`, which nothing reads
          mode := .raw }
      else { s.ops with datbuf := some buf, oobbuf := none }
    match nandDoWriteOps c answers ofs len { s with ops := ops } with
    | (t, s') => ({ t with mode := s.ops.mode }, s')

/-- The calls by which `do_nand`, `saveenv` and the load of the environment reach a chip:
`nand_read` and `nand_write` of the skipping loops, and `nand_erase_opts`. -/
inductive NandOp
  | read (ofs len : Nat) (buf : List UInt8) (answers : ChipAnswers)
  | write (rwOob : Bool) (ofs len : Nat) (buf : List UInt8) (answers : ChipAnswers)
  | erase (opts : NandEraseOptions) (answers : ChipAnswers)

end UBoot
