import UBoot.MtdParts
import UBoot.NandErase
import UBoot.NandReadSkipBad

namespace UBoot

/-- An entry of `nand_info`: a copy of what is known of a chip, with a pointer to it. -/
structure NandEntry where
  info : NandInfo
  oobavail : Nat
  chip : Nat

/-- What `part_validate` has checked of a partition. -/
structure PartInfo.Valid (part : PartInfo) (n : NandInfo) : Prop where
  nonempty : 0 < part.size
  inside : part.offset + part.size ≤ n.size
  startAligned : n.erasesize ∣ part.offset
  sizeAligned : n.erasesize ∣ part.size

/-- The devices and partitions that a command finds. Each entry of the table is that of its
own chip, and the flags of `nand write.yaffs` are down. -/
structure NandBoard where
  table : Nat → Option NandEntry
  nandCurrDevice : Nat
  /-- The list that `mtdparts_init` has made, if it succeeds. -/
  devices : Option (List MtdDevice)
  own : ∀ i e, table i = some e → e.chip = i
  idle : ∀ i e, table i = some e → e.info.Idle
  valid : ∀ ds, devices = some ds → ∀ d ∈ ds, d.type = .nand →
    ∃ e, table d.num = some e ∧ ∀ p ∈ d.parts, p.Valid e.info

inductive AccessOp
  | erased
  | programmed
  | fetched
deriving DecidableEq

/-- What is done to the pages of a chip from `first` up to `last`. -/
structure Access where
  op : AccessOp
  chip : Nat
  first : Nat
  last : Nat
deriving DecidableEq

def NandEntry.access (e : NandEntry) (op : AccessOp) (ofs len : Nat) : Access :=
  ⟨op, e.chip, ofs / e.info.writesize * e.info.writesize,
    (ofs + len + e.info.writesize - 1) / e.info.writesize * e.info.writesize⟩

/-- `nand_read` or `nand_write` with a log of what it does to the pages. `w` gives the code of
each call that gets there and, where it is not in `whole`, how far it came. -/
def NandEntry.transfer (e : NandEntry) (op : AccessOp) (whole : List Int) (w : Nat → Int × Nat) :
    Nat → Nat → Nat → List Access → (Int × Nat) × List Access := fun ofs len _ log =>
  if e.info.size < ofs + len then ((-EINVAL, len), log)
  else if len = 0 then ((0, len), log)
  else (((w log.length).1, if (w log.length).1 ∈ whole then len else (w log.length).2),
    log ++ [e.access op ofs len])

def NandEntry.read (e : NandEntry) (w : Nat → Int × Nat) : NandRead (List Access) :=
  e.transfer .fetched [0, -EUCLEAN] w

def NandEntry.write (e : NandEntry) (w : Nat → Int × Nat) : NandWrite (List Access) :=
  e.transfer .programmed [0] w

def NandEntry.eraseDevice (e : NandEntry) (w : Nat → Int × Nat) : EraseDevice (List Access) where
  erasesize := e.info.erasesize
  oobavail := e.oobavail
  blockIsbad _ a := if e.info.size < a then -EINVAL else if e.info.isbad a then 1 else 0
  erase log a :=
    if a % e.info.erasesize ≠ 0 ∨ e.info.size < e.info.erasesize + a then (some (-EINVAL), log)
    else (some (w log.length).1, log ++ [e.access .erased a e.info.erasesize])
  setOps _ log := log
  writeOob log a := (some (w log.length).1, log ++ [e.access .programmed a e.info.writesize])
  beginScrub log := log
  endScrub log := log

def str2long (s : List UInt8) : Option Nat :=
  match s, simpleStrtoul s 16 with
  | _ :: _, (num, []) => some num
  | _, _ => none

/-- The size of a command that names a partition: the number behind the name, cut to the
partition. -/
def PartInfo.request (part : PartInfo) : List (List UInt8) → Option Nat
  | [] => some part.size
  | s :: _ => (str2long s).map fun size => if part.size < size then part.size else size

/-- `arg_off_size`: offset and size, if it succeeds, and the table it leaves. -/
def argOffSize (b : NandBoard) (nand : NandInfo) (argv : List (List UInt8)) :
    Option (Nat × Nat) × (Nat → Option NandEntry) :=
  match argv with
  | [] => (some (0, nand.size % 2 ^ 32), b.table)
  | a :: rest =>
    match str2long a with
    | some off =>
      match rest with
      | [] => (some (off, (2 ^ 32 + nand.size - off) % 2 ^ 32), b.table)
      | s :: _ => ((str2long s).map fun size => (off, size), b.table)
    | none =>
      match b.devices.bind fun ds => findDevAndPart ds a with
      | none => (none, b.table)
      | some (dev, part) =>
        if dev.type ≠ .nand then (none, b.table)
        else
          match part.request rest with
          | none => (none, b.table)
          | some size =>
            -- the entry of the current device becomes a copy of that of the partition's device
            (some (part.offset, size),
              fun i => if i = b.nandCurrDevice then b.table dev.num else b.table i)

inductive NandVerb
  | erase (clean : Bool)
  | read
  | write
deriving DecidableEq

/-- `nand read` and `nand write` carry data. -/
def NandVerb.Transfers (v : NandVerb) : Prop := v = .read ∨ v = .write

structure NandRun where
  rc : Int
  log : List Access
deriving DecidableEq

/-- The last lines of each command: `ret == 0 ? 0 : 1`. -/
def NandRun.of (ret : Int) (log : List Access) : NandRun := ⟨if ret = 0 then 0 else 1, log⟩

/-- `do_nand` behind `arg_off_size`. Without a run the command does not end. -/
def NandEntry.command (e : NandEntry) (w : Nat → Int × Nat) (fuel : Nat) (verb : NandVerb)
    (off size : Nat) : Option NandRun :=
  match verb with
  | .erase clean =>
    match nandEraseOpts (e.eraseDevice w) ⟨size, off, clean, false⟩ [] with
    | (ret, log) => ret.map fun ret => .of ret log
  | .read => (nandReadSkipBad e.info (e.read w) fuel off size []).map fun r => .of r.1 r.2.2
  | .write => (nandWriteSkipBad e.info (e.write w) fuel off size []).map fun r => .of r.rc r.state

/-- `do_nand` for `erase`, `erase clean`, and for `read` and `write` with no suffix or one of
`.jffs2`, `.e` and `.i`: the table it leaves, and its run. -/
def doNand (b : NandBoard) (w : Nat → Int × Nat) (fuel : Nat) (verb : NandVerb)
    (argv : List (List UInt8)) : (Nat → Option NandEntry) × Option NandRun :=
  match b.table b.nandCurrDevice with
  | none => (b.table, some ⟨1, []⟩)
  | some nand =>
    match argOffSize b nand.info argv with
    | (none, table) => (table, some ⟨1, []⟩)
    | (some (off, size), table) =>
      (table, (table b.nandCurrDevice).bind fun e => e.command w fuel verb off size)

end UBoot
