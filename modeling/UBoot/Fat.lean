import UBoot.Words

namespace UBoot.Fat

open FlashCells Words

abbrev Text := List UInt8

/-- A block device and the start of its partition. Whether a read succeeds may depend on when it is
made; beyond the end it does not. `spoilt` is what a failed read leaves in its buffer. -/
structure Disk where
  size : Nat
  bytes : Flash
  ok : Nat → Nat → Nat → Bool
  spoilt : Nat → Nat → UInt8 → UInt8
  partOffset : Nat
  size_lt : size < 4294967296
  beyond : ∀ {n s c}, ok n s c = true → c = 0 ∨ s + c ≤ size

theorem sixteen_sectors_lt : 16 < 4294967296 := by decide

theorem sixteen_sectors_beyond : ∀ {_ s c : Nat}, (c == 0 || s + c ≤ 16) = true → c = 0 ∨ s + c ≤ 16 := by
  intro _ s c h
  simpa only [Bool.or_eq_true, beq_iff_eq, decide_eq_true_eq] using h

/-- The constants of `fsdata`. -/
structure Fsdata where
  fatsize : Nat
  fatlength : Nat
  fatSect : Nat
  rootdirSect : Nat
  clustSize : Nat
  dataBegin : Int
deriving DecidableEq

/-- The buffers: that of the FAT, the three static arrays of clusters, and memory for the file.
`reads` counts the disk reads, and `fatbufnum` is `none` for -1. -/
structure Store where
  reads : Nat
  fatbuf : Flash
  fatbufnum : Option Nat
  dirBlock : Flash
  rootBlock : Flash
  nameBlock : Flash
  mem : Flash

/-- `disk_read`: the `n`-th one, into a buffer from `dest` on. -/
def diskRead (d : Disk) (n startblock getsize : Nat) (buf : Flash) (dest : Nat) : Bool × Flash :=
  let start := (startblock + d.partOffset) % 4294967296
  if d.ok n start getsize then
    (true, patch buf dest (getsize * 512) fun x => d.bytes (start * 512 + (x - dest)))
  else (false, patch buf dest (getsize * 512) fun x => d.spoilt n (x - dest) (buf x))

def checkClust (x fatsize : Nat) : Bool := x ≤ 1 || (if fatsize = 32 then 0xffffff0 else 0xfff0) ≤ x

/-- `FAT32BUFSIZE`, `FAT16BUFSIZE` and `FAT12BUFSIZE`; 0 for an unsupported size. -/
def fatBufSize (fatsize : Nat) : Nat :=
  if fatsize = 32 then 768 else if fatsize = 16 then 1536 else if fatsize = 12 then 2048 else 0

def bufEntry (fatsize : Nat) (fatbuf : Flash) (offset : Nat) : Nat :=
  if fatsize = 32 then le32 fatbuf (4 * offset)
  else if fatsize = 16 then le16 fatbuf (2 * offset)
  else
    let off16 := offset * 3 / 4
    let val := le16 fatbuf (2 * off16)
    let next := le16 fatbuf (2 * (off16 + 1))
    if offset % 4 = 0 then val &&& 0xfff
    else if offset % 4 = 1 then (next &&& 0x00ff) <<< 4 ||| (val &&& 0xf000) >>> 12
    else if offset % 4 = 2 then (next &&& 0x000f) <<< 8 ||| (val &&& 0xff00) >>> 8
    else (val &&& 0xfff0) >>> 4

/-- `getsize` in `get_fatent`: the blocks of the buffer. -/
def fatGetsize (fs : Fsdata) : Nat := if 6 > fs.fatlength * 512 then fs.fatlength * 512 else 6

def getFatent (d : Disk) (fs : Fsdata) (st : Store) (entry : Nat) : Nat × Store :=
  if fatBufSize fs.fatsize = 0 then (0, st)
  else
    let bufnum := entry / fatBufSize fs.fatsize
    let offset := entry - bufnum * fatBufSize fs.fatsize
    if some bufnum ≠ st.fatbufnum then
      let r := diskRead d st.reads ((bufnum * 6 + fs.fatSect) % 4294967296) (fatGetsize fs) st.fatbuf 0
      if r.1 then
        (bufEntry fs.fatsize r.2 offset,
          { st with reads := st.reads + 1, fatbuf := r.2, fatbufnum := some bufnum })
      else (0, { st with reads := st.reads + 1, fatbuf := r.2 })
    else (bufEntry fs.fatsize st.fatbuf offset, st)

/-- The first sector that `get_cluster` reads. -/
def startsect (fs : Fsdata) (clustnum : Nat) : Nat :=
  if clustnum > 0 then ((fs.dataBegin + clustnum * fs.clustSize) % 4294967296).toNat
  else fs.rootdirSect

/-- `get_cluster` into a buffer: success, the number of disk reads so far, and the buffer. -/
def getCluster (d : Disk) (fs : Fsdata) (reads clustnum : Nat) (buffer : Flash) (dest size : Nat) :
    Bool × Nat × Flash :=
  let r := diskRead d reads (startsect fs clustnum) (size / 512) buffer dest
  if r.1 = false then (false, reads + 1, r.2)
  else if size % 512 = 0 then (true, reads + 1, r.2)
  else
    let idx := size / 512
    let t := diskRead d (reads + 1) ((startsect fs clustnum + idx) % 4294967296) 1 (fun _ => 0) 0
    if t.1 = false then (false, reads + 2, r.2)
    else (true, reads + 2, store r.2 (dest + idx * 512) (read t.2 0 (size % 512)))

/-- The fields of a `dir_entry` that the search uses. -/
structure DirEntry where
  attr : Nat
  starthi : Nat
  start : Nat
  size : Nat
deriving DecidableEq

def entryAttr (b : Flash) (o : Nat) : Nat := (b (o + 11)).toNat

def dirEntry (b : Flash) (o : Nat) : DirEntry where
  attr := entryAttr b o
  starthi := le16 b (o + 20)
  start := le16 b (o + 26)
  size := le32 b (o + 28)

/-- `START`. -/
def startCluster (fs : Fsdata) (e : DirEntry) : Nat :=
  if fs.fatsize ≠ 32 then e.start else (e.start + e.starthi * 65536) % 4294967296

def isDirectory (attr : Nat) : Bool := attr &&& 16 ≠ 0
def isVolume (attr : Nat) : Bool := attr &&& 8 ≠ 0

/-- `TOLOWER` and `downcase`. -/
def toLower (c : UInt8) : UInt8 := if 65 ≤ c ∧ c ≤ 90 then c + 32 else c
def downcase (s : Text) : Text := s.map toLower

def mendFirst : Text → Text
  | [] => []
  | c :: cs => if c = 0xe5 then [] else if c = 0x05 then 0xe5 :: cs else c :: cs

def nameChar (c : UInt8) : Bool := c != 0 && c != 32

def getName (b : Flash) (o : Nat) : Text :=
  let name := (read b o 8).takeWhile nameChar
  let ext := if nameChar (b (o + 8)) then 46 :: (read b (o + 8) 3).takeWhile nameChar else []
  downcase (mendFirst (name ++ ext))

/-- The characters of a `dir_slot` in the order in which `slot2str` takes them. -/
def slotChars (b : Flash) (o : Nat) : Text :=
  [1, 3, 5, 7, 9, 14, 16, 18, 20, 22, 24, 28, 30].map fun i => b (o + i)

/-- `slot2str`: whether it meets the terminator, and the name so far; `none` if it leaves `l_name`,
here and below for an access outside of an array. -/
def slot2str : Text → Text → Option (Bool × Text)
  | [], name => some (false, name)
  | c :: cs, name =>
    if 256 ≤ name.length then none
    else if c = 0 then some (true, name)
    else slot2str cs (name ++ [c])

def slotId (b : Flash) (i : Nat) : Nat := (b (32 * i)).toNat

/-- The first loop of `get_vfatname`, in a cluster of `n` entries; `none` for -1. -/
def matchSlots (b : Flash) (n : Nat) : Nat → Nat → Option Nat
  | 0, i => some i
  | counter + 1, i =>
    if i < n then
      if slotId b i &&& 0xbf ≠ counter + 1 then none else matchSlots b n counter (i + 1)
    else some i

def blockEntries : Nat := 2048

/-- The loop for the first slot of low id, with `k` entries left in the array. -/
def lowSlot (b : Flash) : Nat → Option Nat
  | 0 => none
  | k + 1 =>
    if 1 < slotId b (blockEntries - (k + 1)) then lowSlot b k else some (blockEntries - (k + 1))

/-- The slots of the next cluster, from the `i`-th down to the first. -/
def namesDown (b : Flash) : Nat → Text → Option Text
  | 0, name => (slot2str (slotChars b 0) name).map Prod.snd
  | i + 1, name => do
    let r ← slot2str (slotChars b (32 * (i + 1))) name
    namesDown b i r.2

/-- The loop over the slots before the `i`-th. -/
def namesBack (b : Flash) : Nat → Text → Option Text
  | 0, _ => none
  | i + 1, name => do
    let r ← slot2str (slotChars b (32 * i)) name
    if r.1 ∨ slotId b i &&& 0x40 ≠ 0 then some r.2 else namesBack b i r.2

/-- What `get_vfatname` leaves behind: the buffers, the directory block with the real entry in place of
the slot, and the name, which is empty for -1. -/
structure VfatName where
  store : Store
  block : Flash
  name : Text

/-- The end of `get_vfatname`: the name up to slot `i` in front of `name`, and the real entry. -/
def finishName (st : Store) (block real : Flash) (r i realdent : Nat) (name : Text) : Option VfatName := do
  let name ← namesBack block i name
  if 256 ≤ name.length then none
  else
    some ⟨st, FlashCells.store block (32 * r) (read real (32 * realdent) 32), downcase (mendFirst name)⟩

/-- `get_vfatname` for the slot `r` of a block. -/
def getVfatname (d : Disk) (fs : Fsdata) (st : Store) (curclust : Nat) (block : Flash) (r : Nat) :
    Option VfatName :=
  let n := fs.clustSize * 16
  match matchSlots block n (slotId block r &&& 0xbf) r with
  | none => some ⟨st, block, []⟩
  | some i =>
    if i < n then finishName st block block r i i []
    else
      let next := getFatent d fs st curclust
      if checkClust next.1 fs.fatsize then some ⟨next.2, block, []⟩
      else if fs.clustSize * 512 > 65536 then none
      else
        let c := getCluster d fs next.2.reads next.1 next.2.nameBlock 0 (fs.clustSize * 512)
        let st := { next.2 with reads := c.2.1, nameBlock := c.2.2 }
        if c.1 = false then some ⟨st, block, []⟩
        else do
          let j ← lowSlot st.nameBlock blockEntries
          if blockEntries ≤ j + 1 then none
          else
            let name ← namesDown st.nameBlock j []
            finishName st block st.nameBlock r (i - 1) (j + 1) name

end UBoot.Fat
