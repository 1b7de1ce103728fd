import UBoot.Jffs2Lists
import UBoot.Loops

namespace UBoot.Jffs2

open FlashCells Words Loops

/-- The flash under a partition. Bytes inside it can be read; what a read beyond its end leaves in the
buffer is `beyond`. -/
structure Device where
  size : Nat
  data : Flash
  beyond : Nat → Nat → Flash → Flash
  size_lt : size < 4294967296

def Device.getFlMem (d : Device) (off size : Nat) (buf : Flash) : Flash :=
  if off + size ≤ d.size then Jffs2.getFlMem d.data off size buf else d.beyond off size buf

structure PartInfo where
  dev : Device
  offset : Nat
  size : Nat
  sectorSize : Nat
  inside : offset + size ≤ dev.size

/-- The orders in which the lists are kept, and what the heap holds where a node is taken. -/
structure ListSetup where
  fragCompare : Option (BNode → BNode → Bool)
  dirCompare : Option (BNode → BNode → Bool)
  heap : Nat → UInt32

/-- `struct b_lists` as the scan fills it; `maxTotlen` is the size of its `readbuf`. -/
structure BLists where
  frag : BList
  dir : BList
  maxTotlen : Nat

def nodetypeDirent : Nat := 0xe001
def nodetypeInode : Nat := 0xe002

def defaultEmptyScanSize : Nat := 4096

def emptyScanSize (sectorSize : Nat) : Nat :=
  if sectorSize < defaultEmptyScanSize then sectorSize else defaultEmptyScanSize

def hdrCrc (m : Flash) (a : Nat) : Bool := le32 m (a + 8) = (crc32NoComp 0 (read m a 8)).toNat
def inodeCrc (m : Flash) (a : Nat) : Bool := le32 m (a + 64) = (crc32NoComp 0 (read m a 60)).toNat
def direntCrc (m : Flash) (a : Nat) : Bool := le32 m (a + 32) = (crc32NoComp 0 (read m a 32)).toNat

def direntNameCrc (m : Flash) (a : Nat) : Bool :=
  le32 m (a + 36) = (crc32NoComp 0 (read m (a + rawDirentSize) (rawDirent m a).nsize)).toNat

/-- Where the scan is: at the head of the loop over the sectors, in the loop over the empty start of a
sector, at `scan_more`, or at `more_empty` with its `scan_end`. -/
inductive ScanPhase
  | sector
  | start (ofs : Nat)
  | more
  | empty (scanEnd : Nat)
deriving DecidableEq

structure Scan where
  phase : ScanPhase
  i : Nat
  ofs : Nat
  prevofs : Nat
  bufOfs : Nat
  bufLen : Nat
  buf : Flash
  lists : BLists

variable (g : ListSetup) (p : PartInfo)

def nrSectors : Nat := p.size / p.sectorSize

def Scan.sectorOfs (s : Scan) : Nat := s.i * p.sectorSize
def Scan.sectorEnd (s : Scan) : Nat := s.i * p.sectorSize + p.sectorSize

def plus (a b : Nat) : Nat := (a + b) % 4294967296
def minus (a b : Nat) : Nat := (a + 4294967296 - b) % 4294967296

def Scan.next (s : Scan) : Scan := { s with phase := .sector, i := s.i + 1 }

def Scan.skip (s : Scan) : Scan := { s with ofs := plus s.ofs 4 }

/-- `get_fl_mem` of `len` bytes from `ofs` on to the start of the buffer. -/
def Scan.refill (s : Scan) (len : Nat) : Scan :=
  { s with
    bufOfs := s.ofs
    bufLen := len
    buf := p.dev.getFlMem (plus p.offset s.ofs) len s.buf }

def Scan.left (s : Scan) : Nat := min defaultEmptyScanSize (minus (s.sectorEnd p) s.ofs)

def Scan.place (s : Scan) : Nat := minus s.ofs s.bufOfs

/-- The step over a node whose header is at `o` in the buffer. -/
def Scan.pass (s : Scan) (o : Nat) : Scan :=
  { s with phase := .more, ofs := plus s.ofs (plus (totlen s.buf o) 3 / 4 * 4) }

def Scan.addFrag (s : Scan) (o : Nat) : Scan :=
  { s with lists :=
    { s.lists with
      frag := insertNode g.fragCompare s.lists.frag ⟨plus p.offset s.ofs, g.heap s.ofs⟩
      maxTotlen := max s.lists.maxTotlen (totlen s.buf o) } }

def Scan.addDir (s : Scan) (o : Nat) : Scan :=
  { s with lists :=
    { s.lists with
      dir := insertNode g.dirCompare s.lists.dir ⟨plus p.offset s.ofs, g.heap s.ofs⟩
      maxTotlen := max s.lists.maxTotlen (totlen s.buf o) } }

/-- The refill before the rest of a node of `len` bytes is looked at: it takes the old `buf_len`. -/
def Scan.cover (s : Scan) (o len : Nat) : Scan × Nat :=
  if plus s.bufOfs s.bufLen < plus s.ofs len then (s.refill p s.bufLen, 0) else (s, o)

def Scan.inode (s : Scan) (o : Nat) : Option Scan :=
  let r := s.cover p o rawInodeSize
  if defaultEmptyScanSize < r.2 + rawInodeSize then none
  else if inodeCrc r.1.buf r.2 = false then some (r.1.pass r.2)
  else some ((r.1.addFrag g p r.2).pass r.2)

def Scan.dirent (s : Scan) (o : Nat) : Option Scan :=
  -- nsize is read before the rest of the node is known to be in the buffer
  if defaultEmptyScanSize < o + 29 then none
  else
    let r := s.cover p o (rawDirentSize + (rawDirent s.buf o).nsize)
    if defaultEmptyScanSize < r.2 + 36 then none
    else if direntCrc r.1.buf r.2 = false then some (r.1.pass r.2)
    else if defaultEmptyScanSize < r.2 + rawDirentSize + (rawDirent r.1.buf r.2).nsize then none
    else if direntNameCrc r.1.buf r.2 = false then some (r.1.pass r.2)
    else some ((r.1.addDir g p r.2).pass r.2)

/-- The header at `o` in the buffer is one of a node that fits the sector. -/
def Scan.node (s : Scan) (o : Nat) : Option Scan :=
  if magic s.buf o ≠ jffs2MagicBitmask then some s.skip
  else if defaultEmptyScanSize < o + unknownNodeSize then none
  else if hdrCrc s.buf o = false then some s.skip
  else if s.sectorEnd p < plus s.ofs (totlen s.buf o) then some s.skip
  else if nodetype s.buf o = nodetypeInode then s.inode g p o
  else if nodetype s.buf o = nodetypeDirent then s.dirent g p o
  else some (s.pass o)

/-- The refill before a header is looked at. -/
def Scan.header (s : Scan) : Scan :=
  if plus s.bufOfs s.bufLen < plus s.ofs unknownNodeSize then s.refill p (s.left p) else s

/-- One round at `scan_more`. -/
def scanMore (s : Scan) : Option Scan :=
  if s.sectorEnd p ≤ s.ofs then some s.next
  else if s.ofs = s.prevofs then some s.skip
  else
    let s := { s with prevofs := s.ofs }
    if s.sectorEnd p < plus s.ofs unknownNodeSize then some s.next
    else
      let s := s.header p
      if defaultEmptyScanSize < s.place + 4 then none
      else if le32 s.buf s.place = 0xffffffff then
        some { s.skip with phase := .empty (min (emptyScanSize p.sectorSize / 8) s.bufLen) }
      else s.node g p s.place

/-- One round at `more_empty`. -/
def moreEmpty (s : Scan) (scanEnd : Nat) : Option Scan :=
  if s.place < scanEnd then
    if defaultEmptyScanSize < s.place + 4 then none
    else if le32 s.buf s.place = 0xffffffff then some s.skip
    else some { s with phase := .more }
  else if s.left p = 0 then some s.next
  else some { s.refill p (s.left p) with phase := .empty (s.left p) }

/-- One round over the empty start of a sector. -/
def scanStart (s : Scan) (ofs : Nat) : Option Scan :=
  if ofs < emptyScanSize p.sectorSize then
    if defaultEmptyScanSize < ofs + 4 then none
    else if le32 s.buf ofs = 0xffffffff then some { s with phase := .start (ofs + 4) }
    else some { s with
      phase := .more, ofs := plus ofs (s.sectorOfs p), prevofs := minus (plus ofs (s.sectorOfs p)) 1 }
  else if ofs = emptyScanSize p.sectorSize then some s.next
  else some { s with
    phase := .more, ofs := plus ofs (s.sectorOfs p), prevofs := minus (plus ofs (s.sectorOfs p)) 1 }

/-- What the loop over the sectors starts with for one. -/
def scanSector (s : Scan) : Scan :=
  { s with
    phase := .start 0
    bufOfs := s.sectorOfs p
    bufLen := emptyScanSize p.sectorSize
    buf := p.dev.getFlMem (plus p.offset (s.sectorOfs p)) (emptyScanSize p.sectorSize) s.buf }

/-- One step of the scan; without a result where it reads outside its buffer. -/
def scanStep (s : Scan) : Option (Scan ⊕ BLists) :=
  match s.phase with
  | .sector => if s.i < nrSectors p then some (.inl (scanSector p s)) else some (.inr s.lists)
  | .start ofs => (scanStart p s ofs).map .inl
  | .more => (scanMore g p s).map .inl
  | .empty scanEnd => (moreEmpty p s scanEnd).map .inl

/-- The lists are empty and `buf` is what `malloc` gave. -/
def scanInit (buf : Flash) : Scan := ⟨.sector, 0, 0, 0, 0, 0, buf, ⟨BList.empty, BList.empty, 0⟩⟩

/-- `jffs2_1pass_build_lists` without summaries. -/
def buildLists (buf : Flash) : Comp (Option BLists) :=
  Comp.loop (fun s => Comp.round (scanStep g p s)) (scanInit buf)

section
variable {m m' : Flash} {a b : Nat}

theorem word_congr {n k : Nat} (h : ∀ i, i < n → m (a + i) = m' (b + i)) (hk : k + 4 ≤ n) :
    le32 m (a + k) = le32 m' (b + k) := by
  apply le32_congr
  intro i hi
  have hbyte := h (k + i) (by omega)
  rwa [← add_assoc, ← add_assoc] at hbyte

theorem half_congr {n k : Nat} (h : ∀ i, i < n → m (a + i) = m' (b + i)) (hk : k + 2 ≤ n) :
    le16 m (a + k) = le16 m' (b + k) := by
  apply le16_congr
  · exact h k (by omega)
  · exact h (k + 1) (by omega)

theorem bytes_congr {n k l : Nat} (h : ∀ i, i < n → m (a + i) = m' (b + i)) (hk : k + l ≤ n) :
    read m (a + k) l = read m' (b + k) l := by
  apply read_congr
  intro i hi
  have hbyte := h (k + i) (by omega)
  rwa [← add_assoc, ← add_assoc] at hbyte

theorem magic_congr (h : ∀ i, i < 12 → m (a + i) = m' (b + i)) : magic m a = magic m' b :=
  half_congr (k := 0) h (by omega)

theorem nodetype_congr (h : ∀ i, i < 12 → m (a + i) = m' (b + i)) : nodetype m a = nodetype m' b :=
  half_congr h (by omega)

theorem totlen_congr (h : ∀ i, i < 12 → m (a + i) = m' (b + i)) : totlen m a = totlen m' b :=
  word_congr h (by omega)

theorem hdrCrc_congr (h : ∀ i, i < 12 → m (a + i) = m' (b + i)) : hdrCrc m a = hdrCrc m' b := by
  have hread : read m a 8 = read m' b 8 := bytes_congr (k := 0) h (by omega)
  unfold hdrCrc
  rw [word_congr h (by omega), hread]

theorem inodeCrc_congr (h : ∀ i, i < 68 → m (a + i) = m' (b + i)) : inodeCrc m a = inodeCrc m' b := by
  have hread : read m a 60 = read m' b 60 := bytes_congr (k := 0) h (by omega)
  unfold inodeCrc
  rw [word_congr h (by omega), hread]

theorem direntCrc_congr (h : ∀ i, i < 40 → m (a + i) = m' (b + i)) : direntCrc m a = direntCrc m' b := by
  have hread : read m a 32 = read m' b 32 := bytes_congr (k := 0) h (by omega)
  unfold direntCrc
  rw [word_congr h (by omega), hread]

theorem nsize_congr (h : m (a + 28) = m' (b + 28)) : (rawDirent m a).nsize = (rawDirent m' b).nsize :=
  congrArg UInt8.toNat h

theorem direntNameCrc_congr
    (h : ∀ i, i < rawDirentSize + (rawDirent m' b).nsize → m (a + i) = m' (b + i)) :
    direntNameCrc m a = direntNameCrc m' b := by
  unfold rawDirentSize at h
  have hsize : (rawDirent m a).nsize = (rawDirent m' b).nsize := nsize_congr (h 28 (by omega))
  unfold direntNameCrc rawDirentSize
  rw [word_congr h (by omega), hsize, bytes_congr h (by omega)]

end

variable (p : PartInfo)

def PartInfo.bytes (p : PartInfo) : Flash := fun a => p.dev.data (p.offset + a)

/-- A node as it is written at `a`: its header is right and its length covers what comes behind the
header. -/
structure ValidNode (a : Nat) : Prop where
  magic : magic p.bytes a = jffs2MagicBitmask
  hdrCrc : hdrCrc p.bytes a = true
  header : unknownNodeSize ≤ totlen p.bytes a
  inode : nodetype p.bytes a = nodetypeInode → rawInodeSize ≤ totlen p.bytes a
  dirent : nodetype p.bytes a = nodetypeDirent →
    rawDirentSize + (rawDirent p.bytes a).nsize ≤ totlen p.bytes a

/-- From `a` on, up to `e`, nodes at the places of the list, and gaps of 0xff between them. -/
inductive NodesTo (e : Nat) : Nat → List Nat → Prop
  | stop {a : Nat} (h : e < a + 4) : NodesTo e a []
  | gap {a : Nat} {nodes : List Nat} (h : a + 4 ≤ e) (hff : le32 p.bytes a = 0xffffffff)
      (rest : NodesTo e (a + 4) nodes) : NodesTo e a nodes
  | node {a : Nat} {nodes : List Nat} (h : ValidNode p a) (hfits : a + totlen p.bytes a ≤ e)
      (rest : NodesTo e (a + (totlen p.bytes a + 3) / 4 * 4) nodes) : NodesTo e a (a :: nodes)

def EmptyStart (i : Nat) : Prop :=
  ∀ k, k < emptyScanSize p.sectorSize → p.bytes (i * p.sectorSize + k) = 0xff

/-- The nodes of sector `i`; one that starts like an erased one is taken for erased. -/
def SectorNodes (i : Nat) (nodes : List Nat) : Prop :=
  EmptyStart p i ∧ nodes = [] ∨
    ¬EmptyStart p i ∧ NodesTo p (i * p.sectorSize + p.sectorSize) (i * p.sectorSize) nodes

def isFrag (a : Nat) : Bool := nodetype p.bytes a = nodetypeInode && inodeCrc p.bytes a

def isDir (a : Nat) : Bool :=
  nodetype p.bytes a = nodetypeDirent && (direntCrc p.bytes a && direntNameCrc p.bytes a)

/-- The header behind the refill. -/
def Scan.seen (s : Scan) : Scan := { s with prevofs := s.ofs }.header p

/-- The scan is about to look at a header. -/
structure Scan.Looks (s : Scan) : Prop where
  sector : s.i < nrSectors p
  more : s.phase = .more
  fits : s.ofs + unknownNodeSize ≤ s.sectorEnd p
  fresh : s.ofs ≠ s.prevofs

/-- The scan is about to accept a header. -/
structure Scan.Accepts (s : Scan) : Prop extends s.Looks p where
  magic : Jffs2.magic (s.seen p).buf (s.seen p).place = jffs2MagicBitmask
  hdrCrc : Jffs2.hdrCrc (s.seen p).buf (s.seen p).place = true

/-- The scan is about to take a node that fits the sector. -/
structure Scan.Takes (s : Scan) : Prop extends s.Accepts p where
  inside : s.ofs + totlen (s.seen p).buf (s.seen p).place ≤ s.sectorEnd p

def Scan.TakesInode (s : Scan) : Prop :=
  s.Takes p ∧ nodetype (s.seen p).buf (s.seen p).place = nodetypeInode

def Scan.TakesDirent (s : Scan) : Prop :=
  s.Takes p ∧ nodetype (s.seen p).buf (s.seen p).place = nodetypeDirent

/-- What the dirent's refill takes for the node's length. -/
def Scan.direntLength (s : Scan) : Nat :=
  rawDirentSize + (rawDirent (s.seen p).buf (s.seen p).place).nsize

/-- The step forms a sum or difference of offsets that does not fit 32 bits. -/
inductive Scan.Wraps (s : Scan) : Prop
  | start (k : Nat) (h : s.phase = .start k) (hw : 4294967296 ≤ k + s.sectorOfs p)
  | seen (h : s.phase = .more) (ho : s.ofs < s.sectorEnd p) (hseen : s.ofs = s.prevofs)
      (hw : 4294967296 ≤ s.ofs + 4)
  | header (h : s.phase = .more) (ho : s.ofs < s.sectorEnd p) (hseen : s.ofs ≠ s.prevofs)
      (hw : 4294967296 ≤ s.ofs + unknownNodeSize)
  | buffer (h : s.Looks p) (hw : 4294967296 ≤ s.bufOfs + s.bufLen)
  | totlen (h : s.Accepts p) (hw : 4294967296 ≤ s.ofs + totlen (s.seen p).buf (s.seen p).place)
  | round (h : s.Takes p) (hw : 4294967296 ≤ s.ofs + (totlen (s.seen p).buf (s.seen p).place + 3))
  | inode (h : s.TakesInode p) (hw : 4294967296 ≤ s.ofs + rawInodeSize)
  | dirent (h : s.TakesDirent p) (hw : 4294967296 ≤ s.ofs + s.direntLength p)
  | gap (e : Nat) (h : s.phase = .empty e) (hin : s.place < e) (hw : 4294967296 ≤ s.ofs + 4)
  | left (e : Nat) (h : s.phase = .empty e) (hout : e ≤ s.place) (hw : s.sectorEnd p < s.ofs)

/-- The step looks for the length of a name behind the end of the buffer. -/
def Scan.Clipped (s : Scan) : Prop :=
  s.TakesDirent p ∧ defaultEmptyScanSize < (s.seen p).place + 29

/-- The step reads beyond the end of the device for the rest of a node of `len` bytes. -/
def Scan.RunsOver (s : Scan) (len : Nat) : Prop :=
  (s.seen p).bufOfs + (s.seen p).bufLen < s.ofs + len ∧ p.dev.size < p.offset + s.ofs + (s.seen p).bufLen

/-- The step does none of these. -/
structure Scan.Clean (s : Scan) : Prop where
  sums : ¬s.Wraps p
  nsize : ¬s.Clipped p
  inode : s.TakesInode p → ¬s.RunsOver p rawInodeSize
  dirent : s.TakesDirent p → ¬s.RunsOver p (s.direntLength p)

end UBoot.Jffs2
