import UBoot.Jffs2Lists

namespace UBoot.Jffs2

open FlashCells

/-- The decompressors by `compr`: from the node's data and its `dsize`, the bytes that go to the
destination. -/
abbrev Unpack := UInt8 → Option (List UInt8 → Nat → List UInt8)

/-- What the node in the buffer writes; `none` for an unknown compression method. -/
def unpacked (unpack : Unpack) (buf : Flash) : Option (List UInt8) :=
  let jNode := rawInode buf 0
  if jNode.compr = jffs2ComprNone then some (read buf rawInodeSize jNode.dsize)
  else if jNode.compr = jffs2ComprZero then some (List.replicate jNode.dsize 0)
  else (unpack jNode.compr).map fun g => g (read buf rawInodeSize jNode.csize) jNode.dsize

structure Latest where
  totalSize : Nat
  latestVersion : Nat
  readbuf : Flash

/-- One round of the first loop of `jffs2_1pass_read_inode`. -/
def latestStep (f : Flash) (inode : Nat) (s : Latest) (b : BNode) : Latest :=
  let readbuf := getFlMem f b.offset rawInodeSize s.readbuf
  let jNode := rawInode readbuf 0
  if inode = jNode.ino ∧ jNode.version ≥ s.latestVersion then ⟨jNode.isize, jNode.version, readbuf⟩
  else { s with readbuf := readbuf }

/-- What a load leaves: the result, `none` for −1, the fragments with their `datacrc`, and the
memory from `dest` on. -/
structure Load where
  ret : Option Nat
  nodes : List BNode
  dest : Flash
  readbuf : Flash

def Load.behind (l : Load) (b : BNode) : Load := { l with nodes := b :: l.nodes }

/-- `b->datacrc` after the check, which only an unknown state asks for. -/
def settled (datacrc : UInt32) (good : Bool) : UInt32 :=
  if datacrc = crcUnknown then (if good then crcOk else crcBad) else datacrc

/-- The second loop of `jffs2_1pass_read_inode`. -/
def readNodes (f : Flash) (unpack : Unpack) (inode totalSize : Nat) : List BNode → Flash → Flash → Load
  | [], dest, readbuf => ⟨some totalSize, [], dest, readbuf⟩
  | b :: nodes, dest, readbuf =>
    let buf := getNodeMem f b.offset readbuf
    let jNode := rawInode buf 0
    if inode = jNode.ino ∧ jNode.offset ≤ totalSize then
      let checked := { b with datacrc := settled b.datacrc (dataCrc buf 0) }
      if checked.datacrc = crcBad then
        (readNodes f unpack inode totalSize nodes dest buf).behind checked
      else
        (unpacked unpack buf).elim ⟨none, checked :: nodes, dest, buf⟩ fun bytes =>
          (readNodes f unpack inode totalSize nodes (store dest jNode.offset bytes) buf).behind
            checked
    else (readNodes f unpack inode totalSize nodes dest buf).behind b

/-- `jffs2_1pass_read_inode` with `CONFIG_SYS_JFFS2_SORT_FRAGMENTS`. -/
def readInode (f : Flash) (unpack : Unpack) (frag : List BNode) (inode : Nat)
    (dest readbuf : Flash) : Load :=
  let latest := frag.foldl (latestStep f inode) ⟨0, 0, readbuf⟩
  readNodes f unpack inode latest.totalSize frag dest latest.readbuf

/-- The fragments in the order in which the scan of the flash inserted them. -/
def fragList (f : Flash) (scanned : List BNode) : BList :=
  scanned.foldl (insertNode (some (compareInodes f))) BList.empty

def version (f : Flash) (b : BNode) : Nat := (rawInode f b.offset).version

def ofInode (f : Flash) (inode : Nat) (b : BNode) : Bool := (rawInode f b.offset).ino = inode

def covers (f : Flash) (i : Nat) (b : BNode) : Bool :=
  (rawInode f b.offset).offset ≤ i ∧ i < (rawInode f b.offset).offset + (rawInode f b.offset).dsize

/-- The byte at place `i` of the file in a node that covers it. -/
def byteAt (f : Flash) (i : Nat) (b : BNode) : UInt8 :=
  if (rawInode f b.offset).compr = jffs2ComprZero then 0
  else f (b.offset + rawInodeSize + (i - (rawInode f b.offset).offset))

/-- The byte at place `i` in the newest node of the inode that `p` lets pass. -/
def shown (f : Flash) (inode : Nat) (p : BNode → Bool) (nodes : List BNode) (i : Nat) : Option UInt8 :=
  (KeyOrder.newest (version f) (fun b => ofInode f inode b && p b && covers f i b) nodes).map
    (byteAt f i)

def goodData (f : Flash) (b : BNode) : Bool := dataCrc f b.offset

/-- The nodes the second loop takes data from: only an unknown state is settled by the checksum. -/
def admitted (f : Flash) (b : BNode) : Bool :=
  if b.datacrc = crcUnknown then dataCrc f b.offset else b.datacrc ≠ crcBad

def newestOf (f : Flash) (inode : Nat) (nodes : List BNode) : Option BNode :=
  KeyOrder.newest (version f) (ofInode f inode) nodes

/-- Nodes as a partition holds them: whole, and those of the inode not compressed and of different
versions. -/
structure Written (f : Flash) (inode : Nat) (nodes : List BNode) : Prop where
  whole : ∀ b ∈ nodes, RawInode.Whole f b.offset
  stored : ∀ b ∈ nodes, ofInode f inode b = true → (rawInode f b.offset).Stored
  apart : KeyOrder.Apart (version f) (ofInode f inode) nodes

variable {f : Flash} {unpack : Unpack} {inode totalSize : Nat} {nodes : List BNode}

theorem Written.perm {other : List BNode} (h : Written f inode nodes) (hp : nodes.Perm other) :
    Written f inode other where
  whole := fun b hb => h.whole b (hp.mem_iff.mpr hb)
  stored := fun b hb => h.stored b (hp.mem_iff.mpr hb)
  apart := h.apart.perm hp

theorem fragList_spec (scanned : List BNode) : KeyOrder.Ordered (version f) (fragList f scanned).nodes ∧
      (fragList f scanned).nodes.Perm scanned := by
  induction scanned using List.reverseRecOn with
  | nil => exact ⟨List.Pairwise.nil, List.Perm.refl _⟩
  | append_singleton scanned new ih =>
    obtain ⟨hord, hperm⟩ := ih
    have hstep : fragList f (scanned ++ [new]) = insertSorted (compareInodes f) (fragList f scanned) new := by
      unfold fragList
      rw [List.foldl_append]
      rfl
    have hplace : (insertSorted (compareInodes f) (fragList f scanned) new).nodes =
        KeyOrder.place (version f) new (fragList f scanned).nodes := insertSorted_place hord
    rw [hstep]
    constructor
    · rw [hplace]
      exact hord.place
    · exact insertSorted_perm.trans ((hperm.cons new).trans
        (List.perm_append_singleton new scanned).symm)

/-- What the first loop keeps of the newest node it has seen. -/
def Latest.Of (f : Flash) (s : Latest) (newest : Option BNode) : Prop :=
  s.totalSize = newest.elim 0 (fun n => (rawInode f n.offset).isize) ∧
    s.latestVersion = newest.elim 0 (version f)

theorem latestStep_of {s : Latest} {newest : Option BNode} (h : s.Of f newest) (b : BNode) :
    (latestStep f inode s b).Of f (KeyOrder.keep (version f) (ofInode f inode) newest b) := by
  have hlater : newest.all (fun n => version f n ≤ version f b) = true ↔
      (rawInode f b.offset).version ≥ s.latestVersion := by
    rw [h.2]
    cases newest with
    | none => simp
    | some n => exact decide_eq_true_iff
  have hino : ofInode f inode b = true ↔ inode = (rawInode f b.offset).ino := by
    simp [ofInode, eq_comm]
  unfold latestStep KeyOrder.keep
  dsimp only
  rw [rawInode_getFlMem le_rfl]
  by_cases hc : ofInode f inode b = true ∧ newest.all (fun n => version f n ≤ version f b) = true
  · rw [if_pos hc, if_pos ⟨hino.mp hc.1, hlater.mp hc.2⟩]
    exact ⟨rfl, rfl⟩
  · rw [if_neg hc, if_neg fun ⟨hi, hv⟩ => hc ⟨hino.mpr hi, hlater.mpr hv⟩]
    exact h

theorem latest_spec (h : KeyOrder.Apart (version f) (ofInode f inode) nodes) (readbuf : Flash) :
    (nodes.foldl (latestStep f inode) ⟨0, 0, readbuf⟩).Of f (newestOf f inode nodes) := by
  have hrun : ∀ (s : Latest) (newest : Option BNode), s.Of f newest →
      (nodes.foldl (latestStep f inode) s).Of f
        (nodes.foldl (KeyOrder.keep (version f) (ofInode f inode)) newest) := by
    clear h
    induction nodes with
    | nil => exact fun _ _ h => h
    | cons b nodes ih => exact fun s newest h => ih _ _ (latestStep_of h b)
  have := hrun ⟨0, 0, readbuf⟩ none ⟨rfl, rfl⟩
  rwa [KeyOrder.foldl_keep h] at this

theorem unpacked_spec {b : BNode} (hw : RawInode.Whole f b.offset)
    (hs : (rawInode f b.offset).Stored) (readbuf : Flash) :
    ∃ bytes, unpacked unpack (getNodeMem f b.offset readbuf) = some bytes ∧
      bytes.length = (rawInode f b.offset).dsize ∧
      ∀ i, covers f i b = true → bytes.getD (i - (rawInode f b.offset).offset) 0xff = byteAt f i b := by
  unfold unpacked byteAt
  rw [hw.inode]
  rcases hs with ⟨hnone, hsize⟩ | hzero
  · refine ⟨read f (b.offset + rawInodeSize) (rawInode f b.offset).dsize, ?_, read_length _ _ _, ?_⟩
    · dsimp only
      rw [if_pos hnone, hw.data readbuf (le_of_eq hsize.symm)]
    · intro i hi
      have hc := of_decide_eq_true hi
      have hne : ¬(rawInode f b.offset).compr = jffs2ComprZero := by
        rw [hnone]
        decide
      rw [if_neg hne, getD_read (by omega)]
  · refine ⟨List.replicate (rawInode f b.offset).dsize 0, ?_, List.length_replicate, ?_⟩
    · have hne : ¬(rawInode f b.offset).compr = jffs2ComprNone := by
        rw [hzero]
        decide
      rw [if_neg hne, if_pos hzero]
    · intro i hi
      have hc := of_decide_eq_true hi
      rw [if_pos hzero]
      have hlt : i - (rawInode f b.offset).offset < (rawInode f b.offset).dsize := by omega
      simp [List.getD, hlt]

theorem shown_cons {p : BNode → Bool} {b : BNode} {i : Nat}
    (hlt : ∀ n ∈ nodes, ofInode f inode n = true → ofInode f inode b = true → version f b < version f n) :
    shown f inode p (b :: nodes) i = (shown f inode p nodes i).or
      (if ofInode f inode b && p b && covers f i b then some (byteAt f i b) else none) := by
  unfold shown
  cases hb : ofInode f inode b && p b && covers f i b with
  | false =>
    rw [KeyOrder.newest_cons_of_not (by simpa using hb)]
    simp
  | true =>
    have hof : ofInode f inode b = true := by
      simp only [Bool.and_eq_true] at hb
      exact hb.1.1
    have hnewer : ∀ n ∈ nodes, (ofInode f inode n && p n && covers f i n) = true →
        version f b < version f n := by
      intro n hn hpn
      simp only [Bool.and_eq_true] at hpn
      exact hlt n hn hpn.1.1 hof
    rw [KeyOrder.newest_cons (p := fun b => ofInode f inode b && p b && covers f i b) hb hnewer]
    cases KeyOrder.newest (version f) (fun b => ofInode f inode b && p b && covers f i b) nodes <;> rfl

theorem admitted_settled (b : BNode) :
    admitted f b = !decide (settled b.datacrc (dataCrc f b.offset) = crcBad) := by
  unfold admitted settled
  by_cases hu : b.datacrc = crcUnknown
  · rw [if_pos hu, if_pos hu]
    cases dataCrc f b.offset <;> decide
  · rw [if_neg hu, if_neg hu]
    simp

theorem readNodes_spec (h : Written f inode nodes) (hord : KeyOrder.Ordered (version f) nodes)
    (dest readbuf : Flash) :
    (readNodes f unpack inode totalSize nodes dest readbuf).ret = some totalSize ∧
      ∀ i, i < totalSize → (readNodes f unpack inode totalSize nodes dest readbuf).dest i =
        (shown f inode (admitted f) nodes i).getD (dest i) := by
  induction nodes generalizing dest readbuf with
  | nil => exact ⟨rfl, fun i _ => rfl⟩
  | cons b nodes ih =>
    obtain ⟨hle, hord'⟩ := List.pairwise_cons.mp hord
    obtain ⟨hne, hapart⟩ := List.pairwise_cons.mp h.apart
    have hrest : Written f inode nodes :=
      ⟨fun n hn => h.whole n (List.mem_cons_of_mem b hn),
        fun n hn => h.stored n (List.mem_cons_of_mem b hn), hapart⟩
    have hlt : ∀ n ∈ nodes, ofInode f inode n = true → ofInode f inode b = true →
        version f b < version f n := fun n hn hofn hof =>
      lt_of_le_of_ne (hle n hn) (hne n hn hof hofn)
    have hwhole := h.whole b List.mem_cons_self
    have hskip : ∀ i, i < totalSize → (ofInode f inode b && admitted f b && covers f i b) = false →
        (shown f inode (admitted f) (b :: nodes) i) = shown f inode (admitted f) nodes i := by
      intro i _ hb
      rw [shown_cons hlt, hb]
      simp
    unfold readNodes
    dsimp only
    rw [hwhole.inode, hwhole.dataCrc]
    split
    next hin =>
      obtain ⟨hino, hoff⟩ := hin
      have hof : ofInode f inode b = true := decide_eq_true hino.symm
      split
      next hbad =>
        obtain ⟨hret, hdest⟩ := ih hrest hord' dest (getNodeMem f b.offset readbuf)
        refine ⟨hret, fun i hi => ?_⟩
        rw [hskip i hi (by simp [admitted_settled, hbad])]
        exact hdest i hi
      next hgood =>
        obtain ⟨bytes, hbytes, hlen, hat⟩ := unpacked_spec hwhole (h.stored b List.mem_cons_self hof) readbuf
        rw [hbytes]
        obtain ⟨hret, hdest⟩ := ih hrest hord' (store dest (rawInode f b.offset).offset bytes)
          (getNodeMem f b.offset readbuf)
        refine ⟨hret, fun i hi => ?_⟩
        have hput : store dest (rawInode f b.offset).offset bytes i =
            if covers f i b then byteAt f i b else dest i := by
          unfold store patch
          rw [hlen]
          by_cases hc : covers f i b = true
          · rw [if_pos hc, if_pos (of_decide_eq_true hc)]
            exact hat i hc
          · rw [if_neg hc, if_neg fun hin => hc (decide_eq_true hin)]
        refine (hdest i hi).trans ?_
        rw [shown_cons hlt, hof, admitted_settled, decide_eq_false hgood, hput]
        cases shown f inode (admitted f) nodes i with
        | some x => rfl
        | none => cases covers f i b <;> rfl
    next hout =>
      obtain ⟨hret, hdest⟩ := ih hrest hord' dest (getNodeMem f b.offset readbuf)
      refine ⟨hret, fun i hi => ?_⟩
      have hnone : (ofInode f inode b && admitted f b && covers f i b) = false := by
        by_contra hb
        simp only [Bool.not_eq_false, Bool.and_eq_true] at hb
        obtain ⟨⟨hof, _⟩, hc⟩ := hb
        have hcov := of_decide_eq_true hc
        have hino := of_decide_eq_true hof
        exact hout ⟨hino.symm, by omega⟩
      rw [hskip i hi hnone]
      exact hdest i hi

theorem shown_perm {p : BNode → Bool} {other : List BNode} (h : Written f inode nodes)
    (hp : nodes.Perm other) (i : Nat) : shown f inode p nodes i = shown f inode p other i := by
  have hapart := h.apart.mono (q := fun b => ofInode f inode b && p b && covers f i b) (by
    intro n _ hn
    simp only [Bool.and_eq_true] at hn
    exact hn.1.1)
  unfold shown
  rw [KeyOrder.newest_perm hapart hp]

theorem readInode_spec {scanned : List BNode} (h : Written f inode scanned) {n : BNode}
    (hn : newestOf f inode scanned = some n) (dest readbuf : Flash) :
    (readInode f unpack (fragList f scanned).nodes inode dest readbuf).ret =
        some (rawInode f n.offset).isize ∧
      ∀ i, i < (rawInode f n.offset).isize →
        (readInode f unpack (fragList f scanned).nodes inode dest readbuf).dest i =
          (shown f inode (admitted f) scanned i).getD (dest i) := by
  obtain ⟨hord, hperm⟩ := fragList_spec (f := f) scanned
  have hw := h.perm hperm.symm
  obtain ⟨hsize, _⟩ := latest_spec hw.apart readbuf
  have hnew : newestOf f inode (fragList f scanned).nodes = some n := by
    rw [← hn]
    exact KeyOrder.newest_perm hw.apart hperm
  rw [hnew] at hsize
  unfold readInode
  dsimp only
  rw [hsize]
  obtain ⟨hret, hdest⟩ := readNodes_spec hw hord dest
    ((fragList f scanned).nodes.foldl (latestStep f inode) ⟨0, 0, readbuf⟩).readbuf
  refine ⟨hret, fun i hi => ?_⟩
  rw [hdest i hi, shown_perm hw hperm]

/-- A load gives the length of the newest node and the newest data with a good checksum, from any
order on the flash, just when the states left in the heap let the same data through. -/
theorem read_inode_newest_iff {scanned : List BNode} (h : Written f inode scanned) {n : BNode}
    (hn : newestOf f inode scanned = some n) (readbuf : Flash) :
    (∀ dest, (readInode f unpack (fragList f scanned).nodes inode dest readbuf).ret =
          some (rawInode f n.offset).isize ∧
        ∀ i, i < (rawInode f n.offset).isize →
          (readInode f unpack (fragList f scanned).nodes inode dest readbuf).dest i =
            (shown f inode (goodData f) scanned i).getD (dest i)) ↔
      ∀ i, i < (rawInode f n.offset).isize →
        shown f inode (admitted f) scanned i = shown f inode (goodData f) scanned i := by
  constructor
  · intro hall i hi
    have hget : ∀ d, (shown f inode (admitted f) scanned i).getD d =
        (shown f inode (goodData f) scanned i).getD d := by
      intro d
      obtain ⟨_, hgood⟩ := hall fun _ => d
      obtain ⟨_, hadm⟩ := readInode_spec h hn (fun _ => d) readbuf
      exact (hadm i hi).symm.trans (hgood i hi)
    cases ha : shown f inode (admitted f) scanned i with
    | some x =>
      cases hg : shown f inode (goodData f) scanned i with
      | some y => simpa [ha, hg] using hget 0
      | none =>
        have hx := hget (x + 1)
        simp [ha, hg] at hx
    | none =>
      cases hg : shown f inode (goodData f) scanned i with
      | some y =>
        have hy := hget (y + 1)
        simp [ha, hg] at hy
      | none => rfl
  · intro hsame dest
    obtain ⟨hret, hdest⟩ := readInode_spec h hn dest readbuf
    refine ⟨hret, fun i hi => ?_⟩
    rw [hdest i hi, hsame i hi]

def spoiled : Flash := fun a =>
  ([0x85, 0x19, 2, 0xe0, 69, 0, 0, 0, 120, 156, 75, 32, 5, 0, 0, 0, 1, 0, 0, 0] ++
    List.replicate 8 0 ++ [1] ++ List.replicate 19 0 ++ [1, 0, 0, 0, 1] ++ List.replicate 11 0 ++
    [149, 46, 139, 71, 0x41] : List UInt8).getD a 0xff

def inodeNode (ino version isize offset csize dsize compr : UInt8) (hdrCrc dataCrc nodeCrc data : List UInt8) :
    List UInt8 :=
  [0x85, 0x19, 2, 0xe0, 68 + csize, 0, 0, 0] ++ hdrCrc ++ [ino, 0, 0, 0, version, 0, 0, 0] ++ List.replicate 8 0 ++
    [isize] ++ List.replicate 15 0 ++ [offset, 0, 0, 0, csize, 0, 0, 0, dsize, 0, 0, 0, compr, 0, 0, 0] ++
    dataCrc ++ nodeCrc ++ data

/-- Of inode 5 the versions 2, 1, 4 and 3: `ABC`, `abcd`, an `X` over the `b` with a bad checksum and a length of 4, and
zeros from place 3 on. Behind them is a node of inode 6. -/
def versionNodes : List (List UInt8) :=
  [inodeNode 5 2 5 0 3 3 0 [243, 84, 66, 138] [90, 218, 194, 92] [251, 229, 103, 230] [65, 66, 67],
    inodeNode 5 1 4 0 4 4 0 [165, 68, 33, 210] [13, 18, 198, 204] [97, 72, 152, 23] [97, 98, 99, 100],
    inodeNode 5 4 4 1 1 1 0 [120, 156, 75, 32] [0, 0, 0, 0] [110, 121, 59, 235] [88],
    inodeNode 5 3 6 3 0 3 1 [29, 251, 247, 152] [0, 0, 0, 0] [65, 212, 186, 227] [],
    inodeNode 6 9 4 0 4 4 0 [165, 68, 33, 210] [80, 251, 39, 226] [84, 184, 122, 219] [119, 120, 121, 122]]

def versions : Flash := fun a => (versionNodes.getD (a / 72) []).getD (a % 72) 0xff

def versionsScanned : List BNode :=
  [⟨0, crcUnknown⟩, ⟨72, crcUnknown⟩, ⟨144, crcUnknown⟩, ⟨216, crcUnknown⟩, ⟨288, crcUnknown⟩]

/-- The length is that of version 4, and the bytes are of the versions 2, 2, 2 and 3. -/
theorem read_inode_newest_versions :
    (readInode versions (fun _ => none) (fragList versions versionsScanned).nodes 5 (fun _ => 0xff) fun _ => 0).ret =
        some 4 ∧
      FlashCells.read (readInode versions (fun _ => none) (fragList versions versionsScanned).nodes 5 (fun _ => 0xff)
        fun _ => 0).dest 0 4 = [65, 66, 67, 0] := by
  have hshown : ∀ i, i < 4 → shown versions 5 (goodData versions) versionsScanned i =
      some ([65, 66, 67, 0].getD i 0) := by decide +kernel
  have hsame : ∀ i, i < 4 → shown versions 5 (admitted versions) versionsScanned i =
      shown versions 5 (goodData versions) versionsScanned i := by decide +kernel
  obtain ⟨hret, hbytes⟩ := (@read_inode_newest_iff versions (fun _ => none) 5 versionsScanned
    ⟨by decide +kernel, by decide +kernel, by unfold KeyOrder.Apart; decide +kernel⟩ ⟨144, crcUnknown⟩
    (by decide +kernel) fun _ => 0).mpr hsame fun _ => 0xff
  refine ⟨hret, ?_⟩
  have hat (i : Nat) (hi : i < 4) : (readInode versions (fun _ => none) (fragList versions versionsScanned).nodes 5
      (fun _ => 0xff) fun _ => 0).dest i = [65, 66, 67, 0].getD i 0 := by
    rw [hbytes i hi, hshown i hi]
    rfl
  calc FlashCells.read _ 0 4 = (List.range 4).map fun i => [65, 66, 67, 0].getD i 0 := by
        refine List.map_congr_left fun i hi => ?_
        rw [zero_add]
        exact hat i (List.mem_range.mp hi)
    _ = [65, 66, 67, 0] := rfl

/-- With a state left in the heap by an earlier scan the spoiled byte is loaded. -/
theorem spoiled_data_loaded :
    (readInode spoiled (fun _ => none) (fragList spoiled [⟨0, crcOk⟩]).nodes 5 (fun _ => 0)
        fun _ => 0).dest 0 = 0x41 ∧
      dataCrc spoiled 0 = false ∧ shown spoiled 5 (goodData spoiled) [⟨0, crcOk⟩] 0 = none := by
  decide +kernel

end UBoot.Jffs2
