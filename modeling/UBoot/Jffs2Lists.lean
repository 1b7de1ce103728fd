import UBoot.Crc32
import UBoot.KeyOrder
import UBoot.Words

namespace UBoot.Jffs2

open FlashCells List Words

def jffs2MagicBitmask : Nat := 0x1985
def jffs2ComprNone : UInt8 := 0
def jffs2ComprZero : UInt8 := 1

/-- `sizeof (struct jffs2_unknown_node)`, `sizeof (struct jffs2_raw_inode)` and
`sizeof (struct jffs2_raw_dirent)`. -/
def unknownNodeSize : Nat := 12
def rawInodeSize : Nat := 68
def rawDirentSize : Nat := 40

/-- `struct jffs2_unknown_node`, packed, at `a`. -/
def magic (m : Flash) (a : Nat) : Nat := le16 m a
def nodetype (m : Flash) (a : Nat) : Nat := le16 m (a + 2)
def totlen (m : Flash) (a : Nat) : Nat := le32 m (a + 4)

/-- `struct jffs2_raw_inode`, what the loader reads of it. -/
structure RawInode where
  ino : Nat
  version : Nat
  isize : Nat
  offset : Nat
  csize : Nat
  dsize : Nat
  compr : UInt8
  dataCrc : Nat
deriving DecidableEq

def rawInode (m : Flash) (a : Nat) : RawInode where
  ino := le32 m (a + 12)
  version := le32 m (a + 16)
  isize := le32 m (a + 28)
  offset := le32 m (a + 44)
  csize := le32 m (a + 48)
  dsize := le32 m (a + 52)
  compr := m (a + 56)
  dataCrc := le32 m (a + 60)

/-- `struct jffs2_raw_dirent`, what the name lookup reads of it. -/
structure RawDirent where
  pino : Nat
  version : Nat
  ino : Nat
  nsize : Nat
deriving DecidableEq

def rawDirent (m : Flash) (a : Nat) : RawDirent where
  pino := le32 m (a + 12)
  version := le32 m (a + 16)
  ino := le32 m (a + 20)
  nsize := (m (a + 28)).toNat

def crc32NoComp (crc : UInt32) (buf : List UInt8) : UInt32 :=
  buf.foldl (fun crc b => crcTable ((crc ^^^ b.toUInt32) &&& 0xff) ^^^ (crc >>> 8)) crc

def dataCrc (m : Flash) (a : Nat) : Bool :=
  (rawInode m a).dataCrc = (crc32NoComp 0 (read m (a + rawInodeSize) (rawInode m a).csize)).toNat

/-- `get_fl_mem` into a buffer: `size` bytes of the flash from `off` on. -/
def getFlMem (f : Flash) (off size : Nat) (buf : Flash) : Flash :=
  patch buf 0 size fun i => f (off + i)

/-- `get_node_mem`: the whole node, by the length in its header. -/
def getNodeMem (f : Flash) (off : Nat) (buf : Flash) : Flash :=
  getFlMem f off (if magic f off = jffs2MagicBitmask then totlen f off else unknownNodeSize) buf

section
variable {f buf : Flash} {off size : Nat}

theorem getFlMem_at {i : Nat} (h : i < size) : getFlMem f off size buf i = f (off + i) :=
  patch_inside (Nat.zero_le i) (by omega)

theorem le32_getFlMem {a : Nat} (h : a + 4 ≤ size) :
    le32 (getFlMem f off size buf) (0 + a) = le32 f (off + a) := by
  rw [zero_add]
  apply le32_congr
  intro i hi
  rw [getFlMem_at (by omega), add_assoc]

theorem rawInode_getFlMem (h : rawInodeSize ≤ size) :
    rawInode (getFlMem f off size buf) 0 = rawInode f off := by
  unfold rawInodeSize at h
  have hcompr : getFlMem f off size buf 56 = f (off + 56) := getFlMem_at (by omega)
  simp (disch := omega) only [rawInode, le32_getFlMem]
  rw [zero_add, hcompr]

theorem rawDirent_getFlMem (h : rawDirentSize ≤ size) :
    rawDirent (getFlMem f off size buf) 0 = rawDirent f off := by
  unfold rawDirentSize at h
  have hnsize : getFlMem f off size buf 28 = f (off + 28) := getFlMem_at (by omega)
  simp (disch := omega) only [rawDirent, le32_getFlMem]
  rw [zero_add, hnsize]

theorem read_getFlMem {a n : Nat} (h : a + n ≤ size) :
    read (getFlMem f off size buf) a n = read f (off + a) n := by
  apply read_congr
  intro i hi
  rw [getFlMem_at (by omega), add_assoc]

end

/-- An inode node as it is written: its length covers its header and its data. -/
def RawInode.Whole (f : Flash) (a : Nat) : Prop :=
  magic f a = jffs2MagicBitmask ∧ rawInodeSize + (rawInode f a).csize ≤ totlen f a

/-- A directory entry as it is written: its length covers its header and its name. -/
def RawDirent.Whole (f : Flash) (a : Nat) : Prop :=
  magic f a = jffs2MagicBitmask ∧ rawDirentSize + (rawDirent f a).nsize ≤ totlen f a

/-- Data that are stored as they are, and nodes that stand for zeros. -/
def RawInode.Stored (n : RawInode) : Prop :=
  n.compr = jffs2ComprNone ∧ n.csize = n.dsize ∨ n.compr = jffs2ComprZero

instance (f : Flash) (a : Nat) : Decidable (RawInode.Whole f a) := inferInstanceAs (Decidable (_ ∧ _))
instance (f : Flash) (a : Nat) : Decidable (RawDirent.Whole f a) := inferInstanceAs (Decidable (_ ∧ _))
instance (n : RawInode) : Decidable n.Stored := inferInstanceAs (Decidable (_ ∨ _))

section
variable {f : Flash} {a : Nat} (buf : Flash)

theorem RawInode.Whole.inode (h : RawInode.Whole f a) : rawInode (getNodeMem f a buf) 0 = rawInode f a := by
  obtain ⟨hmagic, hlen⟩ := h
  rw [getNodeMem, if_pos hmagic]
  exact rawInode_getFlMem (by omega)

theorem RawInode.Whole.data (h : RawInode.Whole f a) {n : Nat} (hn : n ≤ (rawInode f a).csize) :
    read (getNodeMem f a buf) rawInodeSize n = read f (a + rawInodeSize) n := by
  obtain ⟨hmagic, hlen⟩ := h
  rw [getNodeMem, if_pos hmagic]
  exact read_getFlMem (by omega)

theorem RawInode.Whole.dataCrc (h : RawInode.Whole f a) :
    Jffs2.dataCrc (getNodeMem f a buf) 0 = Jffs2.dataCrc f a := by
  unfold Jffs2.dataCrc
  rw [h.inode, zero_add, h.data buf le_rfl]

theorem RawDirent.Whole.dirent (h : RawDirent.Whole f a) :
    rawDirent (getNodeMem f a buf) 0 = rawDirent f a := by
  obtain ⟨hmagic, hlen⟩ := h
  rw [getNodeMem, if_pos hmagic]
  exact rawDirent_getFlMem (by omega)

theorem RawDirent.Whole.name (h : RawDirent.Whole f a) {i : Nat} (hi : i < (rawDirent f a).nsize) :
    getNodeMem f a buf (rawDirentSize + i) = f (a + rawDirentSize + i) := by
  obtain ⟨hmagic, hlen⟩ := h
  rw [getNodeMem, if_pos hmagic, getFlMem_at (by omega), add_assoc]

end

def crcUnknown : UInt32 := 0
def crcOk : UInt32 := 1
def crcBad : UInt32 := 2

/-- `struct b_node`; `datacrc` is what the heap held there when the node was taken. -/
structure BNode where
  offset : Nat
  datacrc : UInt32
deriving DecidableEq

/-- `struct b_list`: `last` is the place of `listLast` in the list. -/
structure BList where
  nodes : List BNode
  last : Option Nat

def BList.empty : BList := ⟨[], none⟩

/-- The loop of `insert_node` from place `i` on. -/
def walk (listCompare : BNode → BNode → Bool) (new : BNode) : List BNode → Nat → Nat
  | [], i => i
  | b :: nodes, i => if listCompare new b then walk listCompare new nodes (i + 1) else i

/-- The place after `listTail`, else the one after `listLast`, else the head. -/
def walkStart (listCompare : BNode → BNode → Bool) (l : BList) (new : BNode) : Nat :=
  if l.nodes.getLast?.any (listCompare new) then l.nodes.length
  else if (l.last.bind fun k => l.nodes[k]?).any (listCompare new) then l.last.elim 0 (· + 1)
  else 0

def BList.append (l : BList) (new : BNode) : BList := { l with nodes := l.nodes ++ [new] }

/-- `insert_node` with `CONFIG_SYS_JFFS2_SORT_FRAGMENTS`. -/
def insertSorted (listCompare : BNode → BNode → Bool) (l : BList) (new : BNode) : BList :=
  let i := walk listCompare new (l.nodes.drop (walkStart listCompare l new))
    (walkStart listCompare l new)
  if i < l.nodes.length then
    { nodes := l.nodes.take i ++ new :: l.nodes.drop i, last := if i = 0 then none else some (i - 1) }
  else l.append new

/-- `insert_node`; `none` stands for the configuration that keeps the order of the flash. -/
def insertNode (listCompare : Option (BNode → BNode → Bool)) (l : BList) (new : BNode) : BList :=
  listCompare.elim (l.append new) fun compare => insertSorted compare l new

def compareInodes (f : Flash) (new old : BNode) : Bool :=
  (rawInode f new.offset).version > (rawInode f old.offset).version

/-- `compare_dirents`. Both entries are copied without their names, so `strncmp` sees what lies
behind the copies: `names` is its result. The 0 stored as the older entry's inode number goes to
the copy and is not seen again. -/
def compareDirents (f : Flash) (names : BNode → Int) (new old : BNode) : Bool :=
  let jNew := rawDirent f new.offset
  let jOld := rawDirent f old.offset
  if jNew.pino ≠ jOld.pino then jNew.pino > jOld.pino
  else if jNew.nsize ≠ jOld.nsize then jNew.nsize > jOld.nsize
  else if names old ≠ 0 then names old > 0
  else jNew.version > jOld.version

section
variable {listCompare : BNode → BNode → Bool} {l : BList} {new : BNode}

theorem walk_add (nodes : List BNode) (i : Nat) :
    walk listCompare new nodes i = i + (nodes.takeWhile (listCompare new)).length := by
  induction nodes generalizing i with
  | nil => rfl
  | cons b nodes ih =>
    rw [walk, takeWhile_cons]
    split
    · rw [ih, length_cons]
      omega
    · rfl

theorem walkStart_le : walkStart listCompare l new ≤ l.nodes.length := by
  unfold walkStart
  split
  · exact le_rfl
  · split
    next _ h =>
      obtain ⟨b, hb, _⟩ := (Option.any_eq_true _ _).mp h
      obtain ⟨k, hk, hkb⟩ := Option.bind_eq_some_iff.mp hb
      obtain ⟨hlt, _⟩ := List.getElem?_eq_some_iff.mp hkb
      rw [hk]
      exact hlt
    · exact Nat.zero_le _

theorem insertSorted_nodes
    (h : ∀ b ∈ l.nodes.take (walkStart listCompare l new), listCompare new b = true) :
    (insertSorted listCompare l new).nodes =
      l.nodes.takeWhile (listCompare new) ++ new :: l.nodes.dropWhile (listCompare new) := by
  have hstart : walkStart listCompare l new ≤ l.nodes.length := walkStart_le
  have hall : l.nodes.takeWhile (listCompare new) = l.nodes.take (walkStart listCompare l new) ++
        (l.nodes.drop (walkStart listCompare l new)).takeWhile (listCompare new) := by
    conv_lhs => rw [← take_append_drop (walkStart listCompare l new) l.nodes]
    exact takeWhile_append_of_pos h
  have hplace : walk listCompare new (l.nodes.drop (walkStart listCompare l new))
      (walkStart listCompare l new) = (l.nodes.takeWhile (listCompare new)).length := by
    rw [walk_add, hall, length_append, length_take, min_eq_left hstart]
  have hsplit : l.nodes.takeWhile (listCompare new) ++ l.nodes.dropWhile (listCompare new) =
      l.nodes := takeWhile_append_dropWhile
  have hlen := congrArg List.length hsplit
  rw [length_append] at hlen
  unfold insertSorted BList.append
  rw [hplace]
  dsimp only
  split
  next h =>
    have htake : l.nodes.take (l.nodes.takeWhile (listCompare new)).length =
        l.nodes.takeWhile (listCompare new) :=
      prefix_iff_eq_take.mp (List.takeWhile_prefix _) |>.symm
    have hdrop : l.nodes.drop (l.nodes.takeWhile (listCompare new)).length =
        l.nodes.dropWhile (listCompare new) := by
      have hboth := take_append_drop (l.nodes.takeWhile (listCompare new)).length l.nodes
      rw [htake] at hboth
      exact append_cancel_left (hboth.trans hsplit.symm)
    rw [htake, hdrop]
  next h =>
    have hnil : l.nodes.dropWhile (listCompare new) = [] := eq_nil_of_length_eq_zero (by omega)
    rw [hnil, append_nil] at hsplit
    rw [hnil, hsplit]

theorem insertSorted_perm : (insertSorted listCompare l new).nodes.Perm (new :: l.nodes) := by
  unfold insertSorted BList.append
  dsimp only
  split
  next h =>
    refine perm_middle.trans (List.Perm.cons new ?_)
    rw [take_append_drop]
  · exact perm_append_singleton new l.nodes

end

theorem insertNode_perm (listCompare : Option (BNode → BNode → Bool)) (l : BList) (new : BNode) :
    (insertNode listCompare l new).nodes.Perm (new :: l.nodes) := by
  cases listCompare with
  | none => exact perm_append_singleton new l.nodes
  | some compare => exact insertSorted_perm

section
variable {α : Type} {key : α → Nat}

theorem ordered_take_le {nodes : List α} (h : KeyOrder.Ordered key nodes) {k : Nat} {b c : α}
    (hc : nodes[k]? = some c) (hb : b ∈ nodes.take (k + 1)) : key b ≤ key c := by
  obtain ⟨i, hi, rfl⟩ := mem_take_iff_getElem.mp hb
  obtain ⟨hk, rfl⟩ := List.getElem?_eq_some_iff.mp hc
  rcases lt_or_ge i k with hlt | hge
  · exact pairwise_iff_getElem.mp h i k _ _ hlt
  · have : i = k := by omega
    subst this
    exact le_rfl

end

theorem insertSorted_place {key : BNode → Nat} {l : BList} {new : BNode}
    (h : KeyOrder.Ordered key l.nodes) :
    (insertSorted (fun new b => decide (key b < key new)) l new).nodes = KeyOrder.place key new l.nodes := by
  have hbefore : ∀ b ∈ l.nodes.take (walkStart (fun new b => decide (key b < key new)) l new),
      decide (key b < key new) = true := by
    intro b hb
    unfold walkStart at hb
    split at hb
    next hany =>
      obtain ⟨c, hc, hlt⟩ := (Option.any_eq_true _ _).mp hany
      rw [List.getLast?_eq_getElem?] at hc
      have hb' : b ∈ l.nodes.take (l.nodes.length - 1 + 1) := by
        rw [take_of_length_le (by omega)]
        exact mem_of_mem_take hb
      have hle := ordered_take_le h hc hb'
      have := of_decide_eq_true hlt
      exact decide_eq_true (by omega)
    · split at hb
      next hany =>
        obtain ⟨c, hc, hlt⟩ := (Option.any_eq_true _ _).mp hany
        obtain ⟨k, hk, hkc⟩ := Option.bind_eq_some_iff.mp hc
        rw [hk] at hb
        have hle := ordered_take_le h hkc hb
        have := of_decide_eq_true hlt
        exact decide_eq_true (by omega)
      · rw [take_zero] at hb
        cases hb
  rw [insertSorted_nodes hbefore, KeyOrder.place, orderedInsert_eq_take_drop]
  simp only [not_le]

end UBoot.Jffs2
