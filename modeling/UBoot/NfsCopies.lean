import UBoot.CString
import UBoot.Cells
import UBoot.Nfs

namespace UBoot.Nfs

open Cells List

/-- The loop of `basename` with `k` characters up to `fname`: the pointer that it returns, from the path on. In
front of the path it is negative. -/
def basenameLoop (path : List UInt8) : Nat → Option Int
  | 0 => some (-1)
  | k + 1 => do
    if (← path[k]?) = slash then some (k + 1) else basenameLoop path k

def basename (path : List UInt8) : Option Int := do
  basenameLoop path (← strEnd path 0)

/-- `*fname = '\0'` at a pointer that may be in front of the path. -/
def terminate (path : List UInt8) (fname : Int) : Option (List UInt8) :=
  if 0 ≤ fname then store path fname.toNat 0 else none

def dirname (path : List UInt8) : Option (List UInt8) := do
  terminate path ((← basename path) - 1)

/-- The name and the directory are strings in the bytes of the path. -/
structure PathSplit (text : List UInt8) (fname : Int) (path : List UInt8) : Prop where
  inside : 0 ≤ fname ∧ fname ≤ text.length
  component : cstrAt (text ++ [0]) fname.toNat = some (splitPath text).2
  directory : cstrAt path 0 = some (splitPath text).1
  name : cstrAt path fname.toNat = some (splitPath text).2

variable {dir name text q : List UInt8}

theorem splitPath_slash (hname : slash ∉ name) : splitPath (dir ++ slash :: name) = (dir, name) := by
  have hrev : (dir ++ slash :: name).reverse = name.reverse ++ slash :: dir.reverse := by
    rw [reverse_append, reverse_cons, append_assoc, singleton_append]
  have hall : ∀ c ∈ name.reverse, (c != slash) = true := by
    intro c hc
    rw [bne_iff_ne]
    rintro rfl
    exact hname (mem_reverse.mp hc)
  have htake : ((dir ++ slash :: name).reverse.takeWhile (· != slash)).reverse = name := by
    rw [hrev, takeWhile_append_of_pos hall, takeWhile_cons_of_neg (by simp), append_nil,
      reverse_reverse]
  have hlen : (dir ++ slash :: name).length - name.length - 1 = dir.length := by
    rw [length_append, length_cons]
    omega
  unfold splitPath
  dsimp only
  rw [htake, hlen, take_left]

theorem exists_last_slash (h : slash ∈ text) : ∃ dir name, text = dir ++ slash :: name ∧ slash ∉ name := by
  obtain ⟨name, dir, hrev, hname⟩ := eq_append_cons_of_mem (mem_reverse.mpr h)
  refine ⟨dir.reverse, name.reverse, ?_, fun hm => hname (mem_reverse.mp hm)⟩
  rw [← reverse_reverse text, hrev, reverse_append, reverse_cons, append_assoc,
    singleton_append]

theorem basenameLoop_back (hname : slash ∉ name) :
    basenameLoop (dir ++ name ++ q) (dir ++ name).length = basenameLoop (dir ++ name ++ q) dir.length := by
  induction name using List.reverseRecOn generalizing q with
  | nil => rw [append_nil]
  | append_singleton name c ih =>
    obtain ⟨hinit, hlast⟩ := not_or.mp (mt mem_append.mpr hname)
    have hc : c ≠ slash := fun h => hlast (mem_singleton.mpr h.symm)
    have hrow : dir ++ (name ++ [c]) ++ q = dir ++ name ++ c :: q := by simp
    have hlen : (dir ++ (name ++ [c])).length = (dir ++ name).length + 1 := by
      rw [← append_assoc, length_append, length_singleton]
    have hat : (dir ++ name ++ c :: q)[(dir ++ name).length]? = some c := by
      rw [List.getElem?_append_right le_rfl, Nat.sub_self]
      rfl
    rw [hrow, hlen, basenameLoop, hat]
    simp only [Option.bind_eq_bind, Option.bind_some, if_neg hc]
    exact ih hinit

theorem basename_slash (hnul : (0 : UInt8) ∉ dir ++ slash :: name) (hname : slash ∉ name) :
    basename (dir ++ slash :: name ++ [0]) = some ((dir.length : Int) + 1) := by
  have hback : basenameLoop (dir ++ [slash] ++ name ++ [0]) (dir ++ [slash] ++ name).length = _ :=
    basenameLoop_back hname
  have hlen : (dir ++ [slash]).length = dir.length + 1 := length_append
  rw [append_assoc dir, singleton_append, hlen] at hback
  have hat : (dir ++ slash :: name ++ [0])[dir.length]? = some slash := by
    rw [append_assoc, List.getElem?_append_right le_rfl, Nat.sub_self]
    rfl
  unfold basename
  rw [strEnd_append hnul, zero_add]
  simp only [Option.bind_eq_bind, Option.bind_some]
  rw [hback, basenameLoop, hat]
  rfl

theorem basename_plain (hnul : (0 : UInt8) ∉ text) (hplain : slash ∉ text) :
    basename (text ++ [0]) = some (-1) := by
  have hback : basenameLoop ([] ++ text ++ [0]) ([] ++ text).length = _ := basenameLoop_back hplain
  rw [nil_append] at hback
  unfold basename
  rw [strEnd_append hnul, zero_add]
  exact hback

theorem pathSplit_slash (hnul : (0 : UInt8) ∉ dir ++ slash :: name) (hname : slash ∉ name) :
    dirname (dir ++ slash :: name ++ [0]) = some (dir ++ 0 :: name ++ [0]) ∧
      PathSplit (dir ++ slash :: name) (dir.length + 1) (dir ++ 0 :: name ++ [0]) := by
  obtain ⟨hdirNul, hnameNul⟩ := not_or.mp (mt mem_append.mpr hnul)
  have hnameNul : (0 : UInt8) ∉ name := fun h => hnameNul (mem_cons_of_mem _ h)
  have hplace : ((dir.length : Int) + 1).toNat = (dir ++ [slash]).length := by
    rw [length_append, length_singleton]
    rfl
  refine ⟨?_, ⟨by omega, ?_⟩, ?_, ?_, ?_⟩
  · unfold dirname
    rw [basename_slash hnul hname]
    simp only [Option.bind_eq_bind, Option.bind_some, terminate, Int.add_sub_cancel]
    rw [if_pos (Int.natCast_nonneg _), Int.toNat_natCast, append_assoc, cons_append, store_at,
      append_assoc, cons_append]
  · rw [length_append, length_cons]
    omega
  · have hstr := cstrAt_append (p := dir ++ [slash]) (t := []) hnameNul
    rw [splitPath_slash hname, hplace]
    simpa using hstr
  · have hstr := cstrAt_append (p := []) (t := name ++ [0]) hdirNul
    rw [splitPath_slash hname]
    simpa using hstr
  · have hstr := cstrAt_append (p := dir ++ [0]) (t := []) hnameNul
    rw [splitPath_slash hname, hplace]
    simpa using hstr

/-- A path is taken apart within its bytes exactly if it has a slash. -/
theorem path_split_iff (path : CString) :
    (∃ fname path', basename (path.bytes ++ [0]) = some fname ∧ dirname (path.bytes ++ [0]) = some path' ∧
        PathSplit path.bytes fname path') ↔ slash ∈ path.bytes := by
  constructor
  · rintro ⟨fname, path', hbase, _, hsplit⟩
    by_contra hplain
    rw [basename_plain path.nulFree hplain] at hbase
    have hneg := hsplit.inside.1
    rw [← Option.some.inj hbase] at hneg
    exact absurd hneg (by decide)
  · intro hslash
    obtain ⟨dir, name, htext, hname⟩ := exists_last_slash hslash
    have hnul := path.nulFree
    rw [htext] at hnul ⊢
    obtain ⟨hdir, hsplit⟩ := pathSplit_slash hnul hname
    exact ⟨_, _, basename_slash hnul hname, hdir, hsplit⟩

/-- The boot file `uImage` -/
def uImage : List UInt8 := ascii ['u', 'I', 'm', 'a', 'g', 'e']

/-- The pointer is in front of the path, and so is the byte that `dirname` sets. -/
theorem plain_name_not_split : basename (uImage ++ [0]) = some (-1) ∧ dirname (uImage ++ [0]) = none ∧
    ¬∃ fname path', basename (uImage ++ [0]) = some fname ∧ dirname (uImage ++ [0]) = some path' ∧
      PathSplit uImage fname path' := by
  have hdir : dirname (uImage ++ [0]) = none := by decide
  refine ⟨by decide, hdir, ?_⟩
  rintro ⟨fname, path', _, hrun, _⟩
  rw [hdir] at hrun
  cases hrun

open FlashCells Words

/-- An object of `n` bytes. -/
abbrev Buffer (n : Nat) := { d : List UInt8 // d.length = n }

variable {n : Nat}

def zeros : Buffer n := ⟨List.replicate n 0, length_replicate⟩

/-- `memcpy` into the object. -/
def Buffer.put (b : Buffer n) (i : Nat) (xs : List UInt8) : Option (Buffer n) :=
  if h : i + xs.length ≤ n then some ⟨splice b.1 i xs, (splice_length (h.trans_eq b.2.symm)).trans b.2⟩ else none

/-- `sizeof(rpc_pkt)` and `sizeof(rpc_pkt.u.reply)` -/
def rpcSize : Nat := 2048
def replySize : Nat := 100

/-- What the decoders use of the client, with `nfs_path_buff`. -/
structure Receiver where
  state : Phase
  rpcId : Nat
  nfsOffset : Nat
  dirfh : Buffer nfsFhsize
  filefh : Buffer nfsFhsize
  path : Buffer 2048
  mem : Flash

/-- The local `rpc_pkt`, which holds something else behind the bytes of the packet. -/
def rpcPkt (stack : Buffer rpcSize) (pkt : List UInt8) (len : Nat) : Option (List UInt8) := do
  let copied ← stack.put 0 (← loadAll pkt 0 len)
  some copied.1

def Receiver.Rejects (r : Receiver) (rpc : List UInt8) : Prop :=
  replyId rpc ≠ r.rpcId ∨ refused rpc ∨ data rpc 0 ≠ 0

instance (r : Receiver) (rpc : List UInt8) : Decidable (r.Rejects rpc) := inferInstanceAs (Decidable (_ ∨ _ ∨ _))

variable (r : Receiver) (stack : Buffer rpcSize) (pkt : List UInt8)

/-- `rpc_lookup_reply`, which copies no more than the packet. -/
def Receiver.rpcLookupReply : Option Receiver := do
  let _ ← rpcPkt stack pkt pkt.length
  some r

def Receiver.mountReply : Option Receiver := do
  let rpc ← rpcPkt stack pkt pkt.length
  if r.Rejects rpc then some r
  else do some { r with dirfh := ← r.dirfh.put 0 (← loadAll pkt 28 nfsFhsize) }

def Receiver.umountallReply : Option Receiver := do
  let rpc ← rpcPkt stack pkt pkt.length
  if replyId rpc ≠ r.rpcId ∨ refused rpc then some r
  else some { r with dirfh := zeros }

def Receiver.lookupReply : Option Receiver := do
  let rpc ← rpcPkt stack pkt pkt.length
  if r.Rejects rpc then some r
  else do some { r with filefh := ← r.filefh.put 0 (← loadAll pkt 28 nfsFhsize) }

def readlinkPath (path : Buffer 2048) (rpc pkt : List UInt8) : Option (Buffer 2048) :=
  let rlen := data rpc 1
  if rpc.getD 32 0 ≠ slash then do
    let pathlen ← strEnd path.1 0
    -- strcat
    let path ← path.put pathlen [slash, 0]
    let path ← path.put (pathlen + 1) (← loadAll pkt 32 rlen)
    path.put (pathlen + 1 + rlen) [0]
  else do
    let path ← path.put 0 (← loadAll pkt 32 rlen)
    path.put rlen [0]

def Receiver.readlinkReply : Option Receiver := do
  let rpc ← rpcPkt stack pkt pkt.length
  if r.Rejects rpc then some r
  else do some { r with path := ← readlinkPath r.path rpc pkt }

/-- `nfs_read_reply`, with `store_block`. -/
def Receiver.readReply : Option Receiver := do
  let rpc ← rpcPkt stack pkt replySize
  if r.Rejects rpc then some r
  else do some { r with mem := store r.mem r.nfsOffset (← loadAll pkt replySize (data rpc 18)) }

/-- The copies that `NfsHandler` makes for a packet to `NfsOurPort`. -/
def Receiver.nfsHandler : Option Receiver :=
  match r.state with
  | .prclookupProgMountReq | .prclookupProgNfsReq => r.rpcLookupReply stack pkt
  | .mountReq => r.mountReply stack pkt
  | .umountReq => r.umountallReply stack pkt
  | .lookupReq => r.lookupReply stack pkt
  | .readlinkReq => r.readlinkReply stack pkt
  | .readReq => r.readReply stack pkt

/-- `rpc_pkt` behind the first `len` bytes of the packet. -/
def rpcOf (len : Nat) : List UInt8 := pkt.take len ++ stack.1.drop len

/-- There is room for the path of a link with the length that the reply says, and its bytes are in the packet. -/
def LinkFits (path : Buffer 2048) (rpc pkt : List UInt8) : Prop :=
  Loads pkt 32 (data rpc 1) ∧ (rpc.getD 32 0 ≠ slash → ∃ pathlen, strEnd path.1 0 = some pathlen ∧
    pathlen + 1 + data rpc 1 < 2048)

/-- The packet is not longer than `rpc_pkt`, and not shorter than what is copied out of it. -/
def Receiver.Fits : Prop :=
  match r.state with
  | .prclookupProgMountReq | .prclookupProgNfsReq | .umountReq => pkt.length ≤ rpcSize
  | .mountReq | .lookupReq =>
    pkt.length ≤ rpcSize ∧ (¬r.Rejects (rpcOf stack pkt pkt.length) → 60 ≤ pkt.length)
  | .readlinkReq =>
    pkt.length ≤ rpcSize ∧ (¬r.Rejects (rpcOf stack pkt pkt.length) →
      LinkFits r.path (rpcOf stack pkt pkt.length) pkt)
  | .readReq => replySize ≤ pkt.length ∧ (¬r.Rejects pkt → replySize + data pkt 18 ≤ pkt.length)

end UBoot.Nfs
