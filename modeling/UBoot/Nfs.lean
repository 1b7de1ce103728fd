import UBoot.Words

namespace UBoot.Nfs

open FlashCells Words

abbrev Text := List UInt8
abbrev Handle := List UInt8

def slash : UInt8 := 47
def progNfs : Nat := 100003
def progMount : Nat := 100005
def nfsReadSize : Nat := 1024
def nfsRetryCount : Nat := 30
def nfsFhsize : Nat := 32
def nfserrIsdir : Int := 21
def nfserrInval : Int := 22

/-- The calls `rpc_req` sends, with their arguments. -/
inductive Call where
  | getport (prog : Nat)
  | mount (path : Text)
  | umountAll
  | lookup (dir : Handle) (name : Text)
  | readlink (file : Handle)
  | read (file : Handle) (offset len : Nat)
deriving DecidableEq

/-- `NfsState`. -/
inductive Phase where
  | prclookupProgMountReq
  | prclookupProgNfsReq
  | mountReq
  | umountReq
  | lookupReq
  | readReq
  | readlinkReq
deriving DecidableEq

/-- `NetState` and `NfsDownloadState`. -/
inductive NetState where
  | going
  | success
  | fail
deriving DecidableEq

/-- `sent` holds all requests since power-on: `rpc_id` is their number in 32 bits. `idle` is set while
`startAgainHandler` ignores all packets. -/
structure Client where
  fsMounted : Bool
  sent : List Call
  nfsOffset : Nat
  nfsLen : Nat
  dirfh : Handle
  filefh : Handle
  downloadState : NetState
  srvMountPort : Nat
  srvNfsPort : Nat
  timeoutCount : Nat
  state : Phase
  path : Text
  filename : Text
  netState : NetState
  idle : Bool
  mem : Flash
  xferSize : Nat

/-- `rpc_id` after `count` requests. -/
def rpcId (count : Nat) : Nat := count % 4294967296

def Client.rpcReq (s : Client) (call : Call) : Client := { s with sent := s.sent ++ [call] }

/-- `NfsSend`, with `nfs_umountall_req` for a server that has nothing mounted. -/
def Client.send (s : Client) : Client :=
  match s.state with
  | .prclookupProgMountReq => s.rpcReq (.getport progMount)
  | .prclookupProgNfsReq => s.rpcReq (.getport progNfs)
  | .mountReq => s.rpcReq (.mount s.path)
  | .umountReq =>
    if s.srvMountPort = 4294967295 ∨ s.fsMounted = false then s else s.rpcReq .umountAll
  | .lookupReq => s.rpcReq (.lookup s.dirfh s.filename)
  | .readReq => s.rpcReq (.read s.filefh s.nfsOffset s.nfsLen)
  | .readlinkReq => s.rpcReq (.readlink s.filefh)

/-- `basename` and `dirname` of a path with a slash. -/
def splitPath (path : Text) : Text × Text :=
  let name := (path.reverse.takeWhile (· != slash)).reverse
  (path.take (path.length - name.length - 1), name)

def followLink (dir text : Text) : Text × Text :=
  splitPath (if text.head? = some slash then text else dir ++ [slash] ++ text)

def bytesAt (pkt : List UInt8) : Flash := fun a => pkt.getD a 0

/-- The fields of `struct rpc_t` for a reply. -/
def replyId (pkt : List UInt8) : Nat := be32 (bytesAt pkt) 0
def rstatus (pkt : List UInt8) : Nat := be32 (bytesAt pkt) 8
def verifier (pkt : List UInt8) : Nat := be32 (bytesAt pkt) 12
def astatus (pkt : List UInt8) : Nat := be32 (bytesAt pkt) 20
def data (pkt : List UInt8) (i : Nat) : Nat := be32 (bytesAt pkt) (24 + 4 * i)

def refused (pkt : List UInt8) : Prop := rstatus pkt ≠ 0 ∨ verifier pkt ≠ 0 ∨ astatus pkt ≠ 0

instance (pkt : List UInt8) : Decidable (refused pkt) := inferInstanceAs (Decidable (_ ∨ _ ∨ _))

/-- `rpc_lookup_reply`; the handler does not look at its result. -/
def Client.rpcLookupReply (s : Client) (prog : Nat) (pkt : List UInt8) : Client :=
  if replyId pkt ≠ rpcId s.sent.length ∨ refused pkt then s
  else if prog = progMount then { s with srvMountPort := data pkt 0 }
  else { s with srvNfsPort := data pkt 0 }

/-- `nfs_mount_reply`; `none` for -1, here and below. -/
def Client.mountReply (s : Client) (pkt : List UInt8) : Option Client :=
  if replyId pkt ≠ rpcId s.sent.length ∨ refused pkt ∨ data pkt 0 ≠ 0 then none
  else some { s with fsMounted := true, dirfh := read (bytesAt pkt) 28 nfsFhsize }

def Client.umountallReply (s : Client) (pkt : List UInt8) : Option Client :=
  if replyId pkt ≠ rpcId s.sent.length ∨ refused pkt then none
  else some { s with fsMounted := false, dirfh := List.replicate nfsFhsize 0 }

def Client.lookupReply (s : Client) (pkt : List UInt8) : Option Client :=
  if replyId pkt ≠ rpcId s.sent.length ∨ refused pkt ∨ data pkt 0 ≠ 0 then none
  else some { s with filefh := read (bytesAt pkt) 28 nfsFhsize }

/-- `nfs_readlink_reply`, and the path taken apart. -/
def Client.readlinkReply (s : Client) (pkt : List UInt8) : Option Client :=
  if replyId pkt ≠ rpcId s.sent.length ∨ refused pkt ∨ data pkt 0 ≠ 0 then none
  else
    let next := followLink s.path (read (bytesAt pkt) 32 (data pkt 1))
    some { s with path := next.1, filename := next.2 }

def Client.storeBlock (s : Client) (src : List UInt8) (offset : Nat) : Client :=
  let newsize := (offset + src.length) % 4294967296
  { s with
    mem := store s.mem offset src,
    xferSize := if s.xferSize < newsize then newsize else s.xferSize }

/-- `nfs_read_reply`: its result as an `int`, and the state. -/
def Client.readReply (s : Client) (pkt : List UInt8) : Int × Client :=
  if replyId pkt ≠ rpcId s.sent.length then (-1, s)
  else if refused pkt ∨ data pkt 0 ≠ 0 then
    if rstatus pkt ≠ 0 ∨ astatus pkt ≠ 0 then (-9999, s)
    else ((-(data pkt 0 : Int)).bmod 4294967296, s)
  else
    ((data pkt 18 : Int).bmod 4294967296, s.storeBlock (read (bytesAt pkt) 100 (data pkt 18)) s.nfsOffset)

/-- `NfsHandler` for a packet to `NfsOurPort`. -/
def Client.handler (s : Client) (pkt : List UInt8) : Client :=
  if s.idle then s
  else match s.state with
  | .prclookupProgMountReq =>
    { s.rpcLookupReply progMount pkt with state := .prclookupProgNfsReq }.send
  | .prclookupProgNfsReq => { s.rpcLookupReply progNfs pkt with state := .mountReq }.send
  | .mountReq =>
    (s.mountReply pkt).elim { s with state := .umountReq }.send
      fun s => { s with state := .lookupReq }.send
  | .umountReq =>
    (s.umountallReply pkt).elim { s with netState := .fail }
      fun s => { s with netState := s.downloadState }
  | .lookupReq =>
    (s.lookupReply pkt).elim { s with state := .umountReq }.send
      fun s => { s with state := .readReq, nfsOffset := 0, nfsLen := nfsReadSize }.send
  | .readlinkReq =>
    (s.readlinkReply pkt).elim { s with state := .umountReq }.send
      fun s => { s with state := .mountReq }.send
  | .readReq =>
    let rlen := (s.readReply pkt).1
    let s := (s.readReply pkt).2
    if 0 < rlen then { s with nfsOffset := (s.nfsOffset + rlen.toNat) % 4294967296 }.send
    else if rlen = -nfserrIsdir ∨ rlen = -nfserrInval then { s with state := .readlinkReq }.send
    else
      { s with
        downloadState := if rlen = 0 then .success else s.downloadState,
        state := .umountReq }.send

/-- `NfsTimeout`; `retry` is what `NetStartAgain` decides from the environment. -/
def Client.timeout (s : Client) (retry : Bool) : Client :=
  let s := { s with timeoutCount := s.timeoutCount + 1 }
  if s.timeoutCount > nfsRetryCount then
    if retry then { s with idle := true } else { s with netState := .fail }
  else s.send

/-- `NfsStart` for a path of a boot file, as `NetLoop` calls it at the beginning and again after
`NetStartAgain`. -/
def Client.start (s : Client) (path : Text) : Client :=
  { { s with
      downloadState := .fail, path := (splitPath path).1, filename := (splitPath path).2,
      timeoutCount := 0, state := .prclookupProgMountReq, netState := .going,
      idle := false }.send with
    xferSize := 0 }

end UBoot.Nfs
