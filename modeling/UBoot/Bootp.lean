import Mathlib.Logic.Function.Basic
import UBoot.Cells
import UBoot.EnvSet
import UBoot.TreeWalk

namespace UBoot.Bootp

open Cells Loops

/-- What the configuration says; `sntp` and the two behind it belong together. -/
structure Config where
  serverip : Bool
  dns2 : Bool
  sntp : Bool
  timeoffset : Bool
  ntpserver : Bool

/-- The variables that a reply sets. -/
inductive Var where
  | netOurIP
  | netServerIP
  | netServerEther
  | netOurSubnetMask
  | netOurGatewayIP
  | netOurDNSIP
  | netOurDNS2IP
  | netTimeOffset
  | netNtpServerIP
  | netDHCPServerIP
  | dhcpLeasetime
  | netOurHostName
  | netOurRootPath
  | netOurNISDomain
  | bootFile
deriving DecidableEq

def Var.isString : Var → Bool
  | .netOurHostName | .netOurRootPath | .netOurNISDomain | .bootFile => true
  | _ => false

/-- `sizeof` -/
def Var.size : Var → Nat
  | .netOurHostName | .netOurNISDomain => 32
  | .netOurRootPath => 64
  | .bootFile => 128
  | .netServerEther => 6
  | _ => 4

/-- What the variables hold, with a NUL in each of the strings. -/
structure Vars where
  bytes : Var → List UInt8
  size : ∀ x, (bytes x).length = x.size
  ended : ∀ x, x.isString = true → 0 ∈ bytes x
  netBootFileSize : Nat

/-- What is stored for a value. `NetTimeOffset` goes through `ntohl` on a little-endian processor. -/
def Var.stored (x : Var) (s : List UInt8) : List UInt8 :=
  if x.isString then s ++ [0] else if x = .netTimeOffset then s.reverse else s

def Var.filled (x : Var) (s old : List UInt8) : List UInt8 := x.stored s ++ old.drop (x.stored s).length

theorem Var.zero_mem_filled {x : Var} (s old : List UInt8) (h : x.isString = true) : 0 ∈ x.filled s old := by
  unfold Var.filled Var.stored
  rw [if_pos h]
  exact List.mem_append_left _ (List.mem_append_right _ List.mem_cons_self)

def Vars.put (v : Vars) (x : Var) (s : List UInt8) : Option Vars :=
  if h : (x.stored s).length ≤ x.size then
    some { v with
      bytes := Function.update v.bytes x (x.filled s (v.bytes x))
      size := by
        intro y
        by_cases hy : y = x
        · subst y
          rw [Function.update_self, Var.filled, List.length_append, List.length_drop, v.size]
          omega
        · rw [Function.update_of_ne hy, v.size]
      ended := by
        intro y hstring
        by_cases hy : y = x
        · subst y
          rw [Function.update_self]
          exact Var.zero_mem_filled s _ hstring
        · rw [Function.update_of_ne hy]
          exact v.ended y hstring }
  else none

/-- `== 0` of an address, and of the first character of a string -/
def Var.zero (x : Var) (s : List UInt8) : Bool := if x.isString then s.headD 0 == 0 else s.all (· == 0)

def Vars.isZero (v : Vars) (x : Var) : Bool := x.zero (v.bytes x)

def truncateSz (maxlen curlen : Nat) : Nat := if curlen ≥ maxlen then maxlen - 1 else curlen

/-- A copy out of the value of an option. -/
structure Copy where
  dest : Var
  off : Nat
  len : Nat

def copyIP (x : Var) (off : Nat) : Copy := ⟨x, off, 4⟩
def copyString (x : Var) (size : Nat) : Copy := ⟨x, 0, truncateSz x.size size⟩

/-- Copies out of the value at `value`; with `once` the variables that are not zero are left as they are.
A read outside the packet is a failure, and so is a store outside a variable. -/
def runCopies (once : Bool) (pkt : List UInt8) (value : Nat) : List Copy → Vars → Option Vars
  | [], v => some v
  | c :: cs, v =>
    if once && !v.isZero c.dest then runCopies once pkt value cs v
    else do
      let s ← loadAll pkt (value + c.off) c.len
      runCopies once pkt value cs (← v.put c.dest s)

variable (cfg : Config)

/-- The `switch` of `BootpVendorFieldProcess` without the boot file size. -/
def vendorCopies (code : UInt8) (size : Nat) : List Copy :=
  if code = 1 then [copyIP .netOurSubnetMask 0]
  else if code = 3 then [copyIP .netOurGatewayIP 0]
  else if code = 6 then
    copyIP .netOurDNSIP 0 :: (if cfg.dns2 ∧ size > 4 then [copyIP .netOurDNS2IP 4] else [])
  else if code = 12 then [copyString .netOurHostName size]
  else if code = 17 then [copyString .netOurRootPath size]
  else if code = 40 then [copyString .netOurNISDomain size]
  else []

/-- `ntohs` and `ntohl` -/
def number (s : List UInt8) : Nat := s.foldl (fun n c => n * 256 + c.toNat) 0

def bootpVendorFieldProcess (pkt : List UInt8) (ext : Nat) (v : Vars) : Option Vars := do
  let code ← pkt[ext]?
  let size ← pkt[ext + 1]?
  let v := { v with netBootFileSize := 0 }
  if code = 13 then
    if size = 2 ∨ size = 4 then do
      let s ← loadAll pkt (ext + 2) size.toNat
      some { v with netBootFileSize := number s }
    else some v
  else runCopies true pkt (ext + 2) (vendorCopies cfg code size.toNat) v

/-- One round of the loop of `BootpVendorProcess`, for the options in front of `stop`. -/
def vendorRound (pkt : List UInt8) (stop : Nat) (s : Nat × Vars) : Option ((Nat × Vars) ⊕ Vars) :=
  if s.1 < stop then do
    let code ← pkt[s.1]?
    if code = 0xff then some (.inr s.2)
    else if code = 0 then some (.inl (s.1 + 1, s.2))
    else do
      let len ← pkt[s.1 + 1]?
      let ext := s.1 + len.toNat + 2
      if ext ≤ stop then do some (.inl (ext, ← bootpVendorFieldProcess cfg pkt s.1 s.2))
      else some (.inl (ext, s.2))
  else some (.inr s.2)

def bootpVendorProcess (pkt : List UInt8) (ext size : Nat) (v : Vars) : Comp (Option Vars) :=
  Comp.loop (fun s => Comp.round (vendorRound cfg pkt (ext + size) s)) (ext, v)

/-- The `switch` of `DhcpOptionsProcess` without the boot file. -/
def optionCopies (code : UInt8) (oplen : Nat) : List Copy :=
  if code = 1 then [copyIP .netOurSubnetMask 0]
  else if code = 2 ∧ cfg.sntp ∧ cfg.timeoffset then [copyIP .netTimeOffset 0]
  else if code = 3 then [copyIP .netOurGatewayIP 0]
  else if code = 6 then
    copyIP .netOurDNSIP 0 :: (if cfg.dns2 ∧ oplen > 4 then [copyIP .netOurDNS2IP 4] else [])
  else if code = 12 then [copyString .netOurHostName oplen]
  else if code = 17 then [copyString .netOurRootPath oplen]
  else if code = 42 ∧ cfg.sntp ∧ cfg.ntpserver then [copyIP .netNtpServerIP 0]
  else if code = 51 then [copyIP .dhcpLeasetime 0]
  else if code = 54 then [copyIP .netDHCPServerIP 0]
  else []

/-- Where `bp_file` and `bp_vend` are in the packet. -/
def bpFile : Nat := 108
def bpVend : Nat := 236

/-- `BOOTP_HDR_SIZE` with the options of DHCP -/
def bootpHdrSize : Nat := 236 + 312

/-- A name and its NUL in `bp_file`, which has 128 bytes. -/
def putFile (pkt s : List UInt8) : Option (List UInt8) :=
  if s.length < 128 then storeAll pkt bpFile (s ++ [0]) else none

/-- The option at `popt`, with the packet and the variables behind it. -/
def optionProcess (code : UInt8) (oplen popt : Nat) (pkt : List UInt8) (v : Vars) : Option (List UInt8 × Vars) :=
  if code = 67 then do
    let size := truncateSz 128 oplen
    let c ← pkt[bpFile]?
    if c = 0 ∧ size > 0 then do
      let s ← loadAll pkt (popt + 2) size
      some (← putFile pkt s, v)
    else some (pkt, v)
  else do some (pkt, ← runCopies false pkt (popt + 2) (optionCopies cfg code oplen) v)

/-- Where `popt` is, the packet, and the variables. -/
structure Walk where
  popt : Nat
  pkt : List UInt8
  vars : Vars

def optionsRound (stop : Nat) (s : Walk) : Option (Walk ⊕ (List UInt8 × Vars)) :=
  if s.popt < stop then do
    let code ← s.pkt[s.popt]?
    if code = 0xff then some (.inr (s.pkt, s.vars))
    else do
      let oplen ← s.pkt[s.popt + 1]?
      let (pkt, v) ← optionProcess cfg code oplen.toNat s.popt s.pkt s.vars
      some (.inl ⟨s.popt + oplen.toNat + 2, pkt, v⟩)
  else some (.inr (s.pkt, s.vars))

def dhcpOptionsProcess (popt : Nat) (pkt : List UInt8) (v : Vars) : Comp (Option (List UInt8 × Vars)) :=
  Comp.loop (fun s => Comp.round (optionsRound cfg (popt + bootpHdrSize) s)) ⟨popt, pkt, v⟩

def bootpVendorMagic : List UInt8 := [0x63, 0x82, 0x53, 0x63]

def messageRound (pkt : List UInt8) (popt : Nat) : Option (Nat ⊕ Int) := do
  let code ← pkt[popt]?
  if code = 0xff then some (.inr (-1))
  else if code = 53 then do some (.inr (← pkt[popt + 2]?).toNat)
  else do some (.inl (popt + (← pkt[popt + 1]?).toNat + 2))

def dhcpMessageType (pkt : List UInt8) (popt : Nat) : Comp (Option Int) :=
  (Comp.pure (loadAll pkt popt 4)).andThen fun cookie =>
    if cookie ≠ bootpVendorMagic then Comp.pure (some (-1))
    else Comp.loop (fun popt => Comp.round (messageRound pkt popt)) (popt + 4)

/-- `BootpCheckPkt`, for the id of the request as it is in memory. -/
def bootpCheckPkt (bootpID pkt : List UInt8) (dest src : Nat) : Int :=
  if dest ≠ 68 ∨ src ≠ 67 then -1
  else if pkt.length < bpVend then -2
  else if pkt.getD 0 0 ∉ [1, 2, 5, 6] then -3
  else if pkt.getD 1 0 ≠ 1 then -4
  else if pkt.getD 2 0 ≠ 6 then -5
  else if (pkt.drop 4).take 4 ≠ bootpID then -6
  else 0

def copyServer (etSrc : Fin 6 → UInt8) (pkt : List UInt8) (v : Vars) : Option Vars :=
  if cfg.serverip then some v
  else do
    let tmpIp ← loadAll pkt 20 4
    if tmpIp.all (· == 0) then v.put .netServerEther (List.ofFn etSrc)
    else (← v.put .netServerIP tmpIp).put .netServerEther (List.ofFn etSrc)

/-- `strlen (bp->bp_file) > 0` and `copy_filename` -/
def copyBootFile (pkt : List UInt8) (v : Vars) : Option Vars := do
  let file ← cstrAt pkt bpFile
  if file = [] then some v else v.put .bootFile (copyFilename file 128)

/-- `BootpCopyNetParams`: the variables, and the value that goes to `bootfile` in the environment. -/
def bootpCopyNetParams (etSrc : Fin 6 → UInt8) (pkt : List UInt8) (v : Vars) : Option (Vars × Option (List UInt8)) := do
  let v ← v.put .netOurIP (← loadAll pkt 16 4)
  let v ← copyBootFile pkt (← copyServer cfg etSrc pkt v)
  let name ← cstrAt (v.bytes .bootFile) 0
  some (v, if name = [] then none else some name)

/-- `BootpHandler` up to the download. -/
def bootpHandler (bootpID : List UInt8) (etSrc : Fin 6 → UInt8) (pkt : List UInt8) (dest src : Nat) (v : Vars) :
    Comp (Option (Vars × Option (List UInt8))) :=
  if bootpCheckPkt bootpID pkt dest src ≠ 0 then Comp.pure (some (v, none))
  else
    (Comp.pure (bootpCopyNetParams cfg etSrc pkt v)).andThen fun r =>
      (Comp.pure (loadAll pkt bpVend 4)).andThen fun cookie =>
        if cookie = bootpVendorMagic then
          (bootpVendorProcess cfg pkt (bpVend + 4) pkt.length r.1).andThen fun v => Comp.pure (some (v, r.2))
        else Comp.pure (some r)

/-- `dhcp_state_t` -/
inductive DhcpState where
  | init
  | initReboot
  | rebooting
  | selecting
  | requesting
  | rebinding
  | bound
  | renewing
deriving DecidableEq

def dhcpOptions (pkt : List UInt8) (v : Vars) : Comp (Option (List UInt8 × Vars)) :=
  (Comp.pure (loadAll pkt bpVend 4)).andThen fun cookie =>
    if cookie = bootpVendorMagic then dhcpOptionsProcess cfg (bpVend + 4) pkt v
    else Comp.pure (some (pkt, v))

/-- `DhcpHandler`: its state, the variables and the value for `bootfile` behind a packet. -/
def dhcpHandler (bootpID : List UInt8) (etSrc : Fin 6 → UInt8) (state : DhcpState) (pkt : List UInt8) (dest src : Nat)
    (v : Vars) : Comp (Option (DhcpState × Vars × Option (List UInt8))) :=
  if bootpCheckPkt bootpID pkt dest src ≠ 0 then Comp.pure (some (state, v, none))
  else if state = .selecting then
    (dhcpOptions cfg pkt v).andThen fun r => Comp.pure (some (.requesting, r.2, none))
  else if state = .requesting then
    (dhcpMessageType pkt bpVend).andThen fun type =>
      if type = 5 then
        (dhcpOptions cfg pkt v).andThen fun r =>
          Comp.pure ((bootpCopyNetParams cfg etSrc r.1 r.2).map fun x => (.bound, x))
      else Comp.pure (some (state, v, none))
  else Comp.pure (some (state, v, none))

end UBoot.Bootp
