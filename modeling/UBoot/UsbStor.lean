import Mathlib.Data.List.Basic
import Mathlib.Data.UInt

namespace UBoot.UsbStor

/-- How a message ends: with `dev->status` 0, or not and then perhaps stalled. -/
structure Msg where
  ok : Bool
  stalled : Bool
  deriving DecidableEq, Repr

/-- Command status wrapper -/
structure Csw where
  dCSWSignature : Nat
  dCSWTag : Nat
  dCSWDataResidue : Nat
  bCSWStatus : Nat
  deriving DecidableEq, Repr

/-- The results of the messages of one call of the transport, of which the call uses those that it comes to:
the command, the data with the bytes that the device sends, the status and its second try, and the requests that
clear a stall before the status and before its second try. -/
structure Answers where
  command : Msg
  data : Msg
  dataActlen : Nat
  bytes : Nat → UInt8
  dataClear : Msg
  status : Msg
  csw : Csw
  statusClear : Msg
  statusAgain : Msg
  cswAgain : Csw

def usDirection : List Nat :=
  [0x28, 0x81, 0x14, 0x14, 0x20, 0x01, 0x90, 0x77, 0x0c, 0x20, 0x00, 0x04, 0x00, 0x00, 0x00, 0x00,
    0x00, 0x00, 0x00, 0x00, 0x00, 0x01, 0x00, 0x01,
    0x00, 0x00, 0x00, 0x00, 0x00, 0x00, 0x00, 0x00]

/-- `US_DIRECTION`: the command brings data in. -/
def dirIn (cmd : List UInt8) : Bool :=
  (usDirection.getD ((cmd.headD 0).toNat >>> 3) 0).testBit ((cmd.headD 0).toNat &&& 7)

/-- `usb_bulk_msg` for the data, whose length is an `int`: how it ends and the actual length. -/
def dataMsg (a : Answers) (datalen : Nat) : Msg × Nat :=
  if 0x80000000 ≤ datalen then (⟨false, false⟩, 0) else (a.data, a.dataActlen)

/-- The data phase: whether the status phase follows, the actual length, and the bytes stored. -/
def dataPhase (a : Answers) (cmd : List UInt8) (datalen : Nat) : Bool × Nat × Nat :=
  if datalen = 0 then (true, 0, 0)
  else
    let (msg, actlen) := dataMsg a datalen
    let stored := if dirIn cmd then min actlen datalen else 0
    (msg.ok || (msg.stalled && a.dataClear.ok), actlen, stored)

/-- The status phase: the wrapper that is received. -/
def statusPhase (a : Answers) : Option Csw :=
  if a.status.ok then some a.csw
  else if a.status.stalled && a.statusClear.ok then
    if a.statusAgain.ok then some a.cswAgain else none
  else none

def transportGood : Int := 0
def transportFailed : Int := -1

/-- The tests of the wrapper. The residue has been read from it before, and is not tested. -/
def checkCsw (csw : Csw) (tag datalen actlen : Nat) : Int :=
  if csw.dCSWSignature ≠ 0x53425355 then transportFailed
  else if csw.dCSWTag ≠ tag then transportFailed
  else if 2 < csw.bCSWStatus then transportFailed
  else if csw.bCSWStatus = 2 then transportFailed
  else if datalen < actlen then transportFailed
  else if csw.bCSWStatus = 1 then transportFailed
  else transportGood

/-- `usb_stor_BBB_transport` with the tag that is sent: the result and the bytes stored. The results of the messages
of `usb_stor_BBB_reset` do not matter. -/
def bbbTransport (a : Answers) (cmd : List UInt8) (datalen tag : Nat) : Int × Nat :=
  if !a.command.ok then (transportFailed, 0)
  else
    let (goOn, actlen, stored) := dataPhase a cmd datalen
    if !goOn then (transportFailed, stored)
    else
      match statusPhase a with
      | none => (transportFailed, stored)
      | some csw => (checkCsw csw tag datalen actlen, stored)

/-- A `READ(10)` with what comes back for it. -/
structure Read where
  cmd : List UInt8
  pdata : Nat
  datalen : Nat
  tag : Nat
  answers : Answers

/-- The calls of the transport so far, `CBWTag`, `asynch_allowed`, the memory, and the reads. -/
structure State where
  calls : Nat
  cbwTag : Nat
  asynchAllowed : Bool
  memory : Nat → UInt8
  log : List Read

def store (memory : Nat → UInt8) (addr count : Nat) (bytes : Nat → UInt8) (a : Nat) : UInt8 :=
  if addr ≤ a ∧ a < addr + count then bytes (a - addr) else memory a

def State.called (s : State) : State := { s with calls := s.calls + 1, cbwTag := (s.cbwTag + 1) % 0x100000000 }

variable (answers : Nat → Answers)

/-- `usb_request_sense`, whose data go to `sense_buf`. -/
def usbRequestSense (s : State) : State := s.called

/-- `usb_test_unit_ready` with the tries that are left. -/
def usbTestUnitReady : Nat → State → Bool × State
  | 0, s => (false, s)
  | tries + 1, s =>
    if (bbbTransport (answers s.calls) (List.replicate 12 0) 0 s.cbwTag).1 = transportGood then (true, s.called)
    else usbTestUnitReady tries (usbRequestSense s.called)

/-- The command block of `usb_read_10`. -/
def read10Cmd (start blocks : Nat) : List UInt8 :=
  [0x28, 0, UInt8.ofNat (start >>> 24), UInt8.ofNat (start >>> 16), UInt8.ofNat (start >>> 8), UInt8.ofNat start, 0,
    UInt8.ofNat (blocks >>> 8), UInt8.ofNat blocks, 0, 0, 0]

def usbRead10 (pdata datalen start blocks : Nat) (s : State) : Int × State :=
  let a := answers s.calls
  let cmd := read10Cmd start blocks
  let r := bbbTransport a cmd datalen s.cbwTag
  (r.1, { s.called with
    memory := store s.memory pdata r.2 a.bytes
    log := s.log ++ [⟨cmd, pdata, datalen, s.cbwTag, a⟩] })

/-- The tries of one piece of `usb_stor_read`. -/
def readIt (pdata datalen start blocks : Nat) : Nat → State → Bool × State
  | 0, s =>
    let r := usbRead10 answers pdata datalen start blocks s
    if r.1 = transportGood then (true, r.2) else (false, usbRequestSense r.2)
  | retry + 1, s =>
    let r := usbRead10 answers pdata datalen start blocks s
    if r.1 = transportGood then (true, r.2) else readIt pdata datalen start blocks retry (usbRequestSense r.2)

def usbMaxReadBlk : Nat := 20

def smallblks (blks : Nat) : Nat := if usbMaxReadBlk < blks then usbMaxReadBlk else blks

/-- The loop of `usb_stor_read`: the blocks that are left at its end. -/
def readLoop (blksz start blks bufAddr : Nat) (s : State) : Nat × State :=
  if blks = 0 then (0, s)
  else
    let small := smallblks blks
    let datalen := blksz * small % 0x100000000
    let r := readIt answers bufAddr datalen start small 2 s
    if r.1 then readLoop blksz ((start + small) % 0x100000000) (blks - small) ((bufAddr + datalen) % 0x100000000) r.2
    else (blks, r.2)
termination_by blks
decreasing_by
  unfold smallblks usbMaxReadBlk
  split <;> omega

/-- `usb_stor_read` of a device that is found among the USB devices or not. -/
def usbStorRead (found : Bool) (blksz blknr blkcnt buffer : Nat) (s : State) : Nat × State :=
  if blkcnt = 0 then (0, s)
  else if !found then (0, s)
  else
    let ready := usbTestUnitReady answers 11 { s with asynchAllowed := false }
    if !ready.1 then (0, ready.2)
    else
      let r := readLoop answers blksz blknr blkcnt buffer ready.2
      (blkcnt - r.1, { r.2 with asynchAllowed := true })

/-- The status wrapper is accepted after the command and the data. -/
structure Answers.Accepted (a : Answers) (cmd : List UInt8) (datalen tag : Nat) : Prop where
  command : a.command.ok = true
  data : (dataPhase a cmd datalen).1 = true
  success : ∃ csw, statusPhase a = some csw ∧ csw.dCSWSignature = 0x53425355 ∧ csw.dCSWTag = tag ∧ csw.bCSWStatus = 0
  actlen : (dataPhase a cmd datalen).2.1 ≤ datalen

def Read.Accepted (r : Read) : Prop := r.answers.Accepted r.cmd r.datalen r.tag

/-- The number of the first block of a `READ(10)`. -/
def Read.lba (r : Read) : Nat :=
  (((r.cmd.getD 2 0).toNat * 256 + (r.cmd.getD 3 0).toNat) * 256 + (r.cmd.getD 4 0).toNat) * 256 +
    (r.cmd.getD 5 0).toNat

/-- The number of blocks of a `READ(10)`. -/
def Read.count (r : Read) : Nat := (r.cmd.getD 7 0).toNat * 256 + (r.cmd.getD 8 0).toNat

/-- The data phase filled all the blocks, and the status wrapper reported success with no residue. -/
structure Read.Delivered (r : Read) (blksz : Nat) : Prop where
  command : r.answers.command.ok = true
  data : (dataPhase r.answers r.cmd r.datalen).1 = true
  whole : (dataPhase r.answers r.cmd r.datalen).2.1 = blksz * r.count
  success : ∃ csw, statusPhase r.answers = some csw ∧ csw.dCSWSignature = 0x53425355 ∧ csw.dCSWTag = r.tag ∧
    csw.bCSWStatus = 0 ∧ csw.dCSWDataResidue = 0

/-- Block `k` of a `READ(10)` is block `b` of the device. -/
def Read.Covers (r : Read) (b k : Nat) : Prop :=
  r.cmd.head? = some 0x28 ∧ k < r.count ∧ (r.lba + k) % 0x100000000 = b % 0x100000000

/-- A call of `usb_stor_read` with a buffer for all its blocks, while asynchronous transfers are enabled. -/
structure ReadCall where
  answers : Nat → Answers
  found : Bool
  blksz : Nat
  blknr : Nat
  blkcnt : Nat
  buffer : Nat
  state : State
  blknr_lt : blknr < 0x100000000
  blkcnt_lt : blkcnt < 0x100000000
  room : buffer + blkcnt * blksz < 0x100000000
  enabled : state.asynchAllowed = true
  tag_lt : state.cbwTag < 0x100000000
  no_reads : state.log = []

variable (c : ReadCall)

def ReadCall.result : Nat × State := usbStorRead c.answers c.found c.blksz c.blknr c.blkcnt c.buffer c.state

/-- Block `i` of the buffer holds the bytes that one of the reads delivered for block `blknr + i`. -/
def ReadCall.Filled (reads : List Read) (memory : Nat → UInt8) (i : Nat) : Prop :=
  ∃ r ∈ reads, ∃ k, r.Covers (c.blknr + i) k ∧ r.Delivered c.blksz ∧ r.pdata + k * c.blksz = c.buffer + i * c.blksz ∧
    ∀ j, j < c.blksz → memory (c.buffer + i * c.blksz + j) = r.answers.bytes (k * c.blksz + j)

/-- The count that is returned is true, nothing outside the buffer is written, and asynchronous transfers are enabled
again. -/
structure ReadCall.Honest : Prop where
  counted : ∀ i, i < c.result.1 → c.Filled c.result.2.log c.result.2.memory i
  inside : ∀ a, a < c.buffer ∨ c.buffer + c.blkcnt * c.blksz ≤ a → c.result.2.memory a = c.state.memory a
  enabled : c.result.2.asynchAllowed = true

/-- Nothing is to be done, or one of the first eleven tests finds the unit ready. -/
def ReadCall.Ready : Prop :=
  c.blkcnt = 0 ∨ c.found = false ∨ ∃ j, j < 11 ∧ (c.answers (c.state.calls + 2 * j)).Accepted (List.replicate 12 0) 0
    ((c.state.cbwTag + 2 * j) % 0x100000000)

/-- Each read that is accepted has brought all its bytes and no residue. -/
def ReadCall.Whole : Prop := ∀ r ∈ c.result.2.log, r.Accepted → r.Delivered c.blksz

end UBoot.UsbStor
