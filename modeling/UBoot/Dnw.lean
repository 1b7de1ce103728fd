import UBoot.TreeWalk

namespace UBoot.Dnw

open Loops

def u32 (n : Nat) : Nat := n % 0x100000000

def sub32 (a b : Nat) : Nat := u32 (a + (0x100000000 - u32 b))

def ep3PktSize : Nat := 64

/-- The variables of usbinit.c, and the transfer that DMA channel 2 is set to: its address and its length. -/
structure Vars where
  downloadAddress : Nat
  downloadFileSize : Nat
  totalDmaCount : Nat
  dwUSBBufReadPtr : Nat
  dwUSBBufWritePtr : Nat
  dwWillDMACnt : Nat
  dwUSBBufBase : Nat
  dwUSBBufSize : Nat
  dma : Option (Nat × Nat)

def configEp3DmaMode (v : Vars) (bufAddr count : Nat) : Vars := { v with dma := some (bufAddr, count % 0x100000) }

/-- `Ep3Handler` on the first packet, whose header holds an address and the size: the variables, and where the
bytes behind the header go. -/
def ep3Handler (v : Vars) (downloadRun : Bool) (address size fifoCnt : Nat) : Vars × (Nat × Nat) :=
  let v := if downloadRun then
      { v with downloadAddress := address, dwUSBBufReadPtr := address, dwUSBBufWritePtr := address }
    else { v with downloadAddress := v.dwUSBBufBase }
  ({ v with downloadFileSize := size }, (v.downloadAddress, fifoCnt - 8))

/-- `usb_receive` from the first packet to the wait; none where the file is too big for the buffer. -/
def usbReceive (v : Vars) (len : Nat) : Option Vars :=
  if len < sub32 v.downloadFileSize 10 then none
  else if ep3PktSize < v.downloadFileSize then
    let writePtr := u32 (v.downloadAddress + ep3PktSize - 8)
    let willDMACnt := if v.downloadFileSize - ep3PktSize ≤ 0x80000 then v.downloadFileSize - ep3PktSize
      else 0x80000 + 8 - ep3PktSize
    some (configEp3DmaMode { v with dwUSBBufWritePtr := writePtr, dwWillDMACnt := willDMACnt, totalDmaCount := 0 }
      writePtr willDMACnt)
  else some { v with
    dwUSBBufWritePtr := u32 (v.downloadAddress + v.downloadFileSize - 8)
    totalDmaCount := v.downloadFileSize }

/-- `IsrDma2`, when the transfer has ended. -/
def isrDma2 (v : Vars) : Vars :=
  let v := { v with
    dma := none
    totalDmaCount := if v.totalDmaCount = 0 then u32 (v.dwWillDMACnt + ep3PktSize)
      else u32 (v.totalDmaCount + v.dwWillDMACnt)
    dwUSBBufWritePtr := u32 (sub32 (v.dwUSBBufWritePtr + v.dwWillDMACnt) v.dwUSBBufBase % v.dwUSBBufSize +
      v.dwUSBBufBase) }
  if v.downloadFileSize ≤ v.totalDmaCount then { v with totalDmaCount := v.downloadFileSize }
  else
    let v := { v with
      dwWillDMACnt := if u32 (v.totalDmaCount + 0x80000) < v.downloadFileSize then 0x80000
        else v.downloadFileSize - v.totalDmaCount }
    let dwEmptyCnt := u32 (sub32 (sub32 v.dwUSBBufReadPtr v.dwUSBBufWritePtr) 1 + v.dwUSBBufSize) % v.dwUSBBufSize
    if v.dwWillDMACnt ≤ dwEmptyCnt then configEp3DmaMode v v.dwUSBBufWritePtr v.dwWillDMACnt else v

/-- A round of the wait loop of `usb_receive`, with the transfers so far: the loop is left, a transfer ends and
its interrupt comes, or nothing happens any more. -/
def waitRound (s : Vars × List (Nat × Nat)) : (Vars × List (Nat × Nat)) ⊕ (Nat × List (Nat × Nat)) :=
  if s.1.totalDmaCount = s.1.downloadFileSize then .inr (sub32 s.1.downloadFileSize 10, s.2)
  else
    match s.1.dma with
    | some request => .inl (isrDma2 s.1, s.2 ++ [request])
    | none => .inl s

/-- A download in wait mode: the buffer, the length that `usb_receive` accepts, and what the host announces. -/
structure Download where
  bufBase : Nat
  bufSize : Nat
  len : Nat
  downloadRun : Bool
  hostAddress : Nat
  fileSize : Nat
  base_lt : bufBase < 0x100000000
  size_pos : 0 < bufSize
  size_lt : bufSize < 0x100000000
  chunks : 0x80000 ∣ bufSize
  address_lt : hostAddress < 0x100000000
  header : 8 ≤ fileSize
  fileSize_lt : fileSize < 0x100000000
  accepted : sub32 fileSize 10 ≤ len

variable (d : Download)

/-- The variables at the start of `usb_receive`. -/
def Download.vars : Vars where
  downloadAddress := 0
  downloadFileSize := 0
  totalDmaCount := 0
  dwUSBBufReadPtr := d.bufBase
  dwUSBBufWritePtr := d.bufBase
  dwWillDMACnt := 0
  dwUSBBufBase := d.bufBase
  dwUSBBufSize := d.bufSize
  dma := none

def Download.fifoCnt : Nat := min ep3PktSize d.fileSize

def Download.received : Vars × (Nat × Nat) := ep3Handler d.vars d.downloadRun d.hostAddress d.fileSize d.fifoCnt

/-- The whole of a download: what `usb_receive` returns, and the stores of the first packet and the transfers. -/
def Download.run : Comp (Nat × List (Nat × Nat)) :=
  (usbReceive d.received.1 d.len).elim (Comp.pure (0, [d.received.2])) fun v =>
    Comp.loop (fun s => Comp.pure (waitRound s)) (v, [d.received.2])

def Download.address : Nat := if d.downloadRun then d.hostAddress else d.bufBase

/-- Stores that fill `n` bytes from an address on, in order and without gap or overlap. -/
def Tiles : Nat → List (Nat × Nat) → Nat → Prop
  | _, [], n => n = 0
  | a, (b, count) :: rest, n => b = u32 a ∧ count ≤ n ∧ Tiles (a + count) rest (n - count)

/-- The download ends, returns the length of the file, and the stores fill its place. -/
def Download.Complete : Prop :=
  ∃ log, d.run.Returns (d.fileSize - 10, log) ∧ Tiles d.address log (d.fileSize - 8)

def Download.offset : Nat := sub32 (d.address + 0x80000) d.bufBase

/-- The file holds its two check bytes, and is one transfer, or ends in the buffer with each of its chunks, or
is one chunk more in a buffer of one chunk. -/
def Download.Fits : Prop :=
  10 ≤ d.fileSize ∧ (d.fileSize ≤ 0x80040 ∨
    d.fileSize - 8 < d.bufSize ∧ d.offset + 0x80000 * ((d.fileSize - 9) / 0x80000 - 1) < d.bufSize ∨
    d.bufSize = 0x80000 ∧ d.fileSize - 8 < 0x100000 ∧ d.offset < 0x80000)

instance : Decidable d.Fits := by
  unfold Download.Fits
  infer_instance

end UBoot.Dnw
