import Mathlib.Algebra.GroupWithZero.Nat
import UBoot.CString
import UBoot.FlashCells

namespace UBoot.SRecord

open FlashCells (Flash)

abbrev Memory := Flash

/-- `hex1_bin`; no result is -1. -/
def hex1Bin (c : UInt8) : Option Nat :=
  if 48 ≤ c ∧ c ≤ 57 then some (c.toNat - 48)
  else if 97 ≤ c ∧ c ≤ 102 then some (c.toNat + 10 - 97)
  else if 65 ≤ c ∧ c ≤ 70 then some (c.toNat + 10 - 65)
  else none

/-- `hex2_bin` on what is left of a string. -/
def hex2Bin : List UInt8 → Option Nat
  | a :: b :: _ =>
    match hex1Bin a, hex1Bin b with
    | some i, some j => some (i * 16 + j)
    | _, _ => none
  | _ => none

inductive RecType where
  | start
  | data2
  | data3
  | data4
  | count
  | end4
  | end3
  | end2
  | empty
deriving DecidableEq

inductive RecError where
  | badType
  | noSrec
  | badChks
deriving DecidableEq

structure Rec where
  type : RecType
  count : Int
  addr : Nat
  data : List UInt8

/-- The record type with the bytes of its address field, and with the number of data bytes, if the count tells it. -/
def recType (v : UInt8) (count : Nat) : Option (RecType × Nat × Int) :=
  if v = 48 then some (.start, 2, (count : Int) - 3)
  else if v = 49 then some (.data2, 2, (count : Int) - 3)
  else if v = 50 then some (.data3, 3, (count : Int) - 4)
  else if v = 51 then some (.data4, 4, (count : Int) - 5)
  else if v = 53 then some (.count, 2, 0)
  else if v = 55 then some (.end4, 4, (count : Int) - 5)
  else if v = 56 then some (.end3, 3, (count : Int) - 4)
  else if v = 57 then some (.end2, 2, (count : Int) - 3)
  else none

def hexBytes : Nat → List UInt8 → Option (List Nat × List UInt8)
  | 0, input => some ([], input)
  | n + 1, input =>
    match hex2Bin input with
    | none => none
    | some v => (hexBytes n (input.drop 2)).map fun r => (v :: r.1, r.2)

def srecDecode (input : List UInt8) : Except RecError Rec :=
  match (input.dropWhile (· ≠ 83)).drop 1 with
  | [] => .ok ⟨.empty, 0, 0, []⟩
  | v :: input =>
    match hex2Bin input with
    | none => .error .noSrec
    | some length =>
      match recType v length with
      | none => .error .badType
      | some (type, addrBytes, count) =>
        match hexBytes addrBytes (input.drop 2) with
        | none => .error .noSrec
        | some (addr, input) =>
          match hexBytes count.toNat input with
          | none => .error .noSrec
          | some (data, input) =>
            match hex2Bin input with
            | none => .error .noSrec
            | some v =>
              if v ≠ 255 - (length + addr.sum + data.sum) % 256 then .error .badChks
              else .ok ⟨type, count, addr.foldl (fun addr v => addr * 256 + v) 0, data.map UInt8.ofNat⟩

def srecMaxreclen : Nat := 512 + 4

/-- `read_record` with room for so many characters: the line or an abort, and the characters behind it. Without a
result it waits for more characters. -/
def readRecord : Nat → List UInt8 → Option (Option (List UInt8) × List UInt8)
  | 0, text => some (some [], text)
  | _ + 1, [] => none
  | room + 1, c :: text =>
    if c = 13 ∨ c = 10 then some (some [], text)
    else if c = 0 ∨ c = 3 then some (none, text)
    else (readRecord room text).map fun r => (r.1.map (c :: ·), r.2)

/-- What `load_serial` comes to: it returns the address of the end record, or `~0`, or a copy gets a negative
count, or it waits for more characters. -/
inductive Loaded where
  | loaded (addr : Nat) (mem : Memory) (filesize : List UInt8)
  | aborted
  | negative
  | waiting

/-- `memcpy` to an address of 32 bits -/
def memcpy (m : Memory) (a : Nat) (bs : List UInt8) : Memory := fun x =>
  if x < 2 ^ 32 ∧ (x + (2 ^ 32 - a)) % 2 ^ 32 < bs.length then bs.getD ((x + (2 ^ 32 - a)) % 2 ^ 32) 0 else m x

def hexDigit (n : Nat) : UInt8 := if n < 10 then UInt8.ofNat (48 + n) else UInt8.ofNat (55 + n)

/-- `%lX`, with `fuel` digits at most -/
def hexText : Nat → Nat → List UInt8
  | 0, _ => []
  | fuel + 1, n => if n < 16 then [hexDigit n] else hexText fuel (n / 16) ++ [hexDigit (n % 16)]

/-- The loop of `load_serial`. `flashWrite` gives no result for an address that is none of flash. -/
def loadLoop (flashWrite : Nat → List UInt8 → Memory → Option (Int × Memory)) (offset : Nat) :
    Nat → List UInt8 → Memory → Nat → Nat → Loaded
  | 0, _, _, _, _ => .waiting
  | fuel + 1, text, mem, startAddr, endAddr =>
    match readRecord srecMaxreclen text with
    | none => .waiting
    | some (none, _) => .aborted
    | some (some line, text) =>
      match srecDecode line with
      | .error _ => .aborted
      | .ok r =>
        if r.type = .data2 ∨ r.type = .data3 ∨ r.type = .data4 then
          if r.count < 0 then .negative
          else
            let storeAddr := (r.addr + offset) % 2 ^ 32
            let last := (storeAddr + r.data.length + (2 ^ 32 - 1)) % 2 ^ 32
            let startAddr := if storeAddr < startAddr then storeAddr else startAddr
            let endAddr := if last > endAddr then last else endAddr
            match flashWrite storeAddr r.data mem with
            | some (rc, mem) => if rc ≠ 0 then .aborted else loadLoop flashWrite offset fuel text mem startAddr endAddr
            | none => loadLoop flashWrite offset fuel text (memcpy mem storeAddr r.data) startAddr endAddr
        else if r.type = .end2 ∨ r.type = .end3 ∨ r.type = .end4 then
          .loaded r.addr mem (hexText 8 ((endAddr + (2 ^ 32 - startAddr) + 1) % 2 ^ 32))
        else loadLoop flashWrite offset fuel text mem startAddr endAddr

/-- `load_serial`; each record takes a character at least. -/
def loadSerial (flashWrite : Nat → List UInt8 → Memory → Option (Int × Memory)) (offset : Nat) (text : List UInt8)
    (mem : Memory) : Loaded :=
  loadLoop flashWrite offset (text.length + 1) text mem (2 ^ 32 - 1) 0

def srec3Start : List UInt8 := ascii ['S', '0', '0', '3', '0', '0', '0', '0', 'F', 'C', '\n']
def srec3End : List UInt8 := ascii ['S', '7', '0', '5', '0', '0', '0', '0', '0', '0', '0', '0', 'F', 'A', '\n']

def bytesPerRecord : Nat := 16

/-- `%02X` of a number below 256 -/
def hex2 (n : Nat) : List UInt8 := [hexDigit (n / 16 % 16), hexDigit (n % 16)]

def addressBytes (address : Nat) : List Nat :=
  [address / 2 ^ 24 % 256, address / 2 ^ 16 % 256, address / 2 ^ 8 % 256, address % 256]

/-- `SREC3_FORMAT`; `%08lX` prints the bytes of the address. -/
def dataRecord (length address : Nat) (data : List UInt8) (checksum : Nat) : List UInt8 :=
  ascii ['S', '3'] ++ hex2 length ++ (addressBytes address).flatMap hex2 ++ data ++ hex2 checksum ++ ascii ['\n']

/-- The loop of `save_serial`, with `reclen`, the hex digits in `data` and `checksum`. -/
def saveLoop (mem : Memory) : Nat → Nat → Nat → List UInt8 → Nat → List UInt8
  | 0, _, _, _, _ => []
  | count + 1, address, reclen, data, checksum =>
    let c := (mem ((address + reclen) % 2 ^ 32)).toNat
    let data := data ++ hex2 c
    if reclen + 1 = bytesPerRecord ∨ count = 0 then
      let length := 4 + (reclen + 1) + 1
      let checksum := checksum + c + (length % 256 + length / 256 % 256) + (addressBytes address).sum
      dataRecord length address data (255 - checksum % 256) ++
        saveLoop mem count ((address + (reclen + 1)) % 2 ^ 32) 0 [] 0
    else saveLoop mem count address (reclen + 1) data (checksum + c)

/-- `save_serial`: the characters that it writes. -/
def saveSerial (mem : Memory) (address count : Nat) : List UInt8 :=
  srec3Start ++ saveLoop mem count address 0 [] 0 ++ srec3End

/-- The bytes are back at their addresses, all others are unchanged, and the size is known. -/
def Restored (saved mem : Memory) (address count : Nat) (l : Loaded) : Prop :=
  ∃ addr mem', l = .loaded addr mem' (hexText 8 count) ∧
    ∀ x, mem' x = if address ≤ x ∧ x < address + count then saved x else mem x

def NoFlash (flashWrite : Nat → List UInt8 → Memory → Option (Int × Memory)) (address count : Nat) : Prop :=
  ∀ a data mem, address ≤ a → a < address + count → flashWrite a data mem = none

end UBoot.SRecord
