import UBoot.MtdParts

namespace UBoot.Mtd

/-- `struct mtdids` -/
structure Id where
  type : MtdDevType
  num : Nat
  size : UInt32
  mtdId : Str
deriving DecidableEq

/-- `struct mtd_device`, which stands at `addr`. -/
structure Dev where
  addr : Nat
  id : Id
  numParts : UInt16
  parts : List Part
deriving DecidableEq

structure EraseRegion where
  offset : Nat
  erasesize : UInt32
  numblocks : UInt32

/-- `struct mtd_info`; the blocks of its erase regions are not empty and lie below 4 GiB. -/
structure MtdInfo where
  size : Nat
  erasesize : UInt32
  eraseregions : List EraseRegion
  low : ∀ r ∈ eraseregions, 0 < r.erasesize.toNat ∧ r.offset + r.numblocks.toNat * r.erasesize.toNat ≤ 2 ^ 32

/-- `get_mtd_device_nm`, by type and number instead of the name made of them. -/
abbrev Chips := MtdDevType → Nat → Option MtdInfo

structure Env where
  mtdids : Option Str
  mtdparts : Option Str
  partition : Option Str
deriving DecidableEq

/-- The tables of `cmd_mtdparts.c`. An access through a null pointer or to what is freed has no result, but for
`*ret = NULL` in `device_parse` where `add` gives no place for the rest of the text: neither the tables nor the
current partition are at address 0, and the store changes nothing of the state. -/
structure State where
  mtdids : List Id
  devices : List Dev
  currentMtdDev : Option Nat
  currentMtdPartnum : UInt8
  lastIds : Str
  lastParts : Str
  lastPartition : Str
  env : Env
  /-- where the next structure is allocated -/
  heap : Nat
deriving DecidableEq

def mtdPartInfo (dev : Dev) (partNum : UInt8) : Option Part :=
  if partNum.toNat < dev.numParts.toNat then dev.parts[partNum.toNat]? else none

def State.at (s : State) (addr : Nat) : Option Dev := s.devices.find? fun d => d.addr = addr

def State.put (s : State) (dev : Dev) : State :=
  { s with devices := s.devices.map fun d => if d.addr = dev.addr then dev else d }

/-- `index_partitions`: the name of the current partition is read. -/
def indexPartitions (s : State) : Option State :=
  match s.currentMtdDev with
  | none => some s
  | some addr => do
    let dev ← s.at addr
    let _ ← mtdPartInfo dev s.currentMtdPartnum
    some s

def devTypeName : MtdDevType → Str
  | .nand => ascii ['n', 'a', 'n', 'd']
  | .onenand => ascii ['o', 'n', 'e', 'n', 'a', 'n', 'd']
  | .nor => ascii ['n', 'o', 'r']

/-- `%s%d,%d` -/
def partitionText (id : Id) (partnum : UInt8) : Str :=
  devTypeName id.type ++ decimal id.num ++ ascii [','] ++ decimal partnum.toNat

def currentSave (s : State) : Option State :=
  match s.currentMtdDev with
  | none => indexPartitions { s with env := { s.env with partition := none }, lastPartition := [] }
  | some addr => do
    let dev ← s.at addr
    let buf := partitionText dev.id s.currentMtdPartnum
    indexPartitions { s with env := { s.env with partition := some buf }, lastPartition := buf }

/-- The values that `start` takes in the loop over the blocks of a region. -/
def EraseRegion.starts (r : EraseRegion) : List UInt32 :=
  (List.range r.numblocks.toNat).map fun j => UInt32.ofNat r.offset + UInt32.ofNat j * r.erasesize

def EraseRegion.stop (r : EraseRegion) : UInt32 := UInt32.ofNat r.offset + r.numblocks * r.erasesize

def partValidateEraseblock (chips : Chips) (id : Id) (part : Part) : Bool :=
  match chips id.type id.num with
  | none => false
  | some mtd =>
    if mtd.eraseregions = [] then part.offset % mtd.erasesize = 0 ∧ part.size % mtd.erasesize = 0
    else
      part.offset ∈ mtd.eraseregions.flatMap EraseRegion.starts ∧
        (part.offset + part.size ∈ mtd.eraseregions.flatMap EraseRegion.starts ∨
          mtd.eraseregions.getLast?.map EraseRegion.stop = some (part.offset + part.size))

/-- `part_validate`: the partition, with its size if it is the rest of the device. -/
def partValidate (chips : Chips) (id : Id) (part : Part) : Option Part :=
  let part := if part.size = sizeRemaining then { part with size := id.size - part.offset } else part
  if id.size < part.offset then none
  else if part.offset + part.size ≤ part.offset then none
  else if id.size < part.offset + part.size then none
  else if partValidateEraseblock chips id part then some part
  else none

/-- The list with a new partition, and the one that it was put before. There is no second partition
at offset 0. -/
def sortAdd (part : Part) : List Part → Option (List Part × Option Part)
  | [] => some ([part], none)
  | pi :: rest =>
    if part.offset = pi.offset ∧ pi.offset = 0 then none
    else if part.offset ≤ pi.offset then some (part :: pi :: rest, some pi)
    else (sortAdd part rest).map fun r => (pi :: r.1, r.2)

/-- Whether the current partition counts as behind `pi`, the partition a new one is put before. -/
def shiftsCurrent (s : State) (dev : Dev) (pi : Option Part) : Bool :=
  if s.currentMtdDev = some dev.addr then
    match mtdPartInfo dev s.currentMtdPartnum, pi with
    | some curr, some pi => pi.offset ≤ curr.offset
    | _, _ => false
  else false

/-- `part_sort_add`: no device where it fails. -/
def partSortAdd (s : State) (dev : Dev) (part : Part) : Option (Option Dev × State) :=
  match sortAdd part dev.parts with
  | none => some (none, s)
  | some (parts, pi) => do
    let dev' := { dev with parts := parts, numParts := dev.numParts + 1 }
    let t := s.put dev'
    let saved := if shiftsCurrent s dev pi then
        currentSave { t with currentMtdPartnum := s.currentMtdPartnum + 1 }
      else indexPartitions t
    let t ← saved
    some (some dev', t)

def partAdd (chips : Chips) (s : State) (dev : Dev) (part : Part) : Option (Option Dev × State) :=
  match partValidate chips dev.id part with
  | none => some (none, s)
  | some part => partSortAdd s dev part

def deviceDel (s : State) (dev : Dev) : Option State :=
  let devices := s.devices.filter fun d => d.addr ≠ dev.addr
  if s.currentMtdDev = some dev.addr then
    match devices with
    | [] => currentSave { s with devices := devices, currentMtdDev := none }
    | d :: _ => currentSave { s with
        devices := devices
        currentMtdDev := some d.addr
        currentMtdPartnum := 0 }
  else indexPartitions { s with devices := devices }

/-- The number of the current partition `curr` after `part` is deleted. -/
def afterDel (partnum : UInt8) (curr part : Part) : UInt8 :=
  if curr.addr = part.addr then 0
  else if part.offset ≤ curr.offset then partnum - 1
  else partnum

def partDel (s : State) (dev : Dev) (part : Part) : Option State :=
  if dev.numParts = 1 then deviceDel s dev
  else
    let t := s.put { dev with
      parts := dev.parts.filter fun p => p.addr ≠ part.addr
      numParts := dev.numParts - 1 }
    if s.currentMtdDev = some dev.addr then
      match mtdPartInfo dev s.currentMtdPartnum with
      | some curr => currentSave { t with currentMtdPartnum := afterDel s.currentMtdPartnum curr part }
      | none => indexPartitions t
    else indexPartitions t

def deviceFind (s : State) (type : MtdDevType) (num : Nat) : Option Dev :=
  s.devices.find? fun d => d.id.type = type ∧ d.id.num = num

def deviceAdd (s : State) (dev : Dev) : Option State :=
  if s.devices = [] then
    currentSave { s with devices := [dev], currentMtdDev := some dev.addr, currentMtdPartnum := 0 }
  else indexPartitions { s with devices := s.devices ++ [dev] }

def mtdDevicesInit (s : State) : Option State :=
  (currentSave { s with lastParts := [], currentMtdDev := none }).map fun t => { t with devices := [] }

end UBoot.Mtd
