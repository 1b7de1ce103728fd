import UBoot.MtdState

namespace UBoot.Mtd

def mtdidsMaxlen : Nat := 128
def mtdpartsMaxlen : Nat := 512
def partAddDescMaxlen : Nat := 64

def AtEnd (p : Str) : Prop := p = [] ∨ p.head? = some 59

instance (p : Str) : Decidable (AtEnd p) := inferInstanceAs (Decidable (_ ∨ _))

/-- The loop over the definitions of a device, each of at least one character. -/
def parseParts (chips : Chips) (id : Id) : Nat → Nat → UInt32 → Str → Option (List Part × Str)
  | 0, _, _, _ => none
  | fuel + 1, addr, offset, p => do
    let (part, p) ← partParse addr p
    let part ← partValidate chips id
      (if part.offset = offsetNotSpecified then { part with offset := offset } else part)
    if AtEnd p then some ([part], p)
    else do
      let (parts, p) ← parseParts chips id fuel (addr + 1) (part.offset + part.size) p
      some (part :: parts, p)

def addAll (s : State) (dev : Dev) : List Part → Option (Option Dev × State)
  | [] => some (some dev, s)
  | part :: parts => do
    let (added, s) ← partSortAdd s dev part
    match added with
    | none => (deviceDel s dev).map fun s => (none, s)
    | some dev => addAll s dev parts

def startOffset (s : State) (id : Id) : Option UInt32 :=
  match deviceFind s id.type id.num with
  | none => some 0
  | some dev => dev.parts.getLast?.map fun part => part.offset + part.size

def idFindByMtdId (s : State) (mtdId : Str) : Option Id := s.mtdids.find? fun id => id.mtdId = mtdId

def deviceText (chips : Chips) (s : State) (mtdDev : Str) : Option (Option (Id × List Part × Str)) :=
  match mtdDev.dropWhile (· ≠ 58) with
  | [] => some none
  | _ :: p =>
    match idFindByMtdId s (mtdDev.takeWhile (· ≠ 58)) with
    | none => some none
    | some id => do
      let offset ← startOffset s id
      if AtEnd p then some none
      else some ((parseParts chips id (p.length + 1) s.heap offset p).map fun r => (id, r.1, r.2))

/-- `device_parse`: no device where it fails. -/
def deviceParse (chips : Chips) (s : State) (mtdDev : Str) : Option (Option (Dev × Str) × State) := do
  match ← deviceText chips s mtdDev with
  | none => some (none, s)
  | some (id, parts, p) => do
    let heap := s.heap + parts.length
    let (added, s) ← addAll { s with heap := heap + 1 } ⟨heap, id, 0, []⟩ parts
    -- the separator of devices is taken
    some (added.map fun dev => (dev, p.drop 1), s)

/-- The loop of `parse_mtdparts`, with a character at least for each device. -/
def parseDevices (chips : Chips) : Nat → State → Str → Option (Bool × State)
  | 0, _, _ => none
  | fuel + 1, s, p => do
    let (parsed, s) ← deviceParse chips s p
    match parsed with
    | none => some (false, { s with devices := [] })
    | some (dev, p) =>
      if (deviceFind s dev.id.type dev.id.num).isSome then some (false, { s with devices := [] })
      else
        let s := { s with devices := s.devices ++ [dev] }
        if p = [] then some (true, s) else parseDevices chips fuel s p

def mtdpartsPrefix : Str := ascii ['m', 't', 'd', 'p', 'a', 'r', 't', 's', '=']

/-- `parse_mtdparts` of the variable, whether it succeeds -/
def parseMtdparts (chips : Chips) (s : State) : Option (Bool × State) := do
  let s ← mtdDevicesInit s
  let parts ← s.env.mtdparts
  if mtdpartsPrefix.isPrefixOf parts then
    let p := parts.drop 9
    if p = [] then some (false, s) else parseDevices chips (p.length + 1) s p
  else some (false, s)

/-- The loop of `parse_mtdids`. An unknown device leaves the list as it is. -/
def parseIds (chips : Chips) : Nat → List Id → Str → Bool × List Id
  | 0, ids, _ => (false, ids)
  | fuel + 1, ids, p =>
    match mtdIdParse p with
    | some (type, num, c :: p) =>
      if c = 61 then
        match chips type num with
        | none => (false, ids)
        | some mtd =>
          if ids.any fun id => id.type = type ∧ id.num = num then (false, [])
          else
            let ids := ids ++ [⟨type, num, UInt32.ofNat mtd.size, p.takeWhile (· ≠ 44)⟩]
            match p.dropWhile (· ≠ 44) with
            | [] => (true, ids)
            | _ :: p => if p = [] then (true, ids) else parseIds chips fuel ids p
      else (false, [])
    | _ => (false, [])

def parseMtdids (chips : Chips) (s : State) (ids : Str) : Bool × State :=
  let r := if ids = [] then (false, []) else parseIds chips (ids.length + 1) [] ids
  (r.1, { s with mtdids := r.2, lastIds := [] })

/-- The offset is written where the partition does not follow the one before. -/
def Gap (prev : Option Part) (part : Part) : Prop :=
  match prev with
  | none => part.offset ≠ 0
  | some prev => prev.offset + prev.size ≠ part.offset

instance (prev : Option Part) (part : Part) : Decidable (Gap prev part) := by
  unfold Gap
  cases prev <;> exact inferInstance

/-- The pieces of text of one partition, `partCnt` with it being written. -/
def partPieces (numParts partCnt : Nat) (prev : Option Part) (part : Part) : List Str :=
  [memsizeFormat part.size] ++
    (if Gap prev part then [ascii ['@'] ++ memsizeFormat part.offset] else []) ++
    (if part.autoName then [] else [ascii ['('] ++ part.name ++ ascii [')']]) ++
    (if part.maskFlags ≠ 0 then [ascii ['r', 'o']] else []) ++
    (if partCnt < numParts then [ascii [',']] else [])

def partsPieces (numParts : Nat) : Nat → Option Part → List Part → List Str
  | _, _, [] => []
  | cnt, prev, part :: parts =>
    partPieces numParts (cnt + 1) prev part ++ partsPieces numParts (cnt + 1) (some part) parts

def devPieces (dev : Dev) : List Str :=
  (dev.id.mtdId ++ ascii [':']) :: partsPieces dev.numParts.toNat 0 none dev.parts

def tablePieces : List Dev → List Str
  | [] => []
  | [dev] => devPieces dev
  | dev :: dev' :: devs => devPieces dev ++ ascii [';'] :: tablePieces (dev' :: devs)

def emit (maxlen : Nat) : List Str → Option Str
  | [] => some []
  | piece :: pieces =>
    if piece.length ≤ maxlen then (emit (maxlen - piece.length) pieces).map fun t => piece ++ t else none

/-- `generate_mtdparts`: the text, if it returns 0. The nine characters in front are not counted. -/
def generateMtdparts (devices : List Dev) (buflen : Nat) : Option Str :=
  if devices = [] then some []
  else (emit (buflen - 1) (tablePieces devices)).map fun t => mtdpartsPrefix ++ t

/-- `generate_mtdparts_save` into `last_parts` -/
def generateMtdpartsSave (s : State) : Bool × State :=
  match generateMtdparts s.devices mtdpartsMaxlen with
  | none => (false, { s with lastParts := [], env := { s.env with mtdparts := none } })
  | some buf => (true, { s with
      lastParts := buf
      env := { s.env with mtdparts := if buf = [] then none else some buf } })

def findName (id : Str) : List Dev → Option (Dev × UInt8 × Part)
  | [] => none
  | dev :: devs =>
    match dev.parts.findIdx? fun p => p.name = id with
    | none => findName id devs
    | some i => (dev.parts[i]?).map fun part => (dev, UInt8.ofNat i, part)

def findDevAndPart (s : State) (id : Str) : Option (Dev × UInt8 × Part) :=
  match findName id s.devices with
  | some r => some r
  | none =>
    match mtdIdParse id with
    | some (type, dnum, c :: p) =>
      if c ≠ 44 ∨ p = [] then none
      else
        match simpleStrtoul p 0 with
        | (pnum, []) => do
          let dev ← deviceFind s type dnum
          let part ← mtdPartInfo dev (UInt8.ofNat pnum)
          some (dev, UInt8.ofNat pnum, part)
        | _ => none
    | _ => none

/-- What `mtdparts_init` does once the ids are known. -/
def initParts (chips : Chips) (s : State) (idsChanged : Bool) (tmpEp : Str) : Option (Bool × State) :=
  match s.env.mtdparts with
  | none =>
    if s.lastParts ≠ [] then (mtdDevicesInit s).map fun s => (true, s) else some (true, s)
  | some parts => do
    let parsed := if s.lastParts = [] ∨ s.lastParts ≠ parts ∨ idsChanged then do
        let (ok, s) ← parseMtdparts chips s
        match s.devices with
        | [] => some (false, s)
        | dev :: _ =>
          if ok then
            let s ← currentSave { s with
              lastParts := parts
              currentMtdDev := some dev.addr
              currentMtdPartnum := 0 }
            some (true, s)
          else some (false, s)
      else some (true, s)
    let (ok, s) ← parsed
    if ¬ok then some (false, s)
    else if tmpEp ≠ [] ∧ tmpEp ≠ s.lastPartition then
      match findDevAndPart s tmpEp with
      | none => some (true, s)
      | some (dev, pnum, _) => do
        let s ← currentSave { s with currentMtdDev := some dev.addr, currentMtdPartnum := pnum }
        some (true, s)
    else if s.env.partition = none then do
      let s ← currentSave s
      some (true, s)
    else some (true, s)

/-- `mtdparts_init`, whether it returns 0 -/
def mtdpartsInit (chips : Chips) (mtdidsDefault : Option Str) (s : State) : Option (Bool × State) :=
  -- the variable is read before it may be updated
  let tmpEp := (s.env.partition.getD []).take 16
  match s.env.mtdids.or mtdidsDefault with
  | none => some (false, s)
  | some ids =>
    let s := { s with env := { s.env with mtdids := some ids } }
    if mtdidsMaxlen - 1 < ids.length then some (false, s)
    else if mtdpartsMaxlen - 1 < (s.env.mtdparts.getD []).length then some (false, s)
    else if s.lastIds ≠ [] ∧ s.lastIds = ids then initParts chips s false tmpEp
    else
      match parseMtdids chips s ids with
      | (false, s) => (mtdDevicesInit s).map fun s => (false, s)
      | (true, s) => initParts chips { s with lastIds := ids } true tmpEp

inductive Cmd where
  /-- `mtdparts add <mtd-dev> <size>[@<offset>] <name> [ro]` -/
  | add (mtdDev size name : Str) (opt : Option Str)
  /-- `mtdparts del part-id` -/
  | del (id : Str)
  | chpart (id : Str)

/-- The text that `mtdparts add` puts together. -/
def addText (id : Id) (size name : Str) (opt : Option Str) : Str :=
  id.mtdId ++ ascii [':'] ++ size ++ ascii ['('] ++ name ++ ascii [')'] ++ opt.getD []

/-- Its length as the command counts it, in a `u8`. -/
def addLen (id : Id) (size name : Str) (opt : Option Str) : UInt8 :=
  UInt8.ofNat (id.mtdId.length + 1) + UInt8.ofNat size.length + UInt8.ofNat (name.length + 2) +
    if (opt.getD []).length = 2 then 2 else 0

def mergeDevice (chips : Chips) (s : State) (dev : Dev) : Option (Bool × State) :=
  match deviceFind s dev.id.type dev.id.num with
  | none => do
    let s ← deviceAdd s dev
    some (true, s)
  | some devTmp => do
    let p ← dev.parts.head?
    let (added, s) ← partAdd chips s devTmp p
    if added.isSome then some (true, s)
    else do
      let s ← deviceDel s dev
      some (false, s)

def doAdd (chips : Chips) (s : State) (mtdDev size name : Str) (opt : Option Str) : Option (Bool × State) :=
  match mtdIdParse mtdDev with
  | none => some (false, s)
  | some (type, num, _) =>
    match s.mtdids.find? fun id => id.type = type ∧ id.num = num with
    | none => some (false, s)
    | some id =>
      if partAddDescMaxlen ≤ (addLen id size name opt).toNat then some (false, s)
      -- the text does not fit in its buffer
      else if partAddDescMaxlen ≤ (addText id size name opt).length then none
      else do
        let (parsed, s) ← deviceParse chips s (addText id size name opt)
        match parsed with
        | none => some (false, s)
        | some (dev, _) => do
          let (ok, s) ← mergeDevice chips s dev
          if ok then some (generateMtdpartsSave s) else some (false, s)

def doDel (s : State) (id : Str) : Option (Bool × State) :=
  match findDevAndPart s id with
  | none => some (false, s)
  | some (dev, _, part) => do
    let s ← partDel s dev part
    some (generateMtdpartsSave s)

def doChpart (s : State) (id : Str) : Option (Bool × State) :=
  match findDevAndPart s id with
  | none => some (false, s)
  | some (dev, pnum, _) => do
    let s ← currentSave { s with currentMtdDev := some dev.addr, currentMtdPartnum := pnum }
    some (true, s)

def mtdStep (chips : Chips) (mtdidsDefault : Option Str) (s : State) (cmd : Cmd) : Option (Bool × State) := do
  let (ok, s) ← mtdpartsInit chips mtdidsDefault s
  if ok then
    match cmd with
    | .add mtdDev size name opt => doAdd chips s mtdDev size name opt
    | .del id => doDel s id
    | .chpart id => doChpart s id
  else some (false, s)

def powerOn (env : Env) : State := ⟨[], [], none, 0, [], [], [], env, 0⟩

end UBoot.Mtd
