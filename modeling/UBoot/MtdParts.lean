import Mathlib.Algebra.GroupWithZero.Nat
import UBoot.CString

namespace UBoot

inductive MtdDevType
  | nor
  | nand
  | onenand
deriving DecidableEq

structure PartInfo where
  name : List UInt8
  offset : Nat
  size : Nat
deriving DecidableEq

/-- `struct mtd_device` with its id. -/
structure MtdDevice where
  type : MtdDevType
  num : Nat
  parts : List PartInfo
deriving DecidableEq

/-- The head of `mtd_id_parse`: the type, and what follows its name. -/
def mtdTypeParse (id : List UInt8) : Option (MtdDevType × List UInt8) :=
  if (ascii ['n', 'a', 'n', 'd']).isPrefixOf id then some (.nand, id.drop 4)
  else if (ascii ['n', 'o', 'r']).isPrefixOf id then some (.nor, id.drop 3)
  else if (ascii ['o', 'n', 'e', 'n', 'a', 'n', 'd']).isPrefixOf id then some (.onenand, id.drop 7)
  else none

/-- `mtd_id_parse`: type, number and the rest of the string. -/
def mtdIdParse (id : List UInt8) : Option (MtdDevType × Nat × List UInt8) :=
  match mtdTypeParse id with
  | some (type, c :: p) =>
    if isdigit c then
      match simpleStrtoul (c :: p) 0 with
      | (num, rest) => some (type, num % 256, rest)
    else none
  | _ => none

theorem mtdIdParse_num_lt {id p : List UInt8} {type : MtdDevType} {num : Nat}
    (h : mtdIdParse id = some (type, num, p)) : num < 256 := by
  unfold mtdIdParse at h
  split at h
  · split at h
    · obtain ⟨_, hpair⟩ := Prod.mk.inj (Option.some.inj h)
      obtain ⟨rfl, _⟩ := Prod.mk.inj hpair
      exact Nat.mod_lt _ (by omega)
    · cases h
  · cases h

def deviceFind (devices : List MtdDevice) (type : MtdDevType) (num : Nat) : Option MtdDevice :=
  devices.find? fun d => d.type = type ∧ d.num = num

def findByName (devices : List MtdDevice) (id : List UInt8) : Option (MtdDevice × PartInfo) :=
  devices.findSome? fun d => (d.parts.find? fun p => p.name = id).map fun p => (d, p)

/-- `find_dev_and_part`: by name, or by type, number and number of the partition. -/
def findDevAndPart (devices : List MtdDevice) (id : List UInt8) : Option (MtdDevice × PartInfo) :=
  match findByName devices id with
  | some r => some r
  | none =>
    match mtdIdParse id with
    | some (type, dnum, 44 :: p) =>
      if p = [] then none
      else
        match simpleStrtoul p 0 with
        | (pnum, []) => do
          let d ← deviceFind devices type dnum
          let part ← d.parts[pnum % 256]?
          pure (d, part)
        | _ => none
    | _ => none

theorem findByName_mem {devices : List MtdDevice} {id : List UInt8} {d : MtdDevice} {p : PartInfo}
    (h : findByName devices id = some (d, p)) : d ∈ devices ∧ p ∈ d.parts := by
  obtain ⟨d', hd, h⟩ := List.exists_of_findSome?_eq_some h
  obtain ⟨p', hp, h⟩ := Option.map_eq_some_iff.mp h
  obtain ⟨rfl, rfl⟩ := Prod.mk.inj h
  exact ⟨hd, List.mem_of_find?_eq_some hp⟩

theorem findDevAndPart_mem {devices : List MtdDevice} {id : List UInt8} {d : MtdDevice} {p : PartInfo}
    (h : findDevAndPart devices id = some (d, p)) : d ∈ devices ∧ p ∈ d.parts := by
  unfold findDevAndPart at h
  split at h
  next hname =>
    rw [h] at hname
    exact findByName_mem hname
  · split at h
    · split at h
      · cases h
      · split at h
        · obtain ⟨d', hd, h⟩ := Option.bind_eq_some_iff.mp h
          obtain ⟨p', hp, h⟩ := Option.bind_eq_some_iff.mp h
          cases h
          exact ⟨List.mem_of_find?_eq_some hd, List.mem_of_getElem? hp⟩
        · cases h
    · cases h

end UBoot

namespace UBoot.Mtd

abbrev Str := List UInt8

def sizeRemaining : UInt32 := 0xFFFFFFFF
def offsetNotSpecified : UInt32 := 0xFFFFFFFF
def minPartSize : UInt32 := 4096
def mtdWriteableCmd : UInt32 := 1

/-- `memsize_parse`: the number with its unit, and what follows. -/
def memsizeParse (p : Str) : UInt32 × Str :=
  let ret := UInt32.ofNat (simpleStrtoul p 0).1
  match (simpleStrtoul p 0).2 with
  | [] => (ret, [])
  | c :: rest =>
    if c = 71 ∨ c = 103 then (ret <<< 10 <<< 10 <<< 10, rest)
    else if c = 77 ∨ c = 109 then (ret <<< 10 <<< 10, rest)
    else if c = 75 ∨ c = 107 then (ret <<< 10, rest)
    else (ret, c :: rest)

def digit (n : Nat) : UInt8 := UInt8.ofNat (48 + n)

/-- `%u` with `fuel` digits at most -/
def decimalFuel : Nat → Nat → Str
  | 0, _ => []
  | fuel + 1, n => if n < 10 then [digit n] else decimalFuel fuel (n / 10) ++ [digit (n % 10)]

def decimal (n : Nat) : Str := decimalFuel 10 n

def hexDigit (n : Nat) : UInt8 := if n < 10 then digit n else UInt8.ofNat (87 + n)

/-- `%08lx` -/
def hex8 (n : UInt32) : Str :=
  [28, 24, 20, 16, 12, 8, 4, 0].map fun k => hexDigit (n.toNat / 2 ^ k % 16)

def sizeGb : UInt32 := 1024 * 1024 * 1024
def sizeMb : UInt32 := 1024 * 1024
def sizeKb : UInt32 := 1024

def memsizeFormat (size : UInt32) : Str :=
  if size % sizeGb = 0 then decimal (size / sizeGb).toNat ++ ascii ['g']
  else if size % sizeMb = 0 then decimal (size / sizeMb).toNat ++ ascii ['m']
  else if size % sizeKb = 0 then decimal (size / sizeKb).toNat ++ ascii ['k']
  else decimal size.toNat

/-- `struct part_info`, which stands at `addr`. -/
structure Part where
  addr : Nat
  name : Str
  autoName : Bool
  size : UInt32
  offset : UInt32
  maskFlags : UInt32
deriving DecidableEq

def partSize (p : Str) : Option (UInt32 × Str) :=
  if p.head? = some 45 then some (sizeRemaining, p.drop 1)
  else if (memsizeParse p).1 < minPartSize then none
  else some (memsizeParse p)

def partOffset (p : Str) : UInt32 × Str :=
  if p.head? = some 64 then memsizeParse (p.drop 1) else (offsetNotSpecified, p)

def partName (p : Str) : Option (Option Str × Str) :=
  if p.head? = some 40 then
    let name := (p.drop 1).takeWhile (· ≠ 41)
    match (p.drop 1).dropWhile (· ≠ 41) with
    | [] => none
    | _ :: rest => if name = [] then none else some (some name, rest)
  else some (none, p)

def partOptions (p : Str) : UInt32 × Str :=
  if (ascii ['r', 'o']).isPrefixOf p then (mtdWriteableCmd, p.drop 2) else (0, p)

def partEnd (size : UInt32) (p : Str) : Option Str :=
  match p with
  | [] => some []
  | c :: rest =>
    if c = 44 then if size = sizeRemaining then none else some rest
    else if c = 59 then some (c :: rest)
    else none

/-- `0x%08lx@0x%08lx` -/
def generatedName (size offset : UInt32) : Str :=
  ascii ['0', 'x'] ++ hex8 size ++ ascii ['@', '0', 'x'] ++ hex8 offset

def partParse (addr : Nat) (partdef : Str) : Option (Part × Str) := do
  let (size, p) ← partSize partdef
  let (offset, p) := partOffset p
  let (name, p) ← partName p
  let (maskFlags, p) := partOptions p
  let ret ← partEnd size p
  pure (⟨addr, name.getD (generatedName size offset), name.isNone, size, offset, maskFlags⟩, ret)

end UBoot.Mtd
