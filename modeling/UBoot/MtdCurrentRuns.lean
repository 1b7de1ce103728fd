import UBoot.MtdCurrent

namespace UBoot.Mtd

open KeyOrder

variable {chips : Chips}

/-- The numbers of `<dev-id>,<part-num>` as they are written, not cut to eight bits. -/
def idNumbers (id : Str) : Option (MtdDevType × Nat × Nat) :=
  match mtdTypeParse id with
  | some (type, c :: p) =>
    if isdigit c then
      match simpleStrtoul (c :: p) 0 with
      | (num, 44 :: q) =>
        if q = [] then none
        else
          match simpleStrtoul q 0 with
          | (pnum, []) => some (type, num, pnum)
          | _ => none
      | _ => none
    else none
  | _ => none

def partNamed (id : Str) : List Dev → Option (Dev × Nat)
  | [] => none
  | dev :: devs =>
    match dev.parts.findIdx? fun p => p.name = id with
    | none => partNamed id devs
    | some i => some (dev, i)

/-- The partition that a `part-id` stands for. -/
def requested (s : State) (id : Str) : Option (Dev × Nat) :=
  match partNamed id s.devices with
  | some r => some r
  | none => do
    let (type, num, pnum) ← idNumbers id
    let dev ← deviceFind s type num
    if pnum < dev.parts.length then some (dev, pnum) else none

def State.Has (t : State) (a : Nat) (part : Part) : Prop :=
  ∃ dev ∈ t.devices, dev.addr = a ∧ part ∈ dev.parts

/-- The current partition is the same as before. One that is deleted is followed by the first of its
device or of the first device, and the first device of all brings its first partition. -/
structure Keeps (s t : State) : Prop where
  same : ∀ a part, s.currentPart = some (a, part) → t.Has a part → t.currentPart = some (a, part)
  reset : ∀ a part, s.currentPart = some (a, part) → ¬t.Has a part → t.currentPart = t.resetPart a
  first : s.currentPart = none → t.currentPart = t.devices.head?.bind Dev.firstPart

def Follows (s : State) (cmd : Cmd) (b : Bool) (t : State) : Prop :=
  match cmd with
  | .chpart id =>
    if b then ∃ dev i part, requested s id = some (dev, i) ∧ dev.parts[i]? = some part ∧
      t.currentPart = some (dev.addr, part)
    else t.currentPart = s.currentPart
  | _ => Keeps s t

theorem findName_eq (id : Str) (devs : List Dev) : findName id devs = (partNamed id devs).bind fun r =>
      (r.1.parts[r.2]?).map fun part => (r.1, UInt8.ofNat r.2, part) := by
  induction devs with
  | nil => rfl
  | cons dev devs ih =>
    unfold findName partNamed
    cases dev.parts.findIdx? fun p => p.name = id with
    | none => exact ih
    | some i => rfl

theorem partNamed_lt {id : Str} {devs : List Dev} {dev : Dev} {i : Nat}
    (h : partNamed id devs = some (dev, i)) : dev ∈ devs ∧ i < dev.parts.length := by
  induction devs with
  | nil => cases h
  | cons d devs ih =>
    unfold partNamed at h
    split at h
    · obtain ⟨hd, hi⟩ := ih h
      exact ⟨List.mem_cons_of_mem _ hd, hi⟩
    next j hj =>
      cases h
      exact ⟨List.mem_cons_self, (List.findIdx?_eq_some_iff_getElem.mp hj).1⟩

theorem findDevAndPart_by_number {s : State} {id : Str} (h : partNamed id s.devices = none) :
    findDevAndPart s id = (idNumbers id).bind fun r => (deviceFind s r.1 (r.2.1 % 256)).bind fun dev =>
      (mtdPartInfo dev (UInt8.ofNat r.2.2)).map fun part => (dev, UInt8.ofNat r.2.2, part) := by
  have hname : findName id s.devices = none := by
    rw [findName_eq, h]
    rfl
  unfold findDevAndPart idNumbers mtdIdParse
  rw [hname]
  cases htype : mtdTypeParse id with
  | none => rfl
  | some r =>
    obtain ⟨type, p⟩ := r
    cases p with
    | nil => rfl
    | cons c p =>
      dsimp only
      by_cases hdigit : isdigit c = true
      · rw [if_pos hdigit, if_pos hdigit]
        obtain ⟨num, rest⟩ := simpleStrtoul (c :: p) 0
        cases rest with
        | nil => rfl
        | cons e q =>
          by_cases hcomma : e = 44
          · subst hcomma
            by_cases hq : q = []
            · simp [hq]
            · simp only [ne_eq, not_true_eq_false, false_or, hq, if_false]
              obtain ⟨pnum, tail⟩ := simpleStrtoul q 0
              cases tail with
              | nil =>
                simp only [Option.bind_eq_bind, Option.bind_some]
                cases deviceFind s type (num % 256) with
                | none => rfl
                | some dev =>
                  simp only [Option.bind_some]
                  cases mtdPartInfo dev (UInt8.ofNat pnum) with
                  | none => rfl
                  | some part => rfl
              | cons t ts => rfl
          · simp [hcomma]
      · rw [if_neg hdigit, if_neg hdigit]
        rfl

/-- `sampleEnv` after `mtdparts_init`: x with 64 KiB and y with the rest. -/
def sampleTable : State where
  mtdids := [⟨.nand, 0, 1048576, ascii ['a']⟩]
  devices := [⟨2, ⟨.nand, 0, 1048576, ascii ['a']⟩, 2,
    [⟨0, ascii ['x'], false, 65536, 0, 0⟩, ⟨1, ascii ['y'], false, 983040, 65536, 0⟩]⟩]
  currentMtdDev := some 2
  currentMtdPartnum := 0
  lastIds := ascii ['n', 'a', 'n', 'd', '0', '=', 'a']
  lastParts := sampleEnv.mtdparts.getD []
  lastPartition := ascii ['n', 'a', 'n', 'd', '0', ',', '0']
  env := { sampleEnv with partition := some (ascii ['n', 'a', 'n', 'd', '0', ',', '0']) }
  heap := 3

def tieEnv : Env where
  mtdids := sampleEnv.mtdids
  mtdparts := some (mtdpartsPrefix ++ ascii ['a', ':', '6', '4', 'k', '(', 'w', ')', ',',
    '6', '4', 'k', '(', 'x', ')', ',', '6', '4', 'k', '@', '6', '4', 'k', '(', 'y', ')'])
  partition := none

/-- `tieEnv` after `mtdparts_init`: y stands in front of x. -/
def tieTable : State where
  mtdids := sampleTable.mtdids
  devices := [⟨3, ⟨.nand, 0, 1048576, ascii ['a']⟩, 3, [⟨0, ascii ['w'], false, 65536, 0, 0⟩,
    ⟨2, ascii ['y'], false, 65536, 65536, 0⟩, ⟨1, ascii ['x'], false, 65536, 65536, 0⟩]⟩]
  currentMtdDev := some 3
  currentMtdPartnum := 0
  lastIds := sampleTable.lastIds
  lastParts := tieEnv.mtdparts.getD []
  lastPartition := sampleTable.lastPartition
  env := { tieEnv with partition := some sampleTable.lastPartition }
  heap := 4

end UBoot.Mtd
