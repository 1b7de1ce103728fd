import Mathlib.Logic.Function.Basic
import UBoot.EnvCrc
import UBoot.EnvSet

namespace UBoot

/-- The copy at `CONFIG_ENV_ADDR` and, for `true`, that at `CONFIG_ENV_ADDR_REDUND`. -/
abbrev NorCopies := Bool → EnvT

def activeFlag : UInt8 := 1
def obsoleteFlag : UInt8 := 0

/-- `env_init`: the copy that `gd->env_addr` points into and `gd->env_valid`. The global
data is zero at the start. -/
def norEnvInit (c : NorCopies) : Option Bool × Nat :=
  let flag1 := (c false).flags
  let flag2 := (c true).flags
  if (c false).crcOk ∧ ¬(c true).crcOk then (some false, 1)
  else if ¬(c false).crcOk ∧ (c true).crcOk then (some true, 1)
  else if ¬(c false).crcOk ∧ ¬(c true).crcOk then (none, 0)
  else if flag1 = activeFlag ∧ flag2 = obsoleteFlag then (some false, 1)
  else if flag1 = obsoleteFlag ∧ flag2 = activeFlag then (some true, 1)
  else if flag1 = flag2 then (some false, 2)
  else if flag1 = 0xff then (some false, 2)
  else if flag2 = 0xff then (some true, 2)
  else (none, 0)

/-- How a flash operation ends that is not carried out: power is lost in it, or it
returns an error code. -/
inductive Stop
  | power
  | code (rc : Int)
deriving DecidableEq

/-- The operation of `saveenv` that is not carried out, and what it leaves in its place. -/
inductive NorFault
  | protect
  | erase (stop : Stop) (left : EnvT)
  | data (stop : Stop) (left : List UInt8)
  | crc (stop : Stop) (left : UInt32)
  | obsolete (stop : Stop) (left : UInt8)
  | active (stop : Stop) (left : UInt8)
  | rest (stop : Stop)

/-- The write of one flags byte that is not carried out. -/
structure FlagFault where
  stop : Stop
  left : UInt8

structure NorBoard where
  copies : NorCopies
  nv : NvState
  flashAddr : Bool
  flashAddrNew : Bool
  powered : Bool

def writeFlags (c : NorCopies) (i : Bool) (flags : UInt8) : NorCopies :=
  Function.update c i { c i with flags := flags }

/-- Programming a flags byte clears the bits that are zero in `flag`. -/
def programFlags (c : NorCopies) (i : Bool) (flag : UInt8) : NorCopies :=
  writeFlags c i ((c i).flags &&& flag)

def erasedCopy (e : EnvT) : EnvT := ⟨0xffffffff, 0xff, e.data.map fun _ => 0xff⟩

def NorBoard.stopped (s : NorBoard) (stop : Stop) (c : NorCopies) : Option Int × NorBoard :=
  match stop with
  | .power => (none, { s with copies := c, powered := false })
  | .code rc => (some rc, { s with copies := c })

/-- `saveenv` up to its fault, if it has one. The data and the CRC go to bytes that have
just been erased, and are what these hold then. -/
def norSaveenv (f : Option NorFault) (s : NorBoard) : Option Int × NorBoard :=
  let new := s.flashAddrNew
  let erased := Function.update s.copies new (erasedCopy (s.copies new))
  let withData := Function.update erased new { erased new with data := s.nv.env.data }
  let withCrc := Function.update withData new { withData new with crc := s.nv.env.crc }
  let obsolete := programFlags withCrc s.flashAddr obsoleteFlag
  let active := programFlags obsolete new activeFlag
  match f with
  | some .protect => (some 1, s)
  | some (.erase stop left) =>
    match stop with
    | .power => s.stopped .power (Function.update s.copies new left)
    | .code _ => s.stopped (.code 1) (Function.update s.copies new left)
  | some (.data stop left) => s.stopped stop (Function.update erased new { erased new with data := left })
  | some (.crc stop left) =>
    s.stopped stop (Function.update withData new { withData new with crc := left })
  | some (.obsolete stop left) => s.stopped stop (writeFlags withCrc s.flashAddr left)
  | some (.active stop left) => s.stopped stop (writeFlags obsolete new left)
  | some (.rest stop) =>
    match stop with
    | .power => s.stopped .power active
    -- the writes before have set `rc` to 0, and this one does not change it
    | .code _ => s.stopped (.code 0) active
  | none => (some 0, { s with copies := active, flashAddr := new, flashAddrNew := s.flashAddr })

/-- A flags write whose return code nobody looks at. `false` when power is lost in it. -/
def repairFlags (f : Option FlagFault) (c : NorCopies) (i : Bool) (flag : UInt8) : Bool × NorCopies :=
  match f with
  | none => (true, programFlags c i flag)
  | some ⟨.power, left⟩ => (false, writeFlags c i left)
  | some ⟨.code _, left⟩ => (true, writeFlags c i left)

def repairObsolete (f : Option FlagFault) (c : NorCopies) (new : Bool) : Bool × NorCopies :=
  if (c new).flags ≠ obsoleteFlag ∧ (c new).crcOk then repairFlags f c new obsoleteFlag
  else (true, c)

/-- The flags are not `ACTIVE_FLAG` and can still be made so. -/
def activeWanted (flags : UInt8) : Prop := flags ≠ activeFlag ∧ flags &&& activeFlag = activeFlag

instance (flags : UInt8) : Decidable (activeWanted flags) := inferInstanceAs (Decidable (_ ∧ _))

def repairActive (f : Option FlagFault) (c : NorCopies) (cur : Bool) : Bool × NorCopies :=
  if activeWanted (c cur).flags then repairFlags f c cur activeFlag else (true, c)

/-- `env_relocate_spec` after an `env_init` that points into copy `addr`. The pointers
start as `CONFIG_ENV_ADDR` and `CONFIG_ENV_ADDR_REDUND`. -/
def norRelocateSpec (f₁ f₂ : Option FlagFault) (globals : NvState) (c : NorCopies) (addr : Bool) :
    Option Int × NorBoard :=
  let flashAddr := if addr ≠ false then true else false
  let flashAddrNew := if addr ≠ false then false else true
  match repairObsolete f₁ c flashAddrNew with
  | (false, c) => (none, ⟨c, globals, flashAddr, flashAddrNew, false⟩)
  | (true, c) =>
    match repairActive f₂ c flashAddr with
    | (false, c) => (none, ⟨c, globals, flashAddr, flashAddrNew, false⟩)
    | (true, c) => (some 0, ⟨c, { globals with env := c flashAddr }, flashAddr, flashAddrNew, true⟩)

/-- A start of U-Boot: `env_init`, then the default environment or `env_relocate_spec`. -/
def norBoot (dflt : EnvT) (f₁ f₂ : Option FlagFault) (globals : NvState) (s : NorBoard) :
    Option Int × NorBoard :=
  match norEnvInit s.copies with
  | (some addr, _) => norRelocateSpec f₁ f₂ globals s.copies addr
  | (none, _) => (some 0, ⟨s.copies, { globals with env := dflt }, false, true, true⟩)

end UBoot
