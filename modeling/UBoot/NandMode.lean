import UBoot.NandChip
import UBoot.NandSkipBadLoop
import UBoot.Runs

namespace UBoot

open List

variable {c : NandChip} {answers : ChipAnswers} {mode : OobMode}

def NandChip.erases (c : NandChip) (answers : ChipAnswers) (scrub : Bool) (a : Nat) : Prop :=
  a % c.erasesize = 0 ∧ c.erasesize + a ≤ c.size ∧ answers.writeProtected = false ∧
    (scrub = true ∨ answers.checkbad a = false) ∧ answers.eraseFails a = false

instance (scrub : Bool) (a : Nat) : Decidable (c.erases answers scrub a) := by
  unfold NandChip.erases
  infer_instance

/-- A clean erase gets to a block that it erases before the loop gives up. -/
def NandChip.marks (c : NandChip) (answers : ChipAnswers) (scrub : Bool) : List Nat → Bool
  | [] => false
  | a :: as =>
    if scrub = false ∧ c.size < a then false
    else c.erases answers scrub a || c.marks answers scrub as

section Erase

variable {opts : NandEraseOptions} {s : ChipState} {a : Nat} {as : List Nat}

end Erase

open Runs

/-- A call of `nand_read`, or of `nand_write` with `rw_oob` 0. -/
def NandOp.Plain : NandOp → Prop
  | .read .. => True
  | .write rwOob .. => rwOob = false
  | .erase .. => False

variable {s : ChipState}

def smallPage : NandChip where
  size := 0x4000000
  erasesize := 0x4000
  writesize := 0x200
  oobsize := 16
  oobavail := 8
  subpagesize := 0x200
  subpageRead := false
  hasPages := by decide
  subpages := by decide
  hasSubpages := by decide

end UBoot
