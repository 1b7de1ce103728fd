import UBoot.EnvNandRuns
import UBoot.EnvNandSave

namespace UBoot

variable {cfg : EnvNandConfig} {nvcfg : NvConfig}

/-- The choice of `env_init` for `FLAG_INCREMENTAL`: 0 or 1. -/
def fwSerialCurrent (flag0 flag1 : UInt8) : Nat :=
  if (flag0 = 255 ∧ flag1 = 0) ∨ flag0 < flag1 then 1
  else if (flag1 = 255 ∧ flag0 = 0) ∨ flag1 < flag0 then 0
  else 0

/-- `dev_current` of `fw_env`, or `none` when neither copy has a good CRC. -/
def fwCurrent (c : EnvCopies) : Option Nat :=
  if c.copy1.crcOk then
    if c.copy2.crcOk then some (fwSerialCurrent c.copy1.flags c.copy2.flags) else some 0
  else if c.copy2.crcOk then some 1 else none

/-- `env_init` of `fw_env` with its built-in environment: the image in memory and
`dev_current`. -/
def fwEnvInit (builtin : List UInt8) (c : EnvCopies) : EnvT × Nat :=
  match fwCurrent c with
  | none => ({ c.copy1 with data := builtin ++ c.copy1.data.drop builtin.length }, 0)
  | some 0 => (c.copy1, 0)
  | some _ => (c.copy2, 1)

/-- A `fw_setenv` that returns 0, having made `edit` of the data: the CRC of the new
data, the next serial, and a write to the device that is not `dev_current`. -/
def fwSetenv (builtin : List UInt8) (edit : List UInt8 → List UInt8) (c : EnvCopies) : Nat × EnvCopies :=
  let (image, current) := fwEnvInit builtin c
  let image := envCrcUpdate { image with data := edit image.data }
  let image := { image with flags := image.flags + 1 }
  if current = 0 then (2, { c with copy2 := image }) else (1, { c with copy1 := image })

/-- One turn on the two copies: a start of U-Boot with some `setenv` and one `saveenv`,
or one `fw_setenv`. -/
inductive Turn
  | uboot (globals : NvState) (calls : List SetenvCall)
  | linux (builtin : List UInt8) (edit : List UInt8 → List UInt8)

/-- The environment in RAM when `saveenv` is called. -/
def ubootEnv (cfg : EnvNandConfig) (nvcfg : NvConfig) (c : EnvCopies) (globals : NvState)
    (calls : List SetenvCall) : Option EnvT :=
  (Runs.run (doSetenv nvcfg) { globals with env := (c.relocate cfg).1 } calls).map (·.2.env)

def turnStep (cfg : EnvNandConfig) (nvcfg : NvConfig) (c : EnvCopies) : Turn → Option (Nat × EnvCopies)
  | .uboot globals calls =>
    (ubootEnv cfg nvcfg c globals calls).map fun env => c.saveenv env (c.relocate cfg).2
  | .linux builtin edit => some (fwSetenv builtin edit c)

/-- Both programs take the copy `w` for the current one. -/
def EnvCopies.Current (c : EnvCopies) (w : Nat) : Prop :=
  validCopy c.copy1 c.copy2 = some w ∧ fwCurrent c = some (w - 1)

/-- The turn does not start from a good copy 2 with the serial 255, and what U-Boot
saves has a good CRC. -/
def Turn.Sound (cfg : EnvNandConfig) (nvcfg : NvConfig) (c : EnvCopies) : Turn → Prop
  | .uboot globals calls =>
    ¬(validCopy c.copy1 c.copy2 = some 2 ∧ c.copy2.flags = 255) ∧
      ∀ env ∈ ubootEnv cfg nvcfg c globals calls, env.crcOk
  | .linux _ _ => ¬(fwCurrent c = some 1 ∧ c.copy2.flags = 255)

/-- After the turn both programs take the copy it has written. -/
def AgreesAfter (cfg : EnvNandConfig) (nvcfg : NvConfig) (c : EnvCopies) (t : Turn) : Prop :=
  ∀ w d, turnStep cfg nvcfg c t = some (w, d) → d.Current w

theorem lt_succ_of_ne_max {f : UInt8} (h : f ≠ 255) : f < f + 1 := by
  have hn : f.toNat ≠ 255 := fun hn => h (UInt8.toNat_inj.mp hn)
  have hf := f.toNat_lt
  rw [UInt8.lt_iff_toNat_lt, UInt8.toNat_add, UInt8.toNat_one]
  omega

theorem serialValid_succ (f : UInt8) : serialValid f (f + 1) = 2 ∧ serialValid (f + 1) f = 1 := by
  by_cases hf : f = 255
  · subst hf
    decide
  · have hlt := lt_succ_of_ne_max hf
    have hge : ¬f + 1 < f := fun h => UInt8.lt_irrefl f (UInt8.lt_trans hlt h)
    have hz : ¬(f + 1 = 255 ∧ f = 0) := by
      rintro ⟨h, rfl⟩
      exact absurd h (by decide)
    simp [serialValid, hf, hz, hlt, hge]

theorem fwSerialCurrent_succ (f : UInt8) :
    fwSerialCurrent f (f + 1) = 1 ∧ (fwSerialCurrent (f + 1) f = 0 ↔ f ≠ 255) := by
  by_cases hf : f = 255
  · subst hf
    decide
  · have hlt := lt_succ_of_ne_max hf
    have hge : ¬f + 1 < f := fun h => UInt8.lt_irrefl f (UInt8.lt_trans hlt h)
    have hz : ¬(f + 1 = 255 ∧ f = 0) := by
      rintro ⟨h, rfl⟩
      exact absurd h (by decide)
    simp [fwSerialCurrent, hf, hz, hlt, hge]

theorem validCopy_cases (c : EnvCopies) :
    (validCopy c.copy1 c.copy2 = none ∧ ¬c.copy1.crcOk ∧ ¬c.copy2.crcOk) ∨
      (validCopy c.copy1 c.copy2 = some 1 ∧ c.copy1.crcOk) ∨
      (validCopy c.copy1 c.copy2 = some 2 ∧ c.copy2.crcOk) := by
  by_cases ok1 : c.copy1.crcOk
  · by_cases ok2 : c.copy2.crcOk
    · rcases serialValid_cases c.copy1.flags c.copy2.flags with h | h <;>
        simp [validCopy, ok1, ok2, h]
    · simp [validCopy, ok1, ok2]
  · by_cases ok2 : c.copy2.crcOk <;> simp [validCopy, ok1, ok2]

theorem fwCurrent_cases (c : EnvCopies) : (fwCurrent c = none ∧ ¬c.copy1.crcOk ∧ ¬c.copy2.crcOk) ∨
      (fwCurrent c = some 0 ∧ c.copy1.crcOk) ∨ (fwCurrent c = some 1 ∧ c.copy2.crcOk) := by
  have hserial : fwSerialCurrent c.copy1.flags c.copy2.flags = 0 ∨
      fwSerialCurrent c.copy1.flags c.copy2.flags = 1 := by
    unfold fwSerialCurrent
    split
    · exact .inr rfl
    · split <;> exact .inl rfl
  by_cases ok1 : c.copy1.crcOk
  · by_cases ok2 : c.copy2.crcOk
    · rcases hserial with h | h <;> simp [fwCurrent, ok1, ok2, h]
    · simp [fwCurrent, ok1, ok2]
  · by_cases ok2 : c.copy2.crcOk <;> simp [fwCurrent, ok1, ok2]

theorem current_copy2_iff {k e : EnvT} (hk : k.crcOk) (hf : e.flags = k.flags + 1) :
    (EnvCopies.mk k e).Current 2 ↔ e.crcOk := by
  have hs := (serialValid_succ k.flags).1
  have hw := (fwSerialCurrent_succ k.flags).1
  by_cases he : e.crcOk
  · simp [EnvCopies.Current, validCopy, fwCurrent, hk, he, hf, hs, hw]
  · simp [EnvCopies.Current, validCopy, hk, he]

theorem current_copy1_iff {k e : EnvT} (hk : k.crcOk) (hf : e.flags = k.flags + 1) :
    (EnvCopies.mk e k).Current 1 ↔ e.crcOk ∧ k.flags ≠ 255 := by
  have hs := (serialValid_succ k.flags).2
  have hw := (fwSerialCurrent_succ k.flags).2
  by_cases he : e.crcOk
  · simp [EnvCopies.Current, validCopy, fwCurrent, hk, he, hf, hs, hw]
  · simp [EnvCopies.Current, validCopy, hk, he]

theorem current_first_iff {k e : EnvT} (hk : ¬k.crcOk) : (EnvCopies.mk k e).Current 2 ↔ e.crcOk := by
  by_cases he : e.crcOk
  · simp [EnvCopies.Current, validCopy, fwCurrent, hk, he]
  · simp [EnvCopies.Current, validCopy, hk, he]

theorem ubootEnv_flags {c : EnvCopies} {globals : NvState} {calls : List SetenvCall} {env : EnvT}
    (h : ubootEnv cfg nvcfg c globals calls = some env) : env.flags = (c.relocate cfg).1.flags := by
  obtain ⟨⟨rs, nv⟩, hrun, rfl⟩ := Option.map_eq_some_iff.mp h
  have htrue : Runs.Meets (doSetenv nvcfg) (fun _ _ => True)
      { globals with env := (c.relocate cfg).1 } calls := Runs.meets_true _ _ _
  exact Runs.run_invariant (q := fun s => s.env.flags = (c.relocate cfg).1.flags)
    (fun _ _ _ _ hs _ hstep => (doSetenv_flags hstep).trans hs) rfl htrue hrun

theorem uboot_current_iff {c d : EnvCopies} {globals : NvState} {calls : List SetenvCall} {w : Nat}
    (h : turnStep cfg nvcfg c (.uboot globals calls) = some (w, d)) :
    d.Current w ↔ Turn.Sound cfg nvcfg c (.uboot globals calls) := by
  obtain ⟨env, henv, hd⟩ := Option.map_eq_some_iff.mp h
  have hflags := ubootEnv_flags henv
  have h21 : ¬(2 : Nat) = 1 := by decide
  have hbump : ∀ e : EnvT, ({ e with flags := e.flags + 1 } : EnvT).crcOk ↔ e.crcOk :=
    fun _ => Iff.rfl
  rcases validCopy_cases c with ⟨hv, ok1, _⟩ | ⟨hv, ok1⟩ | ⟨hv, ok2⟩
  · simp only [EnvCopies.relocate, hv, EnvCopies.saveenv, if_true] at hd
    obtain ⟨rfl, rfl⟩ := Prod.mk.inj hd
    rw [current_first_iff ok1, hbump]
    simp [Turn.Sound, hv, henv]
  · simp only [EnvCopies.relocate, hv, EnvCopies.saveenv, if_true] at hd hflags
    obtain ⟨rfl, rfl⟩ := Prod.mk.inj hd
    rw [current_copy2_iff ok1 (by simp [hflags]), hbump]
    simp [Turn.Sound, hv, henv]
  · simp only [EnvCopies.relocate, hv, EnvCopies.saveenv, h21, if_false] at hd hflags
    obtain ⟨rfl, rfl⟩ := Prod.mk.inj hd
    rw [current_copy1_iff ok2 (by simp [hflags]), hbump]
    simp [Turn.Sound, hv, henv, and_comm]

theorem linux_current_iff {c d : EnvCopies} {builtin : List UInt8} {edit : List UInt8 → List UInt8} {w : Nat}
    (h : turnStep cfg nvcfg c (.linux builtin edit) = some (w, d)) :
    d.Current w ↔ Turn.Sound cfg nvcfg c (.linux builtin edit) := by
  have hd := Option.some.inj h
  have h10 : ¬(1 : Nat) = 0 := by decide
  have hcrc : ∀ e : EnvT, ({ envCrcUpdate e with flags := e.flags + 1 } : EnvT).crcOk :=
    fun _ => rfl
  rcases fwCurrent_cases c with ⟨hv, ok1, _⟩ | ⟨hv, ok1⟩ | ⟨hv, ok2⟩
  · simp only [fwSetenv, fwEnvInit, hv, if_true] at hd
    obtain ⟨rfl, rfl⟩ := Prod.mk.inj hd
    rw [current_first_iff ok1]
    simp only [Turn.Sound, hv, reduceCtorEq, false_and, not_false_eq_true, iff_true]
    exact hcrc _
  · simp only [fwSetenv, fwEnvInit, hv, if_true] at hd
    obtain ⟨rfl, rfl⟩ := Prod.mk.inj hd
    rw [current_copy2_iff ok1 rfl]
    have hsource : ¬(some 0 = some 1 ∧ c.copy2.flags = 255) := by simp
    simp only [Turn.Sound, hv, hsource, not_false_eq_true, iff_true]
    exact hcrc _
  · simp only [fwSetenv, fwEnvInit, hv, h10, if_false] at hd
    obtain ⟨rfl, rfl⟩ := Prod.mk.inj hd
    rw [current_copy1_iff ok2 rfl]
    simp only [Turn.Sound, hv, true_and]
    exact and_iff_right (hcrc _)

theorem turnStep_linux (cfg : EnvNandConfig) (nvcfg : NvConfig) (c : EnvCopies)
    (builtin : List UInt8) (edit : List UInt8 → List UInt8) :
    turnStep cfg nvcfg c (.linux builtin edit) =
      some ((fwSetenv builtin edit c).1, (fwSetenv builtin edit c).2) := rfl

/-- After every turn of a run both programs take the copy just written if and only if
no turn starts from a good copy 2 with the serial 255, or saves a bad CRC. -/
theorem uboot_fw_agree_iff (cfg : EnvNandConfig) (nvcfg : NvConfig) (c d : EnvCopies)
    (turns : List Turn) (ws : List Nat)
    (h : Runs.run (turnStep cfg nvcfg) c turns = some (ws, d)) :
    Runs.Meets (turnStep cfg nvcfg) (AgreesAfter cfg nvcfg) c turns ↔
      Runs.Meets (turnStep cfg nvcfg) (Turn.Sound cfg nvcfg) c turns := by
  refine Runs.meets_iff_of_run (fun c t w d hstep => ?_) h
  have hiff : d.Current w ↔ Turn.Sound cfg nvcfg c t := by
    cases t with
    | uboot globals calls => exact uboot_current_iff hstep
    | linux builtin edit => exact linux_current_iff hstep
  rw [← hiff]
  constructor
  · exact fun ha => ha w d hstep
  · intro hcur w' d' hstep'
    obtain ⟨rfl, rfl⟩ := Prod.mk.inj (Option.some.inj (hstep.symm.trans hstep'))
    exact hcur

/-- `a=b` with two NULs behind it, as `fw_setenv` leaves it in an empty environment. -/
def setAB : List UInt8 → List UInt8 := fun d => [97, 61, 98, 0, 0] ++ d.drop 5

def nextToLast : EnvCopies := ⟨envCrcUpdate ⟨0, 254, List.replicate 11 0⟩, ⟨0, 0, [1]⟩⟩

theorem uboot_fw_agree_iff_sample :
    Runs.Meets (turnStep twoBlocks plainConfig) (AgreesAfter twoBlocks plainConfig) nextToLast
      [.linux [] setAB] := by
  have hrun := Runs.run_cons (turnStep_linux twoBlocks plainConfig nextToLast [] setAB)
    (Runs.run_nil _ _)
  have hsource : ¬(fwCurrent nextToLast = some 1 ∧ nextToLast.copy2.flags = 255) := by decide +kernel
  exact (uboot_fw_agree_iff twoBlocks plainConfig _ _ _ _ hrun).mpr ⟨hsource, fun _ _ _ => trivial⟩

/-- The second `fw_setenv` starts from copy 2 with the serial 255: U-Boot takes the new
copy 1, `fw_env` goes on with copy 2. -/
theorem uboot_fw_disagree_after_wrap :
    ∃ ws d, Runs.run (turnStep twoBlocks plainConfig) nextToLast [.linux [] setAB, .linux [] id] =
        some (ws, d) ∧
      ws = [2, 1] ∧ validCopy d.copy1 d.copy2 = some 1 ∧ fwCurrent d = some 1 :=
  ⟨_, _, Runs.run_cons (turnStep_linux twoBlocks plainConfig nextToLast [] setAB)
    (Runs.run_cons (turnStep_linux twoBlocks plainConfig _ [] id) (Runs.run_nil _ _)),
    by decide +kernel, by decide +kernel, by decide +kernel⟩

end UBoot
