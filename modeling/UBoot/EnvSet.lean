import UBoot.Crc32
import UBoot.EnvEdits

namespace UBoot

/-- `env_t`; without a redundant copy the structure has no `flags` byte. -/
structure EnvT where
  crc : UInt32
  flags : UInt8
  data : List UInt8
deriving DecidableEq

def EnvT.crcOk (e : EnvT) : Prop := crc32 0 e.data = e.crc

instance (e : EnvT) : Decidable e.crcOk := inferInstanceAs (Decidable (_ = _))

def envCrcUpdate (e : EnvT) : EnvT := { e with crc := crc32 0 e.data }

theorem envCrcUpdate_crcOk (e : EnvT) : (envCrcUpdate e).crcOk := rfl

@[simp] theorem envCrcUpdate_data (e : EnvT) : (envCrcUpdate e).data = e.data := rfl

/-- The compile-time options that `_do_setenv` looks at. -/
structure NvConfig where
  envOverwrite : Bool
  hasUid : Bool
  /-- `MK_STR(CONFIG_ETHADDR)` under `CONFIG_OVERWRITE_ETHADDR_ONCE`. -/
  ethaddrOnce : Option (List UInt8)
  consoleMux : Bool
  serialMulti : Bool
  cmdNet : Bool
  baudrateTable : List Nat

/-- The copy in RAM and the globals that `_do_setenv` assigns. The address of the board stands as the four bytes that
`htonl` leaves in memory, and `env_id` counts without a bound: only `eth_set_current` compares it. -/
structure NvState where
  env : EnvT
  envId : Nat
  baudrate : Nat
  ipAddr : List UInt8
  loadAddr : Nat
  bootFile : List UInt8
deriving DecidableEq

/-- One call: its arguments, and what `console_assign` (or `iomux_doenv`) and
`serial_assign` answer should the call ask them. -/
structure SetenvCall where
  flag : Nat
  name : CString
  vals : List CString
  assign : Int
  serialAssign : Int

def stdinName : List UInt8 := ascii ['s', 't', 'd', 'i', 'n']
def stdoutName : List UInt8 := ascii ['s', 't', 'd', 'o', 'u', 't']
def stderrName : List UInt8 := ascii ['s', 't', 'd', 'e', 'r', 'r']
def serialName : List UInt8 := ascii ['s', 'e', 'r', 'i', 'a', 'l', '#']
def ethaddrName : List UInt8 := ascii ['e', 't', 'h', 'a', 'd', 'd', 'r']
def baudrateName : List UInt8 := ascii ['b', 'a', 'u', 'd', 'r', 'a', 't', 'e']
def ipaddrName : List UInt8 := ascii ['i', 'p', 'a', 'd', 'd', 'r']
def loadaddrName : List UInt8 := ascii ['l', 'o', 'a', 'd', 'a', 'd', 'd', 'r']
def bootfileName : List UInt8 := ascii ['b', 'o', 'o', 't', 'f', 'i', 'l', 'e']

/-- "Check for console redirection": the code to return with, if any. -/
def consoleReturn (cfg : NvConfig) (c : SetenvCall) : Option Int :=
  if c.name.bytes = stdinName ∨ c.name.bytes = stdoutName ∨ c.name.bytes = stderrName then
    if c.vals = [] then some 1
    else if cfg.consoleMux then if c.assign ≠ 0 then some c.assign else none
    else if c.assign < 0 then some 1
    else if cfg.serialMulti ∧ c.serialAssign < 0 then some 1
    else none
  else none

/-- Names that are set only once, unless `CONFIG_ENV_OVERWRITE` is defined. -/
def readOnly (cfg : NvConfig) (c : SetenvCall) (d : List UInt8) (old : OldDef) : Option Bool :=
  if cfg.envOverwrite then some false
  else if c.name.bytes = serialName ∧ (cfg.hasUid → c.flag ≠ 0xdeaf4add) then some true
  else if c.name.bytes = ethaddrName then
    match cfg.ethaddrOnce with
    | none => some true
    | some dflt => do
      let v ← cstrAt d old.oldval
      pure (v ≠ dflt)
  else some false

/-- `gd->baudrate` after the switch, or `none` when the rate is not supported. A
call without a value reads the string at NULL. -/
def switchBaudrate (cfg : NvConfig) (c : SetenvCall) (now : Nat) : Option (Option Nat) :=
  if c.name.bytes = baudrateName then
    match c.vals with
    | [] => none
    | v :: _ =>
      let baudrate := (simpleStrtoul v.bytes 10).1
      if baudrate ∈ cfg.baudrateTable then some (some baudrate) else some none
  else some (some now)

def dropOld (cfg : NvConfig) (c : SetenvCall) (s : NvState) (old : OldDef) : Option (Except Int NvState) := do
  let locked ← readOnly cfg c s.env.data old
  if locked then pure (.error 1) else do
    let rate ← switchBaudrate cfg c s.baudrate
    match rate with
    | none => pure (.error 1)
    | some rate => do
      let d ← deleteOld s.env.data old
      pure (.ok { s with env := { s.env with data := d }, baudrate := rate })

/-- The four numbers of an address, each read with `simple_strtoul`. -/
def ipBytes : Nat → List UInt8 → List UInt8
  | 0, _ => []
  | n + 1, s =>
    let (val, e) := simpleStrtoul s 10
    UInt8.ofNat val :: ipBytes n (if e = [] then e else e.drop 1)

def copyFilename (src : List UInt8) (size : Nat) : List UInt8 :=
  match src with
  | 34 :: src => (src.takeWhile (· ≠ 34)).take (size - 2)
  | src => (src.takeWhile (· ≠ 34)).take (size - 1)

/-- "Some variables should be updated when the corresponding entry is changed". -/
def updateVars (cfg : NvConfig) (c : SetenvCall) (s : NvState) : NvState :=
  match c.vals with
  | [] => s
  | v :: _ =>
    if c.name.bytes = ethaddrName then s
    else if c.name.bytes = ipaddrName then { s with ipAddr := ipBytes 4 v.bytes }
    else if c.name.bytes = loadaddrName then { s with loadAddr := (simpleStrtoul v.bytes 16).1 }
    else if cfg.cmdNet ∧ c.name.bytes = bootfileName then
      { s with bootFile := copyFilename v.bytes 128 }
    else s

theorem updateVars_env (cfg : NvConfig) (c : SetenvCall) (s : NvState) :
    (updateVars cfg c s).env = s.env := by
  unfold updateVars
  split
  · rfl
  · split
    · rfl
    · split <;> [rfl; (split <;> [rfl; (split <;> rfl)])]

/-- The part of `_do_setenv` behind "Delete only ?". -/
def finishSet (cfg : NvConfig) (c : SetenvCall) (s : NvState) : Option (Int × NvState) :=
  if c.vals = [] then pure (0, { s with env := envCrcUpdate s.env })
  else do
    let env ← appendAt s.env.data
    -- the old definition is gone by now, and the CRC still that of the list with it
    if s.env.data.length - env < defLen c.name c.vals then pure (1, s)
    else do
      let d ← writeDef s.env.data env c.name c.vals
      pure (0, updateVars cfg c { s with env := envCrcUpdate { s.env with data := d } })

/-- `_do_setenv` on the copy in RAM. An access outside its objects has no result. -/
def doSetenv (cfg : NvConfig) (s : NvState) (c : SetenvCall) : Option (Int × NvState) :=
  if equalsSign ∈ c.name.bytes then pure (1, s)
  else do
    let s := { s with envId := s.envId + 1 }
    let old ← searchVar s.env.data c.name.bytes
    match consoleReturn cfg c with
    | some rc => pure (rc, s)
    | none =>
      match old with
      | none => finishSet cfg c s
      | some old => do
        match ← dropOld cfg c s old with
        | .error rc => pure (rc, s)
        | .ok s => finishSet cfg c s

/-- The image of the last `saveenv` that returned 0, and those of the later ones
that failed or were cut. -/
structure SaveHistory where
  saved : Option EnvT
  later : List EnvT

/-- The history with one more `saveenv`. -/
def SaveHistory.after (h : SaveHistory) (image : EnvT) (r : Option Int) : SaveHistory :=
  if r = some 0 then ⟨some image, []⟩ else ⟨h.saved, image :: h.later⟩

/-- `e` is not older than the last save that returned 0. -/
def SaveHistory.Current (h : SaveHistory) (e : EnvT) : Prop :=
  ∀ img, h.saved = some img → e = img ∨ e ∈ h.later

theorem SaveHistory.Current.after {h : SaveHistory} {e : EnvT} (hc : h.Current e) (image : EnvT)
    {r : Option Int} (hr : r ≠ some 0) : (h.after image r).Current e := by
  intro img himg
  simp only [SaveHistory.after, hr, if_false] at himg ⊢
  exact (hc img himg).imp_right (List.mem_cons_of_mem image)

theorem SaveHistory.current_image (h : SaveHistory) (image : EnvT) (r : Option Int) :
    (h.after image r).Current image := by
  intro img himg
  unfold SaveHistory.after at himg ⊢
  split at himg
  next hr =>
    rw [if_pos hr]
    exact .inl (Option.some.inj himg)
  next hr =>
    rw [if_neg hr]
    exact .inr (by simp)

/-- `env_t` with a `flags` byte as it lies in memory, little-endian. -/
def EnvT.bytes (e : EnvT) : List UInt8 :=
  [UInt8.ofNat e.crc.toNat, UInt8.ofNat (e.crc.toNat / 2 ^ 8), UInt8.ofNat (e.crc.toNat / 2 ^ 16),
    UInt8.ofNat (e.crc.toNat / 2 ^ 24), e.flags] ++ e.data

/-- Memory of at least the size of the header seen as an `env_t`. -/
def EnvT.ofBytes : List UInt8 → EnvT
  | b₀ :: b₁ :: b₂ :: b₃ :: flags :: data =>
    ⟨UInt32.ofNat (b₀.toNat + 2 ^ 8 * b₁.toNat + 2 ^ 16 * b₂.toNat + 2 ^ 24 * b₃.toNat), flags, data⟩
  | _ => ⟨0, 0, []⟩

/-- `ENV_HEADER_SIZE` of a redundant environment. -/
def envHeaderSize : Nat := 5

/-- What `set_default_env` leaves in an environment of `size` bytes of data. -/
def setDefaultEnv (size : Nat) (defaults : List UInt8) : EnvT :=
  envCrcUpdate ⟨0, 0xff, defaults ++ List.replicate (size - defaults.length) 0⟩

theorem setDefaultEnv_length {size : Nat} {defaults : List UInt8} (h : defaults.length ≤ size) :
    (setDefaultEnv size defaults).data.length = size := by
  simp only [setDefaultEnv, envCrcUpdate_data, List.length_append, List.length_replicate]
  omega

theorem EnvT.bytes_length (e : EnvT) : e.bytes.length = envHeaderSize + e.data.length := by
  simp [EnvT.bytes, envHeaderSize]
  omega

theorem EnvT.ofBytes_bytes (e : EnvT) : EnvT.ofBytes e.bytes = e := by
  have hc : e.crc.toNat < 2 ^ 32 := e.crc.toNat_lt
  have hsum : e.crc.toNat % 2 ^ 8 + 2 ^ 8 * (e.crc.toNat / 2 ^ 8 % 2 ^ 8) +
      2 ^ 16 * (e.crc.toNat / 2 ^ 16 % 2 ^ 8) + 2 ^ 24 * (e.crc.toNat / 2 ^ 24 % 2 ^ 8) =
        e.crc.toNat := by omega
  have hcrc : (EnvT.ofBytes e.bytes).crc = e.crc := by
    apply UInt32.toNat_inj.mp
    simp only [EnvT.bytes, EnvT.ofBytes, List.cons_append, UInt8.toNat_ofNat']
    rw [hsum]
    simp
  cases e
  simpa [EnvT.bytes, EnvT.ofBytes] using hcrc

theorem EnvT.ofBytes_data_length {bs : List UInt8} (h : envHeaderSize ≤ bs.length) :
    (EnvT.ofBytes bs).data.length = bs.length - envHeaderSize := by
  match bs, h with
  | b₀ :: b₁ :: b₂ :: b₃ :: flags :: data, _ => simp [EnvT.ofBytes, envHeaderSize]

end UBoot
