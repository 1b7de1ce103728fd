import UBoot.EnvCrc
import UBoot.EnvSet
import UBoot.EnvNandSave

namespace UBoot

open FlashCells

variable {cfg : EnvNandConfig} {nvcfg : NvConfig}
variable {buf1 buf2 : List UInt8} {globals : NvState} {h : SaveHistory}

inductive EnvNandCmd
  | setenv (c : SetenvCall)
  | saveenv (f : SaveFaults)
  | reboot (buf1 buf2 : List UInt8) (globals : NvState)

def envNandStep (cfg : EnvNandConfig) (nvcfg : NvConfig) (s : EnvNandBoard) :
    EnvNandCmd → Option (Option Int × EnvNandBoard)
  | .setenv c => do
    if s.powered then
      let (r, nv) ← doSetenv nvcfg s.nv c
      pure (some r, { s with nv := nv })
    else none
  | .saveenv f => if s.powered then some (saveenv cfg f s) else none
  | .reboot buf1 buf2 globals => some (some 0, envRelocateSpec cfg buf1 buf2 globals s)

def EnvNandCmd.record (s : EnvNandBoard) (h : SaveHistory) (r : Option Int) : EnvNandCmd → SaveHistory
  | .saveenv _ => h.after s.image r
  | _ => h

def recordedStep (cfg : EnvNandConfig) (nvcfg : NvConfig) (p : EnvNandBoard × SaveHistory)
    (c : EnvNandCmd) : Option (Option Int × EnvNandBoard × SaveHistory) := do
  let (r, t) ← envNandStep cfg nvcfg p.1 c
  pure (r, t, c.record p.1 p.2 r)

/-- Copy number `v` with the serial `mine` is preferred to the other one. -/
def Outranks (v : Nat) (mine theirs : UInt8) : Prop :=
  if v = 1 then serialValid mine theirs = 1 else serialValid theirs mine = 2

instance (v : Nat) (mine theirs : UInt8) : Decidable (Outranks v mine theirs) :=
  inferInstanceAs (Decidable (ite _ _ _))

/-- The CRC rejects what is neither a whole old nor a whole new copy. -/
def CrcRejects (cfg : EnvNandConfig) (s : EnvNandBoard) : EnvNandCmd → Prop
  | .setenv _ => True
  | .saveenv f => ∀ e ∈ goodCopy cfg (s.target cfg) (saveenv cfg f s).2.flash,
      e = s.image ∨ e ∈ goodCopy cfg (s.target cfg) s.flash
  | .reboot buf1 buf2 _ =>
      ((readenv cfg cfg.envOffset buf1 s.flash).1 ≠ 0 →
        ¬(EnvT.ofBytes (readenv cfg cfg.envOffset buf1 s.flash).2).crcOk) ∧
      ((readenv cfg cfg.envOffsetRedund buf2 s.flash).1 ≠ 0 →
        ¬(EnvT.ofBytes (readenv cfg cfg.envOffsetRedund buf2 s.flash).2).crcOk)

instance (s : EnvNandBoard) (c : EnvNandCmd) : Decidable (CrcRejects cfg s c) :=
  match c with
  | .setenv _ => isTrue trivial
  | .saveenv _ => inferInstanceAs (Decidable (∀ e ∈ (_ : Option EnvT), _ ∨ _))
  | .reboot _ _ _ => inferInstanceAs (Decidable (_ ∧ _))

/-- A `saveenv` after which the next boot takes the new image. -/
structure SaveSafe (cfg : EnvNandConfig) (s : EnvNandBoard) (f : SaveFaults) : Prop where
  crc : s.nv.env.crcOk
  erased : ∀ a ∈ cfg.used (s.target cfg), ∀ left, f.erase a ≠ .fails left
  newest : ∀ k ∈ goodCopy cfg (s.kept cfg) s.flash,
    Outranks (if s.envValid = 2 then 1 else 2) (s.nv.env.flags + 1) k.flags

def SafeStep (cfg : EnvNandConfig) (s : EnvNandBoard) : EnvNandCmd → Prop
  | .saveenv f => Completes cfg s f → SaveSafe cfg s f
  | _ => True

structure EnvNandInv (cfg : EnvNandConfig) (p : EnvNandBoard × SaveHistory) : Prop where
  valid : p.1.powered = true → p.1.envValid = 1 ∨ p.1.envValid = 2
  length : p.1.powered = true → p.1.nv.env.data.length = cfg.envSize - envHeaderSize
  newest : ∀ img, p.2.saved = some img → ∃ k, goodCopy cfg (p.1.kept cfg) p.1.flash = some k ∧
    (k = img ∨ k ∈ p.2.later) ∧
    ∀ o, goodCopy cfg (p.1.target cfg) p.1.flash = some o →
      (o = img ∨ o ∈ p.2.later) ∨ Outranks p.1.envValid k.flags o.flags

theorem serialValid_cases (a b : UInt8) : serialValid a b = 1 ∨ serialValid a b = 2 := by
  unfold serialValid
  split
  · exact .inr rfl
  · split
    · exact .inl rfl
    · split
      · exact .inl rfl
      · split <;> [exact .inr rfl; exact .inl rfl]

theorem goodCopy_readenv {offset : Nat} {buf : List UInt8} {m : Flash}
    (h : (readenv cfg offset buf m).1 ≠ 0 → ¬(EnvT.ofBytes (readenv cfg offset buf m).2).crcOk) :
    goodCopy cfg offset m = if (EnvT.ofBytes (readenv cfg offset buf m).2).crcOk then
      some (EnvT.ofBytes (readenv cfg offset buf m).2) else none := by
  cases hr : readCopy cfg offset m with
  | some e =>
    rw [readenv_copy hr]
    simp [goodCopy, hr, Option.filter]
  | none =>
    have hl : (readChunks cfg m (cfg.blocks offset) []).length ≠ cfg.envSize := by
      simpa [readCopy] using hr
    have hrc : (readenv cfg offset buf m).1 ≠ 0 := by simp [readenv, hl]
    simp [goodCopy, hr, h hrc]

theorem envRelocateSpec_cases {s : EnvNandBoard} (hc : CrcRejects cfg s (.reboot buf1 buf2 globals)) :
    (goodCopy cfg cfg.envOffset s.flash = none ∧ goodCopy cfg cfg.envOffsetRedund s.flash = none ∧
      envRelocateSpec cfg buf1 buf2 globals s = ⟨s.flash, { globals with env := cfg.default }, 1, true⟩) ∨
    ∃ k v, (v = 1 ∨ v = 2) ∧
      envRelocateSpec cfg buf1 buf2 globals s = ⟨s.flash, { globals with env := k }, v, true⟩ ∧
      goodCopy cfg (if v = 1 then cfg.envOffset else cfg.envOffsetRedund) s.flash = some k ∧
      ∀ o, goodCopy cfg (if v = 1 then cfg.envOffsetRedund else cfg.envOffset) s.flash = some o →
        Outranks v k.flags o.flags := by
  have h1 := goodCopy_readenv hc.1
  have h2 := goodCopy_readenv hc.2
  unfold envRelocateSpec
  generalize EnvT.ofBytes (readenv cfg cfg.envOffset buf1 s.flash).2 = tmp1 at h1 ⊢
  generalize EnvT.ofBytes (readenv cfg cfg.envOffsetRedund buf2 s.flash).2 = tmp2 at h2 ⊢
  by_cases ok1 : tmp1.crcOk
  · rw [if_pos ok1] at h1
    by_cases ok2 : tmp2.crcOk
    · rw [if_pos ok2] at h2
      refine .inr ?_
      rcases serialValid_cases tmp1.flags tmp2.flags with hv | hv
      · refine ⟨tmp1, 1, .inl rfl, by simp [validCopy, ok1, ok2, hv], by simpa using h1, ?_⟩
        intro o ho
        cases Option.some.inj (h2.symm.trans (by simpa using ho))
        simpa [Outranks] using hv
      · refine ⟨tmp2, 2, .inr rfl, by simp [validCopy, ok1, ok2, hv], by simpa using h2, ?_⟩
        intro o ho
        cases Option.some.inj (h1.symm.trans (by simpa using ho))
        simpa [Outranks] using hv
    · rw [if_neg ok2] at h2
      exact .inr ⟨tmp1, 1, .inl rfl, by simp [validCopy, ok1, ok2], by simpa using h1,
        by simp [h2]⟩
  · rw [if_neg ok1] at h1
    by_cases ok2 : tmp2.crcOk
    · rw [if_pos ok2] at h2
      exact .inr ⟨tmp2, 2, .inr rfl, by simp [validCopy, ok1, ok2], by simpa using h2,
        by simp [h1]⟩
    · rw [if_neg ok2] at h2
      exact .inl ⟨h1, h2, by simp [validCopy, ok1, ok2]⟩

theorem Outranks.not_both {v w : Nat} {a b : UInt8} (h : v = 1 ↔ ¬w = 1) (ha : Outranks v a b)
    (hb : Outranks w b a) : False := by
  unfold Outranks at ha hb
  by_cases hv : v = 1
  · rw [if_pos hv] at ha
    rw [if_neg (h.mp hv), ha] at hb
    exact absurd hb (by decide)
  · have hw : w = 1 := by
      by_contra hw
      exact hv (h.mpr hw)
    rw [if_neg hv] at ha
    rw [if_pos hw, ha] at hb
    exact absurd hb (by decide)

theorem EnvNandInv.boot {s : EnvNandBoard} (hi : EnvNandInv cfg (s, h))
    (hc : CrcRejects cfg s (.reboot buf1 buf2 globals)) :
    h.Current (envRelocateSpec cfg buf1 buf2 globals s).nv.env := by
  intro img himg
  obtain ⟨k, hk, hcur, hothers⟩ := hi.newest img himg
  simp only [EnvNandBoard.kept, EnvNandBoard.target] at hk hothers
  rcases envRelocateSpec_cases hc with ⟨h1, h2, _⟩ | ⟨k', v, _, hb, hk', ho⟩
  · split at hk
    · rw [h1] at hk; cases hk
    · rw [h2] at hk; cases hk
  · rw [hb]
    by_cases hv : v = 1 ↔ s.envValid = 1
    · simp only [hv] at hk'
      cases Option.some.inj (hk.symm.trans hk')
      exact hcur
    · have hflip : (s.envValid = 1 ↔ ¬v = 1) := by tauto
      have hk'' : goodCopy cfg (if s.envValid = 1 then cfg.envOffsetRedund else cfg.envOffset)
          s.flash = some k' := by
        by_cases hw : v = 1
        · simpa [hw, show ¬s.envValid = 1 by tauto] using hk'
        · simpa [hw, show s.envValid = 1 by tauto] using hk'
      rcases hothers k' hk'' with hcur' | hrank
      · exact hcur'
      · refine (hrank.not_both hflip (ho k ?_)).elim
        by_cases hw : v = 1
        · simpa [hw, show ¬s.envValid = 1 by tauto] using hk
        · simpa [hw, show s.envValid = 1 by tauto] using hk

theorem EnvNandInv.reboot {s : EnvNandBoard} (hi : EnvNandInv cfg (s, h))
    (hc : CrcRejects cfg s (.reboot buf1 buf2 globals)) :
    EnvNandInv cfg (envRelocateSpec cfg buf1 buf2 globals s, h) := by
  have hcur := hi.boot hc
  rcases envRelocateSpec_cases hc with ⟨h1, h2, hb⟩ | ⟨k, v, hv, hb, hk, ho⟩
  · rw [hb]
    refine ⟨fun _ => .inl rfl, fun _ => setDefaultEnv_length cfg.defaultFits, fun img himg => ?_⟩
    obtain ⟨k, hk, _⟩ := hi.newest img himg
    simp only [EnvNandBoard.kept] at hk
    split at hk
    · rw [h1] at hk; cases hk
    · rw [h2] at hk; cases hk
  · rw [hb] at hcur ⊢
    refine ⟨fun _ => hv, fun _ => goodCopy_length hk, fun img himg => ?_⟩
    exact ⟨k, hk, hcur img himg, fun o hgood => .inr (ho o hgood)⟩

theorem EnvNandInv.saveenv {s : EnvNandBoard} (hi : EnvNandInv cfg (s, h))
    (hp : s.powered = true) {f : SaveFaults} (hc : CrcRejects cfg s (.saveenv f))
    (hsafe : SafeStep cfg s (.saveenv f)) :
    EnvNandInv cfg ((saveenv cfg f s).2, h.after s.image (saveenv cfg f s).1) := by
  have hlen := hi.length hp
  have hkept : goodCopy cfg (s.kept cfg) (UBoot.saveenv cfg f s).2.flash =
      goodCopy cfg (s.kept cfg) s.flash := congrArg (Option.filter _) (saveenv_kept cfg f s)
  rcases saveenv_cases cfg f s with ⟨_, _, m, _, _, hsave⟩ | ⟨r, m, p, hne, hpow, hsave, _⟩
  · have hret : (UBoot.saveenv cfg f s).1 = some 0 := by rw [hsave]
    have hgood := hsafe (saveenv_completes hret)
    have hstored := saveenv_stores hret hlen hgood.erased
    have hcrc : s.image.crcOk := hgood.crc
    have hcopy : goodCopy cfg (s.target cfg) m = some s.image := by
      rw [hsave] at hstored
      simp [goodCopy, hstored, Option.filter, hcrc]
    rw [hsave] at hkept ⊢
    simp only [SaveHistory.after, if_true]
    refine ⟨fun _ => by split <;> simp, fun _ => hlen, fun img himg => ?_⟩
    cases Option.some.inj himg
    have hflip : ((if s.envValid = 2 then 1 else 2) = 1) ↔ ¬s.envValid = 1 := by
      rcases hi.valid hp with hv | hv <;> simp at hv <;> simp [hv]
    refine ⟨s.image, ?_, .inl rfl, fun o ho => .inr (hgood.newest o ?_)⟩
    · simpa [EnvNandBoard.kept, EnvNandBoard.target, hflip] using hcopy
    · rw [← hkept]
      simpa [EnvNandBoard.kept, EnvNandBoard.target, hflip] using ho
  · have hrec : h.after s.image r = ⟨h.saved, s.image :: h.later⟩ := by
      simp [SaveHistory.after, hne]
    simp only [CrcRejects] at hc
    rw [hsave] at hkept hc ⊢
    rw [hrec]
    refine ⟨fun h => hi.valid hp, fun _ => hlen, fun img himg => ?_⟩
    obtain ⟨k, hk, hcur, hothers⟩ := hi.newest img himg
    refine ⟨k, hkept.trans hk, hcur.imp_right (List.mem_cons_of_mem _), fun o ho => ?_⟩
    rcases hc o ho with rfl | hold
    · exact .inl (.inr (by simp))
    · exact (hothers o hold).imp_left fun ho => ho.imp_right (List.mem_cons_of_mem _)

theorem recordedStep_saveenv {s : EnvNandBoard} {f : SaveFaults}
    {r : Option Int} (hp : s.powered = true) (hr : (saveenv cfg f s).1 = r) :
    recordedStep cfg nvcfg (s, h) (.saveenv f) = some (r, (saveenv cfg f s).2, h.after s.image r) := by
  simp [recordedStep, envNandStep, hp, ← hr, EnvNandCmd.record]

theorem recordedStep_setenv {s : EnvNandBoard} {c : SetenvCall} {r : Int}
    {nv : NvState} (hp : s.powered = true) (hset : doSetenv nvcfg s.nv c = some (r, nv)) :
    recordedStep cfg nvcfg (s, h) (.setenv c) = some (some r, { s with nv := nv }, h) := by
  simp [recordedStep, envNandStep, hp, hset, EnvNandCmd.record]

theorem EnvNandInv.step {p q : EnvNandBoard × SaveHistory} {c : EnvNandCmd} {r : Option Int}
    (hi : EnvNandInv cfg p) (hc : CrcRejects cfg p.1 c ∧ SafeStep cfg p.1 c)
    (h : recordedStep cfg nvcfg p c = some (r, q)) : EnvNandInv cfg q := by
  obtain ⟨⟨r', t⟩, hstep, h⟩ := Option.bind_eq_some_iff.mp h
  cases h
  cases c with
  | setenv c =>
    simp only [envNandStep] at hstep
    split at hstep
    next hp =>
      obtain ⟨⟨rc, nv⟩, hset, hstep⟩ := Option.bind_eq_some_iff.mp hstep
      cases hstep
      exact ⟨hi.valid, fun _ => (doSetenv_data_length hset).trans (hi.length hp), hi.newest⟩
    · simp at hstep
  | saveenv f =>
    simp only [envNandStep] at hstep
    split at hstep
    next hp =>
      have hsave := Option.some.inj hstep
      have hnext := hi.saveenv hp hc.1 hc.2
      rw [hsave] at hnext
      exact hnext
    · simp at hstep
  | reboot buf1 buf2 globals =>
    cases hstep
    exact hi.reboot hc.1

/-- Along every run whose completed saves are safe, a boot never takes an environment
older than the last save that returned 0. -/
theorem nand_env_never_older (cfg : EnvNandConfig) (nvcfg : NvConfig) (s : EnvNandBoard)
    (hoff : s.powered = false) (cmds : List EnvNandCmd) (rs : List (Option Int))
    (t : EnvNandBoard) (h : SaveHistory)
    (hmeets : Runs.Meets (recordedStep cfg nvcfg)
      (fun p c => CrcRejects cfg p.1 c ∧ SafeStep cfg p.1 c) (s, ⟨none, []⟩) cmds)
    (hrun : Runs.run (recordedStep cfg nvcfg) (s, ⟨none, []⟩) cmds = some (rs, t, h))
    (buf1 buf2 : List UInt8) (globals : NvState)
    (hboot : CrcRejects cfg t (.reboot buf1 buf2 globals)) :
    h.Current (envRelocateSpec cfg buf1 buf2 globals t).nv.env := by
  have hstart : EnvNandInv cfg (s, ⟨none, []⟩) := ⟨by simp [hoff], by simp [hoff], by simp⟩
  exact (Runs.run_invariant (fun _ _ _ _ hi hc h => hi.step hc h) hstart hmeets hrun).boot hboot

def twoBlocks : EnvNandConfig where
  envSize := 16
  envRange := 16
  envOffset := 0
  envOffsetRedund := 16
  erasesize := 16
  isbad _ := false
  defaultEnvironment := []
  header := by decide
  erasable := by decide
  divides := by decide
  apart := by decide
  defaultFits := by decide

def blankBoard : EnvNandBoard := ⟨fun _ => 0xff, oneVar 11, 0, false⟩

def noFaults : SaveFaults := ⟨fun _ => .done, fun _ => .done⟩

def writeCut : SaveFaults := ⟨fun _ => .done, fun _ => .cut fun _ => 0xff⟩

def booted (s : EnvNandBoard) : EnvNandBoard := envRelocateSpec twoBlocks [] [] (oneVar 11) s

def saved (f : SaveFaults) (s : EnvNandBoard) : EnvNandBoard := (saveenv twoBlocks f s).2

/-- A first start, a save, and a save that power is lost in. -/
theorem nand_env_never_older_cut : (SaveHistory.mk (some (booted blankBoard).image)
      [(saved noFaults (booted blankBoard)).image]).Current
        (booted (saved writeCut (saved noFaults (booted blankBoard)))).nv.env := by
  have hboot : recordedStep twoBlocks plainConfig (blankBoard, ⟨none, []⟩)
      (.reboot [] [] (oneVar 11)) = some (some 0, booted blankBoard, ⟨none, []⟩) := rfl
  have hsave : recordedStep twoBlocks plainConfig (booted blankBoard, ⟨none, []⟩)
      (.saveenv noFaults) = some (some 0, saved noFaults (booted blankBoard),
        ⟨some (booted blankBoard).image, []⟩) :=
    recordedStep_saveenv (by decide +kernel) (by decide +kernel)
  have hcut : recordedStep twoBlocks plainConfig
      (saved noFaults (booted blankBoard), ⟨some (booted blankBoard).image, []⟩)
      (.saveenv writeCut) = some (none, saved writeCut (saved noFaults (booted blankBoard)),
        ⟨some (booted blankBoard).image, [(saved noFaults (booted blankBoard)).image]⟩) :=
    recordedStep_saveenv (by decide +kernel) (by decide +kernel)
  have hsafe : SaveSafe twoBlocks (booted blankBoard) noFaults :=
    ⟨by decide +kernel, by simp [noFaults], by decide +kernel⟩
  have huncut : ¬Completes twoBlocks (saved noFaults (booted blankBoard)) writeCut := by
    intro hc
    have hw := hc.written 0 (by decide +kernel)
    simp [writeCut] at hw
  have hsafe₂ : SafeStep twoBlocks (booted blankBoard) (.saveenv noFaults) := fun _ => hsafe
  have hsafe₃ : SafeStep twoBlocks (saved noFaults (booted blankBoard)) (.saveenv writeCut) :=
    fun h => absurd h huncut
  have hcrc₁ : CrcRejects twoBlocks blankBoard (.reboot [] [] (oneVar 11)) := by decide +kernel
  have hcrc₂ : CrcRejects twoBlocks (booted blankBoard) (.saveenv noFaults) := by decide +kernel
  have hcrc₃ : CrcRejects twoBlocks (saved noFaults (booted blankBoard)) (.saveenv writeCut) := by
    decide +kernel
  have hcrc₄ : CrcRejects twoBlocks (saved writeCut (saved noFaults (booted blankBoard)))
      (.reboot [] [] (oneVar 11)) := by decide +kernel
  generalize booted blankBoard = s₁ at *
  generalize saved noFaults s₁ = s₂ at *
  generalize saved writeCut s₂ = s₃ at *
  have hmeets : Runs.Meets (recordedStep twoBlocks plainConfig)
      (fun p c => CrcRejects twoBlocks p.1 c ∧ SafeStep twoBlocks p.1 c) (blankBoard, ⟨none, []⟩)
      [.reboot [] [] (oneVar 11), .saveenv noFaults, .saveenv writeCut] := by
    refine Runs.Meets.cons hboot ⟨hcrc₁, trivial⟩ (Runs.Meets.cons hsave ?_ ?_)
    · exact ⟨hcrc₂, hsafe₂⟩
    · exact Runs.Meets.cons hcut ⟨hcrc₃, hsafe₃⟩ trivial
  have hrun := Runs.run_cons hboot (Runs.run_cons hsave (Runs.run_cons hcut (Runs.run_nil _ _)))
  exact nand_env_never_older twoBlocks plainConfig blankBoard rfl _ _ _ _ hmeets hrun [] []
    (oneVar 11) hcrc₄

/-- The environment as the user sees it: the one in RAM, over the two copies. -/
structure EnvSystem where
  copies : EnvCopies
  nv : NvState
  envValid : Nat

/-- A command on the copies: a `saveenv` succeeds, and a boot takes the copy that is valid and newer. -/
def EnvSystem.step (cfg : EnvNandConfig) (nvcfg : NvConfig) (a : EnvSystem) :
    EnvNandCmd → Option (Option Int × EnvSystem)
  | .setenv c => (doSetenv nvcfg a.nv c).map fun r => (some r.1, { a with nv := r.2 })
  | .saveenv _ =>
    let saved := a.copies.saveenv a.nv.env a.envValid
    some (some 0, ⟨saved.2, { a.nv with env := { a.nv.env with flags := a.nv.env.flags + 1 } }, saved.1⟩)
  | .reboot _ _ globals =>
    let found := a.copies.relocate cfg
    some (some 0, ⟨a.copies, { globals with env := found.1 }, found.2⟩)

/-- A board that is on, with the copies in its flash. -/
structure EnvNandBoard.Refines (cfg : EnvNandConfig) (s : EnvNandBoard) (a : EnvSystem) : Prop where
  copies : Reads cfg s.flash a.copies
  nv : s.nv = a.nv
  valid : s.envValid = a.envValid
  powered : s.powered = true
  number : s.envValid = 1 ∨ s.envValid = 2
  length : s.nv.env.data.length = cfg.envSize - envHeaderSize

/-- A `setenv` on an environment that is not damaged, or a `saveenv` that returns 0 and has erased what it wrote. -/
def Succeeds (cfg : EnvNandConfig) (nvcfg : NvConfig) (s : EnvNandBoard) : EnvNandCmd → Prop
  | .setenv c => doSetenv nvcfg s.nv c ≠ none
  | .saveenv f =>
    (saveenv cfg f s).1 = some 0 ∧ ∀ a ∈ cfg.used (s.target cfg), ∀ left, f.erase a ≠ .fails left
  | .reboot _ _ _ => True

theorem EnvCopies.relocate_cases {m : Flash} {c : EnvCopies} (h : Reads cfg m c) :
    ((c.relocate cfg).2 = 1 ∨ (c.relocate cfg).2 = 2) ∧
      (c.relocate cfg).1.data.length = cfg.envSize - envHeaderSize := by
  have hcopy : ∀ v, (if v = 1 then c.copy1 else c.copy2).data.length = cfg.envSize - envHeaderSize := by
    intro v
    split
    · exact readCopy_length h.1
    · exact readCopy_length h.2
  unfold EnvCopies.relocate validCopy
  split
  · exact ⟨.inl rfl, setDefaultEnv_length cfg.defaultFits⟩
  next v hv =>
    refine ⟨?_, hcopy v⟩
    split_ifs at hv <;> cases hv
    · exact serialValid_cases _ _
    · exact .inl rfl
    · exact .inr rfl

theorem envNandStep_setenv {s : EnvNandBoard} {c : SetenvCall} {r : Int} {nv : NvState} (hp : s.powered = true)
    (h : doSetenv nvcfg s.nv c = some (r, nv)) :
    envNandStep cfg nvcfg s (.setenv c) = some (some r, { s with nv := nv }) := by
  simp [envNandStep, hp, h]

theorem EnvNandBoard.Refines.step {s : EnvNandBoard} {a : EnvSystem} {c : EnvNandCmd} (h : s.Refines cfg a)
    (hc : Succeeds cfg nvcfg s c) :
    ∃ r t b, envNandStep cfg nvcfg s c = some (r, t) ∧ a.step cfg nvcfg c = some (r, b) ∧ t.Refines cfg b := by
  cases c with
  | setenv c =>
    obtain ⟨⟨r, nv⟩, hset⟩ := Option.ne_none_iff_exists'.mp hc
    refine ⟨some r, { s with nv := nv }, { a with nv := nv }, envNandStep_setenv h.powered hset, ?_,
      ⟨h.copies, rfl, h.valid, h.powered, h.number, (doSetenv_data_length hset).trans h.length⟩⟩
    simp [EnvSystem.step, ← h.nv, hset]
  | saveenv f =>
    obtain ⟨hret, herased⟩ := hc
    have hreads := saveenv_refines h.copies hret h.length herased
    have hstep : envNandStep cfg nvcfg s (.saveenv f) = some (saveenv cfg f s) := if_pos h.powered
    rcases saveenv_cases cfg f s with ⟨_, m₁, m₂, _, _, hsave⟩ | ⟨r, m, p, hne, _, hsave, _⟩
    · rw [hsave] at hreads hstep
      refine ⟨_, _, _, hstep, rfl, ⟨?_, ?_, ?_, h.powered, ?_, h.length⟩⟩
      · rw [← h.nv, ← h.valid]
        exact hreads
      · rw [← h.nv]
        rfl
      · have hnumber := h.number
        rw [← h.valid, EnvCopies.saveenv]
        rcases hnumber with hv | hv <;> simp [hv]
      · dsimp only
        split <;> simp
    · rw [hsave] at hret
      exact absurd hret hne
  | reboot buf1 buf2 globals =>
    obtain ⟨hnumber, hlength⟩ := EnvCopies.relocate_cases h.copies
    exact ⟨_, _, _, congrArg (fun t => some (some 0, t)) (envRelocateSpec_refines h.copies buf1 buf2 globals), rfl,
      ⟨h.copies, rfl, rfl, rfl, hnumber, hlength⟩⟩

/-- In runs in which every `setenv` and `saveenv` succeeds, with boots in between, the board answers as the copies do,
and its flash holds what they have become. -/
theorem env_run_refines {s : EnvNandBoard} {a : EnvSystem} (h : s.Refines cfg a) (cmds : List EnvNandCmd)
    (hc : Runs.Meets (envNandStep cfg nvcfg) (Succeeds cfg nvcfg) s cmds) :
    ∃ rs t b, Runs.run (envNandStep cfg nvcfg) s cmds = some (rs, t) ∧
      Runs.run (EnvSystem.step cfg nvcfg) a cmds = some (rs, b) ∧ t.Refines cfg b :=
  Runs.run_refines_where (fun _ _ _ h hc => h.step hc) h hc

def blankCopy : EnvT := EnvT.ofBytes (List.replicate 16 0xff)

/-- A save and a boot on a board whose flash is blank. -/
theorem env_run_refines_blank : ∃ rs t b, Runs.run (envNandStep twoBlocks plainConfig) (booted blankBoard)
        [.saveenv noFaults, .reboot [] [] (oneVar 11)] = some (rs, t) ∧
      Runs.run (EnvSystem.step twoBlocks plainConfig) ⟨⟨blankCopy, blankCopy⟩, (booted blankBoard).nv, 1⟩
        [.saveenv noFaults, .reboot [] [] (oneVar 11)] = some (rs, b) ∧ t.Refines twoBlocks b := by
  have hstart : (booted blankBoard).Refines twoBlocks ⟨⟨blankCopy, blankCopy⟩, (booted blankBoard).nv, 1⟩ :=
    ⟨⟨by decide +kernel, by decide +kernel⟩, by dsimp only, by decide +kernel, by decide +kernel, by decide +kernel,
      by decide +kernel⟩
  have hsave : Succeeds twoBlocks plainConfig (booted blankBoard) (.saveenv noFaults) := by
    refine ⟨by decide +kernel, fun _ _ _ hfails => ?_⟩
    cases hfails
  exact env_run_refines hstart _ ⟨hsave, fun _ _ _ => ⟨trivial, fun _ _ _ => trivial⟩⟩

/-- Copy 1 holds `a=b` with the serial 254, copy 2 is blank. -/
def wrapBoard : EnvNandBoard :=
  ⟨program (fun _ => 0xff) 0 (EnvT.bytes { (oneVar 11).env with flags := 254 }), oneVar 11, 0, false⟩

def writeFails : SaveFaults := ⟨fun _ => .done, fun _ => .fails fun _ => 0xff⟩

def setC : SetenvCall := setCall letterA [letter 99 (by decide)]

def changed (s : EnvNandBoard) : EnvNandBoard :=
  { s with nv := ((doSetenv plainConfig s.nv setC).getD (0, s.nv)).2 }

/-- `setenv a c`, a save that fails and a save that returns 0: the next boot is back
at `a=b`, because the serial 0 of the new copy does not outrank 254. -/
theorem nand_env_older_after_failed_save :
    ∃ t h, Runs.Meets (recordedStep twoBlocks plainConfig) (fun p c => CrcRejects twoBlocks p.1 c)
        (wrapBoard, ⟨none, []⟩)
        [.reboot [] [] (oneVar 11), .setenv setC, .saveenv writeFails, .saveenv noFaults] ∧
      Runs.run (recordedStep twoBlocks plainConfig) (wrapBoard, ⟨none, []⟩)
        [.reboot [] [] (oneVar 11), .setenv setC, .saveenv writeFails, .saveenv noFaults] =
          some ([some 0, some 0, some 1, some 0], t, h) ∧
      CrcRejects twoBlocks t (.reboot [] [] (oneVar 11)) ∧
      ¬h.Current (envRelocateSpec twoBlocks [] [] (oneVar 11) t).nv.env ∧
      getenvValue 16 t.nv.env.data [97] = some (some [99]) ∧
      getenvValue 16 (envRelocateSpec twoBlocks [] [] (oneVar 11) t).nv.env.data [97] = some (some [98]) := by
  have hboot : recordedStep twoBlocks plainConfig (wrapBoard, ⟨none, []⟩)
      (.reboot [] [] (oneVar 11)) = some (some 0, booted wrapBoard, ⟨none, []⟩) := rfl
  have hset : recordedStep twoBlocks plainConfig (booted wrapBoard, ⟨none, []⟩) (.setenv setC) =
      some (some 0, changed (booted wrapBoard), ⟨none, []⟩) :=
    recordedStep_setenv (by decide +kernel) (by decide +kernel)
  have hfail : recordedStep twoBlocks plainConfig (changed (booted wrapBoard), ⟨none, []⟩)
      (.saveenv writeFails) = some (some 1, saved writeFails (changed (booted wrapBoard)),
        ⟨none, [(changed (booted wrapBoard)).image]⟩) :=
    recordedStep_saveenv (by decide +kernel) (by decide +kernel)
  have hsave : recordedStep twoBlocks plainConfig (saved writeFails (changed (booted wrapBoard)),
      ⟨none, [(changed (booted wrapBoard)).image]⟩) (.saveenv noFaults) =
        some (some 0, saved noFaults (saved writeFails (changed (booted wrapBoard))),
          ⟨some (saved writeFails (changed (booted wrapBoard))).image, []⟩) :=
    recordedStep_saveenv (by decide +kernel) (by decide +kernel)
  have hcrc₁ : CrcRejects twoBlocks wrapBoard (.reboot [] [] (oneVar 11)) := by decide +kernel
  have hcrc₂ : CrcRejects twoBlocks (booted wrapBoard) (.setenv setC) := trivial
  have hcrc₃ : CrcRejects twoBlocks (changed (booted wrapBoard)) (.saveenv writeFails) := by
    decide +kernel
  have hcrc₄ : CrcRejects twoBlocks (saved writeFails (changed (booted wrapBoard)))
      (.saveenv noFaults) := by decide +kernel
  have hcrc₅ : CrcRejects twoBlocks (saved noFaults (saved writeFails (changed (booted wrapBoard))))
      (.reboot [] [] (oneVar 11)) := by decide +kernel
  have hold : (booted (saved noFaults (saved writeFails (changed (booted wrapBoard))))).nv.env ≠
      (saved writeFails (changed (booted wrapBoard))).image := by decide +kernel
  have hc : getenvValue 16 (saved noFaults (saved writeFails (changed (booted wrapBoard)))).nv.env.data
      [97] = some (some [99]) := by decide +kernel
  have hb : getenvValue 16
      (booted (saved noFaults (saved writeFails (changed (booted wrapBoard))))).nv.env.data [97] =
        some (some [98]) := by decide +kernel
  generalize booted wrapBoard = s₁ at *
  generalize changed s₁ = s₂ at *
  generalize saved writeFails s₂ = s₃ at *
  generalize saved noFaults s₃ = s₄ at *
  refine ⟨s₄, ⟨some s₃.image, []⟩, ?_, ?_, hcrc₅, ?_, hc, hb⟩
  · exact Runs.Meets.cons hboot hcrc₁ (Runs.Meets.cons hset hcrc₂ (Runs.Meets.cons hfail hcrc₃
      (Runs.Meets.cons hsave hcrc₄ trivial)))
  · exact Runs.run_cons hboot (Runs.run_cons hset (Runs.run_cons hfail (Runs.run_cons hsave
      (Runs.run_nil _ _))))
  · intro hcur
    rcases hcur _ rfl with h | h
    · exact hold h
    · simp at h

/-- What is left of a copy where a burst of at most 32 bits hits its variables, or anything its checksum. -/
inductive Damaged (e : EnvT) : EnvT → Prop
  | data {pre mid mid' post : List Bool} {data : List UInt8} (flags : UInt8)
      (old : bitStream e.data = pre ++ mid ++ post) (new : bitStream data = pre ++ mid' ++ post)
      (length : mid.length = mid'.length) (short : mid.length ≤ 32) (ne : mid ≠ mid') : Damaged e ⟨e.crc, flags, data⟩
  | crc (crc : UInt32) (flags : UInt8) (ne : crc ≠ e.crc) : Damaged e ⟨crc, flags, e.data⟩

theorem Damaged.rejected {e e' : EnvT} (h : Damaged e e') (hgood : e.crcOk) : ¬e'.crcOk := by
  intro hbad
  cases h with
  | data flags old new hlen hshort hne =>
    have hbits := crc32_eq_iff.mp (hgood.trans hbad.symm)
    rw [old, new] at hbits
    exact ShiftRegister.burst_shows crcPoly_range.1 crcPoly_range.2 (UInt32.toNat_lt _) hlen hshort hne hbits
  | crc crc flags hne => exact hne (hbad.symm.trans hgood)

/-- Where the copy that a `saveenv` writes is damaged afterwards, the next boot takes the one that it left alone. -/
theorem damaged_save_ignored {s : EnvNandBoard} {f : SaveFaults} {old bad : EnvT} {m : Flash}
    (hnumber : s.envValid = 1 ∨ s.envValid = 2) (hcrc : s.nv.env.crcOk)
    (hold : goodCopy cfg (s.kept cfg) s.flash = some old) (hbad : readCopy cfg (s.target cfg) m = some bad)
    (hd : Damaged s.image bad)
    (hsame : ∀ a ∈ cfg.blocks (s.kept cfg), ∀ i, i < cfg.erasesize → m (a + i) = (saveenv cfg f s).2.flash (a + i))
    (buf1 buf2 : List UInt8) (globals : NvState) :
    envRelocateSpec cfg buf1 buf2 globals { (saveenv cfg f s).2 with flash := m } =
      ⟨m, { globals with env := old }, s.envValid, true⟩ := by
  obtain ⟨hread, hgood⟩ := Option.filter_eq_some_iff.mp hold
  have hgood : old.crcOk := of_decide_eq_true hgood
  have hrejected : ¬bad.crcOk := hd.rejected hcrc
  have hkept : readCopy cfg (s.kept cfg) m = some old :=
    (readCopy_congr hsame).trans ((saveenv_kept cfg f s).trans hread)
  rcases hnumber with hv | hv
  · have hreads : Reads cfg m ⟨old, bad⟩ := by
      simp only [EnvNandBoard.kept, EnvNandBoard.target, if_pos hv] at hkept hbad
      exact ⟨hkept, hbad⟩
    rw [envRelocateSpec_refines hreads, EnvCopies.relocate, validCopy, if_pos hgood, if_neg hrejected, hv]
    rfl
  · have hreads : Reads cfg m ⟨bad, old⟩ := by
      have hother : ¬s.envValid = 1 := by omega
      simp only [EnvNandBoard.kept, EnvNandBoard.target, if_neg hother] at hkept hbad
      exact ⟨hbad, hkept⟩
    rw [envRelocateSpec_refines hreads, EnvCopies.relocate, validCopy, if_neg hrejected, if_pos hgood, hv]
    rfl

/-- The saved copy with `b=b` where it was `a=b`. -/
def misread : EnvT :=
  let saved := (booted wrapBoard).image
  ⟨saved.crc, saved.flags, 98 :: saved.data.drop 1⟩

def spoiled : Flash := FlashCells.store (saved noFaults (booted wrapBoard)).flash 21 [98]

theorem damaged_save_ignored_letter :
    envRelocateSpec twoBlocks [] [] (oneVar 11) { saved noFaults (booted wrapBoard) with flash := spoiled } =
      ⟨spoiled, { oneVar 11 with env := (booted wrapBoard).nv.env }, (booted wrapBoard).envValid, true⟩ := by
  have hnumber : (booted wrapBoard).envValid = 1 := by decide +kernel
  have hcrc : (booted wrapBoard).nv.env.crcOk := by decide +kernel
  have hold : goodCopy twoBlocks ((booted wrapBoard).kept twoBlocks) (booted wrapBoard).flash =
      some (booted wrapBoard).nv.env := by decide +kernel
  have hbad : readCopy twoBlocks ((booted wrapBoard).target twoBlocks) spoiled = some misread := by decide +kernel
  have hdamaged : Damaged (booted wrapBoard).image misread :=
    @Damaged.data _ [] (bitsOf 97) (bitsOf 98) (bitStream ((booted wrapBoard).image.data.drop 1)) _ _
      (by decide +kernel) (by decide +kernel) rfl (by decide) (by decide)
  have hsame : ∀ a ∈ twoBlocks.blocks ((booted wrapBoard).kept twoBlocks), ∀ i, i < twoBlocks.erasesize →
      spoiled (a + i) = (saveenv twoBlocks noFaults (booted wrapBoard)).2.flash (a + i) := by decide +kernel
  exact damaged_save_ignored (.inl hnumber) hcrc hold hbad hdamaged hsame [] [] (oneVar 11)

/-- The variables in RAM and those that the next boot finds. -/
structure EnvStore where
  ram : EnvMap
  saved : EnvMap

/-- The commands as they are meant. -/
def EnvStore.step (m : EnvStore) : EnvNandCmd → Option (Option Int × EnvStore)
  | .setenv c => some (some 0, { m with ram := m.ram.set c 0 })
  | .saveenv _ => some (some 0, { m with saved := m.ram })
  | .reboot _ _ _ => some (some 0, { m with ram := m.saved })

/-- `e` has its variables in the map `m`. -/
def EnvT.Shows (e : EnvT) (m : EnvMap) : Prop := e.crcOk ∧ ∃ es, Holds e.data es ∧ ∀ n, valueOf es n = m n

/-- A boot would take `found` with the number that is valid, and the environment in RAM has its serial. -/
structure EnvNandBoard.Stores (cfg : EnvNandConfig) (s : EnvNandBoard) (m : EnvStore) : Prop where
  ram : s.nv.env.Shows m.ram
  saved : ∃ a found, s.Refines cfg a ∧ a.copies.relocate cfg = (found, s.envValid) ∧
    found.flags = s.nv.env.flags ∧ found.Shows m.saved

/-- A `setenv` of an ordinary name that returns 0, or another command that succeeds. -/
def Works (cfg : EnvNandConfig) (nvcfg : NvConfig) (s : EnvNandBoard) : EnvNandCmd → Prop
  | .setenv c => Ordinary c ∧ ∃ t, doSetenv nvcfg s.nv c = some (0, t)
  | cmd => Succeeds cfg nvcfg s cmd

theorem serialValid_next (f : UInt8) : serialValid f (f + 1) = 2 ∧ serialValid (f + 1) f = 1 := by
  have hall : ∀ n : Fin 256, serialValid (.ofNat n) (.ofNat n + 1) = 2 ∧ serialValid (.ofNat n + 1) (.ofNat n) = 1 := by
    decide +kernel
  have hf := hall ⟨f.toNat, f.toNat_lt⟩
  rwa [UInt8.ofNat_toNat] at hf

theorem EnvCopies.relocate_found {c : EnvCopies} {found : EnvT} {v : Nat} (h : c.relocate cfg = (found, v)) :
    (v = 1 ∧ (c.copy1.crcOk → c.copy1 = found)) ∨ (v = 2 ∧ (c.copy2.crcOk → c.copy2 = found)) := by
  unfold EnvCopies.relocate validCopy at h
  split at h
  next hv =>
    obtain ⟨_, rfl⟩ := Prod.mk.inj h
    refine .inl ⟨rfl, fun hgood => ?_⟩
    rw [if_pos hgood] at hv
    split at hv <;> cases hv
  next w hv =>
    obtain ⟨hfound, rfl⟩ := Prod.mk.inj h
    have hw : w = 1 ∨ w = 2 := by
      split_ifs at hv <;> cases hv
      · exact serialValid_cases _ _
      · exact .inl rfl
      · exact .inr rfl
    rcases hw with rfl | rfl
    · exact .inl ⟨rfl, fun _ => hfound⟩
    · exact .inr ⟨rfl, fun _ => hfound⟩

/-- What a `saveenv` writes is what the next boot takes. -/
theorem EnvCopies.relocate_saveenv {c : EnvCopies} {found env : EnvT} {v : Nat} (h : c.relocate cfg = (found, v))
    (hflags : found.flags = env.flags) (hgood : env.crcOk) :
    (c.saveenv env v).2.relocate cfg = ({ env with flags := env.flags + 1 }, (c.saveenv env v).1) := by
  have hnew : ({ env with flags := env.flags + 1 } : EnvT).crcOk := hgood
  obtain ⟨hsecond, hfirst⟩ := serialValid_next env.flags
  unfold EnvCopies.saveenv EnvCopies.relocate validCopy
  rcases EnvCopies.relocate_found h with ⟨rfl, hkept⟩ | ⟨rfl, hkept⟩
  · simp only [if_true, if_pos hnew]
    by_cases hother : c.copy1.crcOk
    · rw [if_pos hother, hkept hother, hflags, hsecond]
      rfl
    · rw [if_neg hother]
      rfl
  · simp only [if_pos hnew, show ¬2 = 1 by decide, if_false]
    by_cases hother : c.copy2.crcOk
    · rw [if_pos hother, hkept hother, hflags, hfirst]
      rfl
    · rw [if_neg hother]
      rfl

theorem EnvNandBoard.Stores.step {s : EnvNandBoard} {m : EnvStore} {c : EnvNandCmd} (h : s.Stores cfg m)
    (hc : Works cfg nvcfg s c) :
    ∃ r t b, envNandStep cfg nvcfg s c = some (r, t) ∧ m.step c = some (r, b) ∧ t.Stores cfg b := by
  obtain ⟨hram, a, found, href, hrelocate, hflags, hsaved⟩ := h
  have hstep : ∀ {r t b}, Succeeds cfg nvcfg s c → envNandStep cfg nvcfg s c = some (r, t) →
      a.step cfg nvcfg c = some (r, b) → t.Refines cfg b := by
    intro r t b hsucc hs ha
    obtain ⟨r', t', b', hs', ha', href'⟩ := href.step hsucc
    rw [hs] at hs'
    rw [ha] at ha'
    cases hs'
    cases ha'
    exact href'
  cases c with
  | setenv c =>
    obtain ⟨hordinary, nv, hset⟩ := hc
    obtain ⟨hgood, es, hes, hvalue⟩ := hram
    obtain ⟨r, t, fs, hrun, hfs, _, hmap⟩ := doSetenv_ordinary nvcfg hordinary hes
    obtain ⟨rfl, rfl⟩ := Prod.mk.inj (Option.some.inj (hset.symm.trans hrun))
    have hs := @envNandStep_setenv cfg _ _ _ _ _ href.powered hset
    have hcrc : nv.env.crcOk := by
      rcases doSetenv_env_cases hset with he | ⟨_, _, he⟩ | ⟨_, _, hr, _⟩
      · rw [he]
        exact hgood
      · rw [he]
        exact envCrcUpdate_crcOk _
      · cases hr
    refine ⟨_, _, _, hs, rfl, ⟨hcrc, fs, hfs, fun n => ?_⟩, { a with nv := nv }, found, ?_, hrelocate,
      hflags.trans (doSetenv_flags hset).symm, hsaved⟩
    · rw [hmap, funext hvalue]
    · refine hstep (fun hnone => ?_) hs ?_
      · rw [hset] at hnone
        cases hnone
      · simp [EnvSystem.step, ← href.nv, hset]
  | saveenv f =>
    have hs : envNandStep cfg nvcfg s (.saveenv f) = some (some 0, (saveenv cfg f s).2) := by
      rw [← hc.1]
      exact if_pos href.powered
    have hrefines := hstep hc hs rfl
    rw [href.valid] at hrelocate
    rw [href.nv] at hram hflags
    refine ⟨_, _, _, hs, rfl, ?_, _, { a.nv.env with flags := a.nv.env.flags + 1 }, hrefines, ?_, ?_, hram⟩
    · rw [hrefines.nv]
      exact hram
    · rw [hrefines.valid]
      exact EnvCopies.relocate_saveenv hrelocate hflags hram.1
    · rw [hrefines.nv]
  | reboot buf1 buf2 globals =>
    have hs : envNandStep cfg nvcfg s (.reboot buf1 buf2 globals) =
        some (some 0, envRelocateSpec cfg buf1 buf2 globals s) := rfl
    have hrefines := hstep trivial hs rfl
    refine ⟨_, _, _, hs, rfl, ?_, _, found, hrefines, ?_, ?_, hsaved⟩
    · rw [hrefines.nv, hrelocate]
      exact hsaved
    · rw [hrefines.valid, hrelocate]
    · rw [hrefines.nv, hrelocate]

/-- In runs that work the environment is a map, of which a boot brings back what was saved last. -/
theorem env_persists {s : EnvNandBoard} {m : EnvStore} (h : s.Stores cfg m) (cmds : List EnvNandCmd)
    (hc : Runs.Meets (envNandStep cfg nvcfg) (Works cfg nvcfg) s cmds) :
    ∃ rs t b, Runs.run (envNandStep cfg nvcfg) s cmds = some (rs, t) ∧ Runs.run EnvStore.step m cmds = some (rs, b) ∧
      ∀ n : CString, equalsSign ∉ n.bytes → getenvValue cfg.envSize t.nv.env.data n.bytes = some (b.ram n) := by
  obtain ⟨rs, t, b, hrun, hmap, ⟨⟨_, es, hes, hvalue⟩, a, _, href, _⟩⟩ :=
    Runs.run_refines_where (fun _ _ _ h hc => h.step hc) h hc
  refine ⟨rs, t, b, hrun, hmap, fun n hn => ?_⟩
  have hlength := href.length
  rw [getenvValue_holds hes hn (by omega), hvalue]

/-- `a=b`. -/
def wrapEntry : Entry := ⟨letterA, letter 98 (by decide), by decide⟩

theorem env_persists_changed : ∃ rs t b, Runs.run (envNandStep twoBlocks plainConfig) (booted wrapBoard)
        [.setenv setC, .saveenv noFaults, .reboot [] [] (oneVar 11)] = some (rs, t) ∧
      Runs.run EnvStore.step ⟨valueOf [wrapEntry], valueOf [wrapEntry]⟩
        [.setenv setC, .saveenv noFaults, .reboot [] [] (oneVar 11)] = some (rs, b) ∧
      ∀ n : CString, equalsSign ∉ n.bytes → getenvValue 16 t.nv.env.data n.bytes = some (b.ram n) := by
  have hshows : (booted wrapBoard).nv.env.Shows (valueOf [wrapEntry]) :=
    ⟨by decide +kernel, [wrapEntry], ⟨⟨List.replicate 6 0, by decide +kernel, by simp⟩, by simp⟩, fun _ => rfl⟩
  have hrefines : (booted wrapBoard).Refines twoBlocks
      ⟨⟨(booted wrapBoard).nv.env, blankCopy⟩, (booted wrapBoard).nv, 1⟩ :=
    ⟨⟨by decide +kernel, by decide +kernel⟩, by dsimp only, by decide +kernel, by decide +kernel, by decide +kernel,
      by decide +kernel⟩
  have hstores : (booted wrapBoard).Stores twoBlocks ⟨valueOf [wrapEntry], valueOf [wrapEntry]⟩ :=
    ⟨hshows, _, _, hrefines, by decide +kernel, rfl, hshows⟩
  have hset : doSetenv plainConfig (booted wrapBoard).nv setC = some (0, (changed (booted wrapBoard)).nv) := by
    decide +kernel
  have hpowered : (booted wrapBoard).powered = true := by decide +kernel
  have hnext := @envNandStep_setenv twoBlocks _ _ _ _ _ hpowered hset
  refine env_persists hstores _ ⟨⟨⟨by decide, by decide⟩, _, hset⟩, fun r t ht => ?_⟩
  obtain ⟨_, rfl⟩ := Prod.mk.inj (Option.some.inj (hnext.symm.trans ht))
  refine ⟨⟨by decide +kernel, fun _ _ _ hfails => ?_⟩, fun _ _ _ => ⟨trivial, fun _ _ _ => trivial⟩⟩
  cases hfails

end UBoot
