import UBoot.EnvFlashSteps

namespace UBoot

variable {h : SaveHistory} {dflt : EnvT} {nvcfg : NvConfig}

structure NorInv (s : NorBoard) (h : SaveHistory) : Prop where
  pointers : s.powered = true → s.flashAddrNew = !s.flashAddr
  newest : ∀ img, h.saved = some img → ∃ i, NorCurrent s.copies i ∧ h.Current (s.copies i).unflagged ∧
    (s.powered = true → i = s.flashAddr ∧ (s.copies i).flags ≠ 0xff)

theorem norSaveenv_power {s : NorBoard} {f : NorFault} (h : PowerCut s (.saveenv (some f))) :
    ∃ c, norSaveenv (some f) s = (none, { s with copies := c, powered := false }) := by
  cases f with
  | protect => exact h.elim
  | erase stop left => cases stop with
    | power => exact ⟨_, rfl⟩
    | code rc => exact h.elim
  | data stop left => cases stop with
    | power => exact ⟨_, rfl⟩
    | code rc => exact h.elim
  | crc stop left => cases stop with
    | power => exact ⟨_, rfl⟩
    | code rc => exact h.elim
  | obsolete stop left => cases stop with
    | power => exact ⟨_, rfl⟩
    | code rc => exact h.elim
  | active stop left => cases stop with
    | power => exact ⟨_, rfl⟩
    | code rc => exact h.elim
  | rest stop => cases stop with
    | power => exact ⟨_, rfl⟩
    | code rc => exact h.elim

theorem NorInv.saveenv {s t : NorBoard} {f : Option NorFault} {r : Option Int}
    (hi : NorInv s h) (hp : s.powered = true) (hcut : PowerCut s (.saveenv f))
    (hsafe : WholeActive s (.saveenv f)) (hstep : norSaveenv f s = (r, t)) :
    NorInv t (h.after s.nv.env.unflagged r) := by
  have hptr := hi.pointers hp
  cases f with
  | none =>
    obtain ⟨c, hdone, hc, henv, hflags⟩ := norSaveenv_done hptr hsafe
    rw [hdone] at hstep
    obtain ⟨rfl, rfl⟩ := Prod.mk.inj hstep
    refine ⟨fun _ => by simp [hptr], fun img _ => ⟨s.flashAddrNew, hc, ?_, fun _ => ⟨rfl, ?_⟩⟩⟩
    · simp only [henv]
      exact h.current_image _ _
    · rw [hflags]
      decide
  | some f =>
    cases hsaved : h.saved with
    | none =>
      obtain ⟨c, hoff⟩ := norSaveenv_power hcut
      rw [hoff] at hstep
      obtain ⟨rfl, rfl⟩ := Prod.mk.inj hstep
      exact ⟨by simp, by simp [SaveHistory.after, hsaved]⟩
    | some img =>
      obtain ⟨i, hc, hcur, hon⟩ := hi.newest img hsaved
      obtain ⟨rfl, hff⟩ := hon hp
      obtain ⟨c, i, hoff, hc', hsame⟩ := norSaveenv_cut hptr hc hff hcut hsafe
      rw [hoff] at hstep
      obtain ⟨rfl, rfl⟩ := Prod.mk.inj hstep
      refine ⟨by simp, fun img' _ => ⟨i, hc', ?_, by simp⟩⟩
      rcases hsame with hold | hnew
      · simp only [hold]
        exact hcur.after _ (by simp)
      · simp only [hnew]
        exact h.current_image _ _

theorem NorInv.reboot {s t : NorBoard} {f₁ f₂ : Option FlagFault}
    {globals : NvState} {r : Option Int} (hi : NorInv s h)
    (hcut : PowerCut s (.reboot f₁ f₂ globals)) (hsafe : WholeActive s (.reboot f₁ f₂ globals))
    (hstep : norBoot dflt f₁ f₂ globals s = (r, t)) : NorInv t h := by
  constructor
  · intro _
    unfold norBoot at hstep
    split at hstep
    next addr _ _ =>
      obtain ⟨_, _, _, d, on, nv, hspec, _⟩ := norRelocateSpec_cases f₁ f₂ globals s.copies addr
      rw [hspec] at hstep
      obtain ⟨_, rfl⟩ := Prod.mk.inj hstep
      rfl
    · obtain ⟨_, rfl⟩ := Prod.mk.inj hstep
      rfl
  · intro img himg
    obtain ⟨i, hc, hcur, _⟩ := hi.newest img himg
    obtain ⟨hc', hsame, haddr, _, hon, _⟩ := norBoot_current hc hcut hsafe hstep
    refine ⟨i, hc', ?_, fun hpow => ⟨haddr.symm, (hon hpow).1⟩⟩
    rw [hsame]
    exact hcur

theorem NorInv.step {p q : NorBoard × SaveHistory} {c : NorCmd}
    {r : Option Int} (hi : NorInv p.1 p.2) (hc : PowerCut p.1 c ∧ WholeActive p.1 c)
    (h : norRecordedStep dflt nvcfg p c = some (r, q)) : NorInv q.1 q.2 := by
  obtain ⟨⟨r', t⟩, hstep, h⟩ := Option.bind_eq_some_iff.mp h
  cases h
  cases c with
  | setenv c =>
    simp only [norStep] at hstep
    split at hstep
    · obtain ⟨⟨rc, nv⟩, _, hstep⟩ := Option.bind_eq_some_iff.mp hstep
      cases hstep
      exact ⟨hi.pointers, hi.newest⟩
    · simp at hstep
  | saveenv f =>
    simp only [norStep] at hstep
    split at hstep
    next hp => exact hi.saveenv hp hc.1 hc.2 (Option.some.inj hstep)
    · simp at hstep
  | reboot f₁ f₂ globals => exact hi.reboot hc.1 hc.2 (Option.some.inj hstep)

/-- Whatever power does to the writes of a run, `env_init` finds a good copy that is not
older than the last completed save, and a boot that completes takes it, as long as no
completed save had a bad CRC and no cut write of `ACTIVE_FLAG` left something in between. -/
theorem nor_env_power_safe (dflt : EnvT) (nvcfg : NvConfig) (s t : NorBoard)
    (hoff : s.powered = false) (cmds : List NorCmd) (rs : List (Option Int)) (h : SaveHistory)
    (hmeets : Runs.Meets (norRecordedStep dflt nvcfg)
      (fun p c => PowerCut p.1 c ∧ WholeActive p.1 c) (s, ⟨none, []⟩) cmds)
    (hrun : Runs.run (norRecordedStep dflt nvcfg) (s, ⟨none, []⟩) cmds = some (rs, t, h))
    (img : EnvT) (hsaved : h.saved = some img) :
    ∃ i v, norEnvInit t.copies = (some i, v) ∧ v ≠ 0 ∧ (t.copies i).crcOk ∧ h.Current (t.copies i).unflagged ∧
      ∀ f₁ f₂ globals u, PowerCut t (.reboot f₁ f₂ globals) → WholeActive t (.reboot f₁ f₂ globals) →
        norBoot dflt f₁ f₂ globals t = (some 0, u) →
          u.flashAddr = i ∧ u.flashAddrNew = (!i) ∧ u.nv.env = u.copies i ∧
            u.nv.env.unflagged = (t.copies i).unflagged := by
  have hstart : NorInv s ⟨none, []⟩ := ⟨by simp [hoff], by simp⟩
  have hinv : NorInv t h := Runs.run_invariant (q := fun p => NorInv p.1 p.2)
    (fun _ _ _ _ hi hc h => NorInv.step hi hc h) hstart hmeets hrun
  obtain ⟨i, hc, hcur, _⟩ := hinv.newest img hsaved
  obtain ⟨v, hv, hinit⟩ := hc.norEnvInit_eq
  refine ⟨i, v, hinit, hv, hc.good, hcur, fun f₁ f₂ globals u hcut hsafe hboot => ?_⟩
  obtain ⟨_, hsame, haddr, hnew, hon, hdone⟩ := norBoot_current hc hcut hsafe hboot
  obtain ⟨_, henv⟩ := hon (hdone rfl)
  refine ⟨haddr, hnew, henv, ?_⟩
  rw [henv]
  exact hsame

/-- `a=b` as the default environment, in eleven bytes of data. -/
def norDefault : EnvT := setDefaultEnv 11 [97, 61, 98]

def norBlank : NorBoard :=
  ⟨fun _ => ⟨0xffffffff, 0xff, List.replicate 11 0xff⟩, oneVar 11, false, true, false⟩

def norBooted (s : NorBoard) : NorBoard := (norBoot norDefault none none (oneVar 11) s).2

def norSaved (f : Option NorFault) (s : NorBoard) : NorBoard := (norSaveenv f s).2

/-- A run that boots, saves, and loses power in the write of `ACTIVE_FLAG` of a second save. -/
def activeCut (left : UInt8) : List NorCmd :=
  [.reboot none none (oneVar 11), .saveenv none, .saveenv (some (.active .power left))]

theorem norRecordedStep_saveenv {s : NorBoard}
    {f : Option NorFault} {r : Option Int} (hp : s.powered = true) (hr : (norSaveenv f s).1 = r) :
    norRecordedStep dflt nvcfg (s, h) (.saveenv f) =
      some (r, (norSaveenv f s).2, h.after s.nv.env.unflagged r) := by
  simp [norRecordedStep, norStep, hp, ← hr, NorCmd.record]

theorem norRecordedStep_reboot {s : NorBoard} {f₁ f₂ : Option FlagFault} {globals : NvState} {r : Option Int}
    (hr : (norBoot dflt f₁ f₂ globals s).1 = r) : norRecordedStep dflt nvcfg (s, h) (.reboot f₁ f₂ globals) =
      some (r, (norBoot dflt f₁ f₂ globals s).2, h) := by
  simp [norRecordedStep, norStep, ← hr, NorCmd.record]

theorem activeCut_steps (left : UInt8) :
    norRecordedStep norDefault plainConfig (norBlank, ⟨none, []⟩) (.reboot none none (oneVar 11)) =
        some (some 0, norBooted norBlank, ⟨none, []⟩) ∧
      norRecordedStep norDefault plainConfig (norBooted norBlank, ⟨none, []⟩) (.saveenv none) =
        some (some 0, norSaved none (norBooted norBlank), ⟨some norDefault.unflagged, []⟩) ∧
      norRecordedStep norDefault plainConfig
          (norSaved none (norBooted norBlank), ⟨some norDefault.unflagged, []⟩)
          (.saveenv (some (.active .power left))) =
        some (none, norSaved (some (.active .power left)) (norSaved none (norBooted norBlank)),
          ⟨some norDefault.unflagged, [norDefault.unflagged]⟩) := by
  refine ⟨norRecordedStep_reboot (by decide +kernel), ?_, ?_⟩
  · have himage : (norBooted norBlank).nv.env.unflagged = norDefault.unflagged := by decide +kernel
    rw [← himage]
    exact norRecordedStep_saveenv (by decide +kernel) (by decide +kernel)
  · have himage : (norSaved none (norBooted norBlank)).nv.env.unflagged = norDefault.unflagged := by
      decide +kernel
    have hsave : norRecordedStep norDefault plainConfig
        (norSaved none (norBooted norBlank), ⟨some norDefault.unflagged, []⟩)
        (.saveenv (some (.active .power left))) =
          some (none, norSaved (some (.active .power left)) (norSaved none (norBooted norBlank)),
            ⟨some norDefault.unflagged, [(norSaved none (norBooted norBlank)).nv.env.unflagged]⟩) :=
      norRecordedStep_saveenv (by decide +kernel) rfl
    rwa [himage] at hsave

theorem nor_env_power_safe_cut : ∃ i v, norEnvInit (norSaved (some (.active .power 0xff))
        (norSaved none (norBooted norBlank))).copies = (some i, v) ∧ v ≠ 0 := by
  obtain ⟨hboot, hsave, hcut⟩ := activeCut_steps 0xff
  have hallow₁ : PowerCut norBlank (.reboot none none (oneVar 11)) := by
    intro addr v h
    exact ⟨by simp [CutWrite], by simp [CutWrite]⟩
  have hallow₃ : PowerCut (norSaved none (norBooted norBlank))
      (.saveenv (some (.active .power 0xff))) :=
    show (0xff : UInt8) &&& activeFlag = activeFlag by decide
  have hsafe₁ : WholeActive norBlank (.reboot none none (oneVar 11)) := by
    intro addr v _ _ _ _ ft hft
    cases hft
  have hsafe₂ : WholeActive (norBooted norBlank) (.saveenv none) := by
    show (norBooted norBlank).nv.env.crcOk
    decide +kernel
  have hsafe₃ : WholeActive (norSaved none (norBooted norBlank))
      (.saveenv (some (.active .power 0xff))) := fun _ _ => .inl rfl
  generalize norBooted norBlank = s₁ at *
  generalize norSaved none s₁ = s₂ at *
  generalize norSaved (some (.active .power 0xff)) s₂ = s₃ at *
  have hmeets : Runs.Meets (norRecordedStep norDefault plainConfig)
      (fun p c => PowerCut p.1 c ∧ WholeActive p.1 c) (norBlank, ⟨none, []⟩) (activeCut 0xff) := by
    refine Runs.Meets.cons hboot ⟨hallow₁, hsafe₁⟩ (Runs.Meets.cons hsave ⟨trivial, hsafe₂⟩ ?_)
    exact Runs.Meets.cons hcut ⟨hallow₃, hsafe₃⟩ trivial
  have hrun := Runs.run_cons hboot (Runs.run_cons hsave (Runs.run_cons hcut (Runs.run_nil _ _)))
  obtain ⟨i, v, hinit, hv, _⟩ := nor_env_power_safe norDefault plainConfig norBlank s₃ rfl _ _ _
    hmeets hrun norDefault.unflagged rfl
  exact ⟨i, v, hinit, hv⟩

/-- A completed save, and a second one that power is lost in: `ACTIVE_FLAG` is half
written, both copies are good, and `env_init` selects neither. -/
theorem nor_env_lost_in_active_write :
    Runs.Meets (norRecordedStep norDefault plainConfig) (fun p c => PowerCut p.1 c)
        (norBlank, ⟨none, []⟩) (activeCut 0x81) ∧
      ∃ t, Runs.run (norRecordedStep norDefault plainConfig) (norBlank, ⟨none, []⟩)
          (activeCut 0x81) = some ([some 0, some 0, none], t,
            ⟨some norDefault.unflagged, [norDefault.unflagged]⟩) ∧
        (t.copies false).crcOk ∧ (t.copies true).crcOk ∧ norEnvInit t.copies = (none, 0) := by
  obtain ⟨hboot, hsave, hcut⟩ := activeCut_steps 0x81
  have hallow₁ : PowerCut norBlank (.reboot none none (oneVar 11)) := by
    intro addr v h
    exact ⟨by simp [CutWrite], by simp [CutWrite]⟩
  have hallow₃ : PowerCut (norSaved none (norBooted norBlank))
      (.saveenv (some (.active .power 0x81))) :=
    show (0x81 : UInt8) &&& activeFlag = activeFlag by decide
  have hlost : ((norSaved (some (.active .power 0x81))
        (norSaved none (norBooted norBlank))).copies false).crcOk ∧
      ((norSaved (some (.active .power 0x81))
        (norSaved none (norBooted norBlank))).copies true).crcOk ∧
      norEnvInit (norSaved (some (.active .power 0x81))
        (norSaved none (norBooted norBlank))).copies = (none, 0) := by decide +kernel
  generalize norBooted norBlank = s₁ at *
  generalize norSaved none s₁ = s₂ at *
  generalize norSaved (some (.active .power 0x81)) s₂ = s₃ at *
  refine ⟨?_, s₃, ?_, hlost⟩
  · exact Runs.Meets.cons hboot hallow₁ (Runs.Meets.cons hsave trivial (Runs.Meets.cons hcut
      hallow₃ trivial))
  · exact Runs.run_cons hboot (Runs.run_cons hsave (Runs.run_cons hcut (Runs.run_nil _ _)))

end UBoot
