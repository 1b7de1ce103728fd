import UBoot.EnvFlash
import UBoot.Runs

namespace UBoot

inductive NorCmd
  | setenv (c : SetenvCall)
  | saveenv (f : Option NorFault)
  | reboot (f₁ f₂ : Option FlagFault) (globals : NvState)

def norStep (dflt : EnvT) (nvcfg : NvConfig) (s : NorBoard) : NorCmd → Option (Option Int × NorBoard)
  | .setenv c => do
    if s.powered then
      let (r, nv) ← doSetenv nvcfg s.nv c
      pure (some r, { s with nv := nv })
    else none
  | .saveenv f => if s.powered then some (norSaveenv f s) else none
  | .reboot f₁ f₂ globals => some (norBoot dflt f₁ f₂ globals s)

def EnvT.unflagged (e : EnvT) : EnvT := { e with flags := 0 }

def NorCmd.record (s : NorBoard) (h : SaveHistory) (r : Option Int) : NorCmd → SaveHistory
  | .saveenv _ => h.after s.nv.env.unflagged r
  | _ => h

def norRecordedStep (dflt : EnvT) (nvcfg : NvConfig) (p : NorBoard × SaveHistory) (c : NorCmd) :
    Option (Option Int × NorBoard × SaveHistory) := do
  let (r, t) ← norStep dflt nvcfg p.1 c
  pure (r, t, c.record p.1 p.2 r)

/-- A flags write that power is lost in has cleared some of the bits it was to clear. -/
def CutWrite (old flag : UInt8) (f : Option FlagFault) : Prop :=
  ∀ ft ∈ f, ft.stop = .power ∧ ft.left &&& old = ft.left ∧ ft.left &&& (old &&& flag) = old &&& flag

/-- Power is the only thing that fails, writes clear bits only, and the CRC rejects a copy
that is erased or written in part. -/
def PowerCut (s : NorBoard) : NorCmd → Prop
  | .setenv _ => True
  | .saveenv none => True
  | .saveenv (some (.erase .power left)) => left.crcOk → left = s.copies s.flashAddrNew
  | .saveenv (some (.data .power left)) => ¬(EnvT.mk 0xffffffff 0xff left).crcOk
  | .saveenv (some (.crc .power left)) =>
    (EnvT.mk left 0xff s.nv.env.data).crcOk → left = s.nv.env.crc
  | .saveenv (some (.obsolete .power left)) => left &&& (s.copies s.flashAddr).flags = left
  | .saveenv (some (.active .power left)) => left &&& activeFlag = activeFlag
  | .saveenv (some (.rest .power)) => True
  | .saveenv (some _) => False
  | .reboot f₁ f₂ _ => ∀ addr v, norEnvInit s.copies = (some addr, v) →
    CutWrite (s.copies !addr).flags obsoleteFlag f₁ ∧ CutWrite (s.copies addr).flags activeFlag f₂

/-- A save that completes has a good CRC in RAM, and a write of `ACTIVE_FLAG` that power is
lost in leaves the byte as it was or written, where both copies are good. -/
def WholeActive (s : NorBoard) : NorCmd → Prop
  | .setenv _ => True
  | .saveenv none => s.nv.env.crcOk
  | .saveenv (some (.active _ left)) =>
    s.nv.env.crcOk → (s.copies s.flashAddr).crcOk → left = 0xff ∨ left = activeFlag
  | .saveenv (some _) => True
  | .reboot f₁ f₂ _ => ∀ addr v, norEnvInit s.copies = (some addr, v) →
    (repairObsolete f₁ s.copies !addr).1 = true → activeWanted (s.copies addr).flags →
      (s.copies !addr).crcOk → ∀ ft ∈ f₂, ft.left = (s.copies addr).flags ∨ ft.left = activeFlag

/-- Copy `i` is good and its role shows that it is the current one. -/
structure NorCurrent (c : NorCopies) (i : Bool) : Prop where
  good : (c i).crcOk
  role : (¬(c !i).crcOk ∧ ((c i).flags = 0 ∨ (c i).flags = 1)) ∨ ((c i).flags = 1 ∧ (c !i).flags = 0) ∨
    ((c !i).crcOk ∧ (c i).flags = 0xff ∧ ((c !i).flags = 0 ∨ (c !i).flags = 1))

theorem NorCurrent.norEnvInit_eq {c : NorCopies} {i : Bool} (h : NorCurrent c i) :
    ∃ v, v ≠ 0 ∧ norEnvInit c = (some i, v) := by
  obtain ⟨hgood, hrole⟩ := h
  by_cases hother : (c !i).crcOk
  · have hroles : ((c i).flags = 1 ∧ (c !i).flags = 0) ∨
        ((c i).flags = 0xff ∧ ((c !i).flags = 0 ∨ (c !i).flags = 1)) :=
      (hrole.resolve_left fun h => h.1 hother).imp_right fun h => h.2
    cases i with
    | false =>
      simp only [Bool.not_false] at hother hroles
      rcases hroles with ⟨ha, hb⟩ | ⟨ha, hb | hb⟩
      · exact ⟨1, by decide, by simp [norEnvInit, hgood, hother, ha, hb, activeFlag, obsoleteFlag]⟩
      · exact ⟨2, by decide, by simp [norEnvInit, hgood, hother, ha, hb, activeFlag, obsoleteFlag]⟩
      · exact ⟨2, by decide, by simp [norEnvInit, hgood, hother, ha, hb, activeFlag, obsoleteFlag]⟩
    | true =>
      simp only [Bool.not_true] at hother hroles
      rcases hroles with ⟨ha, hb⟩ | ⟨ha, hb | hb⟩
      · exact ⟨1, by decide, by simp [norEnvInit, hgood, hother, ha, hb, activeFlag, obsoleteFlag]⟩
      · exact ⟨2, by decide, by simp [norEnvInit, hgood, hother, ha, hb, activeFlag, obsoleteFlag]⟩
      · exact ⟨2, by decide, by simp [norEnvInit, hgood, hother, ha, hb, activeFlag, obsoleteFlag]⟩
  · cases i with
    | false => exact ⟨1, by decide, by simp [norEnvInit, hgood, show ¬(c true).crcOk from hother]⟩
    | true => exact ⟨1, by decide, by simp [norEnvInit, hgood, show ¬(c false).crcOk from hother]⟩

theorem cleared_of_bit {left old : UInt8} (h : left &&& old = left) (ho : old = 0 ∨ old = 1) :
    left = 0 ∨ left = 1 := by
  rcases ho with rfl | rfl
  · left
    rw [← h]
    exact UInt8.and_zero
  · have hn : left.toNat % 2 = left.toNat := by
      have h' := congrArg UInt8.toNat h
      rwa [UInt8.toNat_and, UInt8.toNat_one, Nat.and_one_is_mod] at h'
    have hlt : left.toNat = 0 ∨ left.toNat = 1 := by omega
    exact hlt.imp UInt8.toNat_inj.mp UInt8.toNat_inj.mp

theorem NorCurrent.settled {c : NorCopies} {i : Bool} (h : NorCurrent c i)
    (hf : (c i).flags ≠ 0xff) : (c i).flags = 0 ∨ (c i).flags = 1 := by
  rcases h.role with ⟨_, h⟩ | ⟨h, _⟩ | ⟨_, h, _⟩
  · exact h
  · exact .inr h
  · exact absurd h hf

theorem current_of_pair {c : NorCopies} (cur : Bool) {old : EnvT} (env : EnvT) (hg : old.crcOk)
    (hsame : (c cur).unflagged = old.unflagged) (hf : (c cur).flags = 0 ∨ (c cur).flags = 1)
    (hnew : (c !cur).crcOk → (c !cur).unflagged = env.unflagged ∧
      ((c !cur).flags = 0xff ∨ (c !cur).flags = 1 ∧ (c cur).flags = 0)) :
    ∃ i, NorCurrent c i ∧ ((c i).unflagged = old.unflagged ∨ (c i).unflagged = env.unflagged) := by
  have hgood : (c cur).crcOk := by
    have h : (c cur).unflagged.crcOk := hsame ▸ hg
    exact h
  by_cases ho : (c !cur).crcOk
  · obtain ⟨henv, hrole⟩ := hnew ho
    refine ⟨!cur, ⟨ho, .inr ?_⟩, .inr henv⟩
    rw [Bool.not_not]
    rcases hrole with h | ⟨h, h0⟩
    · exact .inr ⟨hgood, h, hf⟩
    · exact .inl ⟨h, h0⟩
  · exact ⟨cur, ⟨hgood, .inl ⟨ho, hf⟩⟩, .inl hsame⟩

theorem norSaveenv_cut {s : NorBoard} {f : NorFault} (hp : s.flashAddrNew = !s.flashAddr)
    (hcur : NorCurrent s.copies s.flashAddr) (hf : (s.copies s.flashAddr).flags ≠ 0xff)
    (hcut : PowerCut s (.saveenv (some f))) (hsafe : WholeActive s (.saveenv (some f))) :
    ∃ c i, norSaveenv (some f) s = (none, { s with copies := c, powered := false }) ∧
      NorCurrent c i ∧ ((c i).unflagged = (s.copies s.flashAddr).unflagged ∨
        (c i).unflagged = s.nv.env.unflagged) := by
  have hgood := hcur.good
  have hrole := hcur.settled hf
  have hne : s.flashAddr ≠ !s.flashAddr := by simp
  cases f with
  | protect => exact hcut.elim
  | erase stop left =>
    cases stop with
    | code rc => exact hcut.elim
    | power =>
      by_cases hl : left.crcOk
      · have hsame : Function.update s.copies s.flashAddrNew left = s.copies := by
          rw [hcut hl, Function.update_eq_self]
        exact ⟨s.copies, s.flashAddr, by simp [norSaveenv, NorBoard.stopped, hsame], hcur, .inl rfl⟩
      · refine ⟨_, (current_of_pair s.flashAddr s.nv.env hgood ?_ ?_ ?_).imp
          fun i hi => ⟨rfl, hi⟩⟩
        · simp [hp, hne]
        · simpa [hp, hne] using hrole
        · simp [hp, hl]
  | data stop left =>
    cases stop with
    | code rc => exact hcut.elim
    | power =>
      refine ⟨_, (current_of_pair s.flashAddr s.nv.env hgood ?_ ?_ ?_).imp
        fun i hi => ⟨rfl, hi⟩⟩
      · simp [hp, hne]
      · simpa [hp, hne] using hrole
      · simpa [hp, erasedCopy] using fun h => absurd h hcut
  | crc stop left =>
    cases stop with
    | code rc => exact hcut.elim
    | power =>
      refine ⟨_, (current_of_pair s.flashAddr s.nv.env hgood ?_ ?_ ?_).imp
        fun i hi => ⟨rfl, hi⟩⟩
      · simp [hp, hne]
      · simpa [hp, hne] using hrole
      · intro h
        have hl : left = s.nv.env.crc := hcut (by simpa [hp, erasedCopy] using h)
        simp [hp, erasedCopy, hl, EnvT.unflagged]
  | obsolete stop left =>
    cases stop with
    | code rc => exact hcut.elim
    | power =>
      refine ⟨_, (current_of_pair s.flashAddr s.nv.env hgood ?_ ?_ ?_).imp
        fun i hi => ⟨rfl, hi⟩⟩
      · simp [hp, hne, writeFlags, EnvT.unflagged]
      · simpa [hp, hne, writeFlags] using cleared_of_bit hcut hrole
      · intro _
        simp [hp, hne, hne.symm, writeFlags, erasedCopy, EnvT.unflagged]
  | active stop left =>
    cases stop with
    | code rc => exact hcut.elim
    | power =>
      refine ⟨_, (current_of_pair s.flashAddr s.nv.env hgood ?_ ?_ ?_).imp
        fun i hi => ⟨rfl, hi⟩⟩
      · simp [hp, hne, writeFlags, programFlags, EnvT.unflagged]
      · simp [hp, hne, writeFlags, programFlags, obsoleteFlag]
      · intro h
        have henv : (EnvT.mk s.nv.env.crc left s.nv.env.data).crcOk := by
          simpa [hp, hne, hne.symm, writeFlags, programFlags, erasedCopy] using h
        have hl := hsafe henv hgood
        simpa [hp, hne, hne.symm, writeFlags, programFlags, erasedCopy, EnvT.unflagged, obsoleteFlag,
          activeFlag] using hl
  | rest stop =>
    cases stop with
    | code rc => exact hcut.elim
    | power =>
      refine ⟨_, (current_of_pair s.flashAddr s.nv.env hgood ?_ ?_ ?_).imp
        fun i hi => ⟨rfl, hi⟩⟩
      · simp [hp, hne, writeFlags, programFlags, EnvT.unflagged]
      · simp [hp, hne, writeFlags, programFlags, obsoleteFlag]
      · intro _
        simp [hp, hne, hne.symm, writeFlags, programFlags, erasedCopy, EnvT.unflagged, obsoleteFlag,
          activeFlag]
        decide

theorem norSaveenv_done {s : NorBoard} (hp : s.flashAddrNew = !s.flashAddr)
    (hcrc : s.nv.env.crcOk) :
    ∃ c, norSaveenv none s =
        (some 0, { s with copies := c, flashAddr := s.flashAddrNew, flashAddrNew := s.flashAddr }) ∧
      NorCurrent c s.flashAddrNew ∧ (c s.flashAddrNew).unflagged = s.nv.env.unflagged ∧
      (c s.flashAddrNew).flags = 1 := by
  have hne : s.flashAddr ≠ !s.flashAddr := by simp
  have hactive : (0xff : UInt8) &&& 1 = 1 := by decide
  refine ⟨_, rfl, ⟨?_, .inr (.inl ⟨?_, ?_⟩)⟩, ?_, ?_⟩
  · have h : (EnvT.mk s.nv.env.crc 1 s.nv.env.data).crcOk := hcrc
    simpa [hp, hne, hne.symm, writeFlags, programFlags, erasedCopy, activeFlag, hactive] using h
  · simp [hp, hne, hne.symm, writeFlags, programFlags, erasedCopy, activeFlag, hactive]
  · simp [hp, hne, hne.symm, writeFlags, programFlags, obsoleteFlag]
  · simp [hp, hne, hne.symm, writeFlags, programFlags, EnvT.unflagged]
  · simp [hp, hne, hne.symm, writeFlags, programFlags, erasedCopy, activeFlag, hactive]

theorem repairFlags_unflagged (f : Option FlagFault) (c : NorCopies) (i j : Bool) (flag : UInt8) :
    ((repairFlags f c i flag).2 j).unflagged = (c j).unflagged := by
  have hw : ∀ flags, ((writeFlags c i flags) j).unflagged = (c j).unflagged := by
    intro flags
    by_cases hj : j = i
    · subst hj
      simp [writeFlags, EnvT.unflagged]
    · simp [writeFlags, hj]
  unfold repairFlags
  split
  · exact hw _
  · exact hw _
  · exact hw _

theorem norRelocateSpec_cases (f₁ f₂ : Option FlagFault) (globals : NvState) (c : NorCopies)
    (addr : Bool) :
    ∃ c₁ on₁, repairObsolete f₁ c (!addr) = (on₁, c₁) ∧ ∃ d on nv, norRelocateSpec f₁ f₂ globals c addr =
        (if on then some 0 else none, ⟨d, nv, addr, !addr, on⟩) ∧
      (on₁ = false → on = false ∧ d = c₁) ∧ (on₁ = true → repairActive f₂ c₁ addr = (on, d)) ∧
      (∀ j, (d j).unflagged = (c j).unflagged) ∧ (on = true → nv.env = d addr) := by
  have hcur : (if addr ≠ false then true else false) = addr := by cases addr <;> rfl
  have hnew : (if addr ≠ false then false else true) = !addr := by cases addr <;> rfl
  have hone : ∀ j, ((repairObsolete f₁ c (!addr)).2 j).unflagged = (c j).unflagged := by
    intro j
    unfold repairObsolete
    split
    · exact repairFlags_unflagged f₁ c (!addr) j obsoleteFlag
    · rfl
  simp only [norRelocateSpec, hcur, hnew]
  rcases hfirst : repairObsolete f₁ c (!addr) with ⟨on₁, c₁⟩
  rw [hfirst] at hone
  refine ⟨c₁, on₁, rfl, ?_⟩
  cases on₁ with
  | false => exact ⟨c₁, false, globals, by simp, by simp, by simp, hone, by simp⟩
  | true =>
    have htwo : ∀ j, ((repairActive f₂ c₁ addr).2 j).unflagged = (c j).unflagged := by
      intro j
      unfold repairActive
      split
      · exact (repairFlags_unflagged f₂ c₁ addr j activeFlag).trans (hone j)
      · exact hone j
    rcases hsecond : repairActive f₂ c₁ addr with ⟨on, c₂⟩
    rw [hsecond] at htwo
    cases on with
    | false => exact ⟨c₂, false, globals, by simp [hsecond], by simp, by simp, htwo, by simp⟩
    | true =>
      exact ⟨c₂, true, { globals with env := c₂ addr }, by simp [hsecond], by simp, by simp, htwo,
        by simp⟩

@[simp] theorem writeFlags_other (c : NorCopies) (i : Bool) (flags : UInt8) :
    writeFlags c i flags (!i) = c !i := by
  simp [writeFlags]

@[simp] theorem writeFlags_not_other (c : NorCopies) (i : Bool) (flags : UInt8) :
    writeFlags c (!i) flags i = c i := by
  simp [writeFlags]

@[simp] theorem writeFlags_flags (c : NorCopies) (i : Bool) (flags : UInt8) :
    (writeFlags c i flags i).flags = flags := by
  simp [writeFlags]

theorem writeFlags_crcOk (c : NorCopies) (i j : Bool) (flags : UInt8) :
    (writeFlags c i flags j).crcOk ↔ (c j).crcOk := by
  by_cases hj : j = i
  · subst hj
    simp [writeFlags, EnvT.crcOk]
  · simp [writeFlags, hj]

theorem repairObsolete_current {c c₁ : NorCopies} {i on : Bool} {f : Option FlagFault}
    (hc : NorCurrent c i) (hf : CutWrite (c !i).flags obsoleteFlag f)
    (h : repairObsolete f c (!i) = (on, c₁)) :
    NorCurrent c₁ i ∧ c₁ i = c i ∧ ((c₁ !i).crcOk ↔ (c !i).crcOk) ∧
      (on = true → (c₁ !i).crcOk → (c₁ !i).flags = 0) := by
  unfold repairObsolete at h
  split at h
  next hw =>
    obtain ⟨hflags, hother⟩ := hw
    have hrole : (c i).flags = 0xff ∧ (c !i).flags = 1 := by
      rcases hc.role with ⟨hbad, _⟩ | ⟨_, h0⟩ | ⟨_, hff, h0 | h1⟩
      · exact absurd hother hbad
      · exact absurd h0 hflags
      · exact absurd h0 hflags
      · exact ⟨hff, h1⟩
    have hwrite : ∀ flags, flags = 0 ∨ flags = 1 → NorCurrent (writeFlags c (!i) flags) i := by
      intro flags hbit
      refine ⟨(writeFlags_crcOk c (!i) i flags).mpr hc.good, .inr (.inr ⟨?_, ?_, ?_⟩)⟩
      · exact (writeFlags_crcOk c (!i) (!i) flags).mpr hother
      · simp [hrole.1]
      · simpa using hbit
    cases f with
    | none =>
      obtain ⟨rfl, rfl⟩ := Prod.mk.inj h
      refine ⟨hwrite _ (.inl UInt8.and_zero), by simp [programFlags],
        writeFlags_crcOk c (!i) (!i) _, fun _ _ => ?_⟩
      simp [programFlags, obsoleteFlag]
    | some ft =>
      obtain ⟨stop, left⟩ := ft
      obtain ⟨hpower, hsub, _⟩ := hf ⟨stop, left⟩ rfl
      simp only at hpower hsub
      subst hpower
      obtain ⟨rfl, rfl⟩ := Prod.mk.inj h
      exact ⟨hwrite left (cleared_of_bit hsub (.inr hrole.2)), by simp,
        writeFlags_crcOk c (!i) (!i) left, by simp⟩
  next hw =>
    obtain ⟨rfl, rfl⟩ := Prod.mk.inj h
    refine ⟨hc, rfl, Iff.rfl, fun _ hother => ?_⟩
    by_contra hflags
    exact hw ⟨hflags, hother⟩

theorem repairActive_current {c d : NorCopies} {i on : Bool} {f : Option FlagFault}
    (hc : NorCurrent c i) (hobs : (c !i).crcOk → (c !i).flags = 0)
    (hf : CutWrite (c i).flags activeFlag f)
    (hsafe : activeWanted (c i).flags → (c !i).crcOk → ∀ ft ∈ f, ft.left = (c i).flags ∨ ft.left = activeFlag)
    (h : repairActive f c i = (on, d)) :
    NorCurrent d i ∧ (on = true → (d i).flags ≠ 0xff) := by
  unfold repairActive at h
  split at h
  next hw =>
    have hrole : (c !i).crcOk ∧ (c i).flags = 0xff := by
      rcases hc.role with ⟨_, h0 | h1⟩ | ⟨h1, _⟩ | ⟨hother, hff, _⟩
      · rw [h0] at hw
        exact absurd hw.2 (by decide)
      · exact absurd h1 hw.1
      · exact absurd h1 hw.1
      · exact ⟨hother, hff⟩
    have hwritten : NorCurrent (writeFlags c i 1) i := by
      refine ⟨(writeFlags_crcOk c i i 1).mpr hc.good, .inr (.inl ⟨?_, ?_⟩)⟩
      · simp
      · simpa using hobs hrole.1
    cases f with
    | none =>
      obtain ⟨rfl, rfl⟩ := Prod.mk.inj h
      have hactive : (c i).flags &&& activeFlag = 1 := hw.2
      rw [programFlags, hactive]
      exact ⟨hwritten, fun _ => by rw [writeFlags_flags]; decide⟩
    | some ft =>
      obtain ⟨stop, left⟩ := ft
      obtain ⟨hpower, _, _⟩ := hf ⟨stop, left⟩ rfl
      simp only at hpower
      subst hpower
      obtain ⟨rfl, rfl⟩ := Prod.mk.inj h
      refine ⟨?_, by simp⟩
      rcases hsafe hw hrole.1 ⟨.power, left⟩ rfl with hl | hl
      · simp only at hl
        have hsame : writeFlags c i left = c := by
          rw [hl]
          exact Function.update_eq_self i c
        rw [hsame]
        exact hc
      · simp only at hl
        rw [hl]
        exact hwritten
  next hw =>
    obtain ⟨rfl, rfl⟩ := Prod.mk.inj h
    refine ⟨hc, fun _ hff => hw ⟨?_, ?_⟩⟩
    · rw [hff]
      decide
    · rw [hff]
      decide

theorem norBoot_current {s u : NorBoard} {dflt : EnvT} {f₁ f₂ : Option FlagFault}
    {globals : NvState} {i : Bool} {r : Option Int} (hc : NorCurrent s.copies i)
    (hcut : PowerCut s (.reboot f₁ f₂ globals)) (hsafe : WholeActive s (.reboot f₁ f₂ globals))
    (h : norBoot dflt f₁ f₂ globals s = (r, u)) :
    NorCurrent u.copies i ∧ (u.copies i).unflagged = (s.copies i).unflagged ∧
      u.flashAddr = i ∧ u.flashAddrNew = (!i) ∧
      (u.powered = true → (u.copies i).flags ≠ 0xff ∧ u.nv.env = u.copies i) ∧
      (r = some 0 → u.powered = true) := by
  obtain ⟨v, _, hinit⟩ := hc.norEnvInit_eq
  obtain ⟨hcut₁, hcut₂⟩ := hcut i v hinit
  have hsafe' := hsafe i v hinit
  have hboot : norRelocateSpec f₁ f₂ globals s.copies i = (r, u) := by
    rw [← h, norBoot, hinit]
  obtain ⟨c₁, on₁, hfirst, d, on, nv, hspec, hoff, hsecond, hsame, henv⟩ :=
    norRelocateSpec_cases f₁ f₂ globals s.copies i
  rw [hspec] at hboot
  obtain ⟨rfl, rfl⟩ := Prod.mk.inj hboot
  obtain ⟨hc₁, hcur, hcrc, hobs⟩ := repairObsolete_current hc hcut₁ hfirst
  rw [hfirst] at hsafe'
  cases on₁ with
  | false =>
    obtain ⟨rfl, rfl⟩ := hoff rfl
    exact ⟨hc₁, hsame i, rfl, rfl, by simp, by simp⟩
  | true =>
    obtain ⟨hd, hff⟩ := repairActive_current hc₁ (hobs rfl) (hcur ▸ hcut₂)
      (fun hw hother => hcur ▸ hsafe' rfl (hcur ▸ hw) (hcrc.mp hother)) (hsecond rfl)
    refine ⟨hd, hsame i, rfl, rfl, fun hon => ⟨hff hon, henv hon⟩, ?_⟩
    cases on with
    | false => simp
    | true => simp

end UBoot
