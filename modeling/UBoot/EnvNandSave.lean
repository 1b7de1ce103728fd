import UBoot.EnvNand

namespace UBoot

open FlashCells

variable {cfg : EnvNandConfig}

/-- The copy that `readenv` finds at an offset, if the good blocks there hold one. -/
def readCopy (cfg : EnvNandConfig) (offset : Nat) (m : Flash) : Option EnvT :=
  let loaded := readChunks cfg m (cfg.blocks offset) []
  if loaded.length = cfg.envSize then some (EnvT.ofBytes loaded) else none

def goodCopy (cfg : EnvNandConfig) (offset : Nat) (m : Flash) : Option EnvT :=
  (readCopy cfg offset m).filter fun e => decide e.crcOk

def EnvNandBoard.kept (cfg : EnvNandConfig) (s : EnvNandBoard) : Nat :=
  if s.envValid = 1 then cfg.envOffset else cfg.envOffsetRedund

def EnvNandBoard.target (cfg : EnvNandConfig) (s : EnvNandBoard) : Nat :=
  if s.envValid = 1 then cfg.envOffsetRedund else cfg.envOffset

/-- The image that `saveenv` writes. -/
def EnvNandBoard.image (s : EnvNandBoard) : EnvT :=
  { s.nv.env with flags := s.nv.env.flags + 1 }

theorem readChunks_congr {m m' : Flash} {as : List Nat} {loaded : List UInt8}
    (h : ∀ a ∈ as, ∀ i, i < cfg.erasesize → m (a + i) = m' (a + i)) :
    readChunks cfg m as loaded = readChunks cfg m' as loaded := by
  induction as generalizing loaded with
  | nil => rfl
  | cons a as ih =>
    have hrest : ∀ b ∈ as, ∀ i, i < cfg.erasesize → m (b + i) = m' (b + i) :=
      fun b hb => h b (List.mem_cons_of_mem a hb)
    have hread : read m a cfg.len = read m' a cfg.len :=
      read_congr fun i hi => h a (by simp) i (lt_of_lt_of_le hi cfg.len_le)
    simp only [readChunks, hread, ih hrest]

theorem readCopy_congr {m m' : Flash} {offset : Nat}
    (h : ∀ a ∈ cfg.blocks offset, ∀ i, i < cfg.erasesize → m (a + i) = m' (a + i)) :
    readCopy cfg offset m = readCopy cfg offset m' := by
  simp only [readCopy, readChunks_congr h]

theorem readenv_copy {offset : Nat} {buf : List UInt8} {m : Flash} {e : EnvT}
    (h : readCopy cfg offset m = some e) : EnvT.ofBytes (readenv cfg offset buf m).2 = e := by
  simp only [readCopy] at h
  split at h
  next hl =>
    have hdrop : (buf.take cfg.envSize).drop cfg.envSize = [] :=
      List.drop_eq_nil_of_le (List.length_take_le _ _)
    simpa [readenv, hl, hdrop] using h
  · simp at h

theorem readCopy_length {m : Flash} {offset : Nat} {e : EnvT} (h : readCopy cfg offset m = some e) :
    e.data.length = cfg.envSize - envHeaderSize := by
  simp only [readCopy] at h
  split at h
  next hl =>
    cases Option.some.inj h
    rw [EnvT.ofBytes_data_length (by rw [hl]; exact cfg.header), hl]
  · simp at h

theorem goodCopy_length {m : Flash} {offset : Nat} {e : EnvT}
    (h : goodCopy cfg offset m = some e) : e.data.length = cfg.envSize - envHeaderSize :=
  readCopy_length (Option.filter_eq_some_iff.mp h).1

theorem nandEraseOpts_env (f : Nat → EraseFault) (offset : Nat) (m : Flash)
    (hr : cfg.envSize ≤ cfg.envRange) :
    nandEraseOpts (envEraseDevice cfg f) ⟨cfg.envRange, offset, false, false⟩ m =
      eraseLoop (envEraseDevice cfg f) ⟨cfg.envRange, offset, false, false⟩ (cfg.blocks offset) m := by
  have hpos : 0 < cfg.envRange := by
    have hh := cfg.header
    simp only [envHeaderSize] at hh
    omega
  have hcount : blocks cfg.erasesize offset
      (if cfg.envRange < cfg.erasesize then cfg.erasesize else cfg.envRange) = cfg.blocks offset := by
    unfold EnvNandConfig.blocks blocks
    split
    next hlt =>
      have h1 : (cfg.erasesize + cfg.erasesize - 1) / cfg.erasesize = 1 :=
        Nat.div_eq_of_lt_le (by omega) (by omega)
      have h2 : (cfg.envRange + cfg.erasesize - 1) / cfg.erasesize = 1 :=
        Nat.div_eq_of_lt_le (by omega) (by omega)
      rw [h1, h2]
    · rfl
  have hd : (envEraseDevice cfg f).erasesize = cfg.erasesize := rfl
  simp only [nandEraseOpts, hd, hcount, Bool.false_eq_true, if_false]
  split
  next h => rw [h]
  · rfl

theorem EnvNandBoard.apart (s : EnvNandBoard) {a b i : Nat} (ha : a ∈ cfg.blocks (s.kept cfg))
    (hb : b ∈ cfg.blocks (s.target cfg)) (hi : i < cfg.erasesize) :
    a + i < b ∨ b + cfg.erasesize ≤ a + i := by
  unfold EnvNandBoard.kept at ha
  unfold EnvNandBoard.target at hb
  by_cases hv : s.envValid = 1
  · rw [if_pos hv] at ha hb
    have h := cfg.apart a ha b hb
    omega
  · rw [if_neg hv] at ha hb
    have h := cfg.apart b hb a ha
    omega

theorem saveenv_cases (cfg : EnvNandConfig) (f : SaveFaults) (s : EnvNandBoard) :
    (cfg.envSize ≤ cfg.envRange ∧ ∃ m₁ m₂,
      eraseLoop (envEraseDevice cfg f.erase) ⟨cfg.envRange, s.target cfg, false, false⟩
        (cfg.blocks (s.target cfg)) s.flash = (some 0, m₁) ∧
      writeenv cfg f.write (s.target cfg) s.image.bytes m₁ = (some 0, m₂) ∧
      saveenv cfg f s = (some 0, ⟨m₂, { s.nv with env := s.image },
        if s.envValid = 2 then 1 else 2, s.powered⟩)) ∨
    ∃ r m p, r ≠ some 0 ∧ (p = true → s.powered = true) ∧
      saveenv cfg f s = (r, ⟨m, { s.nv with env := s.image }, s.envValid, p⟩) ∧
      ∀ x, (∀ a ∈ cfg.blocks (s.target cfg), x < a ∨ a + cfg.erasesize ≤ x) → m x = s.flash x := by
  by_cases hr : cfg.envRange < cfg.envSize
  · refine .inr ⟨some 1, s.flash, s.powered, by simp, id, ?_, fun _ _ => rfl⟩
    simp [saveenv, hr, EnvNandBoard.image]
  · have he := nandEraseOpts_env f.erase (s.target cfg) s.flash (Nat.le_of_not_lt hr)
    have hsave := saveenv.eq_1 cfg f s
    have htarget : (if s.envValid = 1 then cfg.envOffsetRedund else cfg.envOffset) = s.target cfg := rfl
    have himage : ({ s.nv.env with flags := s.nv.env.flags + 1 } : EnvT) = s.image := rfl
    simp only [if_neg hr, htarget, himage, he] at hsave
    have hout : ∀ x, (∀ a ∈ cfg.blocks (s.target cfg), x < a ∨ a + cfg.erasesize ≤ x) →
        (eraseLoop (envEraseDevice cfg f.erase) ⟨cfg.envRange, s.target cfg, false, false⟩
          (cfg.blocks (s.target cfg)) s.flash).2 x = s.flash x :=
      fun x hx => eraseLoop_outside f.erase s.flash rfl rfl hx
    generalize hl : eraseLoop (envEraseDevice cfg f.erase)
      ⟨cfg.envRange, s.target cfg, false, false⟩ (cfg.blocks (s.target cfg)) s.flash = l
      at hsave hout
    obtain ⟨_ | rc, m₁⟩ := l
    · exact .inr ⟨none, m₁, false, by simp, by simp, hsave, hout⟩
    · by_cases hrc : rc = 0
      · subst hrc
        simp only [ne_eq, not_true_eq_false, if_false] at hsave
        have hout₂ : ∀ x, (∀ a ∈ cfg.blocks (s.target cfg), x < a ∨ a + cfg.erasesize ≤ x) →
            (writeenv cfg f.write (s.target cfg) s.image.bytes m₁).2 x = s.flash x := by
          intro x hx
          rw [writeenv, writeChunks_outside f.write _ _ _ hx]
          exact hout x hx
        generalize hw : writeenv cfg f.write (s.target cfg) s.image.bytes m₁ = w at hsave hout₂
        obtain ⟨_ | ret, m₂⟩ := w
        · exact .inr ⟨none, m₂, false, by simp, by simp, hsave, hout₂⟩
        · by_cases hret : ret = 0
          · subst hret
            refine .inl ⟨Nat.le_of_not_lt hr, m₁, m₂, rfl, hw, ?_⟩
            simpa using hsave
          · simp only [hret, not_false_eq_true, if_true] at hsave
            exact .inr ⟨some 1, m₂, s.powered, by simp, id, hsave, hout₂⟩
      · simp only [ne_eq, hrc, not_false_eq_true, if_true] at hsave
        exact .inr ⟨some 1, m₁, s.powered, by simp, id, hsave, hout⟩

/-- What the device did in a `saveenv` that stores its image. -/
structure Completes (cfg : EnvNandConfig) (s : EnvNandBoard) (f : SaveFaults) : Prop where
  room : cfg.envSize ≤ cfg.envRange
  enough : (cfg.used (s.target cfg)).length = cfg.envSize / cfg.len
  written : ∀ a ∈ cfg.used (s.target cfg), f.write a = .done
  asked : ∀ a ∈ cfg.blocks (s.target cfg), f.erase a ≠ .refused
  uncut : ∀ a ∈ cfg.blocks (s.target cfg), cfg.isbad a = false → ∀ left, f.erase a ≠ .cut left

theorem saveenv_completes {f : SaveFaults} {s : EnvNandBoard}
    (h : (saveenv cfg f s).1 = some 0) : Completes cfg s f := by
  rcases saveenv_cases cfg f s with ⟨hr, m₁, m₂, he, hw, _⟩ | ⟨r, m, p, hne, _, hsave, _⟩
  · have hn : 0 + cfg.envSize / cfg.len * cfg.len = cfg.envSize := by
      rw [zero_add]
      exact Nat.div_mul_cancel cfg.divides
    obtain ⟨hlen, hdone⟩ := writeChunks_done hn hw
    exact ⟨hr, hlen, hdone, fun a ha => (eraseLoop_end rfl rfl he ha).1,
      fun a ha => (eraseLoop_end rfl rfl he ha).2⟩
  · rw [hsave] at h
    exact absurd h hne

theorem saveenv_stores {f : SaveFaults} {s : EnvNandBoard} (h : (saveenv cfg f s).1 = some 0)
    (hlen : s.nv.env.data.length = cfg.envSize - envHeaderSize)
    (he : ∀ a ∈ cfg.used (s.target cfg), ∀ left, f.erase a ≠ .fails left) :
    readCopy cfg (s.target cfg) (saveenv cfg f s).2.flash = some s.image := by
  rcases saveenv_cases cfg f s with ⟨_, m₁, m₂, herase, hw, hsave⟩ | ⟨r, m, p, hne, _, hsave, _⟩
  · have hbuf : s.image.bytes.length = cfg.envSize := by
      have hh := cfg.header
      have hdata : s.image.data.length = cfg.envSize - envHeaderSize := hlen
      rw [EnvT.bytes_length, hdata]
      omega
    have hn : ([] : List UInt8).length + cfg.envSize / cfg.len * cfg.len = cfg.envSize := by
      rw [List.length_nil, zero_add]
      exact Nat.div_mul_cancel cfg.divides
    have hsp := blocks_spaced cfg.erasesize (s.target cfg) cfg.envRange
    have hblank : ∀ a ∈ cfg.used (s.target cfg), Blank m₁ a cfg.erasesize := by
      intro a ha
      obtain ⟨hmem, hgood⟩ := List.mem_filter.mp (List.mem_of_mem_take ha)
      exact eraseLoop_blank rfl rfl hsp herase hmem (by simpa using hgood) (he a ha)
    have hread := readChunks_writeChunks hbuf hsp hn hblank hw
    rw [List.nil_append, List.length_nil, List.drop_zero] at hread
    rw [hsave]
    simp only [readCopy]
    rw [EnvNandConfig.blocks, hread, if_pos hbuf, EnvT.ofBytes_bytes]
  · rw [hsave] at h
    exact absurd h hne

theorem saveenv_kept (cfg : EnvNandConfig) (f : SaveFaults) (s : EnvNandBoard) :
    readCopy cfg (s.kept cfg) (saveenv cfg f s).2.flash = readCopy cfg (s.kept cfg) s.flash := by
  apply readCopy_congr
  intro a ha i hi
  have hx : ∀ b ∈ cfg.blocks (s.target cfg), a + i < b ∨ b + cfg.erasesize ≤ a + i :=
    fun b hb => s.apart ha hb hi
  rcases saveenv_cases cfg f s with ⟨_, m₁, m₂, he, hw, hsave⟩ | ⟨r, m, p, _, _, hsave, hout⟩
  · have h₁ : m₁ (a + i) = s.flash (a + i) := by
      have h := eraseLoop_outside (o := ⟨cfg.envRange, s.target cfg, false, false⟩) f.erase s.flash
        rfl rfl hx
      rwa [he] at h
    have h₂ := writeChunks_outside f.write s.image.bytes 0 m₁ hx
    rw [← writeenv, hw] at h₂
    rw [hsave]
    exact h₂.trans h₁
  · rw [hsave]
    exact hout (a + i) hx

/-- What the two places of a redundant environment hold. -/
structure EnvCopies where
  copy1 : EnvT
  copy2 : EnvT

/-- What `env_relocate_spec` leaves in `env_ptr` and `gd->env_valid`. -/
def EnvCopies.relocate (cfg : EnvNandConfig) (c : EnvCopies) : EnvT × Nat :=
  match validCopy c.copy1 c.copy2 with
  | none => (cfg.default, 1)
  | some v => (if v = 1 then c.copy1 else c.copy2, v)

/-- A `saveenv` that returns 0, with the number of the copy it writes. -/
def EnvCopies.saveenv (c : EnvCopies) (env : EnvT) (envValid : Nat) : Nat × EnvCopies :=
  let env := { env with flags := env.flags + 1 }
  if envValid = 1 then (2, { c with copy2 := env }) else (1, { c with copy1 := env })

/-- The blocks of the two places hold the copies of `c`. -/
def Reads (cfg : EnvNandConfig) (m : FlashCells.Flash) (c : EnvCopies) : Prop :=
  readCopy cfg cfg.envOffset m = some c.copy1 ∧ readCopy cfg cfg.envOffsetRedund m = some c.copy2

theorem envRelocateSpec_refines {s : EnvNandBoard} {c : EnvCopies} (h : Reads cfg s.flash c)
    (buf1 buf2 : List UInt8) (globals : NvState) :
    envRelocateSpec cfg buf1 buf2 globals s =
      ⟨s.flash, { globals with env := (c.relocate cfg).1 }, (c.relocate cfg).2, true⟩ := by
  simp only [envRelocateSpec, EnvCopies.relocate, readenv_copy h.1, readenv_copy h.2]
  cases validCopy c.copy1 c.copy2 with
  | none => rfl
  | some v => rfl

theorem saveenv_refines {s : EnvNandBoard} {c : EnvCopies} {f : SaveFaults}
    (h : Reads cfg s.flash c) (hret : (saveenv cfg f s).1 = some 0)
    (hlen : s.nv.env.data.length = cfg.envSize - envHeaderSize)
    (he : ∀ a ∈ cfg.used (s.target cfg), ∀ left, f.erase a ≠ .fails left) :
    Reads cfg (saveenv cfg f s).2.flash (c.saveenv s.nv.env s.envValid).2 := by
  have hkept := saveenv_kept cfg f s
  have hstored := saveenv_stores hret hlen he
  unfold EnvNandBoard.kept at hkept
  unfold EnvNandBoard.target at hstored
  unfold EnvCopies.saveenv
  by_cases hv : s.envValid = 1
  · rw [if_pos hv] at hkept hstored
    simp only [hv, if_true]
    exact ⟨hkept.trans h.1, hstored⟩
  · rw [if_neg hv] at hkept hstored
    simp only [hv, if_false]
    exact ⟨hstored, hkept.trans h.2⟩

end UBoot
