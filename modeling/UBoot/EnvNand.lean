import UBoot.EnvSet
import UBoot.FlashCells
import UBoot.NandErase

namespace UBoot

open FlashCells List

/-- The redundant environment's place on `nand_info[0]`, and the bad blocks there. -/
structure EnvNandConfig where
  envSize : Nat
  envRange : Nat
  envOffset : Nat
  envOffsetRedund : Nat
  erasesize : Nat
  isbad : Nat → Bool
  defaultEnvironment : List UInt8
  header : envHeaderSize ≤ envSize
  erasable : 0 < erasesize
  divides : min erasesize envSize ∣ envSize
  apart : ∀ a ∈ blocks erasesize envOffset envRange,
    ∀ b ∈ blocks erasesize envOffsetRedund envRange, a + erasesize ≤ b ∨ b + erasesize ≤ a
  defaultFits : defaultEnvironment.length ≤ envSize - envHeaderSize

variable (cfg : EnvNandConfig)

/-- `len` of `writeenv` and `readenv`. -/
def EnvNandConfig.len : Nat := min cfg.erasesize cfg.envSize

def EnvNandConfig.blocks (offset : Nat) : List Nat := UBoot.blocks cfg.erasesize offset cfg.envRange

/-- What happens to one block while it is erased. `left` is what it holds then. -/
inductive EraseFault
  | done
  | fails (left : Flash)
  | refused
  | cut (left : Flash)

inductive WriteFault
  | done
  | fails (left : Flash)
  | cut (left : Flash)

/-- What happens to the blocks of one `saveenv`, by address. -/
structure SaveFaults where
  erase : Nat → EraseFault
  write : Nat → WriteFault

def envEraseDevice (f : Nat → EraseFault) : EraseDevice Flash where
  erasesize := cfg.erasesize
  oobavail := 0
  blockIsbad _ a :=
    match f a with
    | .refused => -1
    | _ => if cfg.isbad a then 1 else 0
  erase m a :=
    match f a with
    | .fails left => (some (-5), patch m a cfg.erasesize left)
    | .cut left => (none, patch m a cfg.erasesize left)
    | _ => (some 0, FlashCells.erase m a cfg.erasesize)
  setOps _ m := m
  writeOob m _ := (some 0, m)
  beginScrub m := m
  endScrub m := m

/-- The loop of `writeenv`; the number is `amount_saved`. -/
def writeChunks (f : Nat → WriteFault) (buf : List UInt8) : List Nat → Nat → Flash → Option Int × Flash
  | [], amount, m => (some (if amount ≠ cfg.envSize then 1 else 0), m)
  | a :: as, amount, m =>
    if amount < cfg.envSize then
      if cfg.isbad a then writeChunks f buf as amount m
      else
        match f a with
        | .done =>
          writeChunks f buf as (amount + cfg.len) (program m a ((buf.drop amount).take cfg.len))
        | .fails left => (some 1, patch m a cfg.erasesize left)
        | .cut left => (none, patch m a cfg.erasesize left)
    else (some (if amount ≠ cfg.envSize then 1 else 0), m)

def writeenv (f : Nat → WriteFault) (offset : Nat) (buf : List UInt8) (m : Flash) : Option Int × Flash :=
  writeChunks cfg f buf (cfg.blocks offset) 0 m

/-- The loop of `readenv`: what it has loaded into the buffer. -/
def readChunks (m : Flash) : List Nat → List UInt8 → List UInt8
  | [], loaded => loaded
  | a :: as, loaded =>
    if loaded.length < cfg.envSize then
      if cfg.isbad a then readChunks m as loaded
      else readChunks m as (loaded ++ read m a cfg.len)
    else loaded

/-- `readenv` into the `CONFIG_ENV_SIZE` bytes of `buf`. -/
def readenv (offset : Nat) (buf : List UInt8) (m : Flash) : Int × List UInt8 :=
  let loaded := readChunks cfg m (cfg.blocks offset) []
  (if loaded.length ≠ cfg.envSize then 1 else 0, loaded ++ (buf.take cfg.envSize).drop loaded.length)

structure EnvNandBoard where
  flash : Flash
  nv : NvState
  envValid : Nat
  powered : Bool

/-- `saveenv` with a redundant copy. Without a return code power is lost in it. -/
def saveenv (f : SaveFaults) (s : EnvNandBoard) : Option Int × EnvNandBoard :=
  let env := { s.nv.env with flags := s.nv.env.flags + 1 }
  let s := { s with nv := { s.nv with env := env } }
  if cfg.envRange < cfg.envSize then (some 1, s)
  else
    let offset := if s.envValid = 1 then cfg.envOffsetRedund else cfg.envOffset
    match nandEraseOpts (envEraseDevice cfg f.erase) ⟨cfg.envRange, offset, false, false⟩ s.flash with
    | (none, m) => (none, { s with flash := m, powered := false })
    | (some rc, m) =>
      if rc ≠ 0 then (some 1, { s with flash := m })
      else
        match writeenv cfg f.write offset env.bytes m with
        | (none, m) => (none, { s with flash := m, powered := false })
        | (some ret, m) =>
          if ret ≠ 0 then (some 1, { s with flash := m })
          else (some 0, { s with flash := m, envValid := if s.envValid = 2 then 1 else 2 })

/-- "both ok - check serial": the number of the copy with the later serial. -/
def serialValid (flags1 flags2 : UInt8) : Nat :=
  if flags1 = 255 ∧ flags2 = 0 then 2
  else if flags2 = 255 ∧ flags1 = 0 then 1
  else if flags2 < flags1 then 1
  else if flags1 < flags2 then 2
  else 1

/-- `gd->env_valid` after the two copies are read, or `none` when neither is good. -/
def validCopy (tmp1 tmp2 : EnvT) : Option Nat :=
  if tmp1.crcOk then
    if tmp2.crcOk then some (serialValid tmp1.flags tmp2.flags) else some 1
  else if tmp2.crcOk then some 2 else none

def EnvNandConfig.default : EnvT :=
  setDefaultEnv (cfg.envSize - envHeaderSize) cfg.defaultEnvironment

/-- `env_relocate_spec` with what `malloc` hands out for the two copies. The other
globals are what start-up makes of them. -/
def envRelocateSpec (buf1 buf2 : List UInt8) (globals : NvState) (s : EnvNandBoard) : EnvNandBoard :=
  let tmp1 := EnvT.ofBytes (readenv cfg cfg.envOffset buf1 s.flash).2
  let tmp2 := EnvT.ofBytes (readenv cfg cfg.envOffsetRedund buf2 s.flash).2
  match validCopy tmp1 tmp2 with
  | none => ⟨s.flash, { globals with env := cfg.default }, 1, true⟩
  | some v => ⟨s.flash, { globals with env := if v = 1 then tmp1 else tmp2 }, v, true⟩

variable {cfg : EnvNandConfig}
variable {as : List Nat} {opts : NandEraseOptions} {m' : Flash}

/-- The good blocks that an image of `CONFIG_ENV_SIZE` bytes takes. -/
def EnvNandConfig.used (cfg : EnvNandConfig) (offset : Nat) : List Nat :=
  ((cfg.blocks offset).filter fun a => !cfg.isbad a).take (cfg.envSize / cfg.len)

theorem EnvNandConfig.len_pos (cfg : EnvNandConfig) : 0 < cfg.len := by
  have hh := cfg.header
  have he := cfg.erasable
  simp only [envHeaderSize] at hh
  simp only [EnvNandConfig.len]
  omega

theorem EnvNandConfig.len_le (cfg : EnvNandConfig) : cfg.len ≤ cfg.erasesize := Nat.min_le_left _ _

variable {f : Nat → EraseFault}

theorem eraseLoop_cons {a : Nat}
    {m : Flash} {r : Option Int × Flash} (hj : opts.jffs2 = false) (hs : opts.scrub = false)
    (h : eraseLoop (envEraseDevice cfg f) opts (a :: as) m = r) :
    r = (some (-1), m) ∨ (∃ left, r = (none, patch m a cfg.erasesize left)) ∨
      (cfg.isbad a = true ∧ f a ≠ .refused ∧ eraseLoop (envEraseDevice cfg f) opts as m = r) ∨
      (∃ left, f a = .fails left ∧
        eraseLoop (envEraseDevice cfg f) opts as (patch m a cfg.erasesize left) = r) ∨
      (f a = .done ∧ eraseLoop (envEraseDevice cfg f) opts as (FlashCells.erase m a cfg.erasesize) = r) := by
  cases hf : f a with
  | refused =>
    left
    simpa [eraseLoop, envEraseDevice, hf, hs] using h.symm
  | fails left =>
    by_cases hb : cfg.isbad a
    · refine .inr (.inr (.inl ⟨hb, by simp, ?_⟩))
      simpa [eraseLoop, envEraseDevice, hf, hs, hb] using h
    · refine .inr (.inr (.inr (.inl ⟨left, rfl, ?_⟩)))
      simpa [eraseLoop, envEraseDevice, hf, hs, hb] using h
  | cut left =>
    by_cases hb : cfg.isbad a
    · refine .inr (.inr (.inl ⟨hb, by simp, ?_⟩))
      simpa [eraseLoop, envEraseDevice, hf, hs, hb] using h
    · refine .inr (.inl ⟨left, ?_⟩)
      simpa [eraseLoop, envEraseDevice, hf, hs, hb] using h.symm
  | done =>
    by_cases hb : cfg.isbad a
    · refine .inr (.inr (.inl ⟨hb, by simp, ?_⟩))
      simpa [eraseLoop, envEraseDevice, hf, hs, hb] using h
    · refine .inr (.inr (.inr (.inr ⟨rfl, ?_⟩)))
      simpa [eraseLoop, envEraseDevice, hf, hs, hj, hb] using h

theorem eraseLoop_outside {o : NandEraseOptions} (f : Nat → EraseFault)
    (m : Flash) {x : Nat} (hj : o.jffs2 = false) (hs : o.scrub = false)
    (hx : ∀ a ∈ as, x < a ∨ a + cfg.erasesize ≤ x) : (eraseLoop (envEraseDevice cfg f) o as m).2 x = m x := by
  induction as generalizing m with
  | nil => rfl
  | cons a as ih =>
    have ha := hx a (by simp)
    have hrest : ∀ b ∈ as, x < b ∨ b + cfg.erasesize ≤ x :=
      fun b hb => hx b (mem_cons_of_mem a hb)
    rcases eraseLoop_cons hj hs rfl with h | ⟨left, h⟩ | ⟨_, _, h⟩ | ⟨left, _, h⟩ | ⟨_, h⟩
    · rw [h]
    · rw [h]
      exact patch_outside ha
    · rw [← h]
      exact ih _ hrest
    · rw [← h, ih _ hrest]
      exact patch_outside ha
    · rw [← h, ih _ hrest]
      exact erase_outside ha

theorem eraseLoop_blank {m : Flash} (hj : opts.jffs2 = false) (hs : opts.scrub = false)
    (hsp : as.Pairwise fun a b => a + cfg.erasesize ≤ b)
    (h : eraseLoop (envEraseDevice cfg f) opts as m = (some 0, m')) {a : Nat} (ha : a ∈ as)
    (hgood : cfg.isbad a = false) (hf : ∀ left, f a ≠ .fails left) : Blank m' a cfg.erasesize := by
  induction as generalizing m with
  | nil => simp at ha
  | cons b as ih =>
    obtain ⟨hb, hsp⟩ := pairwise_cons.mp hsp
    rcases mem_cons.mp ha with rfl | hmem
    · rcases eraseLoop_cons hj hs h with h | ⟨left, h⟩ | ⟨hbad, _⟩ | ⟨left, hfail, _⟩ | ⟨_, h⟩
      · simp at h
      · simp at h
      · simp [hgood] at hbad
      · exact absurd hfail (hf left)
      · refine (erase_blank m a cfg.erasesize).congr fun i hi => ?_
        have hclear : ∀ c ∈ as, a + i < c ∨ c + cfg.erasesize ≤ a + i := by
          intro c hc
          have := hb c hc
          omega
        have hout := eraseLoop_outside f (FlashCells.erase m a cfg.erasesize) hj hs hclear
        rw [h] at hout
        exact hout
    · rcases eraseLoop_cons hj hs h with h | ⟨left, h⟩ | ⟨_, _, h⟩ | ⟨left, _, h⟩ | ⟨_, h⟩
      · simp at h
      · simp at h
      · exact ih hsp h hmem
      · exact ih hsp h hmem
      · exact ih hsp h hmem

theorem eraseLoop_end {m : Flash} (hj : opts.jffs2 = false) (hs : opts.scrub = false)
    (h : eraseLoop (envEraseDevice cfg f) opts as m = (some 0, m')) {a : Nat} (ha : a ∈ as) :
    f a ≠ .refused ∧ (cfg.isbad a = false → ∀ left, f a ≠ .cut left) := by
  induction as generalizing m with
  | nil => simp at ha
  | cons b as ih =>
    rcases eraseLoop_cons hj hs h with h | ⟨left, h⟩ | ⟨hb, hf, h⟩ | ⟨left, hf, h⟩ | ⟨hf, h⟩
    · simp at h
    · simp at h
    all_goals
      rcases mem_cons.mp ha with rfl | hmem
      · simp_all
      · exact ih h hmem

theorem chunk_length {buf : List UInt8} {k : Nat} (hb : buf.length = cfg.envSize) {n : Nat}
    (hn : k + (n + 1) * cfg.len = cfg.envSize) : ((buf.drop k).take cfg.len).length = cfg.len := by
  rw [Nat.succ_mul] at hn
  simp only [length_take, length_drop]
  omega

theorem writeChunks_outside (f : Nat → WriteFault) (buf : List UInt8)
    (amount : Nat) (m : Flash) {x : Nat} (hx : ∀ a ∈ as, x < a ∨ a + cfg.erasesize ≤ x) :
    (writeChunks cfg f buf as amount m).2 x = m x := by
  induction as generalizing amount m with
  | nil => rfl
  | cons a as ih =>
    have ha := hx a (by simp)
    have hrest : ∀ b ∈ as, x < b ∨ b + cfg.erasesize ≤ x :=
      fun b hb => hx b (mem_cons_of_mem a hb)
    unfold writeChunks
    split
    · split
      · exact ih _ _ hrest
      · split
        · rw [ih _ _ hrest]
          apply program_outside
          have hl := cfg.len_le
          simp only [length_take, length_drop]
          omega
        · exact patch_outside ha
        · exact patch_outside ha
    · rfl

theorem writeChunks_done {f : Nat → WriteFault} {buf : List UInt8}
    {amount n : Nat} {m : Flash} (hn : amount + n * cfg.len = cfg.envSize)
    (h : writeChunks cfg f buf as amount m = (some 0, m')) :
    ((as.filter fun a => !cfg.isbad a).take n).length = n ∧
      ∀ a ∈ (as.filter fun a => !cfg.isbad a).take n, f a = .done := by
  induction as generalizing amount n m with
  | nil =>
    by_cases ha : amount = cfg.envSize
    · have hz : n * cfg.len = 0 := by omega
      have hl := cfg.len_pos
      have hn0 : n = 0 := (Nat.mul_eq_zero.mp hz).resolve_right (by omega)
      simp [hn0]
    · simp [writeChunks, ha] at h
  | cons a as ih =>
    cases n with
    | zero => simp
    | succ n =>
      have hl := cfg.len_pos
      have hlt : amount < cfg.envSize := by
        rw [Nat.succ_mul] at hn
        omega
      unfold writeChunks at h
      rw [if_pos hlt] at h
      by_cases hb : cfg.isbad a
      · rw [if_pos hb] at h
        simpa [hb] using ih hn h
      · rw [if_neg hb] at h
        cases hf : f a with
        | done =>
          rw [hf] at h
          obtain ⟨hlen, hdone⟩ := ih (n := n) (by rw [Nat.succ_mul] at hn; omega) h
          have hcons : ((a :: as).filter fun a => !cfg.isbad a).take (n + 1) =
              a :: (as.filter fun a => !cfg.isbad a).take n := by simp [hb]
          rw [hcons]
          refine ⟨by simp only [length_cons]; omega, ?_⟩
          intro b hmem
          rcases mem_cons.mp hmem with rfl | hmem
          · exact hf
          · exact hdone b hmem
        | fails left => simp [hf] at h
        | cut left => simp [hf] at h

theorem readChunks_writeChunks {f : Nat → WriteFault} {buf : List UInt8}
    {loaded : List UInt8} {n : Nat} {m : Flash} (hb : buf.length = cfg.envSize)
    (hsp : as.Pairwise fun a b => a + cfg.erasesize ≤ b) (hn : loaded.length + n * cfg.len = cfg.envSize)
    (hblank : ∀ a ∈ (as.filter fun a => !cfg.isbad a).take n, Blank m a cfg.erasesize)
    (h : writeChunks cfg f buf as loaded.length m = (some 0, m')) :
    readChunks cfg m' as loaded = loaded ++ buf.drop loaded.length := by
  have hle := cfg.len_le
  induction as generalizing loaded n m with
  | nil =>
    by_cases ha : loaded.length = cfg.envSize
    · simp [readChunks, ha, ← hb]
    · simp [writeChunks, ha] at h
  | cons a as ih =>
    obtain ⟨ha, hsp⟩ := pairwise_cons.mp hsp
    unfold writeChunks at h
    unfold readChunks
    by_cases hlt : loaded.length < cfg.envSize
    · rw [if_pos hlt] at h ⊢
      by_cases hbad : cfg.isbad a
      · rw [if_pos hbad] at h ⊢
        exact ih hsp hn (by simpa [hbad] using hblank) h
      · rw [if_neg hbad] at h ⊢
        cases n with
        | zero => omega
        | succ n =>
          cases hf : f a with
          | fails left => simp [hf] at h
          | cut left => simp [hf] at h
          | done =>
            rw [hf] at h
            have hchunk := chunk_length hb hn
            have hcons : ((a :: as).filter fun a => !cfg.isbad a).take (n + 1) =
                a :: (as.filter fun a => !cfg.isbad a).take n := by simp [hbad]
            rw [hcons] at hblank
            -- the later blocks keep what this one holds, and are blank until their turn
            have hread : read m' a cfg.len = (buf.drop loaded.length).take cfg.len := by
              have hprog := read_program (m := m) (a := a)
                (hchunk.symm ▸ (hblank a (by simp)).mono hle)
              rw [hchunk] at hprog
              rw [← hprog]
              apply read_congr
              intro i hi
              have hclear : ∀ c ∈ as, a + i < c ∨ c + cfg.erasesize ≤ a + i := by
                intro c hc
                have := ha c hc
                omega
              have hout := writeChunks_outside f buf (loaded.length + cfg.len)
                (program m a ((buf.drop loaded.length).take cfg.len)) hclear
              simp only [] at h
              rw [h] at hout
              exact hout
            have hlater : ∀ b ∈ (as.filter fun a => !cfg.isbad a).take n,
                Blank (program m a ((buf.drop loaded.length).take cfg.len)) b cfg.erasesize := by
              intro b hmem
              have hab := ha b (mem_of_mem_filter (mem_of_mem_take hmem))
              refine (hblank b (mem_cons_of_mem a hmem)).congr fun i _ => ?_
              exact program_outside (by omega)
            have hlen : (loaded ++ (buf.drop loaded.length).take cfg.len).length =
                loaded.length + cfg.len := by rw [length_append, hchunk]
            rw [hread, ih hsp (by rw [hlen]; rw [Nat.succ_mul] at hn; omega) hlater
              (by rw [hlen]; exact h), hlen, append_assoc, ← drop_drop,
              take_append_drop]
    · rw [if_neg hlt] at h ⊢
      have hlen : buf.length ≤ loaded.length := by omega
      simp [drop_eq_nil_of_le hlen]

end UBoot
