import UBoot.ByteWords
import UBoot.FlashCells

namespace UBoot.Cfi

open ByteWords FlashCells List

def errOk : Nat := 0
def errNotErased : Nat := 2

/-- The widths of a port and its chips as `flash_detect_cfi` tries them, and the write buffer of a chip
as the CFI table announces it. -/
structure FlashInfo where
  portwidth : Nat
  chipwidth : Nat
  bufferSize : Nat
  port : portwidth ∈ [1, 2, 4, 8]
  chip : chipwidth ∈ [1, 2, 4, 8]
  chip_le : chipwidth ≤ portwidth
  buffer : ∃ n, n < 16 ∧ bufferSize = 2 ^ n
  buffer_le : chipwidth ≤ bufferSize

theorem word_width : 2 ∈ [1, 2, 4, 8] := by decide

theorem word_le_word : 2 ≤ 2 := le_refl 2

theorem word_le_long : 2 ≤ 4 := by decide

/-- `flash_add_byte`: `c`, `w`, `l` and `ll` are the low bytes of the union. -/
def flashAddByte (info : FlashInfo) (cword : Nat) (c : UInt8) : Nat :=
  shiftIn info.portwidth cword c

/-- Bytes added after `cword.l = 0`. -/
def addBytes (info : FlashInfo) (cword : Nat) (bs : List UInt8) : Nat :=
  bs.foldl (flashAddByte info) (cword / 4294967296 * 4294967296)

/-- The member of the union for the port. -/
def portWord (info : FlashInfo) (cword : Nat) : Nat := cword % 256 ^ info.portwidth

def flashRead (info : FlashInfo) (m : Flash) (a : Nat) : Nat := ofBytes (read m a info.portwidth)

/-- The chip programs a word by an AND and does not fail. -/
def chipWrite (info : FlashInfo) (m : Flash) (a v : Nat) : Flash :=
  program m a (toBytes info.portwidth v)

def flashWriteCfiword (info : FlashInfo) (m : Flash) (dest cword : Nat) : Nat × Flash :=
  if flashRead info m dest &&& portWord info cword = portWord info cword then
    (errOk, chipWrite info m dest (portWord info cword))
  else (errNotErased, m)

def sourceWord (info : FlashInfo) (src : List UInt8) : Nat := ofBytes (src.take info.portwidth)

/-- The loop that looks whether the flash is erased; it goes on while `flag` is 0. -/
def erasedLoop (info : FlashInfo) (m : Flash) : Nat → Nat → List UInt8 → Bool → Bool
  | 0, _, _, flag => flag
  | cnt + 1, dst2, src, flag =>
    if flag then flag
    else
      erasedLoop info m cnt (dst2 + info.portwidth) (src.drop info.portwidth)
        (decide (flashRead info m dst2 &&& sourceWord info src = sourceWord info src))

/-- The loop that writes the words. -/
def writeLoop (info : FlashInfo) : Nat → Flash → Nat → List UInt8 → Flash
  | 0, m, _, _ => m
  | cnt + 1, m, dst, src =>
    writeLoop info cnt (chipWrite info m dst (sourceWord info src)) (dst + info.portwidth)
      (src.drop info.portwidth)

/-- `flash_write_cfibuffer`; `len` is the length of `cp`. -/
def flashWriteCfibuffer (info : FlashInfo) (m : Flash) (dest : Nat) (cp : List UInt8) : Nat × Flash :=
  let cnt := cp.length / info.portwidth
  if erasedLoop info m cnt dest cp false then (errOk, writeLoop info cnt m dest cp)
  else (errNotErased, m)

/-- Where a loop of `write_buff` stands. -/
structure Cursor where
  mem : Flash
  wp : Nat
  src : List UInt8

/-- One word in the loops of `write_buff`. -/
def wordStep (info : FlashInfo) (cword : Nat) (c : Cursor) : Nat × Cursor :=
  let r := flashWriteCfiword info c.mem c.wp (addBytes info cword (c.src.take info.portwidth))
  (r.1, ⟨r.2, (c.wp + info.portwidth) % 4294967296, c.src.drop info.portwidth⟩)

def bufferedSize (info : FlashInfo) : Nat := info.portwidth / info.chipwidth * info.bufferSize

def bufferStep (info : FlashInfo) (c : Cursor) : Nat × Cursor :=
  let i := bufferedSize info - c.wp % bufferedSize info
  let i := if i > c.src.length then c.src.length else i
  let r := flashWriteCfibuffer info c.mem c.wp (c.src.take i)
  let i := i - i % info.portwidth
  (r.1, ⟨r.2, (c.wp + i) % 4294967296, c.src.drop i⟩)

/-- The aligned part, with `CONFIG_SYS_FLASH_USE_BUFFER_WRITE` or without. -/
def alignedStep (useBuffer : Bool) (info : FlashInfo) (cword : Nat) (c : Cursor) : Nat × Cursor :=
  if useBuffer = true ∧ info.bufferSize ≠ 1 then bufferStep info c else wordStep info cword c

def alignedLoop (useBuffer : Bool) (info : FlashInfo) (cword : Nat) : Nat → Cursor → Option (Nat × Cursor)
  | 0, _ => none
  | fuel + 1, c =>
    if c.src.length < info.portwidth then some (errOk, c)
    else
      let r := alignedStep useBuffer info cword c
      if r.1 ≠ errOk then some r else alignedLoop useBuffer info cword fuel r.2

def startWord (info : FlashInfo) (cword : Nat) (m : Flash) (addr : Nat) (src : List UInt8) : Nat × Cursor :=
  let wp := addr / info.portwidth * info.portwidth
  let aln := addr - wp
  if aln ≠ 0 then
    let n := min (info.portwidth - aln) src.length
    let r := flashWriteCfiword info m wp (addBytes info cword
      (read m wp aln ++ src.take n ++ read m (wp + (aln + n)) (info.portwidth - (aln + n))))
    (r.1, ⟨r.2, (wp + info.portwidth) % 4294967296, src.drop n⟩)
  else (errOk, ⟨m, wp, src⟩)

def tailWord (info : FlashInfo) (cword : Nat) (c : Cursor) : Nat × Flash :=
  if c.src.length = 0 then (errOk, c.mem)
  else
    flashWriteCfiword info c.mem c.wp (addBytes info cword
      (c.src ++ read c.mem (c.wp + c.src.length) (info.portwidth - c.src.length)))

/-- `write_buff`; `cnt` is the length of `src`, and `cword` is what the stack holds. -/
def writeBuff (useBuffer : Bool) (info : FlashInfo) (cword fuel : Nat) (m : Flash) (addr : Nat)
    (src : List UInt8) : Option (Nat × Flash) :=
  let r := startWord info cword m addr src
  if r.1 ≠ errOk then some (r.1, r.2.mem)
  else
    (alignedLoop useBuffer info cword fuel r.2).map fun r =>
      if r.1 ≠ errOk then (r.1, r.2.mem) else tailWord info cword r.2

def FitsAt (m : Flash) (addr : Nat) (src : List UInt8) (i : Nat) : Prop :=
  m (addr + i) &&& src.getD i 0 = src.getD i 0

def Fits (m : Flash) (addr : Nat) (src : List UInt8) : Prop :=
  ∀ i, i < src.length → FitsAt m addr src i

/-- Some byte for the `w`-th word of the flash does not fit. -/
def Unfit (info : FlashInfo) (m : Flash) (addr : Nat) (src : List UInt8) (w : Nat) : Prop :=
  ∃ i, i < src.length ∧ (addr + i) / info.portwidth = w ∧ ¬FitsAt m addr src i

/-- All of the `w`-th word is written. -/
def Whole (info : FlashInfo) (addr len w : Nat) : Prop :=
  addr ≤ w * info.portwidth ∧ w * info.portwidth + info.portwidth ≤ addr + len

/-- Two words that are written by one call, where one call writes whole words of a block of `size`
bytes, or one word. -/
def Together (info : FlashInfo) (size addr len w v : Nat) : Prop :=
  v = w ∨ Whole info addr len w ∧ Whole info addr len v ∧
    v * info.portwidth / size = w * info.portwidth / size

def Refused (info : FlashInfo) (size : Nat) (m : Flash) (addr : Nat) (src : List UInt8) : Prop :=
  ∃ w, ∀ v, Together info size addr src.length w v → Unfit info m addr src v

variable {info : FlashInfo} {m m' : Flash} {addr size k w v : Nat} {src s₁ s₂ : List UInt8}

theorem port_pos (info : FlashInfo) : 0 < info.portwidth := by
  have h := info.port
  simp only [mem_cons, not_mem_nil, or_false] at h
  omega

theorem width_pow {n : Nat} (h : n ∈ [1, 2, 4, 8]) : ∃ j, n = 2 ^ j := by
  simp only [mem_cons, not_mem_nil, or_false] at h
  rcases h with h | h | h | h
  · exact ⟨0, h⟩
  · exact ⟨1, h⟩
  · exact ⟨2, h⟩
  · exact ⟨3, h⟩

theorem pow_dvd_of_le {a b : Nat} (ha : ∃ j, a = 2 ^ j) (hb : ∃ j, b = 2 ^ j) (h : a ≤ b) : a ∣ b := by
  obtain ⟨i, rfl⟩ := ha
  obtain ⟨j, rfl⟩ := hb
  exact Nat.pow_dvd_pow 2 ((Nat.pow_le_pow_iff_right (by omega)).mp h)

theorem bufferedSize_words (info : FlashInfo) :
    info.portwidth ∣ bufferedSize info ∧ 0 < bufferedSize info := by
  obtain ⟨n, -, hn⟩ := info.buffer
  obtain ⟨q, hq⟩ := pow_dvd_of_le (width_pow info.chip) ⟨n, hn⟩ info.buffer_le
  obtain ⟨r, hr⟩ := pow_dvd_of_le (width_pow info.chip) (width_pow info.port) info.chip_le
  have hpos : 0 < info.bufferSize := by
    rw [hn]
    exact Nat.pow_pos (by omega)
  have hport := port_pos info
  have hchip : 0 < info.chipwidth := Nat.pos_of_mul_pos_right (hr ▸ hport)
  have hsize : bufferedSize info = info.portwidth * q := by
    unfold bufferedSize
    rw [hr, Nat.mul_div_cancel_left r hchip, hq, mul_left_comm, mul_assoc, mul_left_comm]
  have hqpos : 0 < q := by
    rw [hq] at hpos
    exact Nat.pos_of_mul_pos_left hpos
  rw [hsize]
  exact ⟨dvd_mul_right _ _, Nat.mul_pos hport hqpos⟩

theorem fitsAt_left {i : Nat} (h : i < s₁.length) : FitsAt m addr (s₁ ++ s₂) i ↔ FitsAt m addr s₁ i := by
  unfold FitsAt
  rw [getD_append _ _ _ _ h]

theorem fitsAt_right (i : Nat) :
    FitsAt m addr (s₁ ++ s₂) (s₁.length + i) ↔ FitsAt m (addr + s₁.length) s₂ i := by
  unfold FitsAt
  rw [getD_append_right _ _ _ _ (Nat.le_add_right _ _), Nat.add_sub_cancel_left, add_assoc]

theorem fits_append : Fits m addr (s₁ ++ s₂) ↔ Fits m addr s₁ ∧ Fits m (addr + s₁.length) s₂ := by
  constructor
  · intro h
    constructor
    · intro i hi
      exact (fitsAt_left hi).mp (h i (by rw [length_append]; omega))
    · intro i hi
      exact (fitsAt_right i).mp (h _ (by rw [length_append]; omega))
  · rintro ⟨h₁, h₂⟩ i hi
    rw [length_append] at hi
    by_cases hlt : i < s₁.length
    · exact (fitsAt_left hlt).mpr (h₁ i hlt)
    · have h := (fitsAt_right (i - s₁.length)).mpr (h₂ (i - s₁.length) (by omega))
      rwa [Nat.add_sub_cancel' (by omega)] at h

theorem fits_congr (h : ∀ x, addr ≤ x → x < addr + src.length → m' x = m x) :
    Fits m' addr src ↔ Fits m addr src := by
  unfold Fits FitsAt
  constructor
  · intro hf i hi
    rw [← h (addr + i) (by omega) (by omega)]
    exact hf i hi
  · intro hf i hi
    rw [h (addr + i) (by omega) (by omega)]
    exact hf i hi

theorem program_fits (h : Fits m addr src) : program m addr src = store m addr src := by
  apply patch_congr
  intro x hx hlt
  have hfit := h (x - addr) (by omega)
  unfold FitsAt at hfit
  rw [Nat.add_sub_cancel' hx] at hfit
  simp only [List.getD, List.getElem?_eq_getElem (show x - addr < src.length by omega),
    Option.getD_some] at hfit ⊢
  exact hfit

theorem store_append (m : Flash) (addr : Nat) (s₁ s₂ : List UInt8) :
    store m addr (s₁ ++ s₂) = store (store m addr s₁) (addr + s₁.length) s₂ := by
  funext x
  simp only [store, patch, length_append]
  by_cases h₁ : addr ≤ x ∧ x < addr + s₁.length
  · rw [if_pos (by omega), if_neg (by omega), if_pos h₁, getD_append _ _ _ _ (by omega)]
  · by_cases h₂ : addr + s₁.length ≤ x ∧ x < addr + s₁.length + s₂.length
    · rw [if_pos (by omega), if_pos h₂, getD_append_right _ _ _ _ (by omega)]
      congr 1
      omega
    · rw [if_neg (by omega), if_neg h₂, if_neg h₁]

theorem unfit_congr (h : ∀ x, addr ≤ x → x < addr + src.length → m' x = m x) :
    Unfit info m' addr src w ↔ Unfit info m addr src w := by
  have hbyte : ∀ i, i < src.length → (FitsAt m' addr src i ↔ FitsAt m addr src i) := by
    intro i hi
    unfold FitsAt
    rw [h (addr + i) (by omega) (by omega)]
  constructor
  · rintro ⟨i, hi, hw, hf⟩
    exact ⟨i, hi, hw, fun hfit => hf ((hbyte i hi).mpr hfit)⟩
  · rintro ⟨i, hi, hw, hf⟩
    exact ⟨i, hi, hw, fun hfit => hf ((hbyte i hi).mp hfit)⟩

theorem refused_congr (h : ∀ x, addr ≤ x → x < addr + src.length → m' x = m x) :
    Refused info size m' addr src ↔ Refused info size m addr src := by
  constructor
  · rintro ⟨w, hw⟩
    exact ⟨w, fun v hv => (unfit_congr h).mp (hw v hv)⟩
  · rintro ⟨w, hw⟩
    exact ⟨w, fun v hv => (unfit_congr h).mpr (hw v hv)⟩

theorem Refused.not_fits (h : Refused info size m addr src) : ¬Fits m addr src := by
  obtain ⟨w, hw⟩ := h
  obtain ⟨i, hi, -, hf⟩ := hw w (.inl rfl)
  exact fun hfit => hf (hfit i hi)

theorem whole_byte (h : Whole info addr k w) : ∃ i, i < k ∧ (addr + i) / info.portwidth = w := by
  have hp := port_pos info
  refine ⟨w * info.portwidth - addr, by have := h.1; have := h.2; omega, ?_⟩
  rw [Nat.add_sub_cancel' h.1, Nat.mul_div_cancel _ hp]

theorem refused_word (h : ∀ i, i < src.length → (addr + i) / info.portwidth = w) :
    Refused info size m addr src ↔ ¬Fits m addr src := by
  refine ⟨Refused.not_fits, fun hf => ?_⟩
  obtain ⟨i, hi, hbad⟩ : ∃ i, i < src.length ∧ ¬FitsAt m addr src i := by
    by_contra hno
    push Not at hno
    exact hf hno
  refine ⟨w, fun v hv => ⟨i, hi, ?_, hbad⟩⟩
  rcases hv with rfl | ⟨-, hv, -⟩
  · exact h i hi
  · obtain ⟨j, hj, hjv⟩ := whole_byte hv
    rw [h i hi, ← h j hj, hjv]

theorem whole_behind (h : Whole info (addr + s₁.length) s₂.length w) :
    (addr + s₁.length) / info.portwidth ≤ w := by
  obtain ⟨i, hi, hw⟩ := whole_byte h
  rw [← hw]
  exact Nat.div_le_div_right (Nat.le_add_right _ _)

theorem unfit_append : Unfit info m addr (s₁ ++ s₂) w ↔
      Unfit info m addr s₁ w ∨ Unfit info m (addr + s₁.length) s₂ w := by
  constructor
  · rintro ⟨i, hi, hw, hf⟩
    rw [length_append] at hi
    by_cases hlt : i < s₁.length
    · exact .inl ⟨i, hlt, hw, fun hfit => hf ((fitsAt_left hlt).mpr hfit)⟩
    · right
      obtain ⟨j, rfl⟩ : ∃ j, i = s₁.length + j := ⟨i - s₁.length, by omega⟩
      rw [← add_assoc] at hw
      exact ⟨j, by omega, hw, fun hfit => hf ((fitsAt_right j).mpr hfit)⟩
  · rintro (⟨i, hi, hw, hf⟩ | ⟨i, hi, hw, hf⟩)
    · exact ⟨i, by rw [length_append]; omega, hw, fun hfit => hf ((fitsAt_left hi).mp hfit)⟩
    · refine ⟨s₁.length + i, by rw [length_append]; omega, ?_, fun hfit => hf ?_⟩
      · rw [← add_assoc]
        exact hw
      · exact (fitsAt_right i).mp hfit

theorem unfit_behind (h : Unfit info m (addr + s₁.length) s₂ w) :
    (addr + s₁.length) / info.portwidth ≤ w := by
  obtain ⟨i, -, hw, -⟩ := h
  rw [← hw]
  exact Nat.div_le_div_right (Nat.le_add_right _ _)

section
variable (hdvd : info.portwidth ∣ addr + s₁.length)
include hdvd

theorem word_before {i : Nat} (hi : i < s₁.length) :
    (addr + i) / info.portwidth < (addr + s₁.length) / info.portwidth := by
  obtain ⟨c, hc⟩ := hdvd
  have hp := port_pos info
  rw [hc, Nat.mul_div_cancel_left _ hp, Nat.div_lt_iff_lt_mul hp, mul_comm]
  omega

theorem whole_append : Whole info addr (s₁ ++ s₂).length w ↔
      Whole info addr s₁.length w ∨ Whole info (addr + s₁.length) s₂.length w := by
  obtain ⟨c, hc⟩ := hdvd
  unfold Whole
  rw [length_append, hc]
  constructor
  · rintro ⟨hlo, hhi⟩
    by_cases hw : w < c
    · left
      have hmul := Nat.mul_le_mul_right info.portwidth (Nat.succ_le_of_lt hw)
      rw [Nat.succ_mul, mul_comm c] at hmul
      exact ⟨hlo, hmul⟩
    · right
      have hmul := Nat.mul_le_mul_right info.portwidth (Nat.le_of_not_lt hw)
      rw [mul_comm c] at hmul
      exact ⟨hmul, by omega⟩
  · rintro (⟨hlo, hhi⟩ | ⟨hlo, hhi⟩)
    · exact ⟨hlo, by omega⟩
    · exact ⟨by omega, by omega⟩

theorem whole_before (h : Whole info addr s₁.length w) : w < (addr + s₁.length) / info.portwidth := by
  obtain ⟨i, hi, hw⟩ := whole_byte h
  rw [← hw]
  exact word_before hdvd hi

theorem unfit_before (h : Unfit info m addr s₁ w) : w < (addr + s₁.length) / info.portwidth := by
  obtain ⟨i, hi, hw, -⟩ := h
  rw [← hw]
  exact word_before hdvd hi

theorem refused_append
    (hsep : ∀ w v, Whole info addr s₁.length w → Whole info (addr + s₁.length) s₂.length v →
      v * info.portwidth / size ≠ w * info.portwidth / size) :
    Refused info size m addr (s₁ ++ s₂) ↔
      Refused info size m addr s₁ ∨ Refused info size m (addr + s₁.length) s₂ := by
  have happend : ∀ v, Unfit info m addr (s₁ ++ s₂) v ↔
      Unfit info m addr s₁ v ∨ Unfit info m (addr + s₁.length) s₂ v := fun v => unfit_append
  constructor
  · rintro ⟨w, hw⟩
    rcases (happend w).mp (hw w (.inl rfl)) with hbad | hbad
    · refine .inl ⟨w, fun v hv => ?_⟩
      rcases hv with rfl | ⟨hww, hvw, hblock⟩
      · exact hbad
      · have htog : Together info size addr (s₁ ++ s₂).length w v :=
          .inr ⟨(whole_append hdvd).mpr (.inl hww), (whole_append hdvd).mpr (.inl hvw), hblock⟩
        refine ((happend v).mp (hw v htog)).resolve_right fun hright => ?_
        have := whole_before hdvd hvw
        have := unfit_behind hright
        omega
    · refine .inr ⟨w, fun v hv => ?_⟩
      rcases hv with rfl | ⟨hww, hvw, hblock⟩
      · exact hbad
      · have htog : Together info size addr (s₁ ++ s₂).length w v :=
          .inr ⟨(whole_append hdvd).mpr (.inr hww), (whole_append hdvd).mpr (.inr hvw), hblock⟩
        refine ((happend v).mp (hw v htog)).resolve_left fun hleft => ?_
        have := whole_behind hvw
        have := unfit_before hdvd hleft
        omega
  · rintro (⟨w, hw⟩ | ⟨w, hw⟩)
    · refine ⟨w, fun v hv => (happend v).mpr ?_⟩
      rcases hv with rfl | ⟨hww, hvw, hblock⟩
      · exact .inl (hw v (.inl rfl))
      · have hleft := (whole_append hdvd).mp hww |>.resolve_right fun hright => by
          have := whole_behind hright
          have := unfit_before hdvd (hw w (.inl rfl))
          omega
        rcases (whole_append hdvd).mp hvw with hv | hv
        · exact .inl (hw v (.inr ⟨hleft, hv, hblock⟩))
        · exact absurd hblock (hsep w v hleft hv)
    · refine ⟨w, fun v hv => (happend v).mpr ?_⟩
      rcases hv with rfl | ⟨hww, hvw, hblock⟩
      · exact .inr (hw v (.inl rfl))
      · have hright := (whole_append hdvd).mp hww |>.resolve_left fun hleft => by
          have := whole_before hdvd hleft
          have := unfit_behind (hw w (.inl rfl))
          omega
        rcases (whole_append hdvd).mp hvw with hv | hv
        · exact absurd hblock.symm (hsep v w hv hright)
        · exact .inr (hw v (.inr ⟨hright, hv, hblock⟩))

end

end UBoot.Cfi
