import UBoot.CfiFlash

namespace UBoot.Cfi

open ByteWords FlashCells List

/-- How a part of `write_buff` has gone that writes `src` to `addr`: it is refused if a call of it is,
what fits is stored, and the rest of the flash stays. -/
structure Stage (info : FlashInfo) (size : Nat) (m : Flash) (addr : Nat) (src : List UInt8)
    (rc : Nat) (m' : Flash) : Prop where
  code : rc = errOk ∨ rc = errNotErased
  refused : rc = errNotErased ↔ Refused info size m addr src
  fits : Fits m addr src → m' = store m addr src
  frame : rc = errOk → ∀ x, x < addr ∨ addr + src.length ≤ x → m' x = m x

variable {info : FlashInfo} {m m₁ m₂ : Flash} {addr size k w v cword rc : Nat}
  {src s₁ s₂ word : List UInt8}

theorem Stage.append (hdvd : info.portwidth ∣ addr + s₁.length)
    (hsep : ∀ w v, Whole info addr s₁.length w → Whole info (addr + s₁.length) s₂.length v →
      v * info.portwidth / size ≠ w * info.portwidth / size)
    (h₁ : Stage info size m addr s₁ errOk m₁) (h₂ : Stage info size m₁ (addr + s₁.length) s₂ rc m₂) :
    Stage info size m addr (s₁ ++ s₂) rc m₂ := by
  have hkept : ∀ x, addr + s₁.length ≤ x → x < addr + s₁.length + s₂.length → m₁ x = m x :=
    fun x hx _ => h₁.frame rfl x (.inr hx)
  have hnot : ¬Refused info size m addr s₁ := fun hr => by
    have hcode := h₁.refused.mpr hr
    cases hcode
  refine ⟨h₂.code, ?_, ?_, ?_⟩
  · rw [h₂.refused, refused_congr hkept, refused_append hdvd hsep]
    exact ⟨.inr, fun h => h.resolve_left hnot⟩
  · intro hf
    obtain ⟨hf₁, hf₂⟩ := fits_append.mp hf
    rw [h₂.fits ((fits_congr hkept).mpr hf₂), h₁.fits hf₁, ← store_append]
  · intro hok x hx
    rw [length_append] at hx
    rw [h₂.frame hok x (by omega), h₁.frame rfl x (by omega)]

theorem Stage.stop (hdvd : info.portwidth ∣ addr + s₁.length)
    (hsep : ∀ w v, Whole info addr s₁.length w → Whole info (addr + s₁.length) s₂.length v →
      v * info.portwidth / size ≠ w * info.portwidth / size)
    (h₁ : Stage info size m addr s₁ errNotErased m₁) :
    Stage info size m addr (s₁ ++ s₂) errNotErased m₁ := by
  have hr := h₁.refused.mp rfl
  refine ⟨.inr rfl, ?_, ?_, nofun⟩
  · rw [refused_append hdvd hsep]
    exact ⟨fun _ => .inl hr, fun _ => rfl⟩
  · exact fun hf => absurd (fits_append.mp hf).1 hr.not_fits

theorem portWord_addBytes (h : word.length = info.portwidth) (cword : Nat) :
    portWord info (addBytes info cword word) = ofBytes word :=
  foldl_shiftIn_full (port_pos info) _ h

theorem covers_iff (h : word.length = info.portwidth) :
    flashRead info m addr &&& ofBytes word = ofBytes word ↔ Fits m addr word := by
  unfold flashRead
  rw [ofBytes_covers (by rw [read_length, h])]
  constructor
  · intro hall i hi
    have hbyte := hall i hi
    rwa [getD_read (by omega)] at hbyte
  · intro hf i hi
    rw [getD_read (by omega)]
    exact hf i hi

theorem chipWrite_word (h : word.length = info.portwidth) :
    chipWrite info m addr (ofBytes word) = program m addr word := by
  unfold chipWrite
  rw [← h, toBytes_ofBytes]

theorem flashWriteCfiword_cases (h : word.length = info.portwidth) (cword : Nat) : Fits m addr word ∧
        flashWriteCfiword info m addr (addBytes info cword word) = (errOk, store m addr word) ∨
      ¬Fits m addr word ∧ flashWriteCfiword info m addr (addBytes info cword word) = (errNotErased, m) := by
  unfold flashWriteCfiword
  rw [portWord_addBytes h]
  by_cases hf : Fits m addr word
  · left
    rw [if_pos ((covers_iff h).mpr hf), chipWrite_word h, program_fits hf]
    exact ⟨hf, rfl⟩
  · right
    rw [if_neg (fun hc => hf ((covers_iff h).mp hc))]
    exact ⟨hf, rfl⟩

theorem fits_read (m : Flash) (addr n : Nat) : Fits m addr (read m addr n) := by
  intro i hi
  rw [read_length] at hi
  unfold FitsAt
  rw [getD_read hi]
  exact UInt8.and_self

theorem store_own (m : Flash) (addr n : Nat) : store m addr (read m addr n) = m := by
  funext x
  rw [store_read]
  simp only [patch]
  split
  next h => rw [Nat.add_sub_cancel' h.1]
  · rfl

theorem padded_word (m : Flash) (addr j k : Nat) (src : List UInt8) :
    (Fits m addr (read m addr j ++ src ++ read m (addr + (j + src.length)) k) ↔ Fits m (addr + j) src) ∧
      store m addr (read m addr j ++ src ++ read m (addr + (j + src.length)) k) = store m (addr + j) src := by
  constructor
  · rw [fits_append, fits_append, read_length, length_append, read_length]
    exact ⟨fun h => h.1.2, fun h => ⟨⟨fits_read m addr j, h⟩, fits_read m _ k⟩⟩
  · rw [store_append, store_append, read_length, length_append, read_length, store_own]
    have hsame : read m (addr + (j + src.length)) k =
        read (store m (addr + j) src) (addr + (j + src.length)) k := by
      apply read_congr
      intro i _
      exact (store_outside (.inr (by omega))).symm
    rw [hsame, store_own]

theorem word_stage {j : Nat} (hdvd : info.portwidth ∣ addr) (hlen : j + src.length ≤ info.portwidth)
    (cword size : Nat) :
    let r := flashWriteCfiword info m addr (addBytes info cword
      (read m addr j ++ src ++ read m (addr + (j + src.length)) (info.portwidth - (j + src.length))))
    Stage info size m (addr + j) src r.1 r.2 := by
  intro r
  have hword : (read m addr j ++ src ++ read m (addr + (j + src.length))
      (info.portwidth - (j + src.length))).length = info.portwidth := by
    rw [length_append, length_append, read_length, read_length]
    omega
  have hone : ∀ i, i < src.length → (addr + j + i) / info.portwidth = addr / info.portwidth := by
    obtain ⟨c, rfl⟩ := hdvd
    intro i hi
    rw [add_assoc, Nat.mul_add_div (port_pos info), Nat.mul_div_cancel_left _ (port_pos info),
      Nat.div_eq_of_lt (by omega), add_zero]
  obtain ⟨hfits, hstore⟩ := padded_word m addr j (info.portwidth - (j + src.length)) src
  rcases flashWriteCfiword_cases (m := m) hword cword with ⟨hf, hr⟩ | ⟨hf, hr⟩
  · rw [hfits] at hf
    rw [hstore] at hr
    change r = _ at hr
    rw [hr]
    refine ⟨.inl rfl, ?_, fun _ => rfl, fun _ x hx => store_outside hx⟩
    rw [refused_word hone]
    exact ⟨nofun, fun hno => absurd hf hno⟩
  · rw [hfits] at hf
    change r = _ at hr
    rw [hr]
    refine ⟨.inr rfl, ?_, fun h => absurd h hf, nofun⟩
    rw [refused_word hone]
    exact ⟨fun _ => hf, fun _ => rfl⟩

/-- The `j`-th word from a pointer on. -/
def wordAt (info : FlashInfo) (src : List UInt8) (j : Nat) : List UInt8 :=
  (src.drop (j * info.portwidth)).take info.portwidth

theorem wordAt_length {j : Nat} (h : (j + 1) * info.portwidth ≤ src.length) :
    (wordAt info src j).length = info.portwidth := by
  unfold wordAt
  rw [length_take, length_drop]
  rw [Nat.succ_mul] at h
  omega

theorem wordAt_drop (j : Nat) : wordAt info (src.drop info.portwidth) j = wordAt info src (j + 1) := by
  unfold wordAt
  rw [drop_drop, Nat.succ_mul, add_comm]

theorem erasedLoop_iff {cnt : Nat} (h : cnt * info.portwidth ≤ src.length) (flag : Bool) :
    erasedLoop info m cnt addr src flag = true ↔
      flag = true ∨ ∃ j, j < cnt ∧ Fits m (addr + j * info.portwidth) (wordAt info src j) := by
  induction cnt generalizing addr src flag with
  | zero => simp [erasedLoop]
  | succ cnt ih =>
    have hfirst : (wordAt info src 0).length = info.portwidth :=
      wordAt_length (by rw [Nat.succ_mul] at h; omega)
    have hword : sourceWord info src = ofBytes (wordAt info src 0) := by
      unfold sourceWord wordAt
      rw [zero_mul, drop_zero]
    have hnext : cnt * info.portwidth ≤ (src.drop info.portwidth).length := by
      rw [length_drop]
      rw [Nat.succ_mul] at h
      omega
    cases flag with
    | true => simp [erasedLoop]
    | false =>
      rw [erasedLoop, if_neg (by simp), ih hnext, decide_eq_true_iff, hword, covers_iff hfirst]
      constructor
      · rintro (hf | ⟨j, hj, hf⟩)
        · exact .inr ⟨0, by omega, by rwa [zero_mul, add_zero]⟩
        · rw [wordAt_drop, add_assoc, add_comm info.portwidth, ← Nat.succ_mul] at hf
          exact .inr ⟨j + 1, by omega, hf⟩
      · rintro (hf | ⟨j, hj, hf⟩)
        · cases hf
        · cases j with
          | zero => rw [zero_mul, add_zero] at hf; exact .inl hf
          | succ j =>
            refine .inr ⟨j, by omega, ?_⟩
            rw [wordAt_drop, add_assoc, add_comm info.portwidth, ← Nat.succ_mul]
            exact hf

theorem writeLoop_eq {cnt : Nat} (h : cnt * info.portwidth ≤ src.length) :
    writeLoop info cnt m addr src = program m addr (src.take (cnt * info.portwidth)) := by
  induction cnt generalizing m addr src with
  | zero =>
    rw [zero_mul, take_zero]
    funext x
    exact (program_outside (by rw [length_nil]; omega)).symm
  | succ cnt ih =>
    rw [Nat.succ_mul] at h ⊢
    have hword : (src.take info.portwidth).length = info.portwidth := by
      rw [length_take]
      omega
    rw [writeLoop, ih (by rw [length_drop]; omega)]
    unfold sourceWord
    rw [chipWrite_word hword, add_comm (cnt * info.portwidth), take_add, program_append, hword]

theorem unfit_aligned {c n : Nat} (hlen : src.length = n * info.portwidth) :
    Unfit info m (c * info.portwidth) src v ↔
      ∃ j, j < n ∧ v = c + j ∧ ¬Fits m (c * info.portwidth + j * info.portwidth) (wordAt info src j) := by
  have hp := port_pos info
  constructor
  · rintro ⟨i, hi, hv, hf⟩
    have hj : i / info.portwidth < n := by
      rw [Nat.div_lt_iff_lt_mul hp, ← hlen]
      exact hi
    rw [add_comm, Nat.add_mul_div_right _ _ hp, add_comm] at hv
    refine ⟨i / info.portwidth, hj, hv.symm, fun hfit => hf ?_⟩
    have hmod := Nat.mod_lt i hp
    have hsum := Nat.div_add_mod' i info.portwidth
    have hbyte := hfit (i % info.portwidth) (by
      rw [wordAt_length (by rw [hlen]; exact Nat.mul_le_mul_right _ hj)]
      exact hmod)
    unfold FitsAt wordAt at hbyte
    rw [add_assoc, hsum] at hbyte
    unfold FitsAt
    simpa [List.getD, List.getElem?_take, hmod, hsum] using hbyte
  · rintro ⟨j, hj, rfl, hf⟩
    have hword : (wordAt info src j).length = info.portwidth :=
      wordAt_length (by rw [hlen]; exact Nat.mul_le_mul_right _ hj)
    obtain ⟨i, hi, hbad⟩ : ∃ i, i < info.portwidth ∧
        ¬FitsAt m (c * info.portwidth + j * info.portwidth) (wordAt info src j) i := by
      by_contra hno
      push Not at hno
      exact hf fun i hi => hno i (by omega)
    have hmul := Nat.mul_le_mul_right info.portwidth (Nat.succ_le_of_lt hj)
    rw [Nat.succ_mul] at hmul
    refine ⟨j * info.portwidth + i, by omega, ?_, fun hfit => hbad ?_⟩
    · rw [← add_assoc, ← add_mul, add_comm, Nat.add_mul_div_right _ _ hp, Nat.div_eq_of_lt hi, zero_add]
    · unfold FitsAt at hfit ⊢
      unfold wordAt
      rw [← add_assoc] at hfit
      simpa [List.getD, List.getElem?_take, hi] using hfit

end UBoot.Cfi
