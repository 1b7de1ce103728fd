import UBoot.CfiWrites

namespace UBoot.Cfi

open ByteWords FlashCells List

def callSize (useBuffer : Bool) (info : FlashInfo) : Nat :=
  if useBuffer = true ∧ info.bufferSize ≠ 1 then bufferedSize info else info.portwidth

variable {info : FlashInfo} {m : Flash} {addr size cword fuel : Nat} {src : List UInt8} {c : Cursor}
  {useBuffer : Bool}

theorem refused_block {d n : Nat} (hn : 0 < n) (hlen : src.length = n * info.portwidth)
    (hblock : ∀ j, j < n → (d + j) * info.portwidth / size = d * info.portwidth / size) :
    Refused info size m (d * info.portwidth) src ↔
      ∀ j, j < n → ¬Fits m (d * info.portwidth + j * info.portwidth) (wordAt info src j) := by
  have hp := port_pos info
  have hwhole : ∀ j, j < n → Whole info (d * info.portwidth) src.length (d + j) := by
    intro j hj
    have hmul := Nat.mul_le_mul_right info.portwidth (Nat.succ_le_of_lt hj)
    rw [Nat.succ_mul] at hmul
    unfold Whole
    rw [add_mul, hlen]
    omega
  constructor
  · rintro ⟨w, hw⟩ j hj
    obtain ⟨i, hi, rfl, -⟩ := (unfit_aligned hlen).mp (hw w (.inl rfl))
    have htog : Together info size (d * info.portwidth) src.length (d + i) (d + j) :=
      .inr ⟨hwhole i hi, hwhole j hj, by rw [hblock i hi, hblock j hj]⟩
    obtain ⟨j', -, heq, hf⟩ := (unfit_aligned hlen).mp (hw _ htog)
    rwa [show j = j' by omega]
  · intro hall
    refine ⟨d, fun v hv => ?_⟩
    have hwidth : ∃ j, j < n ∧ v = d + j := by
      rcases hv with rfl | ⟨-, hv, -⟩
      · exact ⟨0, hn, rfl⟩
      · obtain ⟨i, hi, hiv⟩ := whole_byte hv
        rw [hlen] at hi
        refine ⟨i / info.portwidth, (Nat.div_lt_iff_lt_mul hp).mpr hi, ?_⟩
        rw [← hiv, add_comm, Nat.add_mul_div_right _ _ hp, add_comm]
    obtain ⟨j, hj, rfl⟩ := hwidth
    exact (unfit_aligned hlen).mpr ⟨j, hj, rfl, hall j hj⟩

theorem Fits.wordAt {j : Nat} (h : Fits m addr src) (hj : (j + 1) * info.portwidth ≤ src.length) :
    Fits m (addr + j * info.portwidth) (wordAt info src j) := by
  have hlen := wordAt_length hj
  intro i hi
  rw [hlen] at hi
  rw [Nat.succ_mul] at hj
  have hbyte := h (j * info.portwidth + i) (by omega)
  unfold FitsAt at hbyte ⊢
  unfold Cfi.wordAt
  rw [← add_assoc] at hbyte
  simpa [List.getD, List.getElem?_take, hi] using hbyte

theorem flashWriteCfibuffer_stage {d : Nat} {cp : List UInt8} (hpos : info.portwidth ≤ cp.length)
    (hblock : ∀ j, j < cp.length / info.portwidth →
      (d + j) * info.portwidth / size = d * info.portwidth / size) :
    let r := flashWriteCfibuffer info m (d * info.portwidth) cp
    Stage info size m (d * info.portwidth) (cp.take (cp.length / info.portwidth * info.portwidth))
      r.1 r.2 := by
  intro r
  have hp := port_pos info
  generalize hn : cp.length / info.portwidth = n at *
  have hn0 : 0 < n := by
    rw [← hn]
    exact Nat.div_pos hpos hp
  have hle : n * info.portwidth ≤ cp.length := by
    rw [← hn]
    exact Nat.div_mul_le_self _ _
  have hlen : (cp.take (n * info.portwidth)).length = n * info.portwidth := by
    rw [length_take]
    omega
  have hwords : ∀ j, j < n → wordAt info (cp.take (n * info.portwidth)) j = wordAt info cp j := by
    intro j hj
    have hmul := Nat.mul_le_mul_right info.portwidth (Nat.succ_le_of_lt hj)
    rw [Nat.succ_mul] at hmul
    unfold wordAt
    rw [drop_take, take_take, min_eq_left (by omega)]
  have herased : erasedLoop info m n (d * info.portwidth) cp false = true ↔ false = true ∨
      ∃ j, j < n ∧ Fits m (d * info.portwidth + j * info.portwidth) (wordAt info cp j) := erasedLoop_iff hle false
  have hrefused := refused_block (m := m) hn0 hlen hblock
  have hcall : r = if erasedLoop info m n (d * info.portwidth) cp false then
      (errOk, writeLoop info n m (d * info.portwidth) cp) else (errNotErased, m) := by
    rw [← hn]
    rfl
  by_cases he : erasedLoop info m n (d * info.portwidth) cp false = true
  · rw [if_pos he, writeLoop_eq hle] at hcall
    obtain ⟨j, hj, hf⟩ := (herased.mp he).resolve_left (by simp)
    rw [hcall]
    refine ⟨.inl rfl, ?_, program_fits, fun _ x hx => program_outside hx⟩
    rw [hrefused]
    refine ⟨nofun, fun hall => absurd hf ?_⟩
    rw [← hwords j hj]
    exact hall j hj
  · rw [if_neg he] at hcall
    have hnone : ∀ j, j < n → ¬Fits m (d * info.portwidth + j * info.portwidth)
        (wordAt info (cp.take (n * info.portwidth)) j) := by
      intro j hj hf
      rw [hwords j hj] at hf
      exact he (herased.mpr (.inr ⟨j, hj, hf⟩))
    rw [hcall]
    refine ⟨.inr rfl, ?_, fun hf => absurd (hf.wordAt ?_) (hnone 0 hn0), nofun⟩
    · rw [hrefused]
      exact ⟨fun _ => hnone, fun _ => rfl⟩
    · rw [hlen]
      exact Nat.mul_le_mul_right _ hn0

/-- What one round of the aligned part does: it writes `i` bytes, and no call reaches over their end. -/
def Round (info : FlashInfo) (size : Nat) (c : Cursor) (r : Nat × Cursor) : Prop :=
  ∃ i, 0 < i ∧ i ≤ c.src.length ∧ info.portwidth ∣ c.wp + i ∧
    Stage info size c.mem c.wp (c.src.take i) r.1 r.2.mem ∧
    r.2.src = c.src.drop i ∧ r.2.wp = (c.wp + i) % 4294967296 ∧
    ∀ w v, Whole info c.wp (c.src.take i).length w →
      Whole info (c.wp + (c.src.take i).length) (c.src.drop i).length v →
      v * info.portwidth / size ≠ w * info.portwidth / size

theorem wordStep_round (hdvd : info.portwidth ∣ c.wp) (hlen : info.portwidth ≤ c.src.length)
    (cword : Nat) : Round info info.portwidth c (wordStep info cword c) := by
  have hp := port_pos info
  have htake : (c.src.take info.portwidth).length = info.portwidth := by
    rw [length_take]
    omega
  have hnext : info.portwidth ∣ c.wp + (c.src.take info.portwidth).length := by
    rw [htake]
    exact Nat.dvd_add hdvd (dvd_refl _)
  refine ⟨info.portwidth, hp, hlen, by rwa [htake] at hnext, ?_, rfl, rfl, ?_⟩
  · have hstage := word_stage (m := c.mem) (j := 0) hdvd
      (by rw [htake, zero_add]) cword info.portwidth
    rw [htake, zero_add, Nat.sub_self] at hstage
    simpa [FlashCells.read, wordStep] using hstage
  · intro w v hw hv heq
    have hlt := whole_before hnext hw
    have hge := whole_behind hv
    rw [Nat.mul_div_cancel _ hp, Nat.mul_div_cancel _ hp] at heq
    omega

theorem block_end {wp bs : Nat} (hbs : 0 < bs) : wp + (bs - wp % bs) = (wp / bs + 1) * bs := by
  have hmod := Nat.mod_lt wp hbs
  have hdiv := Nat.div_add_mod' wp bs
  rw [Nat.succ_mul]
  omega

theorem bufferStep_round (hdvd : info.portwidth ∣ c.wp) (hlen : info.portwidth ≤ c.src.length) :
    Round info (bufferedSize info) c (bufferStep info c) := by
  have hp := port_pos info
  obtain ⟨hwords, hbs⟩ := bufferedSize_words info
  have hend := @block_end c.wp (bufferedSize info) hbs
  have hdvd₀ : info.portwidth ∣ bufferedSize info - c.wp % bufferedSize info :=
    Nat.dvd_sub hwords ((Nat.dvd_mod_iff hwords).mpr hdvd)
  have hpos : 0 < bufferedSize info - c.wp % bufferedSize info := Nat.sub_pos_of_lt (Nat.mod_lt _ hbs)
  unfold bufferStep
  generalize hi₀ : bufferedSize info - c.wp % bufferedSize info = i₀ at *
  have hi₀le := Nat.le_of_dvd hpos hdvd₀
  dsimp only
  generalize hi₁ : (if i₀ > c.src.length then c.src.length else i₀) = i₁
  have hbound : i₁ ≤ c.src.length ∧ i₁ ≤ i₀ ∧ info.portwidth ≤ i₁ ∧ (i₁ = c.src.length ∨ i₁ = i₀) := by
    rw [← hi₁]
    split
    · exact ⟨le_rfl, by omega, hlen, .inl rfl⟩
    · exact ⟨by omega, le_rfl, hi₀le, .inr rfl⟩
  obtain ⟨hlen₁, hle₀, hport, hwhich⟩ := hbound
  have hcp : (c.src.take i₁).length = i₁ := by
    rw [length_take]
    omega
  have hsum := Nat.div_add_mod' i₁ info.portwidth
  have hcut : i₁ - i₁ % info.portwidth = i₁ / info.portwidth * info.portwidth := by omega
  have hcutpos : 0 < i₁ / info.portwidth * info.portwidth := Nat.mul_pos (Nat.div_pos hport hp) hp
  obtain ⟨d, hd⟩ := hdvd
  rw [mul_comm] at hd
  have htake : (c.src.take i₁).take (i₁ / info.portwidth * info.portwidth) =
      c.src.take (i₁ / info.portwidth * info.portwidth) := by
    rw [take_take, min_eq_left (by omega)]
  have hblock : ∀ j, j < (c.src.take i₁).length / info.portwidth →
      (d + j) * info.portwidth / bufferedSize info = d * info.portwidth / bufferedSize info := by
    intro j hj
    rw [hcp] at hj
    have hmul := Nat.mul_le_mul_right info.portwidth (Nat.succ_le_of_lt hj)
    rw [Nat.succ_mul] at hmul
    rw [hd] at hend
    apply le_antisymm
    · apply Nat.le_of_lt_succ
      rw [Nat.div_lt_iff_lt_mul hbs, ← hend, add_mul]
      omega
    · exact Nat.div_le_div_right (Nat.mul_le_mul_right _ (Nat.le_add_right d j))
  have hstage := flashWriteCfibuffer_stage (m := c.mem) (d := d) (by rw [hcp]; exact hport) hblock
  rw [hcp, htake, ← hd, ← hcut] at hstage
  rw [← hcut] at hcutpos
  refine ⟨i₁ - i₁ % info.portwidth, hcutpos, by omega, ?_, hstage, rfl, rfl, ?_⟩
  · rw [hd, hcut]
    exact Nat.dvd_add (dvd_mul_left _ _) (dvd_mul_left _ _)
  · intro w v hw hv heq
    rw [length_take, min_eq_left (by omega)] at hw hv
    have hvend := hv.2
    rw [length_drop] at hvend
    rcases hwhich with h | h
    · have := hv.1
      have := Nat.mod_lt i₁ hp
      omega
    · -- The next words lie in later blocks.
      have hzero : i₁ % info.portwidth = 0 := by
        rw [h]
        exact Nat.mod_eq_zero_of_dvd hdvd₀
      have hlater : c.wp / bufferedSize info + 1 ≤ v * info.portwidth / bufferedSize info := by
        rw [Nat.le_div_iff_mul_le hbs, ← hend]
        have := hv.1
        omega
      have hearlier : w * info.portwidth / bufferedSize info < c.wp / bufferedSize info + 1 := by
        rw [Nat.div_lt_iff_lt_mul hbs, ← hend]
        have := hw.2
        omega
      omega

theorem alignedStep_round (hdvd : info.portwidth ∣ c.wp) (hlen : info.portwidth ≤ c.src.length)
    (useBuffer : Bool) (cword : Nat) :
    Round info (callSize useBuffer info) c (alignedStep useBuffer info cword c) := by
  unfold callSize alignedStep
  split
  · exact bufferStep_round hdvd hlen
  · exact wordStep_round hdvd hlen cword

theorem Stage.nil : Stage info size m addr [] errOk m := by
  have hfit : Fits m addr [] := fun i hi => absurd hi (Nat.not_lt_zero i)
  refine ⟨.inl rfl, ⟨nofun, fun hr => absurd hfit hr.not_fits⟩, fun _ => ?_,
    fun _ x _ => rfl⟩
  funext x
  exact (store_outside (by rw [length_nil]; omega)).symm

theorem Whole.mono {k n w : Nat} (h : Whole info addr k w) (hk : k ≤ n) : Whole info addr n w :=
  ⟨h.1, h.2.trans (Nat.add_le_add_left hk addr)⟩

theorem alignedLoop_stage (hdvd : info.portwidth ∣ c.wp) (hwp : c.wp < 4294967296)
    (hsize : c.wp + c.src.length ≤ 4294967296) (hfuel : c.src.length < fuel) :
    ∃ r, alignedLoop useBuffer info cword fuel c = some r ∧
      (r.1 = errNotErased ∧ Stage info (callSize useBuffer info) c.mem c.wp c.src errNotErased r.2.mem ∨
        r.1 = errOk ∧ ∃ k, k ≤ c.src.length ∧ info.portwidth ∣ c.wp + k ∧ c.src.length - k < info.portwidth ∧
          Stage info (callSize useBuffer info) c.mem c.wp (c.src.take k) errOk r.2.mem ∧
          r.2.src = c.src.drop k ∧ r.2.wp = (c.wp + k) % 4294967296) := by
  have hp := port_pos info
  induction fuel generalizing c with
  | zero => exact absurd hfuel (Nat.not_lt_zero _)
  | succ fuel ih =>
    rw [alignedLoop]
    by_cases hshort : c.src.length < info.portwidth
    · rw [if_pos hshort]
      exact ⟨_, rfl, .inr ⟨rfl, 0, Nat.zero_le _, hdvd, hshort, Stage.nil, rfl, (Nat.mod_eq_of_lt hwp).symm⟩⟩
    · rw [if_neg hshort]
      have hround := alignedStep_round hdvd (Nat.le_of_not_lt hshort) useBuffer cword
      generalize alignedStep useBuffer info cword c = r at *
      obtain ⟨rc, ⟨mem, wp, rest⟩⟩ := r
      obtain ⟨i, hi, hile, hnext, hstage, hrest, hwp', hsep⟩ := hround
      dsimp only at hstage hrest hwp' ⊢
      subst hrest
      have htake : (c.src.take i).length = i := by
        rw [length_take]
        omega
      have hdrop : (c.src.drop i).length = c.src.length - i := length_drop
      have hdvd' : info.portwidth ∣ c.wp + (c.src.take i).length := by rwa [htake]
      rcases hstage.code with rfl | rfl
      · rw [if_neg (by simp)]
        by_cases hend : c.src.length = i
        · obtain ⟨fuel, rfl⟩ : ∃ f, fuel = f + 1 := ⟨fuel - 1, by omega⟩
          rw [alignedLoop, if_pos (by dsimp only; omega)]
          exact ⟨_, rfl, .inr ⟨rfl, i, hile, hnext, by omega, hstage, rfl, hwp'⟩⟩
        · have hsame : wp = c.wp + i := by rw [hwp', Nat.mod_eq_of_lt (by omega)]
          subst hsame
          obtain ⟨r, hr, hcases⟩ := ih (c := ⟨mem, c.wp + i, c.src.drop i⟩) hnext (by dsimp only; omega)
            (by dsimp only; omega) (by dsimp only; omega)
          refine ⟨r, hr, ?_⟩
          rcases hcases with ⟨hcode, hrest⟩ | ⟨hcode, k, hk, hkdvd, hkport, hrest, hsrc, hwp⟩
          · left
            refine ⟨hcode, ?_⟩
            rw [← take_append_drop i c.src]
            exact Stage.append hdvd' hsep hstage (by rw [htake]; exact hrest)
          · right
            dsimp only at hk hkdvd hkport hrest hsrc hwp
            refine ⟨hcode, i + k, by omega, by rwa [← add_assoc], by omega, ?_, ?_, ?_⟩
            · rw [take_add]
              refine Stage.append hdvd' (fun w v hw hv => hsep w v hw (hv.mono ?_)) hstage
                (by rw [htake]; exact hrest)
              rw [length_take]
              exact Nat.min_le_right _ _
            · rw [hsrc, drop_drop]
            · rw [hwp, add_assoc]
      · rw [if_pos (by decide)]
        refine ⟨_, rfl, .inl ⟨rfl, ?_⟩⟩
        have hstop := Stage.stop hdvd' hsep hstage
        rwa [take_append_drop] at hstop

theorem tailWord_stage (hdvd : info.portwidth ∣ c.wp) (hlen : c.src.length < info.portwidth)
    (cword size : Nat) :
    Stage info size c.mem c.wp c.src (tailWord info cword c).1 (tailWord info cword c).2 := by
  unfold tailWord
  split
  next h =>
    rw [length_eq_zero_iff.mp h]
    exact Stage.nil
  · have hlen : 0 + c.src.length ≤ info.portwidth := by omega
    have hstage := word_stage (m := c.mem) hdvd hlen cword size
    rw [add_zero] at hstage
    simpa [FlashCells.read] using hstage

theorem rest_stage (hdvd : info.portwidth ∣ c.wp) (hwp : c.wp < 4294967296)
    (hsize : c.wp + c.src.length ≤ 4294967296) (hfuel : c.src.length < fuel) :
    ∃ rc m', ((alignedLoop useBuffer info cword fuel c).map fun r =>
        if r.1 ≠ errOk then (r.1, r.2.mem) else tailWord info cword r.2) = some (rc, m') ∧
      Stage info (callSize useBuffer info) c.mem c.wp c.src rc m' := by
  obtain ⟨⟨rc, c'⟩, hr, hcases⟩ := alignedLoop_stage hdvd hwp
    hsize hfuel
  rw [hr, Option.map_some]
  dsimp only at hcases ⊢
  rcases hcases with ⟨rfl, hstage⟩ | ⟨rfl, k, hk, hkdvd, hkport, hstage, hsrc, hwp'⟩
  · rw [if_pos (by decide)]
    exact ⟨_, _, rfl, hstage⟩
  · rw [if_neg (by simp)]
    refine ⟨(tailWord info cword c').1, (tailWord info cword c').2, rfl, ?_⟩
    have htake : (c.src.take k).length = k := by
      rw [length_take]
      omega
    by_cases hend : c'.src = []
    · have hall : c.src.length ≤ k := by
        rw [hsrc] at hend
        exact drop_eq_nil_iff.mp hend
      have htail : tailWord info cword c' = (errOk, c'.mem) := if_pos (by rw [hend]; rfl)
      rw [htail]
      rwa [take_of_length_le hall] at hstage
    · have hlt : k < c.src.length := by
        by_contra hge
        exact hend (hsrc.trans (drop_eq_nil_of_le (by omega)))
      rw [Nat.mod_eq_of_lt (by omega)] at hwp'
      have hlen : c'.src.length < info.portwidth := by
        rw [hsrc, length_drop]
        exact hkport
      have htail := tailWord_stage (c := c') (by rw [hwp']; exact hkdvd) hlen cword
        (callSize useBuffer info)
      rw [hwp'] at htail
      have hsep : ∀ w v, Whole info c.wp (c.src.take k).length w →
          Whole info (c.wp + (c.src.take k).length) c'.src.length v →
          v * info.portwidth / callSize useBuffer info ≠ w * info.portwidth / callSize useBuffer info := by
        intro w v _ hv
        have := hv.1
        have := hv.2
        omega
      have happend := Stage.append (by rw [htake]; exact hkdvd) hsep hstage (by rw [htake]; exact htail)
      rwa [hsrc, take_append_drop] at happend

theorem writeBuff_stage (haddr : addr < 4294967296) (hsize : addr + src.length ≤ 4294967296)
    (hfuel : src.length < fuel) :
    ∃ rc m', writeBuff useBuffer info cword fuel m addr src = some (rc, m') ∧
      Stage info (callSize useBuffer info) m addr src rc m' := by
  have hp := port_pos info
  have hsum := Nat.div_add_mod' addr info.portwidth
  have hmod := Nat.mod_lt addr hp
  unfold writeBuff startWord
  dsimp only
  by_cases haln : addr - addr / info.portwidth * info.portwidth = 0
  · have hwp : addr / info.portwidth * info.portwidth = addr := by omega
    rw [if_neg (not_not.mpr haln), if_neg (by simp), hwp]
    have hdvd : info.portwidth ∣ addr := Nat.dvd_of_mod_eq_zero (by omega)
    exact rest_stage (c := ⟨m, addr, src⟩) hdvd haddr hsize hfuel
  · rw [if_pos haln]
    generalize hj : addr - addr / info.portwidth * info.portwidth = j at *
    generalize hwp : addr / info.portwidth * info.portwidth = wp at *
    have hdvd : info.portwidth ∣ wp := hwp ▸ dvd_mul_left _ _
    have haddr' : wp + j = addr := by omega
    generalize hn : min (info.portwidth - j) src.length = n
    have htake : (src.take n).length = n := by
      rw [length_take]
      omega
    have hroom : j + (src.take n).length ≤ info.portwidth := by omega
    have hstage := word_stage (m := m) hdvd hroom cword (callSize useBuffer info)
    rw [htake, haddr'] at hstage
    generalize flashWriteCfiword info m wp (addBytes info cword
      (FlashCells.read m wp j ++ src.take n ++ FlashCells.read m (wp + (j + n))
        (info.portwidth - (j + n)))) = r at *
    obtain ⟨rc, m₁⟩ := r
    dsimp only at hstage ⊢
    by_cases hall : src.length ≤ n
    · -- The range ends in its first word.
      rw [take_of_length_le hall] at hstage
      rcases hstage.code with rfl | rfl
      · obtain ⟨fuel, rfl⟩ : ∃ f, fuel = f + 1 := ⟨fuel - 1, by omega⟩
        rw [if_neg (by simp), drop_eq_nil_of_le hall, alignedLoop, if_pos (by exact hp)]
        exact ⟨errOk, m₁, rfl, hstage⟩
      · rw [if_pos (by decide)]
        exact ⟨errNotErased, m₁, rfl, hstage⟩
    · have hend : addr + n = wp + info.portwidth := by omega
      have hnext : info.portwidth ∣ addr + (src.take n).length := by
        rw [htake, hend]
        exact Nat.dvd_add hdvd (dvd_refl _)
      have hsep : ∀ s₂ : List UInt8, ∀ w v, Whole info addr (src.take n).length w →
          Whole info (addr + (src.take n).length) s₂.length v →
          v * info.portwidth / callSize useBuffer info ≠ w * info.portwidth / callSize useBuffer info := by
        intro s₂ w v hw
        have := hw.1
        have := hw.2
        omega
      rcases hstage.code with rfl | rfl
      · rw [if_neg (by simp), ← hend, Nat.mod_eq_of_lt (by omega)]
        have hleft : (src.drop n).length < fuel := by
          rw [length_drop]
          omega
        obtain ⟨rc, m', hr, hrest⟩ := rest_stage (c := ⟨m₁, addr + n, src.drop n⟩)
          (by rw [htake] at hnext; exact hnext) (by dsimp only; omega)
          (by dsimp only; rw [length_drop]; omega) hleft
        refine ⟨rc, m', hr, ?_⟩
        have happend := Stage.append hnext (hsep _) hstage (by rw [htake]; exact hrest)
        rwa [take_append_drop] at happend
      · rw [if_pos (by decide)]
        have hstop := Stage.stop hnext (hsep (src.drop n)) hstage
        rw [take_append_drop] at hstop
        exact ⟨errNotErased, m₁, rfl, hstop⟩

theorem refused_port : Refused info info.portwidth m addr src ↔ ¬Fits m addr src := by
  have hp := port_pos info
  refine ⟨Refused.not_fits, fun hf => ?_⟩
  obtain ⟨i, hi, hbad⟩ : ∃ i, i < src.length ∧ ¬FitsAt m addr src i := by
    by_contra hno
    push Not at hno
    exact hf hno
  refine ⟨(addr + i) / info.portwidth, fun v hv => ⟨i, hi, ?_, hbad⟩⟩
  rcases hv with rfl | ⟨-, -, heq⟩
  · rfl
  · rw [Nat.mul_div_cancel _ hp, Nat.mul_div_cancel _ hp] at heq
    exact heq.symm

/-- It ends; on success the range is `src` and all else is as before, and a byte that does not fit is
reported. -/
def Exact (m : Flash) (addr : Nat) (src : List UInt8) (r : Option (Nat × Flash)) : Prop :=
  ∃ rc m', r = some (rc, m') ∧ (rc = errOk → read m' addr src.length = src ∧
      ∀ x, x < addr ∨ addr + src.length ≤ x → m' x = m x) ∧
    ((∃ i, i < src.length ∧ ¬FitsAt m addr src i) → rc = errNotErased)

def Alike (r r' : Option (Nat × Flash)) : Prop :=
  r.map Prod.fst = r'.map Prod.fst ∧ (r.map Prod.fst = some errOk → r = r')

theorem Stage.exact_iff {rc : Nat} {m' : Flash} (h : Stage info size m addr src rc m') :
    Exact m addr src (some (rc, m')) ↔ Fits m addr src ∨ Refused info size m addr src := by
  constructor
  · rintro ⟨rc', m'', heq, -, hbad⟩
    cases heq
    by_cases hf : Fits m addr src
    · exact .inl hf
    · right
      refine h.refused.mp (hbad ?_)
      by_contra hno
      push Not at hno
      exact hf hno
  · rintro (hf | hr)
    · refine ⟨rc, m', rfl, fun hok => ⟨?_, h.frame hok⟩, ?_⟩
      · rw [h.fits hf, read_store]
      · rintro ⟨i, hi, hbad⟩
        exact absurd (hf i hi) hbad
    · have hcode := h.refused.mpr hr
      refine ⟨rc, m', rfl, fun hok => ?_, fun _ => hcode⟩
      rw [hok] at hcode
      cases hcode

theorem Stage.ok {rc : Nat} {m' : Flash} (h : Stage info size m addr src rc m') (hf : Fits m addr src) :
    rc = errOk ∧ m' = store m addr src :=
  ⟨h.code.resolve_right fun hcode => (h.refused.mp hcode).not_fits hf, h.fits hf⟩

/-- `write_buff` is exact word by word. Through the buffer it is exact, and the same, just if all fits
or some call has no word that fits. -/
theorem write_buff_exact_iff (info : FlashInfo) (cword : Nat) (m : Flash) (addr : Nat)
    (src : List UInt8) (fuel : Nat) (haddr : addr < 4294967296) (hsize : addr + src.length ≤ 4294967296)
    (hfuel : src.length < fuel) :
    Exact m addr src (writeBuff false info cword fuel m addr src) ∧
      (Exact m addr src (writeBuff true info cword fuel m addr src) ∧
          Alike (writeBuff false info cword fuel m addr src) (writeBuff true info cword fuel m addr src) ↔
        Fits m addr src ∨ Refused info (callSize true info) m addr src) := by
  obtain ⟨rc₁, m₁, hr₁, h₁⟩ := writeBuff_stage (m := m) haddr hsize hfuel
  obtain ⟨rc₂, m₂, hr₂, h₂⟩ := writeBuff_stage (m := m) haddr hsize hfuel
  have hport : callSize false info = info.portwidth := if_neg (by simp)
  rw [hport] at h₁
  rw [hr₁, hr₂, h₁.exact_iff, h₂.exact_iff, refused_port]
  refine ⟨Classical.em _, And.left, fun h => ⟨h, ?_⟩⟩
  rcases h with hf | hr
  · obtain ⟨rfl, rfl⟩ := h₁.ok hf
    obtain ⟨rfl, rfl⟩ := h₂.ok hf
    exact ⟨rfl, fun _ => rfl⟩
  · have hcode₂ := h₂.refused.mpr hr
    have hcode₁ := h₁.refused.mpr (refused_port.mpr hr.not_fits)
    subst hcode₁ hcode₂
    exact ⟨rfl, nofun⟩

def smallFlash : FlashInfo where
  portwidth := 2
  chipwidth := 2
  bufferSize := 4
  port := word_width
  chip := word_width
  chip_le := word_le_word
  buffer := ⟨2, by decide, rfl⟩
  buffer_le := word_le_long

theorem write_buff_exact_three : Exact (fun _ => 0xff) 5 [1, 2, 3]
      (writeBuff false smallFlash 0 4 (fun _ => 0xff) 5 [1, 2, 3]) :=
  (write_buff_exact_iff smallFlash 0 (fun _ => 0xff) 5 [1, 2, 3] 4
    (by decide) (by decide) (by decide)).1

/-- The second of two words is already programmed; the first one fits and the loop stops there. -/
theorem programmed_word_taken :
    ∃ (info : FlashInfo) (cword fuel : Nat) (m : Flash) (addr : Nat) (src : List UInt8),
      addr < 4294967296 ∧ addr + src.length ≤ 4294967296 ∧ src.length < fuel ∧
        ¬Exact m addr src (writeBuff true info cword fuel m addr src) := by
  refine ⟨smallFlash, 0, 5, fun x => if x < 2 then 0xff else 0, 0,
    [1, 2, 3, 4], by decide, by decide, by decide, ?_⟩
  rintro ⟨rc, m', hr, -, hbad⟩
  have hcode := congrArg (Option.map Prod.fst) hr
  have hbad := hbad ⟨2, by decide, by unfold FitsAt; decide⟩
  rw [hbad] at hcode
  change (writeBuff true smallFlash 0 5 (fun x => if x < 2 then 0xff else 0) 0 [1, 2, 3, 4]).map
    Prod.fst = some errNotErased at hcode
  revert hcode
  decide +kernel

end UBoot.Cfi
