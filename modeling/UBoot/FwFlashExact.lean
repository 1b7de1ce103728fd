import UBoot.FwFlash

namespace UBoot.FwEnv

open FlashCells GoodSpace Loops

variable {d : EnvDev} {m m' heap buf rbuf data : Flash} {count offset b : Nat}

def EnvDev.blockSeek (d : EnvDev) (offset : Nat) : Nat := offset - d.blockstart offset

/-- The good blocks that the data need exist in the configured range. -/
structure EnvDev.Fits (d : EnvDev) (count offset : Nat) : Prop where
  range : d.blockstart d.devoff ≤ offset
  room : d.blockSeek offset + count ≤ d.roomFrom (d.blockstart offset)

/-- A write succeeds, reads back, and leaves the other bytes of the range's good blocks alone. -/
def EnvDev.WritesOnly (d : EnvDev) (count offset : Nat) : Prop :=
  ∀ m heap buf, ∃ rc m', (flashWriteBuf d m heap buf count offset).Returns (rc, m') ∧ 0 ≤ rc ∧
    (∀ rbuf, ∃ rbuf', (flashReadBuf d m' rbuf count offset).Returns ((count : Int), rbuf') ∧
      ∀ i, i < count → rbuf' i = buf i) ∧
    ∀ x, d.blockstart d.devoff ≤ x → x < d.topOfRange → d.good x = true →
      (∀ i, i < count → x ≠ d.place (d.blockstart offset) (d.blockSeek offset + i)) → m' x = m x

theorem blockSeek_lt (offset : Nat) : d.blockSeek offset < d.eraseSize := by
  have hlt := lt_blockstart (d := d) offset
  have hle := blockstart_le (d := d) offset
  unfold EnvDev.blockSeek
  omega

theorem writeTotal_bounds (count offset : Nat) :
    d.eraseSize ∣ d.writeTotal count offset ∧ d.blockSeek offset + count ≤ d.writeTotal count offset ∧
      d.writeTotal count offset < d.blockSeek offset + count + d.eraseSize := by
  have hlt := lt_blockstart (d := d) (d.blockSeek offset + count + d.eraseSize - 1)
  have hle := blockstart_le (d := d) (d.blockSeek offset + count + d.eraseSize - 1)
  refine ⟨blockstart_dvd _, ?_, ?_⟩
  · change _ ≤ d.blockstart (d.blockSeek offset + count + d.eraseSize - 1)
    omega
  · change d.blockstart (d.blockSeek offset + count + d.eraseSize - 1) < _
    omega

theorem room_dvd (hb : d.eraseSize ∣ b) : d.eraseSize ∣ d.roomFrom b := by
  obtain ⟨n, hn⟩ : ∃ n, n = d.topOfRange - b := ⟨_, rfl⟩
  induction n using Nat.strong_induction_on generalizing b with
  | _ n ih =>
    rcases lt_or_ge b d.topOfRange with hlt | hge
    · have herase := d.erasable
      have hrest : d.eraseSize ∣ d.roomFrom (b + d.eraseSize) :=
        ih (d.topOfRange - (b + d.eraseSize)) (by omega) (Nat.dvd_add hb (Nat.dvd_refl _)) rfl
      cases hbad : d.flashBadBlock b with
      | true => rwa [room_bad hb hbad hlt]
      | false =>
        rw [room_good hb hbad hlt]
        exact Nat.dvd_add (Nat.dvd_refl _) hrest
    · unfold EnvDev.roomFrom
      rw [goods_empty hge]
      exact Nat.dvd_zero _

theorem EnvDev.Fits.start (h : d.Fits count offset) : d.blockstart d.devoff ≤ d.blockstart offset := by
  have hle : d.blockstart (d.blockstart d.devoff) ≤ d.blockstart offset :=
    Nat.mul_le_mul_right _ (Nat.div_le_div_right h.range)
  rwa [blockstart_of_dvd (blockstart_dvd _)] at hle

theorem EnvDev.Fits.whole (h : d.Fits count offset) :
    d.writeTotal count offset ≤ d.roomFrom (d.blockstart offset) := by
  obtain ⟨hdvd, -, hlt⟩ := writeTotal_bounds (d := d) count offset
  have hroom := room_dvd (d := d) (blockstart_dvd offset)
  have hfits := h.room
  by_contra hno
  have hgap := Nat.le_of_dvd (by omega) (Nat.dvd_sub hdvd hroom)
  omega

section Nor

variable (hnor : d.nand = false)
include hnor

theorem good_of_nor (x : Nat) : d.good x = true := by
  unfold EnvDev.good EnvDev.flashBadBlock
  rw [hnor]
  rfl

theorem room_of_nor (b : Nat) : d.roomFrom b = d.topOfRange - b := by
  unfold EnvDev.roomFrom
  rw [goods_all fun x _ _ => good_of_nor hnor x, List.length_range']

theorem place_of_nor {j : Nat} (h : b + j < d.topOfRange) : d.place b j = b + j := by
  have hj : j < d.topOfRange - b := by omega
  unfold EnvDev.place
  rw [goods_all fun x _ _ => good_of_nor hnor x]
  simp [List.getD, hj]

end Nor

theorem flashReadBuf_returns (h : d.Fits count offset) :
    ∃ rbuf', (flashReadBuf d m rbuf count offset).Returns ((count : Int), rbuf') ∧
      (∀ i, i < count → rbuf' i = m (d.place (d.blockstart offset) (d.blockSeek offset + i))) ∧
      ∀ x, count ≤ x → rbuf' x = rbuf x := by
  have hseek := blockSeek_lt (d := d) offset
  have hle := blockstart_le (d := d) offset
  have hroom := h.room
  cases hnand : d.nand with
  | true =>
    obtain ⟨rbuf', hret, hframe, hdata⟩ := readLoop_returns (m := m) (p := 0) (blockstart_dvd offset) hseek
      (Nat.zero_le count) hroom
    have hmin : (if d.eraseSize - d.blockSeek offset < count then d.eraseSize - d.blockSeek offset else count) =
        min (d.eraseSize - d.blockSeek offset) (count - 0) := by
      split <;> omega
    refine ⟨rbuf', ?_, fun i hi => ?_, fun x hx => hframe x (.inr hx)⟩
    · unfold flashReadBuf
      rw [hnand, if_pos rfl]
      change (Comp.loop (fun s => Comp.pure (readRound d m count d.eraseSize d.topOfRange s))
        ⟨0, if d.eraseSize - d.blockSeek offset < count then d.eraseSize - d.blockSeek offset else count,
          d.blockSeek offset, d.blockstart offset, rbuf⟩).Returns _
      rw [hmin]
      exact hret
    · have hat := hdata i hi
      rwa [Nat.zero_add] at hat
  | false =>
    have hbad : d.flashBadBlock (d.blockstart offset) = false := by
      unfold EnvDev.flashBadBlock
      rw [hnand]
      rfl
    unfold flashReadBuf
    rw [hnand, if_neg (by decide)]
    rcases Nat.eq_zero_or_pos count with rfl | hpos
    · refine ⟨rbuf, returns_end ?_, fun i hi => absurd hi (Nat.not_lt_zero i), fun _ _ => rfl⟩
      unfold readRound
      rw [if_neg (lt_irrefl 0)]
    · have hround : readRound d m count 0 (offset + count)
          ⟨0, count, offset - d.blockstart offset, d.blockstart offset, rbuf⟩ =
          .inl ⟨count, min 0 (count - count), 0, d.blockstart offset,
            patch rbuf 0 count fun x => m (d.blockstart offset + (offset - d.blockstart offset) + (x - 0))⟩ := by
        unfold readRound
        rw [if_pos hpos, if_neg (by dsimp only; omega), hbad, if_neg (by decide), Nat.zero_add, Nat.add_zero]
      refine ⟨patch rbuf 0 count fun x => m (d.blockstart offset + (offset - d.blockstart offset) + (x - 0)),
        returns_round hround (returns_end ?_), fun i hi => ?_, fun x hx => patch_outside (by omega)⟩
      · unfold readRound
        rw [if_neg (lt_irrefl count)]
      · rw [room_of_nor hnand] at hroom
        rw [patch_inside (Nat.zero_le i) (by omega), Nat.sub_zero, place_of_nor hnand (by omega), Nat.add_assoc]
        rfl

/-- The data that `flash_write_buf` writes. -/
structure WrittenData (d : EnvDev) (m heap buf data : Flash) (count offset : Nat) : Prop where
  new : ∀ i, i < count → data (d.blockSeek offset + i) = buf i
  old : ∀ j, j < d.writeTotal count offset → j < d.blockSeek offset ∨ d.blockSeek offset + count ≤ j →
    data j = m (d.place (d.blockstart offset) j)
  behind : ∀ j, d.writeTotal count offset ≤ j → data j = heap j ∨ data j = buf j

theorem flashWriteBuf_data (h : d.Fits count offset) (m heap buf : Flash) :
    ∃ data, WrittenData d m heap buf data count offset ∧ ∀ r,
      (writeLoop d data (d.writeTotal count offset) offset m).Returns r →
        (flashWriteBuf d m heap buf count offset).Returns r := by
  obtain ⟨-, hle, hlt⟩ := writeTotal_bounds (d := d) count offset
  unfold flashWriteBuf
  by_cases hpart : count < d.writeTotal count offset
  · have hstart : d.blockstart (d.blockstart offset) = d.blockstart offset := blockstart_of_dvd (blockstart_dvd offset)
    have hzero : d.blockSeek (d.blockstart offset) = 0 := by
      unfold EnvDev.blockSeek
      rw [hstart, Nat.sub_self]
    have hfits : d.Fits (d.writeTotal count offset) (d.blockstart offset) := by
      refine ⟨h.start, ?_⟩
      rw [hzero, hstart, Nat.zero_add]
      exact h.whole
    obtain ⟨rbuf', hret, hdata, hframe⟩ := flashReadBuf_returns (m := m) hfits
    rw [hstart, hzero] at hdata
    refine ⟨patch rbuf' (d.blockSeek offset) count fun x => buf (x - d.blockSeek offset), ⟨fun i hi => ?_,
      fun j hj hout => ?_, fun j hj => .inl ?_⟩, fun r hr => ?_⟩
    · rw [patch_inside (by omega) (by omega), Nat.add_sub_cancel_left]
    · rw [patch_outside hout, hdata j hj, Nat.zero_add]
    · rw [patch_outside (by omega), hframe j hj]
    · rw [if_pos hpart]
      refine Comp.returns_bind.mpr ⟨_, hret, ?_⟩
      rw [if_neg (not_not.mpr rfl)]
      exact hr
  · refine ⟨buf, ⟨fun i hi => ?_, fun j hj hout => ?_, fun _ _ => .inr rfl⟩, fun r hr => ?_⟩
    · rw [show d.blockSeek offset = 0 by omega, Nat.zero_add]
    · omega
    · rwa [if_neg hpart]

theorem writeLoop_exact (h : d.Fits count offset)
    (herase : (if d.nand then d.eraseSize else d.topOfRange - d.blockstart offset) = d.eraseSize)
    (hdata : WrittenData d m heap buf data count offset) :
    ∃ m', (writeLoop d data (d.writeTotal count offset) offset m).Returns
        ((d.writeTotal count offset : Int), m') ∧
      (∀ i, i < count → m' (d.place (d.blockstart offset) (d.blockSeek offset + i)) = buf i) ∧
      ∀ x, (∀ i, i < count → x ≠ d.place (d.blockstart offset) (d.blockSeek offset + i)) → m' x = m x := by
  obtain ⟨hdvd, hle, -⟩ := writeTotal_bounds (d := d) count offset
  have hwhole : d.eraseSize ∣ d.writeTotal count offset - 0 := hdvd
  obtain ⟨m', hret, hnew, hframe⟩ := writeLoop_returns (w := m) (blockstart_dvd offset) hwhole
    (Nat.zero_le _) h.whole
  refine ⟨m', ?_, fun i hi => ?_, fun x hx => ?_⟩
  · unfold writeLoop
    rw [herase]
    exact hret
  · rw [hnew (d.blockSeek offset + i) (by omega), Nat.zero_add, hdata.new i hi]
  · by_cases hin : ∃ j, j < d.writeTotal count offset ∧ x = d.place (d.blockstart offset) j
    · obtain ⟨j, hj, rfl⟩ := hin
      have hout : j < d.blockSeek offset ∨ d.blockSeek offset + count ≤ j := by
        by_contra hno
        refine hx (j - d.blockSeek offset) (by omega) ?_
        rw [show d.blockSeek offset + (j - d.blockSeek offset) = j by omega]
      rw [hnew j hj, Nat.zero_add, hdata.old j hj hout]
    · refine hframe x fun j hj heq => hin ⟨j, hj, heq⟩

theorem writeLoop_nothing (h : d.writeTotal count offset = 0) :
    (writeLoop d data (d.writeTotal count offset) offset m).Returns (0, m) := by
  unfold writeLoop
  apply returns_end
  unfold writeRound
  rw [h, if_neg (lt_irrefl 0)]
  rfl

/-- What the first round leaves on NOR flash: all is written up to the end of the range. -/
def norWritten (d : EnvDev) (m data : Flash) (offset : Nat) : Flash :=
  program (erase m (d.blockstart offset) (d.topOfRange - d.blockstart offset)) (d.blockstart offset)
    (read data 0 (d.topOfRange - d.blockstart offset))

theorem norRound (hnor : d.nand = false) (hpos : 0 < d.writeTotal count offset)
    (htop : d.blockstart offset ≤ d.topOfRange) {r : Int × Flash}
    (h : writeRound d data (d.writeTotal count offset) (d.topOfRange - d.blockstart offset)
      ⟨d.eraseSize, d.blockstart offset + d.eraseSize, norWritten d m data offset⟩ = .inr r) :
    (writeLoop d data (d.writeTotal count offset) offset m).Returns r := by
  have hsize : (if d.nand then d.eraseSize else d.topOfRange - d.blockstart offset) =
      d.topOfRange - d.blockstart offset := by
    rw [hnor]
    rfl
  have hbad : d.flashBadBlock (d.blockstart offset) = false := by
    unfold EnvDev.flashBadBlock
    rw [hnor]
    rfl
  have hfirst : writeRound d data (d.writeTotal count offset) (d.topOfRange - d.blockstart offset)
      ⟨0, d.blockstart offset, m⟩ =
      .inl ⟨d.eraseSize, d.blockstart offset + d.eraseSize, norWritten d m data offset⟩ := by
    unfold writeRound norWritten
    rw [if_pos hpos, if_neg (by dsimp only; omega), hbad, if_neg (by decide), Nat.zero_add]
  unfold writeLoop
  rw [hsize]
  exact returns_round hfirst (returns_end h)

theorem writeLoop_nor_fails (hnor : d.nand = false) (h : d.Fits count offset)
    (hmany : d.eraseSize < d.writeTotal count offset) :
    (writeLoop d data (d.writeTotal count offset) offset m).Returns (-1, norWritten d m data offset) := by
  have herase := d.erasable
  have hroom := h.whole
  rw [room_of_nor hnor] at hroom
  apply norRound hnor (by omega) (by omega)
  unfold writeRound
  rw [if_pos hmany, if_pos (by dsimp only; omega)]

theorem writeLoop_nor_one (hnor : d.nand = false) (h : d.Fits count offset)
    (hone : d.writeTotal count offset = d.eraseSize) :
    (writeLoop d data (d.writeTotal count offset) offset m).Returns
      ((d.eraseSize : Int), norWritten d m data offset) := by
  have herase := d.erasable
  have hroom := h.whole
  rw [room_of_nor hnor] at hroom
  apply norRound hnor (by omega) (by omega)
  unfold writeRound
  rw [hone, if_neg (lt_irrefl _)]

theorem norWritten_at {i : Nat} (hi : i < d.topOfRange - d.blockstart offset) :
    norWritten d m data offset (d.blockstart offset + i) = data i := by
  unfold norWritten
  rw [program_read (by omega) (by omega), erase, patch_inside (by omega) (by omega), Nat.add_sub_cancel_left,
    Nat.zero_add]
  exact UInt8.neg_one_and

theorem EnvDev.WritesOnly.one_block (hw : d.WritesOnly count offset) (hnor : d.nand = false)
    (h : d.Fits count offset) : d.writeTotal count offset ≤ d.eraseSize := by
  by_contra hmany
  obtain ⟨rc, m', hret, hrc, -⟩ := hw (fun _ => 0) (fun _ => 0) fun _ => 0
  obtain ⟨data, -, hloop⟩ := flashWriteBuf_data h (fun _ => 0) (fun _ => 0) fun _ => 0
  obtain ⟨rfl, -⟩ := Prod.mk.inj (hret.unique (hloop _ (writeLoop_nor_fails hnor h (by omega))))
  exact absurd hrc (by decide)

theorem EnvDev.WritesOnly.last_block (hw : d.WritesOnly count offset) (hnor : d.nand = false)
    (h : d.Fits count offset) (hone : d.writeTotal count offset = d.eraseSize) :
    d.topOfRange = d.blockstart offset + d.eraseSize := by
  have herase := d.erasable
  have hroom := h.whole
  have hstart := h.start
  obtain ⟨-, hle, -⟩ := writeTotal_bounds (d := d) count offset
  rw [room_of_nor hnor] at hroom
  by_contra hmore
  obtain ⟨data, hdata, hloop⟩ := flashWriteBuf_data h (fun _ => 0) (fun _ => 1) fun _ => 1
  obtain ⟨rc, m', hret, -, -, hframe⟩ := hw (fun _ => 0) (fun _ => 1) fun _ => 1
  obtain ⟨-, rfl⟩ := Prod.mk.inj (hret.unique (hloop _ (writeLoop_nor_one hnor h hone)))
  have hbehind := hframe (d.blockstart offset + d.eraseSize) (by omega) (by omega) (good_of_nor hnor _)
    fun i hi => by
      rw [place_of_nor hnor (by omega)]
      omega
  rw [norWritten_at (by omega)] at hbehind
  rcases hdata.behind d.eraseSize (by omega) with hjunk | hjunk
  · cases hjunk.symm.trans hbehind
  · cases hjunk.symm.trans hbehind

/-- `flash_write_buf` writes the environment and nothing else on NAND, and on NOR exactly where nothing has to
be written or the data lie in the last block of the range. -/
theorem flash_write_buf_iff (d : EnvDev) (count offset : Nat) (h : d.Fits count offset) :
    d.WritesOnly count offset ↔ d.nand = true ∨ d.writeTotal count offset = 0 ∨
      d.writeTotal count offset = d.eraseSize ∧ d.topOfRange = d.blockstart offset + d.eraseSize := by
  constructor
  · intro hw
    cases hnand : d.nand with
    | true => exact .inl rfl
    | false =>
      obtain ⟨hdvd, -, -⟩ := writeTotal_bounds (d := d) count offset
      rcases Nat.eq_zero_or_pos (d.writeTotal count offset) with hzero | hpos
      · exact .inr (.inl hzero)
      · have hge := Nat.le_of_dvd hpos hdvd
        have hone : d.writeTotal count offset = d.eraseSize := by
          have hle := hw.one_block hnand h
          omega
        exact .inr (.inr ⟨hone, hw.last_block hnand h hone⟩)
  · intro hcond m heap buf
    obtain ⟨data, hdata, hloop⟩ := flashWriteBuf_data h m heap buf
    have hwritten : ∃ m', (writeLoop d data (d.writeTotal count offset) offset m).Returns
          ((d.writeTotal count offset : Int), m') ∧
        (∀ i, i < count → m' (d.place (d.blockstart offset) (d.blockSeek offset + i)) = buf i) ∧
        ∀ x, (∀ i, i < count → x ≠ d.place (d.blockstart offset) (d.blockSeek offset + i)) → m' x = m x := by
      rcases hcond with hnand | hzero | ⟨hone, htop⟩
      · exact writeLoop_exact h (if_pos hnand) hdata
      · obtain ⟨-, hle, -⟩ := writeTotal_bounds (d := d) count offset
        refine ⟨m, ?_, fun i hi => by omega, fun _ _ => rfl⟩
        have hnothing : (writeLoop d data (d.writeTotal count offset) offset m).Returns (0, m) := writeLoop_nothing hzero
        rw [hzero] at hnothing ⊢
        exact hnothing
      · refine writeLoop_exact h ?_ hdata
        split
        · rfl
        · omega
    obtain ⟨m', hret, hnew, hframe⟩ := hwritten
    refine ⟨_, m', hloop _ hret, Int.natCast_nonneg _, fun rbuf => ?_, fun x _ _ _ hx => hframe x hx⟩
    obtain ⟨rbuf', hread, hback, -⟩ := flashReadBuf_returns (m := m') h
    exact ⟨rbuf', hread, fun i hi => (hback i hi).trans (hnew i hi)⟩

def norPair : EnvDev := ⟨false, 0, 4, 2, fun _ => false, by decide⟩

theorem norPair_fits (h : offset + count ≤ 8) : norPair.Fits count offset := by
  have hle := blockstart_le (d := norPair) offset
  have htop : norPair.topOfRange = 8 := by decide
  refine ⟨Nat.zero_le _, ?_⟩
  rw [room_of_nor rfl, htop]
  unfold EnvDev.blockSeek
  omega

theorem flash_write_buf_last_sector : norPair.WritesOnly 3 4 :=
  (flash_write_buf_iff norPair 3 4 (norPair_fits (by decide))).mpr (.inr (.inr ⟨by decide, by decide⟩))

/-- An environment of two sectors is not written to NOR flash. -/
theorem nor_two_sectors_refused :
    ¬∀ (d : EnvDev) (count offset : Nat), d.Fits count offset → d.WritesOnly count offset := by
  intro h
  have hfits : norPair.Fits 8 0 := norPair_fits (by decide)
  exact absurd ((h norPair 8 0 hfits).one_block rfl hfits) (by decide)

end UBoot.FwEnv
