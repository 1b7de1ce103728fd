import UBoot.NandSkipBadLoop

namespace UBoot

open GoodSpace List NandInfo

namespace NandInfo

/-- The alignment that `nand_write_skip_bad` asks for. -/
def Aligned (n : NandInfo) (offset length : Nat) : Prop :=
  if n.rwOob = 1 then length % (n.oobsize + n.writesize) = 0
  else offset % n.writesize = 0 ∧ length % n.writesize = 0

def Accepts (n : NandInfo) (offset length : Nat) : Prop :=
  n.Aligned offset length ∧ offset ≤ n.size ∧ (offset < n.size ∨ n.dataLen length = 0)

/-- A plain image that goes to the end of a block, with good blocks all the way: it is
written in one call. -/
structure OneCall (n : NandInfo) (offset length : Nat) : Prop where
  plain : n.rwOob = 0
  pos : 0 < length
  blockEnd : n.erasesize ∣ offset + length
  inside : offset + length ≤ n.size
  allGood : ∀ a, offset ≤ a → a < offset + length → n.good a = true

end NandInfo

variable {n : NandInfo} {f o l : Nat}

theorem dataLen_page (h : n.Aligned o l) : n.writesize ∣ n.dataLen l := by
  unfold Aligned at h
  unfold dataLen
  split
  · exact Nat.dvd_mul_left ..
  next hoob =>
    rw [if_neg hoob] at h
    exact Nat.dvd_of_mod_eq_zero h.2

theorem nandWriteSkipBad_aligned {σ : Type} {write : NandWrite σ} {s : σ} (h : n.Aligned o l) :
    nandWriteSkipBad n write f o l s = skipWrite n write f o (n.dataLen l) s := by
  unfold Aligned at h
  unfold nandWriteSkipBad dataLen
  split
  next hoob =>
    rw [if_pos hoob] at h
    rw [if_neg (not_not.mpr h)]
  next hoob =>
    rw [if_neg hoob] at h
    rw [if_neg (by omega)]

theorem nandWriteSkipBad_refused {σ : Type} {write : NandWrite σ} {s : σ} (h : ¬n.Accepts o l) :
    ∃ r, nandWriteSkipBad n write f o l s = some r ∧ r.rc ≠ 0 ∧ r.state = s := by
  have hrc : (-EINVAL : Int) ≠ 0 := by decide
  by_cases ha : n.Aligned o l
  · rw [nandWriteSkipBad_aligned ha]
    have hout : n.size < o + getLenInclBad n o (n.dataLen l) := by
      by_cases ho : o < n.size ∨ n.dataLen l = 0
      · have : ¬o ≤ n.size := fun hle => h ⟨ha, hle, ho⟩
        omega
      · exact getLenInclBad_outside (by omega) (by omega)
    exact ⟨_, by rw [skipWrite, if_pos hout], hrc, rfl⟩
  · unfold Aligned at ha
    unfold nandWriteSkipBad
    split
    next hoob =>
      rw [if_pos hoob] at ha
      exact ⟨_, if_pos ha, hrc, rfl⟩
    next hoob =>
      rw [if_neg hoob] at ha
      exact ⟨_, if_pos (by omega), hrc, rfl⟩

theorem nandWriteSkipBad_accepted {σ : Type} {write : NandWrite σ} {s : σ} (h : n.Accepts o l) :
    nandWriteSkipBad n write f o l s =
      if getLenInclBad n o (n.dataLen l) = n.dataLen l ∧ n.rwOob = 0 then
        some ⟨(write o (n.dataLen l) 0 s).1.1, (write o (n.dataLen l) 0 s).1.2, n.skipFb,
          (write o (n.dataLen l) 0 s).2⟩
      else skipWriteFuel n write (n.dataLen l) f o (n.dataLen l) 0 n.skipFb s := by
  obtain ⟨ha, hle, hlt⟩ := h
  have hin : ¬n.size < o + getLenInclBad n o (n.dataLen l) := by
    rcases hlt with hlt | hzero
    · obtain ⟨o', hlen, h₁, h₂, -⟩ := getLenInclBad_spec (n := n) (l := n.dataLen l) hlt
      omega
    · rw [hzero, getLenInclBad, lenInclBadFuel_done (le_refl 0)]
      omega
  rw [nandWriteSkipBad_aligned ha, skipWrite, if_neg hin]

theorem room_length_le (n : NandInfo) (b o : Nat) : (n.room b o).length ≤ (goods n.good o n.size).length := by
  unfold room
  split
  · exact Nat.zero_le _
  next a as h =>
    split
    · have ha := mem_goods.mp (show a ∈ goods n.good o n.size by rw [h]; exact mem_cons_self)
      rw [goods_append ha.1 (by omega : a ≤ n.size), goods_step ha.2.1, length_append,
        length_append]
      omega
    · rw [h]

theorem NandInfo.OneCall.start (h : n.OneCall o l) : o < n.size ∧ n.good o = true := by
  have hpos := h.pos
  have hend := h.inside
  exact ⟨by omega, h.allGood o (le_refl o) (by omega)⟩

theorem NandInfo.OneCall.take (h : n.OneCall o l) {b : Nat} (hb : b ≠ 1) :
    (n.room b o).take l = List.range' o l := by
  rw [room_of_ne hb, goods_append (Nat.le_add_right o l) h.inside, goods_all h.allGood,
    Nat.add_sub_cancel_left, take_append_of_le_length (by rw [length_range']),
    take_of_length_le (by rw [length_range'])]

theorem NandInfo.OneCall.skipped (h : n.OneCall o l) : o ∉ n.room 1 o := by
  obtain ⟨hlt, hg⟩ := h.start
  rw [room_skip hlt hg, room_of_ne (b := 0) (by decide), mem_goods]
  have := lt_next (n := n) o
  omega

theorem oneCall_ok {w : Nat → Int × Nat} (hacc : n.Accepts o l)
    (hone : n.dataLen l = 0 ∨ n.OneCall o (n.dataLen l) ∧ n.skipFb ≠ 1)
    (hroom : n.dataLen l ≤ (n.room n.skipFb o).length) :
    SkipBadOk n o l ⟨(logWrite n w o (n.dataLen l) 0 []).1.1, (logWrite n w o (n.dataLen l) 0 []).1.2,
      n.skipFb, (logWrite n w o (n.dataLen l) 0 []).2⟩ := by
  have hend : o + n.dataLen l ≤ n.size := by
    rcases hone with hz | ⟨h, -⟩
    · have := hacc.2.1
      omega
    · exact h.inside
  have hbytes := bytes_eq (n := n) (o := o) (l := n.dataLen l) (Nat.dvd_zero _) source_zero.symm
  rw [logWrite_inside hend]
  refine ⟨fun c hc => ?_, fun _ => hroom, fun _ => ?_⟩
  · rw [mem_singleton.mp hc]
    refine ⟨hend, fun a h₁ h₂ => ?_⟩
    rcases hone with hz | ⟨h, -⟩
    · simp only [hz] at h₁ h₂
      omega
    · exact h.allGood a h₁ h₂
  · simp only [nil_append, flatMap_singleton, hbytes, range_eq_range']
    rcases hone with hz | ⟨h, hb⟩
    · rw [hz]
      rfl
    · rw [h.take hb]

theorem SkipBadOk.rc {r : SkipResult (List NandCall)} (hacc : n.Accepts o l)
    (hr : nandWriteSkipBad n (logWrite n fun _ => (0, 0)) f o l [] = some r)
    (hok : SkipBadOk n o l r) : r.rc = 0 := by
  rw [nandWriteSkipBad_accepted hacc] at hr
  split at hr
  · cases Option.some.inj hr
    by_cases hout : n.size < o + n.dataLen l
    · have hcall := hok.allowed ⟨o, n.dataLen l, 0⟩ (by simp [logWrite, hout])
      exact absurd hcall.1 (Nat.not_le_of_lt hout)
    · rw [logWrite_ok (by omega) rfl]
  · rcases skipWriteFuel_rc hr with h0 | ⟨c, hc, hbad⟩
    · exact h0
    · exact absurd (hok.allowed c hc) hbad

theorem NandInfo.OneCall.not_skipped {r : SkipResult (List NandCall)} (hacc : n.Accepts o l)
    (hone : n.OneCall o (n.dataLen l))
    (hr : nandWriteSkipBad n (logWrite n fun _ => (0, 0)) f o l [] = some r)
    (hok : SkipBadOk n o l r) : n.skipFb ≠ 1 := by
  intro hb
  have hlen := (getLenInclBad_eq_iff hone.start.1 hone.pos
    ((hok.fits (hok.rc hacc hr)).trans (room_length_le n _ o))).mpr
    ⟨hone.blockEnd, hone.inside, hone.allGood⟩
  rw [nandWriteSkipBad_accepted hacc, if_pos ⟨hlen, hone.plain⟩, logWrite_ok hone.inside rfl] at hr
  cases Option.some.inj hr
  have hstored := hok.stored rfl
  have hmem : (o, 0) ∈ NandCall.bytes n ⟨o, n.dataLen l, 0⟩ :=
    mem_map.mpr ⟨0, mem_range.mpr hone.pos, by simp [source_zero]⟩
  rw [nil_append, flatMap_singleton, hb] at hstored
  rw [hstored] at hmem
  exact hone.skipped (mem_of_mem_take (of_mem_zip hmem).1)

/-- `nand_write_skip_bad` keeps to good blocks, ends, and returns 0 only for an image that
lies in the good blocks, on every device whose calls may fail, exactly where it refuses the
request or there is room, and no plain image that is written in one call was to skip a block. -/
theorem nand_write_skip_bad_iff (n : NandInfo) (offset length : Nat) (h : n.writesize ∣ offset) :
    (∀ w, ∃ fuel r, nandWriteSkipBad n (logWrite n w) fuel offset length [] = some r ∧
      SkipBadOk n offset length r) ↔
    (n.Accepts offset length → n.dataLen length ≤ (n.room n.skipFb offset).length ∧
        ¬(n.skipFb = 1 ∧ n.OneCall offset (n.dataLen length))) := by
  constructor
  · intro hok hacc
    obtain ⟨fuel, r, hr, hsafe⟩ := hok fun _ => (0, 0)
    exact ⟨hsafe.fits (hsafe.rc hacc hr), fun ⟨hb, hone⟩ => hone.not_skipped hacc hr hsafe hb⟩
  · intro hcond w
    by_cases hacc : n.Accepts offset length
    · obtain ⟨hroom, hfast⟩ := hcond hacc
      refine ⟨n.size + 1, ?_⟩
      rw [nandWriteSkipBad_accepted hacc]
      split
      next hlen =>
        refine ⟨_, rfl, oneCall_ok hacc ?_ hroom⟩
        rcases Nat.eq_zero_or_pos (n.dataLen length) with hz | hpos
        · exact .inl hz
        · have hlt : offset < n.size := by
            have := hacc.2.2
            omega
          obtain ⟨hblock, hend, hgood⟩ := (getLenInclBad_eq_iff hlt hpos
            (hroom.trans (room_length_le n _ offset))).mp hlen.1
          have hone : n.OneCall offset (n.dataLen length) := ⟨hlen.2, hpos, hblock, hend, hgood⟩
          exact .inr ⟨hone, fun hb => hfast ⟨hb, hone⟩⟩
      · obtain ⟨r, hr, new, hnew, hall, hdata⟩ : ∃ r,
            skipWriteFuel n (logWrite n w) (n.dataLen length) (n.size + 1) offset (n.dataLen length) 0
              n.skipFb [] = some r ∧
            Stores n (n.room n.skipFb offset) 0 (n.dataLen length) r [] := skipWriteFuel_stores
          (by omega) hacc.2.1 h (Nat.dvd_zero _) (dataLen_page hacc.1) source_zero.symm hroom
        rw [nil_append] at hnew
        subst hnew
        refine ⟨r, hr, hall, fun _ => hroom, fun h0 => ?_⟩
        rw [hdata h0, range_eq_range']
    · obtain ⟨r, hr, hrc, hs⟩ : ∃ r, nandWriteSkipBad n (logWrite n w) 0 offset length [] = some r ∧
          r.rc ≠ 0 ∧ r.state = [] := nandWriteSkipBad_refused hacc
      exact ⟨0, r, hr, by simp [hs], fun h0 => absurd h0 hrc, fun h0 => absurd h0 hrc⟩

def endBad : NandInfo where
  size := 0x4000000
  erasesize := 0x4000
  writesize := 0x200
  oobsize := 16
  rwOob := 0
  skipFb := 0
  isbad := fun a => a == 0x3ffc000
  erasable := by decide
  wholeBlocks := by decide
  wholePages := by decide
  addressable := by decide

theorem nand_write_skip_bad_last_good : ∃ fuel r,
    nandWriteSkipBad endBad (logWrite endBad fun _ => (0, 0x4000)) fuel 0x3ff8000 0x4000 [] = some r ∧
      SkipBadOk endBad 0x3ff8000 0x4000 r := by
  refine (nand_write_skip_bad_iff endBad 0x3ff8000 0x4000 (by decide)).mpr (fun _ => ⟨?_, ?_⟩) _
  · have hroom := room_good (n := endBad) (b := 0) (o := 0x3ff8000) (by decide) (by decide) (by decide)
    have hlen : endBad.dataLen 0x4000 = 0x4000 ∧ endBad.skipFb = 0 ∧
        endBad.next 0x3ff8000 - 0x3ff8000 = 0x4000 := by decide
    rw [hlen.1, hlen.2.1, hroom, length_append, length_range', hlen.2.2]
    omega
  · rintro ⟨hb, -⟩
    exact absurd hb (by decide)

/-- `get_len_incl_bad` stops at the end of the device, before it has found room for the
image. The length it returns is that of the image, and the bad block is written. -/
theorem nand_write_skip_bad_last_bad :
    ¬∃ fuel r, nandWriteSkipBad endBad (logWrite endBad fun _ => (0, 0)) fuel 0x3ff8000 0x8000 [] =
      some r ∧ SkipBadOk endBad 0x3ff8000 0x8000 r := by
  rintro ⟨fuel, r, hr, hok⟩
  have hacc : endBad.Accepts 0x3ff8000 0x8000 := by
    unfold Accepts Aligned
    decide
  have hlen : getLenInclBad endBad 0x3ff8000 (endBad.dataLen 0x8000) = endBad.dataLen 0x8000 ∧
      endBad.rwOob = 0 := by decide +kernel
  rw [nandWriteSkipBad_accepted hacc, if_pos hlen, logWrite_ok (by decide) rfl] at hr
  cases Option.some.inj hr
  have hcall := hok.allowed ⟨0x3ff8000, 0x8000, 0⟩ (by decide)
  exact absurd (hcall.2 0x3ffc000 (by decide) (by decide)) (by decide)

end UBoot
