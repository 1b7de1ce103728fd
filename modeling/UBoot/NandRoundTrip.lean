import UBoot.NandBoot

namespace UBoot

open FlashCells GoodSpace List NandInfo

/-- A `nand_read` that returns 0, or reports corrected bits, lies inside the device and has put its bytes
into the buffer. -/
structure FetchesData (n : NandInfo) (m : Flash) (read : NandRead Flash) : Prop where
  whole : ∀ ofs len p b, (accepting read ofs len p b).1.1 = 0 → (accepting read ofs len p b).1.2 = len
  inside : ∀ ofs len p b, (accepting read ofs len p b).1.1 = 0 → ofs + len ≤ n.size
  fetched : ∀ ofs len p b, (accepting read ofs len p b).1.1 = 0 →
    (accepting read ofs len p b).2 = patch b p len fun x => m (ofs + (x - p))

def goodRead (n : NandInfo) (m : Flash) : NandRead Flash := fun ofs len p b =>
  if n.size < ofs + len then ((-EINVAL, len), b)
  else ((0, len), patch b p len fun x => m (ofs + (x - p)))

theorem accepting_goodRead (n : NandInfo) (m : Flash) (ofs len p : Nat) (b : Flash) :
    accepting (goodRead n m) ofs len p b =
      if n.size < ofs + len then ((-EINVAL, len), b)
      else ((0, len), patch b p len fun x => m (ofs + (x - p))) := by
  unfold accepting goodRead
  by_cases h : n.size < ofs + len
  · rw [if_pos h]
    rfl
  · rw [if_neg h]
    rfl

theorem goodRead_back (n : NandInfo) (m : Flash) : FetchesData n m (goodRead n m) := by
  have hne : (-EINVAL : Int) ≠ 0 := by decide
  refine ⟨fun ofs len p b h => ?_, fun ofs len p b h => ?_, fun ofs len p b h => ?_⟩ <;>
    rw [accepting_goodRead] at * <;> split at h
  · exact absurd h hne
  · rw [if_neg ‹_›]
  · exact absurd h hne
  · omega
  · exact absurd h hne
  · rw [if_neg ‹_›]

section Loop

variable {n : NandInfo} {read : NandRead Flash} {t f o l p : Nat} {m b : Flash} {r : SkipResult Flash}

theorem skipReadFuel_data (hn : n.Idle) (hr : FetchesData n m read)
    (h : skipWriteFuel n (accepting read) t f o l p 0 b = some r) (hrc : r.rc = 0) :
    l ≤ (goods n.good o n.size).length ∧ (∀ x, x < p → r.state x = b x) ∧
      ∀ i, i < l → r.state (p + i) = m ((goods n.good o n.size).getD i 0) := by
  refine skipWriteFuel_rule (q := fun o l p b b' => l ≤ (goods n.good o n.size).length ∧
    (∀ x, x < p → b' x = b x) ∧ ∀ i, i < l → b' (p + i) = m ((goods n.good o n.size).getD i 0))
    hr.whole hr.inside (fun o p b => ?_) (fun o l p b b' ho hg => ?_) ?_ h hrc
  · exact ⟨Nat.zero_le _, fun _ _ => rfl, fun i hi => absurd hi (Nat.not_lt_zero i)⟩
  · rw [goods_step ho, goods_block_bad hg, nil_append]
    exact id
  rintro o k l p b b' hg hnext hin hk hok ⟨hroom, hframe, hdata⟩
  have hstep : n.bufferStep k = k := by simp [bufferStep, hn.rwOob]
  rw [hr.fetched o k p b hok] at hframe
  rw [hstep] at hframe hdata
  obtain ⟨hlen, hat⟩ := goods_front hin hg hnext
  refine ⟨by omega, fun x hx => ?_, fun i hi => ?_⟩
  · rw [hframe x (by omega), patch_outside (.inl hx)]
  · rcases lt_or_ge i k with hik | hik
    · rw [(hat i).1 hik, hframe _ (by omega), patch_inside (by omega) (by omega), Nat.add_sub_cancel_left]
    · rw [show p + i = p + k + (i - k) by omega, hdata (i - k) (by omega), (hat i).2 hik]

theorem skipWriteFuel_past {σ : Type} {write : NandWrite σ} {s : σ}
    (hinside : ∀ ofs len p s, (write ofs len p s).1.1 = 0 → ofs + len ≤ n.size) {j k : Nat} (hl : 0 < l)
    (hj : n.size ≤ j * n.erasesize) (hk : n.isbad (n.blockStart ((j + k) * n.erasesize)) = false) :
    ∃ f r, skipWriteFuel n write t f (j * n.erasesize) l p 0 s = some r := by
  have hstart : n.blockOffset (j * n.erasesize) = 0 := Nat.mul_mod_left j n.erasesize
  have herase := n.erasable
  cases hbad : n.isbad (n.blockStart (j * n.erasesize)) with
  | false =>
    obtain ⟨q, hq⟩ : ∃ q, q = if l < n.erasesize - n.blockOffset (j * n.erasesize) then l
      else n.erasesize - n.blockOffset (j * n.erasesize) := ⟨_, rfl⟩
    obtain ⟨rval, got, s', hw⟩ : ∃ rval got s', write (j * n.erasesize) q p s = ((rval, got), s') := ⟨_, _, _, rfl⟩
    have hpos : 0 < q := by
      rw [hq]
      split <;> omega
    have hrc : rval ≠ 0 := by
      intro h0
      have hin := hinside (j * n.erasesize) q p s (by rw [hw]; exact h0)
      omega
    refine ⟨1, ⟨rval, t - l, 0, s'⟩, ?_⟩
    rw [skipWriteFuel, if_pos hl]
    simp only [hbad, Bool.false_eq_true, if_false, ← hq, hw]
    rw [if_neg (by decide), if_pos hrc]
  | true =>
    cases k with
    | zero =>
      rw [add_zero, hbad] at hk
      cases hk
    | succ k =>
      have hnext : j * n.erasesize + (n.erasesize - n.blockOffset (j * n.erasesize)) =
          (j + 1) * n.erasesize := by
        rw [hstart, Nat.sub_zero, Nat.add_mul, one_mul]
      rw [show j + (k + 1) = j + 1 + k by omega] at hk
      obtain ⟨f, r, hr⟩ := skipWriteFuel_past hinside hl
        (hj.trans (Nat.mul_le_mul_right _ (Nat.le_succ j))) hk
      refine ⟨f + 1, r, ?_⟩
      rw [skipWriteFuel, if_pos hl]
      simp only [hbad, if_true, hnext]
      exact hr
termination_by k

theorem skipWriteFuel_short {σ : Type} {write : NandWrite σ} {s : σ}
    (hwhole : ∀ ofs len p s, (write ofs len p s).1.1 = 0 → (write ofs len p s).1.2 = len)
    (ho : o ≤ n.size) (hroom : (goods n.good o n.size).length < l) :
    (∃ f r, skipWriteFuel n write t f o l p 0 s = some r) ∨
      ∃ l' p' s', 0 < l' ∧ ∀ f r, skipWriteFuel n write t f n.size l' p' 0 s' = some r →
        ∃ f', skipWriteFuel n write t f' o l p 0 s = some r := by
  obtain ⟨d, hd⟩ : ∃ d, d = n.size - o := ⟨_, rfl⟩
  induction d using Nat.strong_induction_on generalizing o l p s with
  | _ d ih =>
    have hl : 0 < l := by omega
    rcases lt_or_ge o n.size with hin | hge
    · have hlt := lt_next (n := n) o
      have hle := next_le_size hin
      cases hg : n.good o with
      | false =>
        rw [goods_step hin, goods_block_bad hg, nil_append] at hroom
        rcases ih (n.size - n.next o) (by omega) (p := p) (s := s) hle hroom rfl with
          ⟨f, r, hr⟩ | ⟨l', p', s', hl', hgo⟩
        · exact .inl ⟨f + 1, r, by rw [skipWriteFuel_bad hl hin hg, hr]⟩
        · refine .inr ⟨l', p', s', hl', fun f r hr => ?_⟩
          obtain ⟨f', hf'⟩ := hgo f r hr
          exact ⟨f' + 1, by rw [skipWriteFuel_bad hl hin hg, hf']⟩
      | true =>
        obtain ⟨rval, got, s', hw⟩ : ∃ rval got s',
          write o (min l (n.next o - o)) p s = ((rval, got), s') := ⟨_, _, _, rfl⟩
        by_cases h0 : rval = 0
        · rw [goods_step hin, goods_block_good hg, length_append, length_range'] at hroom
          have hgot : got = n.next o - o := by
            have hlen := hwhole o (min l (n.next o - o)) p s (by rw [hw]; exact h0)
            rw [hw] at hlen
            change got = min l (n.next o - o) at hlen
            omega
          rw [hgot] at hw
          have hnext : o + (n.next o - o) = n.next o := by omega
          rcases ih (n.size - n.next o) (by omega) (l := l - (n.next o - o))
              (p := p + n.bufferStep (n.next o - o)) (s := s') hle (by omega) rfl with
            ⟨f, r, hr⟩ | ⟨l', p', s'', hl', hgo⟩
          · refine .inl ⟨f + 1, r, ?_⟩
            rw [skipWriteFuel_write hl hin hg (by decide) hw, if_neg (not_not.mpr h0), hnext, hr]
          · refine .inr ⟨l', p', s'', hl', fun f r hr => ?_⟩
            obtain ⟨f', hf'⟩ := hgo f r hr
            refine ⟨f' + 1, ?_⟩
            rw [skipWriteFuel_write hl hin hg (by decide) hw, if_neg (not_not.mpr h0), hnext, hf']
        · refine .inl ⟨1, ⟨rval, t - l, 0, s'⟩, ?_⟩
          rw [skipWriteFuel_write hl hin hg (by decide) hw, if_pos h0]
    · obtain rfl : o = n.size := by omega
      exact .inr ⟨l, p, s, hl, fun f r hr => ⟨f, hr⟩⟩

theorem skipWriteFuel_never {σ : Type} {write : NandWrite σ} {s : σ}
    (hok : ∀ ofs len p s, ofs + len ≤ n.size → (write ofs len p s).1 = (0, len))
    (hbad : ∀ k, n.size ≤ k * n.erasesize → n.isbad (n.blockStart (k * n.erasesize)) = true)
    (ho : o ≤ n.size ∨ n.erasesize ∣ o) (hroom : (goods n.good o n.size).length < l) :
    skipWriteFuel n write t f o l p 0 s = none := by
  induction f generalizing o l p s with
  | zero => rfl
  | succ f ih =>
    have hl : 0 < l := by omega
    rcases lt_or_ge o n.size with hin | hge
    · have hlt := lt_next (n := n) o
      have hle := next_le_size hin
      cases hg : n.good o with
      | false =>
        rw [goods_step hin, goods_block_bad hg, nil_append] at hroom
        rw [skipWriteFuel_bad hl hin hg]
        exact ih (.inl hle) hroom
      | true =>
        rw [goods_step hin, goods_block_good hg, length_append, length_range'] at hroom
        obtain ⟨k, hk⟩ : ∃ k, k = n.next o - o := ⟨_, rfl⟩
        have hmin : min l (n.next o - o) = k := by omega
        have hcall : write o (min l (n.next o - o)) p s = ((0, k), (write o k p s).2) := by
          rw [hmin]
          exact Prod.ext (hok o k p s (by omega)) rfl
        rw [skipWriteFuel_write hl hin hg (by decide) hcall, if_neg (by decide), hk,
          show o + (n.next o - o) = n.next o by omega]
        exact ih (.inl hle) (by omega)
    · obtain ⟨k, hk⟩ : ∃ k, o = k * n.erasesize := by
        have hdvd : n.erasesize ∣ o := by
          rcases ho with hle | hdvd
          · obtain rfl : o = n.size := by omega
            exact n.wholeBlocks
          · exact hdvd
        obtain ⟨k, hk⟩ := hdvd
        exact ⟨k, hk.trans (mul_comm _ _)⟩
      rw [skipWriteFuel, if_pos hl]
      have hblock := hbad k (by omega)
      rw [← hk] at hblock
      simp only [hblock, if_true]
      have hlt := lt_next (n := n) o
      refine ih (.inr (next_dvd o)) ?_
      rw [goods_empty (by omega)]
      exact hl

end Loop

/-- A read of the request ends, and where a write of it has succeeded a read that succeeds gives the same
bytes: both take the byte `i` for the good address with that number. -/
structure NandInfo.RoundTrips (n : NandInfo) (offset length : Nat) : Prop where
  same : ∀ image write m fuel r read fuel' b len b', StoresImage n image write →
    nandWriteSkipBad n write fuel offset length m = some r → r.rc = 0 → FetchesData n r.state read →
    nandReadSkipBad n read fuel' offset length b = some (0, len, b') →
    length ≤ (goods n.good offset n.size).length ∧
      ∀ i, i < length → r.state ((goods n.good offset n.size).getD i 0) = image.getD i 0 ∧
        b' i = image.getD i 0
  ends : ∀ m read b, FetchesData n m read → ∃ fuel r, nandReadSkipBad n read fuel offset length b = some r

/-- Some block behind the end of the device is reported good; the addresses are cut to 32 bits there. -/
def NandInfo.GoodBehind (n : NandInfo) : Prop :=
  ∃ k, n.size ≤ k * n.erasesize ∧ n.isbad (n.blockStart (k * n.erasesize)) = false

section RoundTrip

variable {n : NandInfo} {image : List UInt8} {write : NandWrite Flash} {read : NandRead Flash}
  {f o l : Nat} {m b : Flash} {r : SkipResult Flash}

theorem one_call_good (hlen : getLenInclBad n o l = l) (ho : o < n.size)
    (hroom : l ≤ (goods n.good o n.size).length) {i : Nat} (hi : i < l) :
    (goods n.good o n.size).getD i 0 = o + i := by
  obtain ⟨-, hin, hgood⟩ := (getLenInclBad_eq_iff ho (by omega) hroom).mp hlen
  exact (getD_goods_block hin hgood).1 hi

theorem skipWrite_stored (hn : n.Idle) (hst : StoresImage n image write) (ho : o < n.size)
    (hroom : l ≤ (goods n.good o n.size).length)
    (h : skipWrite n write f o l m = some r) (hrc : r.rc = 0) {i : Nat} (hi : i < l) :
    r.state ((goods n.good o n.size).getD i 0) = image.getD i 0 := by
  unfold skipWrite at h
  simp only at h
  split at h
  · cases Option.some.inj h
    exact absurd hrc (show (-EINVAL : Int) ≠ 0 by decide)
  next hin =>
    split at h
    next hone =>
      cases Option.some.inj h
      rw [one_call_good hone.1 ho hroom hi]
      change (write o l 0 m).2 (o + i) = _
      rw [hst.stored o l 0 m hrc, patch_inside (by omega) (by omega), zero_add, Nat.add_sub_cancel_left]
    · rw [hn.skipFb] at h
      obtain ⟨-, -, hdata⟩ := skipWriteFuel_image hn hst h hrc
      rw [hdata i hi, zero_add]

theorem skipRead_data (hn : n.Idle) (hr : FetchesData n m read) (ho : o < n.size)
    (hroom : l ≤ (goods n.good o n.size).length)
    (h : skipWrite n (accepting read) f o l b = some r) (hrc : r.rc = 0) {i : Nat} (hi : i < l) :
    r.state i = m ((goods n.good o n.size).getD i 0) := by
  unfold skipWrite at h
  simp only at h
  split at h
  · cases Option.some.inj h
    exact absurd hrc (show (-EINVAL : Int) ≠ 0 by decide)
  next hin =>
    split at h
    next hone =>
      cases Option.some.inj h
      rw [one_call_good hone.1 ho hroom hi]
      change (accepting read o l 0 b).2 i = _
      rw [hr.fetched o l 0 b hrc, patch_inside (by omega) (by omega), Nat.sub_zero]
    · rw [hn.skipFb] at h
      obtain ⟨-, -, hdata⟩ := skipReadFuel_data hn hr h hrc
      rw [← hdata i hi, zero_add]

theorem getLenInclBad_short (ho : o < n.size) (hroom : (goods n.good o n.size).length < l) :
    getLenInclBad n o l = n.size - o := by
  obtain ⟨o', hlen, h₁, h₂, -, h₄⟩ := getLenInclBad_spec (n := n) (l := l) ho
  have hsize : o' = n.size := by
    rcases h₄ with h₄ | h₄
    · rw [goods_append h₁ h₂, length_append] at hroom
      omega
    · exact h₄
  rw [hlen, hsize]

section Ends

variable {σ : Type} {write : NandWrite σ} {s : σ}

theorem skipWrite_loop (hn : n.Idle) (ho : o < n.size) (hroom : (goods n.good o n.size).length < l)
    (hend : o + l ≠ n.size) : skipWrite n write f o l s = skipWriteFuel n write l f o l 0 0 s := by
  have hlen := getLenInclBad_short ho hroom
  unfold skipWrite
  simp only
  rw [if_neg (by omega), if_neg (by omega), hn.skipFb]

theorem skipWrite_one_call (hn : n.Idle) (ho : o < n.size) (hroom : (goods n.good o n.size).length < l)
    (hend : o + l = n.size) :
    skipWrite n write f o l s =
      some ⟨(write o l 0 s).1.1, (write o l 0 s).1.2, n.skipFb, (write o l 0 s).2⟩ := by
  have hlen := getLenInclBad_short ho hroom
  unfold skipWrite
  simp only
  rw [if_neg (by omega), if_pos ⟨by omega, hn.rwOob⟩]

theorem skipWrite_refused (ho : n.size ≤ o) (hl : 0 < l) :
    skipWrite n write f o l s = some ⟨-EINVAL, l, n.skipFb, s⟩ := by
  unfold skipWrite
  exact if_pos (getLenInclBad_outside ho hl)

theorem skipWrite_room (hn : n.Idle)
    (hwhole : ∀ ofs len p s, (write ofs len p s).1.1 = 0 → (write ofs len p s).1.2 = len)
    (hroom : l ≤ (goods n.good o n.size).length) : ∃ f r, skipWrite n write f o l s = some r := by
  by_cases hin : n.size < o + getLenInclBad n o l
  · exact ⟨0, _, if_pos hin⟩
  by_cases hone : getLenInclBad n o l = l ∧ n.rwOob = 0
  · exact ⟨0, _, (if_neg hin).trans (if_pos hone)⟩
  obtain ⟨r, hr, -⟩ := skipWriteFuel_room (t := l) (p := 0) (s := s) (f := n.size + 1) hwhole
    (by omega) (by omega : o ≤ n.size) hroom
  refine ⟨n.size + 1, r, ?_⟩
  unfold skipWrite
  simp only
  rw [if_neg hin, if_neg hone, hn.skipFb, hr]

theorem skipWrite_behind (hn : n.Idle)
    (hwhole : ∀ ofs len p s, (write ofs len p s).1.1 = 0 → (write ofs len p s).1.2 = len)
    (hinside : ∀ ofs len p s, (write ofs len p s).1.1 = 0 → ofs + len ≤ n.size) (ho : o < n.size)
    (hroom : (goods n.good o n.size).length < l) (hend : o + l ≠ n.size) (hbehind : n.GoodBehind) :
    ∃ f r, skipWrite n write f o l s = some r := by
  obtain ⟨k, hk, hgood⟩ := hbehind
  obtain ⟨j, hj⟩ := n.wholeBlocks
  rw [mul_comm] at hj
  have hjk : j ≤ k := by
    rw [hj] at hk
    exact Nat.le_of_mul_le_mul_right hk n.erasable
  have hloop : ∃ f r, skipWriteFuel n write l f o l 0 0 s = some r := by
    rcases skipWriteFuel_short (t := l) (p := 0) (s := s) hwhole ho.le hroom with hend | ⟨l', p', s', hl', hgo⟩
    · exact hend
    · obtain ⟨f, r, hr⟩ := skipWriteFuel_past (t := l) (p := p') (s := s') (j := j) (k := k - j) hinside hl'
        hj.le (by rwa [Nat.add_sub_cancel' hjk])
      rw [← hj] at hr
      obtain ⟨f', hf'⟩ := hgo f r hr
      exact ⟨f', r, hf'⟩
  obtain ⟨f, r, hr⟩ := hloop
  exact ⟨f, r, (skipWrite_loop hn ho hroom hend).trans hr⟩

end Ends

theorem aligned_write (hn : n.Idle) (h : nandWriteSkipBad n write f o l m = some r) (hrc : r.rc = 0) :
    n.Aligned o l ∧ (o < n.size ∨ l = 0) ∧ skipWrite n write f o l m = some r := by
  have hacc : n.Accepts o l := by
    by_contra hno
    obtain ⟨r', hr', hrc', -⟩ := nandWriteSkipBad_refused (f := f) (s := m) hno
    cases h.symm.trans hr'
    exact hrc' hrc
  have hdata : n.dataLen l = l := by
    unfold dataLen
    rw [hn.rwOob]
    rfl
  obtain ⟨halign, -, hin⟩ := hacc
  rw [hdata] at hin
  rw [nandWriteSkipBad_aligned halign, hdata] at h
  exact ⟨halign, hin, h⟩

theorem readSkipBad_ok (hn : n.Idle) {len : Nat} {b' : Flash}
    (h : nandReadSkipBad n read f o l b = some (0, len, b')) :
    ∃ r, skipWrite n (accepting read) f o l b = some r ∧ r.rc = 0 ∧ r.state = b' := by
  rw [nandReadSkipBad_eq hn] at h
  obtain ⟨r, hr, heq⟩ := Option.map_eq_some_iff.mp h
  obtain ⟨hrc, hrest⟩ := Prod.mk.inj heq
  exact ⟨r, hr, hrc, (Prod.mk.inj hrest).2⟩

theorem NandInfo.RoundTrips.unaligned (hn : n.Idle) (h : n.RoundTrips o l) (ho : o < n.size)
    (hroom : (goods n.good o n.size).length < l) (hend : o + l = n.size) : ¬n.Aligned o l := by
  intro halign
  have hdata : n.dataLen l = l := by
    unfold dataLen
    rw [hn.rwOob]
    rfl
  have hwrite : nandWriteSkipBad n (goodWrite n []) 0 o l (fun _ => 0) =
      some ⟨(goodWrite n [] o l 0 fun _ => 0).1.1, (goodWrite n [] o l 0 fun _ => 0).1.2, n.skipFb,
        (goodWrite n [] o l 0 fun _ => 0).2⟩ := by
    rw [nandWriteSkipBad_aligned halign, hdata]
    exact skipWrite_one_call hn ho hroom hend
  have hread := @skipWrite_one_call n 0 o l _ (accepting (goodRead n (goodWrite n [] o l 0 fun _ => 0).2))
    (fun _ => 0) hn ho hroom hend
  have hrc : (goodWrite n [] o l 0 fun _ => 0).1.1 = 0 := by
    unfold goodWrite
    rw [if_neg (by omega)]
  have hok : (accepting (goodRead n (goodWrite n [] o l 0 fun _ => 0).2) o l 0 fun _ => 0).1.1 = 0 := by
    rw [accepting_goodRead, if_neg (by omega)]
  have hdone : nandReadSkipBad n (goodRead n (goodWrite n [] o l 0 fun _ => 0).2) 0 o l (fun _ => 0) =
      some (0, (accepting (goodRead n (goodWrite n [] o l 0 fun _ => 0).2) o l 0 fun _ => 0).1.2,
        (accepting (goodRead n (goodWrite n [] o l 0 fun _ => 0).2) o l 0 fun _ => 0).2) := by
    rw [nandReadSkipBad_eq hn, hread, Option.map_some, hok]
  have hsame := h.same [] (goodWrite n []) (fun _ => 0) 0 _ _ 0 (fun _ => 0) _ _ (goodWrite_stores n []) hwrite
    hrc (goodRead_back n _) hdone
  exact Nat.not_lt_of_le hsame.1 hroom

theorem NandInfo.RoundTrips.behind (hn : n.Idle) (h : n.RoundTrips o l) (ho : o < n.size)
    (hroom : (goods n.good o n.size).length < l) (hend : o + l ≠ n.size) : n.GoodBehind := by
  by_contra hnone
  have hbad : ∀ k, n.size ≤ k * n.erasesize → n.isbad (n.blockStart (k * n.erasesize)) = true := by
    intro k hk
    rw [← Bool.not_eq_false]
    exact fun hgood => hnone ⟨k, hk, hgood⟩
  obtain ⟨f, r, hr⟩ := h.ends (fun _ => 0) (goodRead n fun _ => 0) (fun _ => 0) (goodRead_back n _)
  have hnever : skipWriteFuel n (accepting (goodRead n fun _ => 0)) l f o l 0 0 (fun _ => 0) = none := by
    refine skipWriteFuel_never (fun ofs len p b hin => ?_) hbad (.inl ho.le) hroom
    rw [accepting_goodRead, if_neg (by omega)]
  rw [nandReadSkipBad_eq hn, skipWrite_loop hn ho hroom hend, hnever] at hr
  cases hr

/-- A request is stored and read back alike, and the read ends, exactly where there is room for it, or it
begins behind the device, or it is not taken for one call to the end of the device and a block behind the
device is reported good. -/
theorem nand_skip_bad_round_trip_iff (n : NandInfo) (hn : n.Idle) (offset length : Nat) :
    n.RoundTrips offset length ↔ n.size ≤ offset ∨ length ≤ (goods n.good offset n.size).length ∨
        if offset + length = n.size then ¬n.Aligned offset length else n.GoodBehind := by
  constructor
  · intro h
    rw [or_iff_not_imp_left, or_iff_not_imp_left]
    intro ho hroom
    split
    next hend => exact h.unaligned hn (by omega) (by omega) hend
    next hend => exact h.behind hn (by omega) (by omega) hend
  · intro hcond
    refine ⟨?_, ?_⟩
    · intro image write m fuel r read fuel' b len b' hst hwrite hrc hfetch hread
      obtain ⟨halign, hin, hw⟩ := aligned_write hn hwrite hrc
      obtain ⟨r', hr', hrc', hstate⟩ := readSkipBad_ok hn hread
      rcases Nat.eq_zero_or_pos length with rfl | hl
      · exact ⟨Nat.zero_le _, fun i hi => absurd hi (Nat.not_lt_zero i)⟩
      have ho : offset < n.size := hin.resolve_right (by omega)
      have hroom : length ≤ (goods n.good offset n.size).length := by
        by_contra hno
        rcases hcond with hbehind | hroom | hrest
        · omega
        · exact hno hroom
        · split at hrest
          · exact hrest halign
          next hend =>
            rw [skipWrite_loop hn ho (by omega) hend] at hw
            exact hno (skipWriteFuel_image hn hst hw hrc).1
      refine ⟨hroom, fun i hi => ?_⟩
      have hstored := skipWrite_stored hn hst ho hroom hw hrc hi
      refine ⟨hstored, ?_⟩
      rw [← hstate, skipRead_data hn hfetch ho hroom hr' hrc' hi, hstored]
    · intro m read b hfetch
      have hends : ∃ f r, skipWrite n (accepting read) f offset length b = some r := by
        by_cases hroom : length ≤ (goods n.good offset n.size).length
        · exact skipWrite_room hn hfetch.whole hroom
        rcases lt_or_ge offset n.size with ho | ho
        · rcases hcond with hbehind | hroom' | hrest
          · omega
          · exact absurd hroom' hroom
          · split at hrest
            next hend => exact ⟨0, _, skipWrite_one_call hn ho (by omega) hend⟩
            next hend => exact skipWrite_behind hn hfetch.whole hfetch.inside ho (by omega) hend hrest
        · exact ⟨0, _, skipWrite_refused ho (by omega)⟩
      obtain ⟨f, r, hr⟩ := hends
      exact ⟨f, _, by rw [nandReadSkipBad_eq hn, hr]; rfl⟩

end RoundTrip

def secondBad : NandInfo := { endBad with isbad := fun a => a == 0x4000 }

/-- Two blocks of data go into the first and the third block. -/
theorem nand_skip_bad_round_trip_second : secondBad.RoundTrips 0 0x8000 := by
  refine (nand_skip_bad_round_trip_iff secondBad ⟨rfl, rfl⟩ 0 0x8000).mpr (.inr (.inl ?_))
  have hnext : secondBad.next 0 = 0x4000 ∧ secondBad.next 0x4000 = 0x8000 ∧ secondBad.next 0x8000 = 0xc000 := by decide
  have hfirst := NandInfo.goods_block_good (n := secondBad) (a := 0) (by decide)
  have hsecond := NandInfo.goods_block_bad (n := secondBad) (a := 0x4000) (by decide)
  have hthird := NandInfo.goods_block_good (n := secondBad) (a := 0x8000) (by decide)
  rw [hnext.1] at hfirst
  rw [hnext.2.1] at hsecond
  rw [hnext.2.2] at hthird
  rw [goods_append (b := 0x4000) (by decide) (by decide), goods_append (b := 0x8000) (c := secondBad.size) (by decide)
    (by decide), goods_append (a := 0x8000) (b := 0xc000) (by decide) (by decide), hfirst, hsecond, hthird]
  rw [length_append, length_append, length_append, length_range', length_range']
  omega

def allBad : NandInfo := { endBad with isbad := fun _ => true }

/-- On a chip that reports all of its blocks bad a read of one page never ends. -/
theorem nand_read_skip_bad_for_ever : ¬∀ (n : NandInfo) (offset length : Nat), n.Idle →
    n.Aligned offset length → n.RoundTrips offset length := by
  intro h
  have halign : allBad.Aligned 0 0x200 := by
    unfold NandInfo.Aligned
    rw [if_neg (by decide)]
    exact ⟨rfl, rfl⟩
  have hround := h allBad 0 0x200 ⟨rfl, rfl⟩ halign
  have hnone : goods allBad.good 0 allBad.size = [] := goods_none fun x _ _ => rfl
  obtain ⟨k, -, hk⟩ := hround.behind ⟨rfl, rfl⟩ (by decide) (by rw [hnone]; decide) (by decide)
  cases hk

end UBoot
