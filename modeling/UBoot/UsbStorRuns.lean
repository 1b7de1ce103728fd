import UBoot.UsbStor

namespace UBoot.UsbStor

open List

variable {a : Answers} {cmd : List UInt8} {datalen tag start blocks pdata blksz : Nat} {s t : State} {r : Read}

theorem checkCsw_good {csw : Csw} {actlen : Nat} : checkCsw csw tag datalen actlen = transportGood ↔
    csw.dCSWSignature = 0x53425355 ∧ csw.dCSWTag = tag ∧ csw.bCSWStatus = 0 ∧ actlen ≤ datalen := by
  have hne : transportFailed ≠ transportGood := by decide
  unfold checkCsw
  split
  next h => exact ⟨fun hf => absurd hf hne, fun hg => absurd hg.1 h⟩
  next hsig =>
    split
    next h => exact ⟨fun hf => absurd hf hne, fun hg => absurd hg.2.1 h⟩
    next htag =>
      split
      next h => exact ⟨fun hf => absurd hf hne, fun hg => by omega⟩
      · split
        next h => exact ⟨fun hf => absurd hf hne, fun hg => by omega⟩
        · split
          next h => exact ⟨fun hf => absurd hf hne, fun hg => by omega⟩
          · split
            next h => exact ⟨fun hf => absurd hf hne, fun hg => by omega⟩
            · exact ⟨fun _ => ⟨by omega, by omega, by omega, by omega⟩, fun _ => rfl⟩

theorem bbbTransport_good : (bbbTransport a cmd datalen tag).1 = transportGood ↔ a.Accepted cmd datalen tag := by
  have hne : transportFailed ≠ transportGood := by decide
  unfold bbbTransport
  cases hcommand : a.command.ok with
  | false => exact ⟨fun hf => absurd hf hne, fun h => absurd (hcommand.symm.trans h.command) (by decide)⟩
  | true =>
    cases hdata : (dataPhase a cmd datalen).1 with
    | false =>
      simp only [hdata]
      exact ⟨fun hf => absurd hf hne, fun h => absurd (hdata.symm.trans h.data) (by decide)⟩
    | true =>
      simp only [hdata]
      cases hstatus : statusPhase a with
      | none =>
        refine ⟨fun hf => absurd hf hne, fun h => ?_⟩
        obtain ⟨csw, hcsw, -⟩ := h.success
        cases hstatus.symm.trans hcsw
      | some csw =>
        refine checkCsw_good.trans ⟨fun h => ?_, fun h => ?_⟩
        · exact ⟨hcommand, hdata, ⟨csw, hstatus, h.1, h.2.1, h.2.2.1⟩, h.2.2.2⟩
        · obtain ⟨csw', hcsw, hsig, htag, hzero⟩ := h.success
          obtain rfl : csw = csw' := Option.some.inj (hstatus.symm.trans hcsw)
          exact ⟨hsig, htag, hzero, h.actlen⟩

theorem Read.Delivered.accepted (h : r.Delivered blksz) (hlen : r.datalen = blksz * r.count) : r.Accepted := by
  obtain ⟨csw, hcsw, hsig, htag, hzero, -⟩ := h.success
  refine ⟨h.command, h.data, ⟨csw, hcsw, hsig, htag, hzero⟩, ?_⟩
  rw [h.whole, hlen]

theorem read10_count (hblocks : blocks < 0x10000) (hcmd : r.cmd = read10Cmd start blocks) : r.count = blocks := by
  unfold Read.count
  rw [hcmd]
  change (UInt8.ofNat (blocks >>> 8)).toNat * 256 + (UInt8.ofNat blocks).toNat = blocks
  rw [UInt8.toNat_ofNat', UInt8.toNat_ofNat', Nat.shiftRight_eq_div_pow]
  omega

theorem read10_lba (hcmd : r.cmd = read10Cmd start blocks) : r.lba = start % 0x100000000 := by
  unfold Read.lba
  rw [hcmd]
  change (((UInt8.ofNat (start >>> 24)).toNat * 256 + (UInt8.ofNat (start >>> 16)).toNat) * 256 +
    (UInt8.ofNat (start >>> 8)).toNat) * 256 + (UInt8.ofNat start).toNat = _
  rw [UInt8.toNat_ofNat', UInt8.toNat_ofNat', UInt8.toNat_ofNat', UInt8.toNat_ofNat', Nat.shiftRight_eq_div_pow,
    Nat.shiftRight_eq_div_pow, Nat.shiftRight_eq_div_pow]
  omega

theorem store_outside {memory : Nat → UInt8} {addr count x : Nat} {bytes : Nat → UInt8}
    (h : x < addr ∨ addr + count ≤ x) : store memory addr count bytes x = memory x := by
  unfold store
  rw [if_neg (by omega)]

theorem store_inside {memory : Nat → UInt8} {addr count j : Nat} {bytes : Nat → UInt8} (h : j < count) :
    store memory addr count bytes (addr + j) = bytes j := by
  unfold store
  rw [if_pos ⟨Nat.le_add_right addr j, by omega⟩, Nat.add_sub_cancel_left]

theorem stored_le : (bbbTransport a cmd datalen tag).2 ≤ datalen := by
  have hphase : (dataPhase a cmd datalen).2.2 ≤ datalen := by
    unfold dataPhase
    split
    · exact Nat.zero_le _
    · change (if dirIn cmd then _ else 0) ≤ datalen
      split
      · exact Nat.min_le_right _ _
      · exact Nat.zero_le _
  unfold bbbTransport
  rcases hdata : dataPhase a cmd datalen with ⟨goOn, actlen, stored⟩
  rw [hdata] at hphase
  split
  · exact Nat.zero_le _
  · cases goOn with
    | false => exact hphase
    | true => cases statusPhase a <;> exact hphase

theorem dirIn_read10 : dirIn (read10Cmd start blocks) = true := by
  change ((usDirection.getD ((0x28 : UInt8).toNat >>> 3) 0).testBit ((0x28 : UInt8).toNat &&& 7)) = true
  decide

theorem stored_whole (hcmd : r.cmd = read10Cmd start blocks) (h : r.Delivered blksz)
    (hlen : r.datalen = blksz * r.count) : (bbbTransport r.answers r.cmd r.datalen r.tag).2 = r.datalen := by
  have hphase : (dataPhase r.answers r.cmd r.datalen).2.2 = r.datalen := by
    have hwhole := h.whole
    rw [← hlen] at hwhole
    unfold dataPhase at hwhole ⊢
    split at hwhole
    next hzero =>
      rw [if_pos hzero]
      exact hwhole
    next hzero =>
      rw [if_neg hzero]
      change (if dirIn r.cmd then min (dataMsg r.answers r.datalen).2 r.datalen else 0) = r.datalen
      rw [hcmd, dirIn_read10, if_pos rfl]
      exact min_eq_right (le_of_eq hwhole.symm)
  obtain ⟨csw, hcsw, -⟩ := h.success
  unfold bbbTransport
  simp only [h.command, h.data, hcsw]
  exact hphase

/-- A read that `usb_read_10` makes for these blocks. -/
structure Read.IsTry (r : Read) (pdata datalen start blocks : Nat) : Prop where
  cmd : r.cmd = read10Cmd start blocks
  pdata : r.pdata = pdata
  datalen : r.datalen = datalen

/-- A state that is like another one up to the reads and some bytes of the memory. -/
structure Near (s t : State) (pdata datalen : Nat) : Prop where
  outside : ∀ x, x < pdata ∨ pdata + datalen ≤ x → t.memory x = s.memory x
  asynch : t.asynchAllowed = s.asynchAllowed

theorem Near.trans {u : State} (h : Near s t pdata datalen) (h' : Near t u pdata datalen) : Near s u pdata datalen :=
  ⟨fun x hx => (h'.outside x hx).trans (h.outside x hx), h'.asynch.trans h.asynch⟩

variable {answers : Nat → Answers}

theorem usbRead10_tries (answers : Nat → Answers) (pdata datalen start blocks : Nat) (s : State) :
    ∃ r : Read, r.IsTry pdata datalen start blocks ∧
      ((usbRead10 answers pdata datalen start blocks s).1 = transportGood ↔ r.Accepted) ∧
      (usbRead10 answers pdata datalen start blocks s).2.log = s.log ++ [r] ∧
      Near s (usbRead10 answers pdata datalen start blocks s).2 pdata datalen ∧
      ∀ blksz, r.Delivered blksz → datalen = blksz * r.count → ∀ j, j < datalen →
        (usbRead10 answers pdata datalen start blocks s).2.memory (pdata + j) = r.answers.bytes j := by
  have hle := @stored_le (answers s.calls) (read10Cmd start blocks) datalen s.cbwTag
  refine ⟨⟨read10Cmd start blocks, pdata, datalen, s.cbwTag, answers s.calls⟩, ⟨rfl, rfl, rfl⟩, bbbTransport_good, rfl,
    ⟨fun x hx => store_outside (by omega), rfl⟩, ?_⟩
  intro blksz hdelivered hlen j hj
  have hstored := stored_whole rfl hdelivered hlen
  exact store_inside (Nat.lt_of_lt_of_eq hj hstored.symm)

theorem readIt_tries (answers : Nat → Answers) (pdata datalen start blocks retry : Nat) (s : State) :
    ∃ refused : List Read, (∀ r ∈ refused, r.IsTry pdata datalen start blocks ∧ ¬r.Accepted) ∧
      Near s (readIt answers pdata datalen start blocks retry s).2 pdata datalen ∧
      (((readIt answers pdata datalen start blocks retry s).1 = true ∧ ∃ r : Read,
          r.IsTry pdata datalen start blocks ∧ r.Accepted ∧
          (readIt answers pdata datalen start blocks retry s).2.log = s.log ++ (refused ++ [r]) ∧
          ∀ blksz, r.Delivered blksz → datalen = blksz * r.count → ∀ j, j < datalen →
            (readIt answers pdata datalen start blocks retry s).2.memory (pdata + j) = r.answers.bytes j) ∨
        (readIt answers pdata datalen start blocks retry s).1 = false ∧
          (readIt answers pdata datalen start blocks retry s).2.log = s.log ++ refused) := by
  obtain ⟨r, htry, hgood, hlog, hnear, hbytes⟩ := usbRead10_tries answers pdata datalen start blocks s
  induction retry generalizing s r with
  | zero =>
    by_cases hacc : r.Accepted
    · have heq : readIt answers pdata datalen start blocks 0 s =
          (true, (usbRead10 answers pdata datalen start blocks s).2) := if_pos (hgood.mpr hacc)
      rw [heq]
      exact ⟨[], by simp, hnear, .inl ⟨rfl, r, htry, hacc, hlog, hbytes⟩⟩
    · have heq : readIt answers pdata datalen start blocks 0 s =
          (false, usbRequestSense (usbRead10 answers pdata datalen start blocks s).2) :=
        if_neg fun h => hacc (hgood.mp h)
      rw [heq]
      refine ⟨[r], ?_, ⟨hnear.outside, hnear.asynch⟩, .inr ⟨rfl, hlog⟩⟩
      intro x hx
      rw [mem_singleton.mp hx]
      exact ⟨htry, hacc⟩
  | succ retry ih =>
    by_cases hacc : r.Accepted
    · have heq : readIt answers pdata datalen start blocks (retry + 1) s =
          (true, (usbRead10 answers pdata datalen start blocks s).2) := if_pos (hgood.mpr hacc)
      rw [heq]
      exact ⟨[], by simp, hnear, .inl ⟨rfl, r, htry, hacc, hlog, hbytes⟩⟩
    · have heq : readIt answers pdata datalen start blocks (retry + 1) s =
          readIt answers pdata datalen start blocks retry
            (usbRequestSense (usbRead10 answers pdata datalen start blocks s).2) :=
        if_neg fun h => hacc (hgood.mp h)
      rw [heq]
      generalize hnext : usbRequestSense (usbRead10 answers pdata datalen start blocks s).2 = next
      have hnear' : Near s next pdata datalen := hnext ▸ ⟨hnear.outside, hnear.asynch⟩
      have hlog' : next.log = s.log ++ [r] := hnext ▸ hlog
      obtain ⟨r', htry', hgood', hlog'', hnear'', hbytes'⟩ := usbRead10_tries answers pdata datalen start blocks next
      obtain ⟨refused, hrefused, hgo, hend⟩ := ih next r' htry' hgood' hlog'' hnear'' hbytes'
      refine ⟨r :: refused, ?_, hnear'.trans hgo, ?_⟩
      · intro x hx
        rcases mem_cons.mp hx with rfl | hx
        · exact ⟨htry, hacc⟩
        · exact hrefused x hx
      · rw [hlog'] at hend
        rcases hend with ⟨htrue, last, hlast, hlacc, hllog, hlbytes⟩ | ⟨hfalse, hllog⟩
        · refine .inl ⟨htrue, last, hlast, hlacc, ?_, hlbytes⟩
          rw [hllog, append_assoc]
          rfl
        · refine .inr ⟨hfalse, ?_⟩
          rw [hllog, append_assoc]
          rfl

theorem Near.widen {pdata' datalen' : Nat} (h : Near s t pdata datalen) (hlow : pdata' ≤ pdata)
    (hhigh : pdata + datalen ≤ pdata' + datalen') : Near s t pdata' datalen' :=
  ⟨fun x hx => h.outside x (by omega), h.asynch⟩

variable {c : ReadCall} {done left : Nat} {new : List Read}

/-- What the loop does from the block `done` on until `left` blocks are left. -/
structure ReadCall.Reads (c : ReadCall) (done left : Nat) (s t : State) (new : List Read) : Prop where
  log : t.log = s.log ++ new
  left_le : done + left ≤ c.blkcnt
  near : Near s t (c.buffer + done * c.blksz) ((c.blkcnt - done) * c.blksz)
  later : ∀ r ∈ new, ∀ b k, r.Covers b k →
    ∃ i, done ≤ i ∧ i < c.blkcnt ∧ (c.blknr + i) % 0x100000000 = b % 0x100000000
  filled : (∀ r ∈ new, r.Accepted → r.Delivered c.blksz) →
    ∀ i, done ≤ i → i < c.blkcnt - left → c.Filled new t.memory i
  missing : ∀ r ∈ new, r.Accepted → ¬r.Delivered c.blksz →
    ∃ i, done ≤ i ∧ i < c.blkcnt - left ∧ ∀ y ∈ new, ∀ k, y.Covers (c.blknr + i) k → ¬y.Delivered c.blksz

theorem Read.IsTry.covers {m b k : Nat} (h : r.IsTry pdata datalen ((c.blknr + done) % 0x100000000) m)
    (hm : m < 0x10000) (hcovers : r.Covers b k) : k < m ∧ (c.blknr + (done + k)) % 0x100000000 = b % 0x100000000 := by
  obtain ⟨-, hk, hb⟩ := hcovers
  rw [read10_count hm h.cmd] at hk
  rw [read10_lba h.cmd] at hb
  refine ⟨hk, ?_⟩
  rw [← hb]
  omega

theorem Read.IsTry.covers_of_lt {m k : Nat} (h : r.IsTry pdata datalen ((c.blknr + done) % 0x100000000) m)
    (hm : m < 0x10000) (hk : k < m) : r.Covers (c.blknr + (done + k)) k := by
  refine ⟨by rw [h.cmd]; rfl, ?_, ?_⟩
  · rw [read10_count hm h.cmd]
    exact hk
  · rw [read10_lba h.cmd]
    omega

theorem block_ne {i j : Nat} (hi : i < j) (hj : j < c.blkcnt) :
    (c.blknr + i) % 0x100000000 ≠ (c.blknr + j) % 0x100000000 := by
  have hlt := c.blkcnt_lt
  omega

theorem Filled.mono {reads more : List Read} {memory : Nat → UInt8} {i : Nat} (h : c.Filled reads memory i)
    (hsub : ∀ r ∈ reads, r ∈ more) : c.Filled more memory i := by
  obtain ⟨r, hr, hrest⟩ := h
  exact ⟨r, hsub r hr, hrest⟩

theorem smallblks_le {blks : Nat} (h : blks ≠ 0) : smallblks blks ≠ 0 ∧ smallblks blks ≤ blks ∧ smallblks blks ≤ 20 := by
  unfold smallblks usbMaxReadBlk
  split <;> omega

theorem reads_cons {m : Nat} {u : State} {refused : List Read} {last : Read} (hm : m ≠ 0) (hm20 : m ≤ 20)
    (hfit : done + m ≤ c.blkcnt)
    (hrefused : ∀ r ∈ refused, r.IsTry (c.buffer + done * c.blksz) (c.blksz * m)
      ((c.blknr + done) % 0x100000000) m ∧ ¬r.Accepted)
    (hlast : last.IsTry (c.buffer + done * c.blksz) (c.blksz * m) ((c.blknr + done) % 0x100000000) m)
    (hacc : last.Accepted) (hlog : t.log = s.log ++ (refused ++ [last]))
    (hnear : Near s t (c.buffer + done * c.blksz) (c.blksz * m))
    (hbytes : last.Delivered c.blksz → c.blksz * m = c.blksz * last.count → ∀ j, j < c.blksz * m →
      t.memory (c.buffer + done * c.blksz + j) = last.answers.bytes j)
    (hrest : c.Reads (done + m) left t u new) : c.Reads done left s u (refused ++ [last] ++ new) := by
  have hcount : ∀ r : Read, r.IsTry (c.buffer + done * c.blksz) (c.blksz * m) ((c.blknr + done) % 0x100000000) m →
      r.count = m := fun r hr => read10_count (by omega) hr.cmd
  have hplace : c.buffer + (done + m) * c.blksz = c.buffer + done * c.blksz + c.blksz * m := by
    rw [add_mul, mul_comm m, add_assoc]
  have htotal : (c.blkcnt - done) * c.blksz = c.blksz * m + (c.blkcnt - (done + m)) * c.blksz := by
    have hsplit : c.blkcnt - done = m + (c.blkcnt - (done + m)) := by omega
    rw [hsplit, add_mul, mul_comm m]
  have hmem : ∀ r ∈ refused ++ [last] ++ new, (r ∈ refused ∨ r = last) ∨ r ∈ new := by
    intro r hr
    rcases mem_append.mp hr with hr | hr
    · exact .inl ((mem_append.mp hr).imp_right mem_singleton.mp)
    · exact .inr hr
  have htry : ∀ r, r ∈ refused ∨ r = last →
      r.IsTry (c.buffer + done * c.blksz) (c.blksz * m) ((c.blknr + done) % 0x100000000) m := by
    rintro r (hr | rfl)
    · exact (hrefused r hr).1
    · exact hlast
  refine ⟨?_, ?_, ?_, ?_, ?_, ?_⟩
  · rw [hrest.log, hlog, append_assoc]
  · have hle := hrest.left_le
    omega
  · refine (hnear.widen le_rfl (by omega)).trans (hrest.near.widen (by omega) (by omega))
  · intro r hr b k hcovers
    rcases hmem r hr with hr | hr
    · obtain ⟨hk, hb⟩ := (htry r hr).covers (by omega) hcovers
      exact ⟨done + k, by omega, by omega, hb⟩
    · obtain ⟨i, hi, hlt, hb⟩ := hrest.later r hr b k hcovers
      exact ⟨i, by omega, hlt, hb⟩
  · intro hall i hi hleft
    have hlastmem : last ∈ refused ++ [last] ++ new := by simp
    rcases lt_or_ge i (done + m) with hin | hbehind
    · obtain ⟨k, rfl⟩ : ∃ k, i = done + k := ⟨i - done, by omega⟩
      have hdelivered := hall last hlastmem hacc
      refine ⟨last, hlastmem, k, hlast.covers_of_lt (by omega) (by omega), hdelivered, ?_, ?_⟩
      · rw [hlast.pdata, add_mul, add_assoc]
      · intro j hj
        have hend : k * c.blksz + j < c.blksz * m := by
          have hstep : (k + 1) * c.blksz ≤ m * c.blksz := Nat.mul_le_mul_right _ (by omega)
          rw [Nat.succ_mul, mul_comm m] at hstep
          omega
        have haddr : c.buffer + (done + k) * c.blksz + j = c.buffer + done * c.blksz + (k * c.blksz + j) := by
          rw [add_mul]
          omega
        rw [haddr, hrest.near.outside _ (by omega)]
        exact hbytes hdelivered (by rw [hcount last hlast]) _ hend
    · refine Filled.mono (hrest.filled (fun r hr => hall r (mem_append_right _ hr)) i hbehind hleft) ?_
      exact fun r hr => mem_append_right _ hr
  · intro r hr hracc hrno
    rcases hmem r hr with (hr | rfl) | hr
    · exact absurd hracc (hrefused r hr).2
    · have hleft := hrest.left_le
      refine ⟨done, le_refl _, by omega, fun y hy k hcovers => ?_⟩
      rcases hmem y hy with (hy | rfl) | hy
      · intro hdelivered
        have htried := (hrefused y hy).1
        exact (hrefused y hy).2 (hdelivered.accepted (by rw [htried.datalen, hcount y htried]))
      · exact hrno
      · obtain ⟨i, hi, hlt, hb⟩ := hrest.later y hy _ k hcovers
        exact absurd hb.symm (block_ne (by omega) hlt)
    · obtain ⟨i, hi, hleft, hnone⟩ := hrest.missing r hr hracc hrno
      refine ⟨i, by omega, hleft, fun y hy k hcovers => ?_⟩
      rcases hmem y hy with hy | hy
      · obtain ⟨hk, hb⟩ := (htry y hy).covers (by omega) hcovers
        exact absurd hb (block_ne (by omega) (by omega))
      · exact hnone y hy k hcovers

theorem readLoop_reads (hdone : done ≤ c.blkcnt) (answers : Nat → Answers) (s : State) : ∃ new, c.Reads done
      (readLoop answers c.blksz ((c.blknr + done) % 0x100000000) (c.blkcnt - done) (c.buffer + done * c.blksz) s).1 s
      (readLoop answers c.blksz ((c.blknr + done) % 0x100000000) (c.blkcnt - done) (c.buffer + done * c.blksz) s).2
      new := by
  have hroom := c.room
  induction hn : c.blkcnt - done using Nat.strong_induction_on generalizing done s with
  | _ n ih =>
    subst hn
    rw [readLoop]
    by_cases hend : c.blkcnt - done = 0
    · rw [if_pos hend]
      refine ⟨[], (append_nil _).symm, hdone, ⟨fun _ _ => rfl, rfl⟩, fun r hr => absurd hr not_mem_nil, ?_,
        fun r hr => absurd hr not_mem_nil⟩
      intro _ i hi hlt
      omega
    · rw [if_neg hend]
      obtain ⟨hm, hfit, hm20⟩ := smallblks_le hend
      have hpiece : c.buffer + (done + smallblks (c.blkcnt - done)) * c.blksz =
          c.buffer + done * c.blksz + c.blksz * smallblks (c.blkcnt - done) := by
        rw [add_mul, mul_comm (smallblks _), add_assoc]
      have hinside : (done + smallblks (c.blkcnt - done)) * c.blksz ≤ c.blkcnt * c.blksz :=
        Nat.mul_le_mul_right _ (by omega)
      have hbelow : c.buffer + done * c.blksz + c.blksz * smallblks (c.blkcnt - done) < 0x100000000 := by
        rw [← hpiece]
        exact lt_of_le_of_lt (Nat.add_le_add_left hinside c.buffer) hroom
      have hdatalen : c.blksz * smallblks (c.blkcnt - done) % 0x100000000 = c.blksz * smallblks (c.blkcnt - done) :=
        Nat.mod_eq_of_lt (lt_of_le_of_lt (Nat.le_add_left _ _) hbelow)
      have haddr : (c.buffer + done * c.blksz + c.blksz * smallblks (c.blkcnt - done)) % 0x100000000 =
          c.buffer + (done + smallblks (c.blkcnt - done)) * c.blksz := by
        rw [hpiece]
        exact Nat.mod_eq_of_lt hbelow
      have hstart : ((c.blknr + done) % 0x100000000 + smallblks (c.blkcnt - done)) % 0x100000000 =
          (c.blknr + (done + smallblks (c.blkcnt - done))) % 0x100000000 := by omega
      simp only [hdatalen, haddr, hstart]
      obtain ⟨refused, hrefused, hnear, ⟨htrue, last, hlast, hacc, hlog, hbytes⟩ | ⟨hfalse, hlog⟩⟩ :=
        readIt_tries answers (c.buffer + done * c.blksz) (c.blksz * smallblks (c.blkcnt - done))
          ((c.blknr + done) % 0x100000000) (smallblks (c.blkcnt - done)) 2 s
      · rw [if_pos htrue, ← Nat.sub_add_eq]
        have hless : c.blkcnt - (done + smallblks (c.blkcnt - done)) < c.blkcnt - done := by omega
        have hnext : done + smallblks (c.blkcnt - done) ≤ c.blkcnt := by omega
        obtain ⟨new, hnew⟩ := ih _ hless hnext
          (readIt answers (c.buffer + done * c.blksz) (c.blksz * smallblks (c.blkcnt - done))
            ((c.blknr + done) % 0x100000000) (smallblks (c.blkcnt - done)) 2 s).2 rfl
        exact ⟨_, reads_cons hm hm20 (by omega) hrefused hlast hacc hlog hnear (hbytes c.blksz) hnew⟩
      · rw [if_neg (by rw [hfalse]; decide)]
        refine ⟨refused, hlog, by omega, hnear.widen le_rfl ?_, ?_, ?_, ?_⟩
        · have htotal : done * c.blksz + (c.blkcnt - done) * c.blksz = c.blkcnt * c.blksz := by
            rw [← add_mul, Nat.add_sub_cancel' hdone]
          omega
        · intro r hr b k hcovers
          obtain ⟨hk, hb⟩ := (hrefused r hr).1.covers (by omega) hcovers
          exact ⟨done + k, by omega, by omega, hb⟩
        · intro _ i hi hlt
          omega
        · exact fun r hr hracc => absurd hracc (hrefused r hr).2

theorem usbTestUnitReady_keeps (answers : Nat → Answers) (tries : Nat) (s : State) :
    (usbTestUnitReady answers tries s).2.memory = s.memory ∧ (usbTestUnitReady answers tries s).2.log = s.log ∧
      (usbTestUnitReady answers tries s).2.asynchAllowed = s.asynchAllowed := by
  induction tries generalizing s with
  | zero => exact ⟨rfl, rfl, rfl⟩
  | succ tries ih =>
    unfold usbTestUnitReady
    split
    · exact ⟨rfl, rfl, rfl⟩
    · obtain ⟨hmemory, hlog, hasynch⟩ := ih (usbRequestSense s.called)
      exact ⟨hmemory, hlog, hasynch⟩

theorem usbTestUnitReady_iff (answers : Nat → Answers) (tries : Nat) (s : State) (htag : s.cbwTag < 0x100000000) :
    (usbTestUnitReady answers tries s).1 = true ↔ ∃ j, j < tries ∧
      (answers (s.calls + 2 * j)).Accepted (List.replicate 12 0) 0 ((s.cbwTag + 2 * j) % 0x100000000) := by
  induction tries generalizing s with
  | zero => exact ⟨fun h => absurd h Bool.false_ne_true, fun ⟨j, hj, _⟩ => absurd hj (Nat.not_lt_zero j)⟩
  | succ tries ih =>
    unfold usbTestUnitReady
    have hfirst : (s.cbwTag + 2 * 0) % 0x100000000 = s.cbwTag := Nat.mod_eq_of_lt htag
    by_cases hacc : (answers s.calls).Accepted (List.replicate 12 0) 0 s.cbwTag
    · rw [if_pos (bbbTransport_good.mpr hacc)]
      exact ⟨fun _ => ⟨0, Nat.succ_pos tries, by rw [hfirst]; exact hacc⟩, fun _ => rfl⟩
    · rw [if_neg fun h => hacc (bbbTransport_good.mp h)]
      have hcalls : ∀ j, (usbRequestSense s.called).calls + 2 * j = s.calls + 2 * (j + 1) := by
        intro j
        change s.calls + 1 + 1 + 2 * j = _
        omega
      have htags : ∀ j, ((usbRequestSense s.called).cbwTag + 2 * j) % 0x100000000 =
          (s.cbwTag + 2 * (j + 1)) % 0x100000000 := by
        intro j
        change (((s.cbwTag + 1) % 0x100000000 + 1) % 0x100000000 + 2 * j) % 0x100000000 = _
        omega
      refine (ih (usbRequestSense s.called) (Nat.mod_lt _ (by decide))).trans ⟨?_, ?_⟩
      · rintro ⟨j, hj, hj'⟩
        rw [hcalls, htags] at hj'
        exact ⟨j + 1, by omega, hj'⟩
      · rintro ⟨j, hj, hj'⟩
        cases j with
        | zero =>
          rw [hfirst] at hj'
          exact absurd hj' hacc
        | succ j =>
          refine ⟨j, by omega, ?_⟩
          rw [hcalls, htags]
          exact hj'

theorem ReadCall.idle (h : c.blkcnt = 0 ∨ c.found = false) : c.result = (0, c.state) := by
  unfold ReadCall.result usbStorRead
  rcases h with h | h
  · rw [if_pos h]
  · rw [h]
    split <;> rfl

/-- The tests of the unit in a call. -/
def ReadCall.tested (c : ReadCall) : Bool × State :=
  usbTestUnitReady c.answers 11 { c.state with asynchAllowed := false }

theorem ReadCall.unready (hcnt : c.blkcnt ≠ 0) (hfound : c.found = true) (h : c.tested.1 = false) :
    c.result = (0, c.tested.2) := by
  change (if c.blkcnt = 0 then _ else if !c.found then _ else if !c.tested.1 then (0, c.tested.2) else _) = _
  rw [if_neg hcnt, hfound, h]
  rfl

theorem ReadCall.ready (hcnt : c.blkcnt ≠ 0) (hfound : c.found = true) (h : c.tested.1 = true) :
    c.result = (c.blkcnt - (readLoop c.answers c.blksz c.blknr c.blkcnt c.buffer c.tested.2).1,
      { (readLoop c.answers c.blksz c.blknr c.blkcnt c.buffer c.tested.2).2 with asynchAllowed := true }) := by
  change (if c.blkcnt = 0 then _ else if !c.found then _ else if !c.tested.1 then (0, c.tested.2) else
    (c.blkcnt - (readLoop c.answers c.blksz c.blknr c.blkcnt c.buffer c.tested.2).1,
      { (readLoop c.answers c.blksz c.blknr c.blkcnt c.buffer c.tested.2).2 with asynchAllowed := true })) = _
  rw [if_neg hcnt, hfound, h]
  rfl

theorem ReadCall.tested_iff (c : ReadCall) : c.tested.1 = true ↔ ∃ j, j < 11 ∧
    (c.answers (c.state.calls + 2 * j)).Accepted (List.replicate 12 0) 0 ((c.state.cbwTag + 2 * j) % 0x100000000) :=
  usbTestUnitReady_iff c.answers 11 { c.state with asynchAllowed := false } c.tag_lt

theorem ReadCall.reads (c : ReadCall) : ∃ new, c.Reads 0
    (readLoop c.answers c.blksz c.blknr c.blkcnt c.buffer c.tested.2).1 c.tested.2
    (readLoop c.answers c.blksz c.blknr c.blkcnt c.buffer c.tested.2).2 new := by
  have h := readLoop_reads (c := c) (Nat.zero_le c.blkcnt) c.answers c.tested.2
  rwa [add_zero, Nat.mod_eq_of_lt c.blknr_lt, zero_mul, add_zero, Nat.sub_zero] at h

/-- A read tells the truth exactly when the unit is ready and each read that is accepted is whole. -/
theorem usb_stor_read_honest_iff (c : ReadCall) : c.Honest ↔ c.Ready ∧ c.Whole := by
  unfold ReadCall.Ready ReadCall.Whole
  by_cases hidle : c.blkcnt = 0 ∨ c.found = false
  · have hresult := c.idle hidle
    refine ⟨fun _ => ⟨or_assoc.mp (.inl hidle), ?_⟩, fun _ => ⟨?_, ?_, ?_⟩⟩
    · rw [hresult, c.no_reads]
      exact fun r hr => absurd hr not_mem_nil
    · rw [hresult]
      exact fun i hi => absurd hi (Nat.not_lt_zero i)
    · rw [hresult]
      exact fun _ _ => rfl
    · rw [hresult]
      exact c.enabled
  · obtain ⟨hcnt, hfound⟩ := not_or.mp hidle
    have hfound : c.found = true := Bool.eq_true_of_not_eq_false hfound
    obtain ⟨hmemory, hlog, hasynch⟩ :=
      usbTestUnitReady_keeps c.answers 11 { c.state with asynchAllowed := false }
    cases htested : c.tested.1 with
    | false =>
      have hresult := c.unready hcnt hfound htested
      constructor
      · intro h
        have henabled := h.enabled
        rw [hresult] at henabled
        exact absurd (hasynch.symm.trans henabled) Bool.false_ne_true
      · rintro ⟨hzero | hnone | hready, -⟩
        · exact absurd hzero hcnt
        · exact absurd (hfound.symm.trans hnone) (by decide)
        · exact absurd (htested.symm.trans (c.tested_iff.mpr hready)) Bool.false_ne_true
    | true =>
      obtain ⟨new, hreads⟩ := c.reads
      have hresult := c.ready hcnt hfound htested
      have hnew : c.result.2.log = new := by
        rw [hresult]
        have hempty : c.tested.2.log = [] := hlog.trans c.no_reads
        rw [hreads.log, hempty, nil_append]
      rw [hnew]
      refine ⟨fun h => ⟨.inr (.inr (c.tested_iff.mp htested)), fun r hr hacc => ?_⟩, fun h => ⟨?_, ?_, ?_⟩⟩
      · by_contra hno
        obtain ⟨i, -, hi, hnone⟩ := hreads.missing r hr hacc hno
        have hcounted : i < c.result.1 := by
          rw [hresult]
          exact hi
        obtain ⟨y, hy, k, hcovers, hdelivered, -⟩ := h.counted i hcounted
        rw [hnew] at hy
        exact hnone y hy k hcovers hdelivered
      · intro i hi
        rw [hnew]
        rw [hresult] at hi ⊢
        exact hreads.filled h.2 i (Nat.zero_le i) hi
      · intro a ha
        rw [hresult]
        refine (hreads.near.outside a ?_).trans (congrFun hmemory a)
        rw [zero_mul, Nat.sub_zero]
        exact ha
      · rw [hresult]

def shortCall : ReadCall where
  answers n := ⟨⟨true, false⟩, ⟨true, false⟩, 100, fun _ => 0, ⟨true, false⟩, ⟨true, false⟩, ⟨0x53425355, n, 412, 0⟩,
    ⟨true, false⟩, ⟨true, false⟩, ⟨0x53425355, n, 412, 0⟩⟩
  found := true
  blksz := 512
  blknr := 0
  blkcnt := 1
  buffer := 0x30000000
  state := ⟨0, 0, true, fun _ => 0, []⟩
  blknr_lt := by decide
  blkcnt_lt := by decide
  room := by decide
  enabled := rfl
  tag_lt := by decide
  no_reads := rfl

/-- The block counts as read. -/
theorem short_block_counted : ¬shortCall.Honest := by
  intro h
  have htested : shortCall.tested.1 = true := by decide
  have hresult := shortCall.ready (by decide) rfl htested
  have hread : (readIt shortCall.answers 0x30000000 512 0 1 2 shortCall.tested.2).1 = true := by decide
  have hloop : readLoop shortCall.answers 512 0 1 0x30000000 shortCall.tested.2 =
      (0, (readIt shortCall.answers 0x30000000 512 0 1 2 shortCall.tested.2).2) := by
    rw [readLoop]
    change (if (readIt shortCall.answers 0x30000000 512 0 1 2 shortCall.tested.2).1 then
      readLoop shortCall.answers 512 1 0 0x30000200 (readIt shortCall.answers 0x30000000 512 0 1 2 shortCall.tested.2).2
      else (1, (readIt shortCall.answers 0x30000000 512 0 1 2 shortCall.tested.2).2)) = _
    rw [if_pos hread, readLoop]
    rfl
  have hcount : 0 < shortCall.result.1 := by
    rw [hresult]
    change 0 < 1 - (readLoop shortCall.answers 512 0 1 0x30000000 shortCall.tested.2).1
    rw [hloop]
    decide
  obtain ⟨r, hr, k, -, hdelivered, -⟩ := h.counted 0 hcount
  rw [hresult] at hr
  change r ∈ (readLoop shortCall.answers 512 0 1 0x30000000 shortCall.tested.2).2.log at hr
  rw [hloop] at hr
  have hwhole := hdelivered.whole
  rw [mem_singleton.mp hr] at hwhole
  exact absurd hwhole (by decide)

end UBoot.UsbStor
