import UBoot.Jffs2ScanSteps

namespace UBoot.Jffs2

open FlashCells Words Loops

variable {g : ListSetup} {p : PartInfo} {s : Scan}

theorem nsize_le (m : Flash) (a : Nat) : (rawDirent m a).nsize ≤ 255 := by
  have hlt := (m (a + 28)).toNat_lt
  change (m (a + 28)).toNat ≤ 255
  omega

theorem isDir_of_dirent {a : Nat} (h : nodetype p.bytes a = nodetypeDirent) :
    isDir p a = (direntCrc p.bytes a && direntNameCrc p.bytes a) := by
  unfold isDir
  rw [h]
  rfl

theorem Scan.Passed.lists {s' : Scan} (h : s.Passed p s') (l : BLists) : s.Passed p { s' with lists := l } :=
  ⟨h.more, h.i, h.prevofs, h.window.congr rfl rfl rfl rfl rfl, h.ofs⟩

theorem Scan.Window.nsize (h : s.Window p) (hclip : s.place + 29 ≤ defaultEmptyScanSize)
    (hend : s.ofs + 29 ≤ s.sectorEnd p) :
    (rawDirent s.buf s.place).nsize = (rawDirent p.bytes s.ofs).nsize := by
  have hplace := h.place
  have hn : s.ofs + 29 ≤ s.bufOfs + s.bufLen := by
    rcases h.covers with hfull | hcov
    · omega
    · omega
  exact nsize_congr (h.bytes hn (by omega))

theorem Scan.Window.dirent (h : s.Window p) (htype : nodetype p.bytes s.ofs = nodetypeDirent)
    (hclip : s.place + 29 ≤ defaultEmptyScanSize)
    (hhead : s.ofs + 12 ≤ s.bufOfs + s.bufLen) (hin : s.bufOfs + s.bufLen < 4294967296)
    (hneed : s.ofs + (rawDirentSize + (rawDirent s.buf s.place).nsize) < 4294967296)
    (hw : s.ofs + (totlen p.bytes s.ofs + 3) < 4294967296)
    (hread : s.bufOfs + s.bufLen < s.ofs + (rawDirentSize + (rawDirent s.buf s.place).nsize) →
      p.offset + s.ofs + s.bufLen ≤ p.dev.size) :
    ∃ s', s.dirent g p s.place = some s' ∧ s.Passed p s' ∧
      (s.ofs + (rawDirentSize + (rawDirent p.bytes s.ofs).nsize) ≤ s.sectorEnd p →
        Listed p [s.ofs] s.lists s'.lists) := by
  have hsize := nsize_le s.buf s.place
  obtain ⟨r, hr, hwin, hofs, hi, hprev, hlists, hplace, hsame, hkept, hfits⟩ :=
    h.cover (by unfold rawDirentSize defaultEmptyScanSize; omega) hin hneed hread
  have hpassed : s.Passed p (r.pass r.place) := by
    have hrest := hkept 12 hhead
    rw [← hofs] at hrest hw
    obtain ⟨hmore, hi', hprev', hwin', hofs'⟩ := hwin.passed hrest hw
    exact ⟨hmore, hi'.trans hi, hprev'.trans hprev, hwin', by rw [hofs', hofs]⟩
  have hname : r.place + rawDirentSize + (rawDirent r.buf r.place).nsize ≤ defaultEmptyScanSize := by
    rcases hsame with rfl | hzero
    · omega
    · have hnew := nsize_le r.buf r.place
      unfold rawDirentSize defaultEmptyScanSize
      omega
  have hbytes : s.ofs + (rawDirentSize + (rawDirent p.bytes s.ofs).nsize) ≤ s.sectorEnd p →
      ∀ i, i < rawDirentSize + (rawDirent p.bytes s.ofs).nsize →
        r.buf (r.place + i) = p.bytes (s.ofs + i) := by
    intro hend i hlt
    have hnsize : (rawDirent s.buf s.place).nsize = (rawDirent p.bytes s.ofs).nsize :=
      h.nsize hclip (by unfold rawDirentSize at hend; omega)
    rw [hnsize] at hfits
    have hall := hfits hend
    rw [← hofs] at hall ⊢
    exact hwin.bytes hall (by rwa [hofs])
  have hcrcs : s.ofs + (rawDirentSize + (rawDirent p.bytes s.ofs).nsize) ≤ s.sectorEnd p →
      isDir p s.ofs = (direntCrc r.buf r.place && direntNameCrc r.buf r.place) := by
    intro hend
    have hb := hbytes hend
    rw [isDir_of_dirent htype, direntNameCrc_congr hb,
      direntCrc_congr fun i hlt => hb i (by unfold rawDirentSize; omega)]
  have hskipped : isDir p s.ofs = false → Listed p [s.ofs] s.lists (r.pass r.place).lists := by
    intro hdir
    change Listed p [s.ofs] s.lists r.lists
    rw [hlists]
    exact Listed.none (isFrag_of_dirent htype) hdir _
  unfold Scan.dirent
  rw [if_neg (by omega), hr]
  dsimp only
  rw [if_neg (by unfold rawDirentSize at hplace; omega)]
  split
  next hbad =>
    refine ⟨_, rfl, hpassed, fun hend => hskipped ?_⟩
    rw [hcrcs hend, hbad, Bool.false_and]
  next hnode =>
    rw [if_neg (by omega)]
    split
    next hbad =>
      refine ⟨_, rfl, hpassed, fun hend => hskipped ?_⟩
      rw [hcrcs hend, hbad, Bool.and_false]
    next hgood =>
      refine ⟨_, rfl, hpassed.lists (r.addDir g p r.place).lists, fun hend => ?_⟩
      have hdir : isDir p s.ofs = true := by
        rw [hcrcs hend, Bool.not_eq_false _ |>.mp hnode, Bool.not_eq_false _ |>.mp hgood]
        rfl
      have hsector : r.sectorEnd p = s.sectorEnd p := by
        unfold Scan.sectorEnd
        rw [hi]
      have hfrag := isFrag_of_dirent htype
      rw [← hofs] at hfrag hdir
      have hlisted := hwin.addDir (g := g) (by omega) hfrag hdir r.place
      rw [hofs, hlists] at hlisted
      exact hlisted

/-- A round at `scan_more` has gone on behind the place of the scan. -/
structure Scan.After (p : PartInfo) (s s' : Scan) : Prop where
  more : s'.phase = .more
  i : s'.i = s.i
  prevofs : s'.prevofs = s.ofs
  window : s'.Window p
  ofs : s.ofs < s'.ofs ∨ s.ofs = s'.ofs ∧ s.ofs ≠ s.prevofs
  fits : s.ofs ≠ s.prevofs → s.ofs + unknownNodeSize ≤ s.sectorEnd p
  data : s.ofs ≠ s.prevofs → le32 p.bytes s.ofs ≠ 0xffffffff
  node : s.ofs ≠ s.prevofs → ValidNode p s.ofs → s.ofs + totlen p.bytes s.ofs ≤ s.sectorEnd p →
    s'.ofs = s.ofs + (totlen p.bytes s.ofs + 3) / 4 * 4 ∧ Listed p [s.ofs] s.lists s'.lists

/-- The header that is looked at is in the buffer. -/
structure Scan.Shown (p : PartInfo) (s : Scan) : Prop where
  window : (s.seen p).Window p
  ofs : (s.seen p).ofs = s.ofs
  prevofs : (s.seen p).prevofs = s.ofs
  i : (s.seen p).i = s.i
  lists : (s.seen p).lists = s.lists
  phase : (s.seen p).phase = s.phase
  header : s.ofs + 12 ≤ (s.seen p).bufOfs + (s.seen p).bufLen
  sum : (s.seen p).bufOfs + (s.seen p).bufLen < 4294967296

@[simp] theorem header_phase (s : Scan) : (s.header p).phase = s.phase := by
  unfold Scan.header; split <;> rfl

theorem Scan.Window.shown (h : s.Window p) (hl : s.Looks p) (hc : s.Clean p) : s.Shown p := by
  have hsum : s.bufOfs + s.bufLen < 4294967296 := by
    by_contra hw
    exact hc.sums (.buffer hl (by omega))
  have hprev : ({ s with prevofs := s.ofs } : Scan).Window p := h.congr rfl rfl rfl rfl rfl
  obtain ⟨hwin, hin, hlt⟩ := hprev.header hl.fits hsum
  exact ⟨hwin, header_ofs _, header_prevofs _, header_i _, header_lists _, header_phase _, hin, hlt⟩

theorem Scan.Shown.bytes (h : s.Shown p) {i : Nat} (hi : i < 12) :
    (s.seen p).buf ((s.seen p).place + i) = p.bytes (s.ofs + i) := by
  have hin := h.header
  rw [← h.ofs] at hin ⊢
  exact h.window.bytes hin hi

theorem Scan.Shown.sectorEnd (h : s.Shown p) : (s.seen p).sectorEnd p = s.sectorEnd p := by
  unfold Scan.sectorEnd
  rw [h.i]

theorem Scan.Shown.skip (h : s.Shown p) (hl : s.Looks p) (hdata : le32 p.bytes s.ofs ≠ 0xffffffff)
    (hno : ¬(ValidNode p s.ofs ∧ s.ofs + totlen p.bytes s.ofs ≤ s.sectorEnd p)) :
    s.After p (s.seen p).skip := by
  have hfits := hl.fits
  have hend := h.window.end_lt
  rw [h.sectorEnd] at hend
  have hofs : (s.seen p).skip.ofs = s.ofs + 4 := by
    change plus (s.seen p).ofs 4 = _
    rw [h.ofs]
    exact plus_eq (by unfold unknownNodeSize at hfits; omega)
  have hlow := h.window.low
  have heven := h.window.even
  have hwin : (s.seen p).skip.Window p := by
    refine ⟨h.window.sector, ?_, ?_, h.window.len, ?_, h.window.covers, h.window.mirror⟩
    · rw [hofs]
      rw [h.ofs] at hlow
      exact hlow.trans (Nat.le_add_right _ _)
    · rw [hofs]
      change (s.ofs + 4 - (s.seen p).bufOfs) % 4 = 0
      rw [h.ofs] at hlow heven
      omega
    · rw [hofs]
      unfold unknownNodeSize at hfits
      omega
  refine ⟨h.phase.trans hl.more, h.i, h.prevofs, hwin, .inl (by omega), fun _ => hfits,
    fun _ => hdata, fun _ hvalid hin => absurd ⟨hvalid, hin⟩ hno⟩

theorem Scan.Passed.after {s' : Scan} (h : s.Shown p) (hl : s.Looks p)
    (hdata : le32 p.bytes s.ofs ≠ 0xffffffff) (hp : (s.seen p).Passed p s')
    (hlist : ValidNode p s.ofs → s.ofs + totlen p.bytes s.ofs ≤ s.sectorEnd p →
      Listed p [s.ofs] s.lists s'.lists) : s.After p s' := by
  have hofs := hp.ofs
  rw [h.ofs] at hofs
  refine ⟨hp.more, hp.i.trans h.i, hp.prevofs.trans h.prevofs, hp.window, ?_, fun _ => hl.fits,
    fun _ => hdata, fun _ hvalid hin => ⟨hofs, hlist hvalid hin⟩⟩
  rcases lt_or_ge s.ofs s'.ofs with hlt | hge
  · exact .inl hlt
  · exact .inr ⟨by omega, hl.fresh⟩

theorem Scan.Shown.totlen (hs : s.Shown p) : totlen (s.seen p).buf (s.seen p).place = totlen p.bytes s.ofs :=
  totlen_congr fun _ hi => hs.bytes hi

theorem Scan.Shown.nodetype (hs : s.Shown p) : nodetype (s.seen p).buf (s.seen p).place = nodetype p.bytes s.ofs :=
  nodetype_congr fun _ hi => hs.bytes hi

theorem Scan.Shown.head (hs : s.Shown p) : (s.seen p).ofs + 12 ≤ (s.seen p).bufOfs + (s.seen p).bufLen := by
  rw [hs.ofs]
  exact hs.header

theorem Scan.Shown.round (hs : s.Shown p) (hc : s.Clean p) (ht : s.Takes p) :
    (s.seen p).ofs + (Jffs2.totlen p.bytes (s.seen p).ofs + 3) < 4294967296 := by
  rw [hs.ofs]
  by_contra hw
  refine hc.sums (.round ht ?_)
  rw [hs.totlen]
  omega

theorem Scan.Shown.refill (hs : s.Shown p) {n : Nat} (hover : ¬s.RunsOver p n) :
    (s.seen p).bufOfs + (s.seen p).bufLen < (s.seen p).ofs + n →
      p.offset + (s.seen p).ofs + (s.seen p).bufLen ≤ p.dev.size := by
  rw [hs.ofs]
  intro hshort
  by_contra hout
  exact hover ⟨hshort, not_le.mp hout⟩

theorem Scan.Shown.inode (hs : s.Shown p) (hc : s.Clean p) (hdata : le32 p.bytes s.ofs ≠ 0xffffffff)
    (ht : s.TakesInode p) : ∃ s', (s.seen p).inode g p (s.seen p).place = some s' ∧ s.After p s' := by
  have htype := hs.nodetype.symm.trans ht.2
  have hneed : (s.seen p).ofs + rawInodeSize < 4294967296 := by
    rw [hs.ofs]
    by_contra hw
    exact hc.sums (.inode ht (by omega))
  obtain ⟨s', hs', hpassed, hlist⟩ := hs.window.inode (hs.ofs ▸ htype) hs.head hs.sum hneed (hs.round hc ht.1)
    (hs.refill (hc.inode ht))
  refine ⟨s', hs', Scan.Passed.after hs ht.1.toLooks hdata hpassed fun hvalid hfit => ?_⟩
  have hsize := hvalid.inode htype
  rw [hs.ofs, hs.sectorEnd, hs.lists] at hlist
  exact hlist (by omega)

theorem Scan.Shown.dirent (hs : s.Shown p) (hc : s.Clean p) (hdata : le32 p.bytes s.ofs ≠ 0xffffffff)
    (ht : s.TakesDirent p) : ∃ s', (s.seen p).dirent g p (s.seen p).place = some s' ∧ s.After p s' := by
  have htype := hs.nodetype.symm.trans ht.2
  have hclip : (s.seen p).place + 29 ≤ defaultEmptyScanSize := by
    by_contra hw
    exact hc.nsize ⟨ht, by omega⟩
  have hneed : (s.seen p).ofs + (rawDirentSize + (rawDirent (s.seen p).buf (s.seen p).place).nsize) < 4294967296 := by
    rw [hs.ofs]
    by_contra hw
    exact hc.sums (.dirent ht (by unfold Scan.direntLength; omega))
  obtain ⟨s', hs', hpassed, hlist⟩ := hs.window.dirent (hs.ofs ▸ htype) hclip hs.head hs.sum hneed
    (hs.round hc ht.1) (hs.refill (hc.dirent ht))
  refine ⟨s', hs', Scan.Passed.after hs ht.1.toLooks hdata hpassed fun hvalid hfit => ?_⟩
  have hsize := hvalid.dirent htype
  rw [hs.ofs, hs.sectorEnd, hs.lists] at hlist
  exact hlist (by omega)

theorem Scan.Shown.other (hs : s.Shown p) (hc : s.Clean p) (hdata : le32 p.bytes s.ofs ≠ 0xffffffff)
    (ht : s.Takes p) (hinode : Jffs2.nodetype p.bytes s.ofs ≠ nodetypeInode)
    (hdirent : Jffs2.nodetype p.bytes s.ofs ≠ nodetypeDirent) : s.After p ((s.seen p).pass (s.seen p).place) := by
  have hpassed := hs.window.passed hs.head (hs.round hc ht)
  refine Scan.Passed.after hs ht.toLooks hdata hpassed fun _ _ => ?_
  change Listed p [s.ofs] s.lists (s.seen p).lists
  rw [hs.lists]
  exact Listed.none (isFrag_of_ne hinode) (isDir_of_ne hdirent) _

theorem Scan.Window.node (h : s.Window p) (hl : s.Looks p) (hc : s.Clean p)
    (hdata : le32 p.bytes s.ofs ≠ 0xffffffff) :
    ∃ s', (s.seen p).node g p (s.seen p).place = some s' ∧ s.After p s' := by
  have hs := h.shown hl hc
  have hmagic : magic (s.seen p).buf (s.seen p).place = magic p.bytes s.ofs :=
    magic_congr fun i hi => hs.bytes hi
  have hcrc : hdrCrc (s.seen p).buf (s.seen p).place = hdrCrc p.bytes s.ofs :=
    hdrCrc_congr fun i hi => hs.bytes hi
  have hlen := hs.totlen
  unfold Scan.node
  split
  next hbad =>
    exact ⟨_, rfl, hs.skip hl hdata fun hv => hbad (hmagic.trans hv.1.magic)⟩
  next hgood =>
    have hplace := hs.window.place
    have hbuf := hs.window.len
    have hlow := hs.window.low
    have hhead := hs.header
    rw [hs.ofs] at hplace hlow
    rw [if_neg (by unfold unknownNodeSize; omega)]
    split
    next hbad =>
      refine ⟨_, rfl, hs.skip hl hdata fun hv => ?_⟩
      rw [hcrc, hv.1.hdrCrc] at hbad
      cases hbad
    next hok =>
      have hacc : s.Accepts p := ⟨hl, not_not.mp hgood, Bool.not_eq_false _ |>.mp hok⟩
      have hsum : s.ofs + totlen p.bytes s.ofs < 4294967296 := by
        by_contra hw
        refine hc.sums (.totlen hacc ?_)
        rw [hlen]
        omega
      rw [hs.sectorEnd, hs.ofs, hlen, plus_eq hsum]
      split
      next hout => exact ⟨_, rfl, hs.skip hl hdata fun hv => by omega⟩
      next hin =>
        have htakes : s.Takes p := ⟨hacc, by rw [hlen]; omega⟩
        split
        next hinode => exact hs.inode hc hdata ⟨htakes, hinode⟩
        next hother =>
          split
          next hdirent => exact hs.dirent hc hdata ⟨htakes, hdirent⟩
          next hnone =>
            rw [hs.nodetype] at hother hnone
            exact ⟨_, rfl, hs.other hc hdata htakes hother hnone⟩

variable (g : ListSetup) (p : PartInfo) {s' : Scan}

/-- A round has ended the sector. -/
structure Scan.Leaves (s s' : Scan) : Prop where
  phase : s'.phase = .sector
  i : s'.i = s.i + 1
  lists : s'.lists = s.lists

/-- A round goes on in a gap. -/
structure Scan.InGap (s s' : Scan) : Prop where
  phase : ∃ e, s'.phase = .empty e ∧ e ≤ s'.bufLen
  i : s'.i = s.i
  window : s'.Window p
  lists : s'.lists = s.lists
  prevofs : s'.prevofs < s'.ofs

variable {g p}

theorem Scan.Window.skip (h : s.Window p) (hw : s.ofs + 4 < 4294967296) :
    s.skip.Window p ∧ s.skip.ofs = s.ofs + 4 := by
  have hofs : s.skip.ofs = s.ofs + 4 := plus_eq hw
  have hlow := h.low
  have heven := h.even
  refine ⟨⟨h.sector, ?_, ?_, h.len, by omega, h.covers, h.mirror⟩, hofs⟩
  · rw [hofs]
    exact hlow.trans (Nat.le_add_right _ _)
  · rw [hofs]
    change (s.ofs + 4 - s.bufOfs) % 4 = 0
    omega

theorem Scan.Window.word (h : s.Window p) (hin : s.place < s.bufLen) : s.place + 4 ≤ defaultEmptyScanSize ∧
      (s.ofs + 4 ≤ s.sectorEnd p → le32 s.buf s.place = le32 p.bytes s.ofs) := by
  have hplace := h.place
  have heven := h.even
  have hlen := h.len
  have hfull : defaultEmptyScanSize = 4096 := rfl
  refine ⟨by omega, fun hend => ?_⟩
  have hall : s.ofs + 4 ≤ s.bufOfs + s.bufLen := by
    rcases h.covers with hbuf | hcov
    · omega
    · omega
  exact le32_congr fun i hi => h.bytes hall hi

end UBoot.Jffs2
