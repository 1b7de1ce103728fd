import UBoot.Jffs2Scan

namespace UBoot.Jffs2

open FlashCells List Loops Words

variable (g : ListSetup) (p : PartInfo) {s : Scan}

/-- The buffer holds the bytes from `bufOfs` on, and it is full or reaches to the end of the sector. -/
structure Scan.Window (s : Scan) : Prop where
  sector : s.i < nrSectors p
  low : s.bufOfs ≤ s.ofs
  even : (s.ofs - s.bufOfs) % 4 = 0
  len : s.bufLen ≤ defaultEmptyScanSize
  ofs_lt : s.ofs < 4294967296
  covers : s.bufLen = defaultEmptyScanSize ∨ s.sectorEnd p ≤ s.bufOfs + s.bufLen
  mirror : ∀ i, i < s.bufLen → s.buf i = p.bytes (s.bufOfs + i)

variable {g p}

theorem sectorEnd_le {i : Nat} (h : i < nrSectors p) : i * p.sectorSize + p.sectorSize ≤ p.size := by
  have hle : (i + 1) * p.sectorSize ≤ p.size := (Nat.mul_le_mul_right _ h).trans (Nat.div_mul_le_self _ _)
  rwa [add_mul, one_mul] at hle

theorem Scan.Window.end_le (h : s.Window p) : s.sectorEnd p ≤ p.size := sectorEnd_le h.sector

theorem plus_eq {a b : Nat} (h : a + b < 4294967296) : plus a b = a + b := Nat.mod_eq_of_lt h

theorem minus_eq {a b : Nat} (h : b ≤ a) (ha : a < 4294967296) : minus a b = a - b := by
  unfold minus
  omega

theorem Scan.Window.place (h : s.Window p) : s.place = s.ofs - s.bufOfs := minus_eq h.low h.ofs_lt

theorem Scan.Window.end_lt (h : s.Window p) : s.sectorEnd p < 4294967296 := by
  have hend := h.end_le
  have hin := p.inside
  have hsize := p.dev.size_lt
  omega

theorem refill_window {len : Nat} (hsector : s.i < nrSectors p) (hofs : s.ofs < 4294967296)
    (hlen : len ≤ defaultEmptyScanSize) (hread : p.offset + s.ofs + len ≤ p.dev.size)
    (hcovers : len = defaultEmptyScanSize ∨ s.sectorEnd p ≤ s.ofs + len) :
    (s.refill p len).Window p where
  sector := hsector
  low := le_rfl
  even := by
    change (s.ofs - s.ofs) % 4 = 0
    omega
  len := hlen
  ofs_lt := hofs
  covers := hcovers
  mirror := by
    intro i hi
    have hlt := p.dev.size_lt
    have hsum : plus p.offset s.ofs = p.offset + s.ofs := plus_eq (by omega)
    change p.dev.getFlMem (plus p.offset s.ofs) len s.buf i = _
    have hat : Jffs2.getFlMem p.dev.data (p.offset + s.ofs) len s.buf i =
        p.dev.data (p.offset + s.ofs + i) := getFlMem_at hi
    unfold Device.getFlMem
    rw [hsum, if_pos hread, hat, add_assoc]
    rfl

theorem left_eq (hofs : s.ofs ≤ s.sectorEnd p) (hend : s.sectorEnd p < 4294967296) :
    s.left p = min defaultEmptyScanSize (s.sectorEnd p - s.ofs) := by
  unfold Scan.left
  rw [minus_eq hofs hend]

theorem Scan.Window.refill_left (h : s.Window p) (hofs : s.ofs ≤ s.sectorEnd p) :
    (s.refill p (s.left p)).Window p := by
  have hend := h.end_le
  have hin := p.inside
  have hleft := left_eq hofs h.end_lt
  apply refill_window h.sector h.ofs_lt
  · rw [hleft]
    exact Nat.min_le_left _ _
  · rw [hleft]
    omega
  · rw [hleft]
    omega

@[simp] theorem header_ofs (s : Scan) : (s.header p).ofs = s.ofs := by unfold Scan.header; split <;> rfl
@[simp] theorem header_prevofs (s : Scan) : (s.header p).prevofs = s.prevofs := by
  unfold Scan.header; split <;> rfl
@[simp] theorem header_i (s : Scan) : (s.header p).i = s.i := by unfold Scan.header; split <;> rfl
@[simp] theorem header_lists (s : Scan) : (s.header p).lists = s.lists := by
  unfold Scan.header; split <;> rfl
theorem Scan.Window.header (h : s.Window p) (hfits : s.ofs + unknownNodeSize ≤ s.sectorEnd p)
    (hsum : s.bufOfs + s.bufLen < 4294967296) :
    (s.header p).Window p ∧ s.ofs + unknownNodeSize ≤ (s.header p).bufOfs + (s.header p).bufLen ∧
      (s.header p).bufOfs + (s.header p).bufLen < 4294967296 := by
  have hend := h.end_lt
  have hin : plus s.bufOfs s.bufLen = s.bufOfs + s.bufLen := plus_eq hsum
  have hneed : plus s.ofs unknownNodeSize = s.ofs + unknownNodeSize := plus_eq (by omega)
  unfold Scan.header
  rw [hin, hneed]
  split
  · have hleft := left_eq (p := p) (s := s) (by omega) hend
    refine ⟨h.refill_left (by omega), ?_, ?_⟩
    · change s.ofs + unknownNodeSize ≤ s.ofs + s.left p
      rw [hleft]
      unfold unknownNodeSize defaultEmptyScanSize at *
      omega
    · change s.ofs + s.left p < 4294967296
      rw [hleft]
      omega
  next hno => exact ⟨h, by omega, hsum⟩

theorem Scan.Window.bytes (h : s.Window p) {n : Nat} (hn : s.ofs + n ≤ s.bufOfs + s.bufLen) {i : Nat}
    (hi : i < n) : s.buf (s.place + i) = p.bytes (s.ofs + i) := by
  have hlow := h.low
  rw [h.place, h.mirror _ (by omega)]
  congr 1
  omega

theorem Scan.Window.cover (h : s.Window p) {len : Nat} (hlen : len ≤ defaultEmptyScanSize)
    (hin : s.bufOfs + s.bufLen < 4294967296) (hneed : s.ofs + len < 4294967296)
    (hread : s.bufOfs + s.bufLen < s.ofs + len → p.offset + s.ofs + s.bufLen ≤ p.dev.size) :
    ∃ r, s.cover p s.place len = (r, r.place) ∧ r.Window p ∧ r.ofs = s.ofs ∧ r.i = s.i ∧
      r.prevofs = s.prevofs ∧ r.lists = s.lists ∧ r.place + len ≤ defaultEmptyScanSize ∧
      (r = s ∨ r.place = 0) ∧
      (∀ n, s.ofs + n ≤ s.bufOfs + s.bufLen → s.ofs + n ≤ r.bufOfs + r.bufLen) ∧
      (s.ofs + len ≤ s.sectorEnd p → s.ofs + len ≤ r.bufOfs + r.bufLen) := by
  have hplace := h.place
  have hbuf := h.len
  have hlow := h.low
  unfold Scan.cover
  rw [plus_eq hin, plus_eq hneed]
  split
  next hout =>
    have hcovers : s.bufLen = defaultEmptyScanSize ∨ s.sectorEnd p ≤ s.ofs + s.bufLen := by
      rcases h.covers with hfull | hend
      · exact .inl hfull
      · exact .inr (by omega)
    have hw : (s.refill p s.bufLen).Window p := refill_window h.sector h.ofs_lt h.len (hread hout) hcovers
    have hzero : (s.refill p s.bufLen).place = 0 := by
      rw [hw.place]
      exact Nat.sub_self s.ofs
    refine ⟨s.refill p s.bufLen, by rw [hzero], hw, rfl, rfl, rfl, rfl, by omega, .inr hzero, ?_, ?_⟩
    · intro n hn
      change s.ofs + n ≤ s.ofs + s.bufLen
      omega
    · intro hend
      change s.ofs + len ≤ s.ofs + s.bufLen
      rcases h.covers with hfull | hcov <;> omega
  next hin =>
    exact ⟨s, rfl, h, rfl, rfl, rfl, rfl, by omega, .inl rfl, fun _ hn => hn, fun _ => by omega⟩

/-- The lists have taken the nodes among `nodes` whose crcs are right. -/
def Listed (p : PartInfo) (nodes : List Nat) (l l' : BLists) : Prop :=
  (l'.frag.nodes.map BNode.offset).Perm
      ((nodes.filter (isFrag p)).map (p.offset + ·) ++ l.frag.nodes.map BNode.offset) ∧
    (l'.dir.nodes.map BNode.offset).Perm
      ((nodes.filter (isDir p)).map (p.offset + ·) ++ l.dir.nodes.map BNode.offset)

theorem Listed.nil (l : BLists) : Listed p [] l l := ⟨List.Perm.refl _, List.Perm.refl _⟩

theorem Listed.none {a : Nat} (hfrag : isFrag p a = false) (hdir : isDir p a = false) (l : BLists) :
    Listed p [a] l l := by
  unfold Listed
  rw [filter_cons_of_neg (by simp [hfrag]), filter_cons_of_neg (by simp [hdir])]
  exact Listed.nil l

theorem Listed.append {as bs : List Nat} {l l' l'' : BLists} (h : Listed p as l l')
    (h' : Listed p bs l' l'') : Listed p (as ++ bs) l l'' := by
  unfold Listed at *
  rw [filter_append, map_append, filter_append, map_append]
  constructor
  · refine h'.1.trans ((List.Perm.append_left _ h.1).trans ?_)
    rw [← append_assoc]
    exact List.Perm.append_right _ perm_append_comm
  · refine h'.2.trans ((List.Perm.append_left _ h.2).trans ?_)
    rw [← append_assoc]
    exact List.Perm.append_right _ perm_append_comm

/-- A round has gone over the node at the place of the scan. -/
structure Scan.Passed (p : PartInfo) (s s' : Scan) : Prop where
  more : s'.phase = .more
  i : s'.i = s.i
  prevofs : s'.prevofs = s.prevofs
  window : s'.Window p
  ofs : s'.ofs = s.ofs + (totlen p.bytes s.ofs + 3) / 4 * 4

theorem Scan.Window.passed (h : s.Window p) (hhead : s.ofs + 12 ≤ s.bufOfs + s.bufLen)
    (hw : s.ofs + (totlen p.bytes s.ofs + 3) < 4294967296) : s.Passed p (s.pass s.place) := by
  have hlen : totlen s.buf s.place = totlen p.bytes s.ofs := totlen_congr fun i hi => h.bytes hhead hi
  have hofs : (s.pass s.place).ofs = s.ofs + (totlen p.bytes s.ofs + 3) / 4 * 4 := by
    change plus s.ofs (plus (totlen s.buf s.place) 3 / 4 * 4) = _
    have hround : plus (totlen p.bytes s.ofs) 3 = totlen p.bytes s.ofs + 3 := plus_eq (by omega)
    rw [hlen, hround, plus_eq (by omega)]
  have hlow := h.low
  have heven := h.even
  refine ⟨rfl, rfl, rfl, ⟨h.sector, ?_, ?_, h.len, ?_, h.covers, h.mirror⟩, hofs⟩
  · rw [hofs]
    exact h.low.trans (Nat.le_add_right _ _)
  · rw [hofs]
    change (_ - s.bufOfs) % 4 = 0
    omega
  · rw [hofs]
    omega

theorem Scan.Window.congr {r : Scan} (h : s.Window p) (hi : r.i = s.i) (hofs : r.ofs = s.ofs)
    (hbufOfs : r.bufOfs = s.bufOfs) (hbufLen : r.bufLen = s.bufLen) (hbuf : r.buf = s.buf) :
    r.Window p := by
  have hend : r.sectorEnd p = s.sectorEnd p := by
    unfold Scan.sectorEnd
    rw [hi]
  obtain ⟨hsector, hlow, heven, hlen, hlt, hcovers, hmirror⟩ := h
  refine ⟨?_, ?_, ?_, ?_, ?_, ?_, ?_⟩ <;> simp only [hi, hofs, hbufOfs, hbufLen, hbuf, hend] <;>
    assumption

theorem isFrag_of_ne {a : Nat} (h : nodetype p.bytes a ≠ nodetypeInode) : isFrag p a = false := by
  unfold isFrag
  rw [decide_eq_false h, Bool.false_and]

theorem isDir_of_ne {a : Nat} (h : nodetype p.bytes a ≠ nodetypeDirent) : isDir p a = false := by
  unfold isDir
  rw [decide_eq_false h, Bool.false_and]

theorem Scan.Window.offset (h : s.Window p) (hofs : s.ofs ≤ s.sectorEnd p) :
    plus p.offset s.ofs = p.offset + s.ofs := by
  have hend := h.end_le
  have hin := p.inside
  have hsize := p.dev.size_lt
  exact plus_eq (by omega)

theorem Scan.Window.addFrag (h : s.Window p) (hofs : s.ofs ≤ s.sectorEnd p) (hfrag : isFrag p s.ofs = true)
    (hdir : isDir p s.ofs = false) (o : Nat) : Listed p [s.ofs] s.lists (s.addFrag g p o).lists := by
  constructor
  · have hperm := (insertNode_perm g.fragCompare s.lists.frag
      ⟨plus p.offset s.ofs, g.heap s.ofs⟩).map BNode.offset
    rw [filter_cons_of_pos hfrag, filter_nil, map_cons, map_nil, ← h.offset hofs]
    exact hperm
  · rw [filter_cons_of_neg (by simp [hdir]), filter_nil, map_nil, nil_append]
    exact List.Perm.refl _

theorem Scan.Window.addDir (h : s.Window p) (hofs : s.ofs ≤ s.sectorEnd p) (hfrag : isFrag p s.ofs = false)
    (hdir : isDir p s.ofs = true) (o : Nat) : Listed p [s.ofs] s.lists (s.addDir g p o).lists := by
  constructor
  · rw [filter_cons_of_neg (by simp [hfrag]), filter_nil, map_nil, nil_append]
    exact List.Perm.refl _
  · have hperm := (insertNode_perm g.dirCompare s.lists.dir
      ⟨plus p.offset s.ofs, g.heap s.ofs⟩).map BNode.offset
    rw [filter_cons_of_pos hdir, filter_nil, map_cons, map_nil, ← h.offset hofs]
    exact hperm

theorem isDir_of_inode {a : Nat} (h : nodetype p.bytes a = nodetypeInode) : isDir p a = false :=
  isDir_of_ne (by rw [h]; decide)

theorem isFrag_of_dirent {a : Nat} (h : nodetype p.bytes a = nodetypeDirent) : isFrag p a = false :=
  isFrag_of_ne (by rw [h]; decide)

theorem Scan.Window.inode (h : s.Window p) (htype : nodetype p.bytes s.ofs = nodetypeInode)
    (hhead : s.ofs + 12 ≤ s.bufOfs + s.bufLen) (hin : s.bufOfs + s.bufLen < 4294967296)
    (hneed : s.ofs + rawInodeSize < 4294967296)
    (hw : s.ofs + (totlen p.bytes s.ofs + 3) < 4294967296)
    (hread : s.bufOfs + s.bufLen < s.ofs + rawInodeSize → p.offset + s.ofs + s.bufLen ≤ p.dev.size) :
    ∃ s', s.inode g p s.place = some s' ∧ s.Passed p s' ∧
      (s.ofs + rawInodeSize ≤ s.sectorEnd p → Listed p [s.ofs] s.lists s'.lists) := by
  obtain ⟨r, hr, hwin, hofs, hi, hprev, hlists, hplace, -, hkept, hfits⟩ :=
    h.cover (by decide) hin hneed hread
  have hpassed : s.Passed p (r.pass r.place) := by
    have hrest := hkept 12 hhead
    rw [← hofs] at hrest hw
    obtain ⟨hmore, hi', hprev', hwin', hofs'⟩ := hwin.passed hrest hw
    exact ⟨hmore, hi'.trans hi, hprev'.trans hprev, hwin', by rw [hofs', hofs]⟩
  have hcrc : s.ofs + rawInodeSize ≤ s.sectorEnd p → inodeCrc r.buf r.place = inodeCrc p.bytes s.ofs := by
    intro hend
    have hbytes := hfits hend
    rw [← hofs] at hbytes ⊢
    exact inodeCrc_congr fun i hi => hwin.bytes hbytes hi
  unfold Scan.inode
  rw [hr, if_neg (by dsimp only; omega)]
  split
  next hbad =>
    refine ⟨_, rfl, hpassed, fun hend => ?_⟩
    have hfrag : isFrag p s.ofs = false := by
      unfold isFrag
      rw [← hcrc hend, hbad, Bool.and_false]
    change Listed p [s.ofs] s.lists r.lists
    rw [hlists]
    exact Listed.none hfrag (isDir_of_inode htype) _
  next hgood =>
    have hadd : (r.addFrag g p r.place).pass r.place =
        { r.pass r.place with lists := (r.addFrag g p r.place).lists } := rfl
    refine ⟨_, rfl, ⟨rfl, hpassed.i, hpassed.prevofs, ?_, hpassed.ofs⟩, fun hend => ?_⟩
    · rw [hadd]
      exact hpassed.window.congr rfl rfl rfl rfl rfl
    · have hfrag : isFrag p s.ofs = true := by
        unfold isFrag
        rw [← hcrc hend, Bool.not_eq_false _ |>.mp hgood, htype]
        rfl
      have hsector : r.sectorEnd p = s.sectorEnd p := by
        unfold Scan.sectorEnd
        rw [hi]
      have hdir := isDir_of_inode htype
      rw [← hofs] at hfrag hdir
      have hlisted := hwin.addFrag (g := g) (by omega) hfrag hdir r.place
      rw [hofs, hlists] at hlisted
      exact hlisted

end UBoot.Jffs2
