import UBoot.NandChip
import UBoot.NandOob

namespace UBoot

open FlashCells List

/-- `memcpy` within one memory, from the first byte on. -/
def memcpyUp (m : Flash) (dst src : Nat) : Nat → Flash
  | 0 => m
  | n + 1 => store (memcpyUp m dst src n) (dst + n) [memcpyUp m dst src n (src + n)]

variable (c : NandChip)

/-- The loop over the pages of a buffer at `p`: the spare bytes of each are put aside, and its data is moved to
the front. -/
def splitPages (p : Nat) : Nat → Flash → Flash × List UInt8
  | 0, m => (m, [])
  | i + 1, m =>
    match splitPages p i m with
    | (m, oob) =>
      let src := p + (c.writesize + c.oobsize) * i
      (memcpyUp m (p + i * c.writesize) src c.writesize, oob ++ read m (src + c.writesize) c.oobsize)

def gatherPages (p pages : Nat) (m : Flash) : Flash :=
  match splitPages c p pages m with
  | (m, oob) => store m (p + pages * c.writesize) oob

/-- A page that is programmed: by which function, with what data and with what spare bytes. -/
structure PageProgram where
  access : PageAccess
  data : List UInt8
  spare : List UInt8
deriving DecidableEq

/-- What `nand_write` finds and leaves: `chip->ops`, the bytes at `chip->oob_poi`, the memory from the image on, and
the pages that have been programmed. -/
structure ImageState where
  ops : MtdOobOps
  oobPoi : Flash
  buffer : Flash
  programmed : List PageProgram

/-- A device as `nand_write_skip_bad` sees it and as its chip. -/
structure ImageDevice where
  n : NandInfo
  c : NandChip
  layout : NandEcclayout
  size : n.size = c.size
  writesize : n.writesize = c.writesize
  oobsize : n.oobsize = c.oobsize

/-- The loop of `nand_do_write_ops` in raw mode with spare bytes, for which it takes whole pages only. -/
def programOpsFuel (layout : NandEcclayout) (answers : ChipAnswers) (ops : MtdOobOps) :
    Nat → Nat → Nat → List UInt8 → List UInt8 → Flash → Int × Nat × List PageProgram × Flash
  | 0, _, writelen, _, _, oobPoi => (0, writelen, [], oobPoi)
  | fuel + 1, realpage, writelen, buf, oob, oobPoi =>
    let oobPoi := nandFillOob layout oob ops oobPoi
    let programmed : PageProgram := ⟨⟨.writePageRaw, realpage⟩, buf.take c.writesize, read oobPoi 0 c.oobsize⟩
    let ret := answers.page realpage
    if ret ≠ 0 then (ret, writelen, [programmed], oobPoi)
    else if writelen - c.writesize = 0 then (0, 0, [programmed], oobPoi)
    else
      match programOpsFuel layout answers ops fuel (realpage + 1) (writelen - c.writesize) (buf.drop c.writesize)
          (oob.drop ops.ooblen) oobPoi with
      | (ret, left, pages, oobPoi) => (ret, left, programmed :: pages, oobPoi)

/-- `nand_do_write_ops`: its return code, `retlen` and what it leaves. -/
def programOps (layout : NandEcclayout) (answers : ChipAnswers) (ofs len : Nat) (buf oob : List UInt8)
    (s : ImageState) : (Int × Nat) × ImageState :=
  if ofs % c.subpagesize ≠ 0 ∨ len % c.subpagesize ≠ 0 then ((-EINVAL, 0), s)
  else if ofs % c.writesize ≠ 0 ∨ len % c.writesize ≠ 0 then ((-EINVAL, 0), s)
  else if answers.writeProtected then ((- EIO, 0), s)
  else
    match programOpsFuel c layout answers s.ops len (ofs / c.writesize) len buf oob s.oobPoi with
    | (ret, left, pages, oobPoi) =>
      ((ret, len - left), { s with oobPoi := oobPoi, programmed := s.programmed ++ pages })

/-- `nand_write` of a device with `rw_oob` set. The answers of the chip may depend on what it has programmed. -/
def nandWriteImage (d : ImageDevice) (answers : List PageProgram → ChipAnswers) : NandWrite ImageState :=
  fun ofs len p s =>
    let pages := len / d.c.writesize
    let buffer := gatherPages d.c p pages s.buffer
    if d.c.size < ofs + len then ((-EINVAL, len), { s with buffer := buffer })
    else if len = 0 then ((0, len), { s with buffer := buffer })
    else
      let buf := read buffer p len
      let oob := read buffer (p + len) (pages * d.c.oobsize)
      -- `ooboffs` stays as the last user of `chip->ops` has set it
      let ops := { s.ops with datbuf := some buf, oobbuf := some oob, ooblen := d.c.oobsize, mode := .raw }
      programOps d.c d.layout (answers s.programmed) ofs len buf oob { s with ops := ops, buffer := buffer }

/-- `nand_do_write_oob`, as far as `chip->oob_poi` goes. -/
def nandDoWriteOobPoi (ofs : Nat) (answers : ChipAnswers) (s : ImageState) : Int × ImageState :=
  let len := if s.ops.mode = .auto then c.oobavail else c.oobsize
  if len < s.ops.ooboffs + s.ops.ooblen then (-EINVAL, s)
  else if len ≤ s.ops.ooboffs then (-EINVAL, s)
  else if c.size ≤ ofs ∨
      (c.size / c.writesize - ofs / c.writesize) * len < s.ops.ooboffs + s.ops.ooblen then (-EINVAL, s)
  else if answers.writeProtected then (-EROFS, s)
  else
    (if answers.writeOobFails ofs then - EIO else 0,
      { s with oobPoi := patch s.oobPoi 0 c.oobsize fun _ => 0xff })

def badblockpos : Nat := if 512 < c.writesize then 0 else 5

/-- `nand_default_block_markbad` of a chip without a table of bad blocks in the flash. -/
def nandDefaultBlockMarkbad (ofs : Nat) (answers : ChipAnswers) (s : ImageState) : Int × ImageState :=
  let ops := { s.ops with
    ooblen := 2
    datbuf := none
    oobbuf := some [0, 0]
    ooboffs := badblockpos c / 2 * 2 }
  nandDoWriteOobPoi c (ofs + c.oobsize) answers { s with ops := ops }

variable {c} {m : Flash} {dst src p n : Nat}

theorem memcpyUp_eq (h : dst ≤ src) : memcpyUp m dst src n = store m dst (read m src n) := by
  induction n with
  | zero =>
    funext x
    exact (store_outside (by simp; omega)).symm
  | succ n ih =>
    have hread : store m dst (read m src n) (src + n) = m (src + n) :=
      store_outside (by rw [read_length]; omega)
    have hlast : read m src (n + 1) = read m src n ++ [m (src + n)] := by
      rw [read_append]
      rfl
    rw [memcpyUp, ih, hread, hlast, store_append, read_length]

variable (c) in
/-- The bytes that the pages of a buffer at `p` have as data, and as spare bytes. -/
def pagesData (m : Flash) (p pages : Nat) : List UInt8 :=
  (List.range pages).flatMap fun i => read m (p + (c.writesize + c.oobsize) * i) c.writesize

variable (c) in
def pagesSpare (m : Flash) (p pages : Nat) : List UInt8 :=
  (List.range pages).flatMap fun i => read m (p + (c.writesize + c.oobsize) * i + c.writesize) c.oobsize

theorem pagesData_length (pages : Nat) : (pagesData c m p pages).length = pages * c.writesize := by
  simp [pagesData, length_flatMap]

theorem pagesSpare_length (pages : Nat) : (pagesSpare c m p pages).length = pages * c.oobsize := by
  simp [pagesSpare, length_flatMap]

theorem splitPages_eq (pages : Nat) :
    splitPages c p pages m = (store m p (pagesData c m p pages), pagesSpare c m p pages) := by
  induction pages with
  | zero =>
    refine Prod.ext ?_ rfl
    funext x
    exact (store_outside (by simp [pagesData]; omega)).symm
  | succ i ih =>
    have hbehind : p + i * c.writesize ≤ p + (c.writesize + c.oobsize) * i := by
      rw [Nat.add_mul, mul_comm i]
      omega
    have hlen := pagesData_length (c := c) (m := m) (p := p) i
    have hread : ∀ a k, p + (c.writesize + c.oobsize) * i ≤ a →
        read (store m p (pagesData c m p i)) a k = read m a k :=
      fun a k ha => read_store_outside (by omega)
    have hdata : pagesData c m p (i + 1) =
        pagesData c m p i ++ read m (p + (c.writesize + c.oobsize) * i) c.writesize := by
      rw [pagesData, range_succ, flatMap_append, flatMap_singleton]
      rfl
    have hspare : pagesSpare c m p (i + 1) =
        pagesSpare c m p i ++ read m (p + (c.writesize + c.oobsize) * i + c.writesize) c.oobsize := by
      rw [pagesSpare, range_succ, flatMap_append, flatMap_singleton]
      rfl
    rw [splitPages, ih]
    dsimp only
    rw [memcpyUp_eq hbehind, hread _ _ le_rfl, hread _ _ (Nat.le_add_right _ _), hdata, hspare, store_append,
      hlen]

theorem gatherPages_eq (pages : Nat) :
    gatherPages c p pages m = store m p (pagesData c m p pages ++ pagesSpare c m p pages) := by
  rw [gatherPages, splitPages_eq, store_append, pagesData_length]

theorem gatherPages_data (pages : Nat) :
    read (gatherPages c p pages m) p (pages * c.writesize) = pagesData c m p pages := by
  have hboth := read_store m p (pagesData c m p pages ++ pagesSpare c m p pages)
  rw [gatherPages_eq, ← pagesData_length (m := m) (p := p) pages]
  exact (read_eq_append.mp hboth).1

theorem gatherPages_spare (pages : Nat) :
    read (gatherPages c p pages m) (p + pages * c.writesize) (pages * c.oobsize) = pagesSpare c m p pages := by
  have hboth := read_store m p (pagesData c m p pages ++ pagesSpare c m p pages)
  rw [gatherPages_eq, ← pagesData_length (m := m) (p := p) pages, ← pagesSpare_length (m := m) (p := p) pages]
  exact (read_eq_append.mp hboth).2

theorem gatherPages_rest {pages a k : Nat} (ha : p + pages * (c.writesize + c.oobsize) ≤ a) :
    read (gatherPages c p pages m) a k = read m a k := by
  rw [gatherPages_eq]
  refine read_store_outside (.inr ?_)
  rw [length_append, pagesData_length, pagesSpare_length]
  rw [Nat.mul_add] at ha
  omega

theorem yaffsData_read (pages : Nat) :
    yaffsData c pages (read m p (pages * (c.writesize + c.oobsize))) = pagesData c m p pages ∧
      yaffsOob c pages (read m p (pages * (c.writesize + c.oobsize))) = pagesSpare c m p pages := by
  have hfit : ∀ i ∈ List.range pages, (c.writesize + c.oobsize) * i + (c.writesize + c.oobsize) ≤
      pages * (c.writesize + c.oobsize) := by
    intro i hi
    rw [← Nat.mul_succ, mul_comm pages]
    exact Nat.mul_le_mul_left _ (mem_range.mp hi)
  constructor
  · refine flatMap_congr fun i hi => ?_
    have := hfit i hi
    exact take_drop_read m (by omega)
  · refine flatMap_congr fun i hi => ?_
    have := hfit i hi
    rw [take_drop_read m (by omega), add_assoc p]

theorem programOpsFuel_access {layout : NandEcclayout} {answers : ChipAnswers} {ops : MtdOobOps} {buf oob : List UInt8}
    {oobPoi : Flash} {pagebuf : Option Nat} {fuel page len : Nat} (hlen : c.writesize ∣ len) (hpos : 0 < len) :
    ∃ ret left pages poi, programOpsFuel c layout answers ops fuel page len buf oob oobPoi = (ret, left, pages, poi) ∧
      writeOpsFuel c answers .raw fuel page 0 len pagebuf = (ret, left, pages.map PageProgram.access, pagebuf) := by
  induction fuel generalizing page len buf oob oobPoi with
  | zero => exact ⟨_, _, _, _, rfl, rfl⟩
  | succ fuel ih =>
    have hle := Nat.le_of_dvd hpos hlen
    have hwhole : ¬(0 ≠ 0 ∨ len < c.writesize - 1) := by omega
    rw [programOpsFuel, writeOpsFuel]
    simp only [if_neg hwhole]
    split
    · exact ⟨_, _, _, _, rfl, rfl⟩
    · split
      · exact ⟨_, _, _, _, rfl, rfl⟩
      next hmore =>
        obtain ⟨ret, left, pages, poi, hprogram, hwrite⟩ : ∃ ret left pages poi,
            programOpsFuel c layout answers ops fuel (page + 1) (len - c.writesize) (buf.drop c.writesize)
              (oob.drop ops.ooblen) (nandFillOob layout oob ops oobPoi) = (ret, left, pages, poi) ∧
            writeOpsFuel c answers .raw fuel (page + 1) 0 (len - c.writesize) pagebuf =
              (ret, left, pages.map PageProgram.access, pagebuf) :=
          ih (Nat.dvd_sub hlen (Nat.dvd_refl _)) (pos_of_ne_zero hmore)
        rw [hprogram, hwrite]
        exact ⟨_, _, _, _, rfl, rfl⟩

/-- Whole pages are programmed here as `nandWrite` goes to the chip for them. -/
theorem nandWriteImage_nandWrite (d : ImageDevice) (answers : List PageProgram → ChipAnswers) (ofs p : Nat)
    {len : Nat} (hlen : d.c.writesize ∣ len) (s : ImageState) (pagebuf : Option Nat) :
    ∃ t u rc retlen s' pages, nandWrite d.c (answers s.programmed) true ofs len
        (read s.buffer p (len / d.c.writesize * (d.c.writesize + d.c.oobsize))) ⟨s.ops, pagebuf⟩ = (t, u) ∧
      nandWriteImage d answers ofs len p s = ((rc, retlen), s') ∧ t.rc = rc ∧ t.retlen = retlen ∧
        u.ops = s'.ops ∧ s'.programmed = s.programmed ++ pages ∧ t.pages = pages.map PageProgram.access := by
  unfold nandWrite nandWriteImage
  dsimp only
  split
  · exact ⟨_, _, _, _, _, [], rfl, rfl, rfl, rfl, rfl, (append_nil _).symm, rfl⟩
  · split
    · exact ⟨_, _, _, _, _, [], rfl, rfl, rfl, rfl, rfl, (append_nil _).symm, rfl⟩
    next hpos =>
      obtain ⟨hdata, hspare⟩ : yaffsData d.c (len / d.c.writesize)
            (read s.buffer p (len / d.c.writesize * (d.c.writesize + d.c.oobsize))) =
          pagesData d.c s.buffer p (len / d.c.writesize) ∧
          yaffsOob d.c (len / d.c.writesize)
            (read s.buffer p (len / d.c.writesize * (d.c.writesize + d.c.oobsize))) =
          pagesSpare d.c s.buffer p (len / d.c.writesize) := yaffsData_read _
      have hgathered : ∀ m : Flash, read m p len = read m p (len / d.c.writesize * d.c.writesize) ∧
          p + len = p + len / d.c.writesize * d.c.writesize := by
        intro m
        rw [Nat.div_mul_cancel hlen]
        exact ⟨rfl, rfl⟩
      rw [hdata, hspare, (hgathered _).1, (hgathered s.buffer).2, gatherPages_data, gatherPages_spare]
      unfold nandDoWriteOps programOps
      rw [if_neg hpos, if_pos (rfl : true = true)]
      by_cases hsub : ofs % d.c.subpagesize ≠ 0 ∨ len % d.c.subpagesize ≠ 0
      · rw [if_pos hsub, if_pos hsub]
        exact ⟨_, _, _, _, _, [], rfl, rfl, rfl, rfl, rfl, (append_nil _).symm, rfl⟩
      rw [if_neg hsub, if_neg hsub]
      by_cases hpage : ofs % d.c.writesize ≠ 0 ∨ len % d.c.writesize ≠ 0
      · rw [if_pos ⟨hpage, rfl⟩, if_pos hpage]
        exact ⟨_, _, _, _, _, [], rfl, rfl, rfl, rfl, rfl, (append_nil _).symm, rfl⟩
      rw [if_neg fun h => hpage h.1, if_neg hpage]
      by_cases hwp : (answers s.programmed).writeProtected = true
      · rw [if_pos hwp, if_pos hwp]
        exact ⟨_, _, _, _, _, [], rfl, rfl, rfl, rfl, rfl, (append_nil _).symm, rfl⟩
      rw [if_neg hwp, if_neg hwp]
      have hcolumn : ofs % d.c.writesize = 0 := by omega
      rw [hcolumn]
      dsimp only
      generalize (if pagebuf.any (fun p => ofs ≤ p * d.c.writesize ∧ p * d.c.writesize < ofs + len) then none
        else pagebuf) = cached
      generalize ({ s.ops with
          datbuf := some (pagesData d.c s.buffer p (len / d.c.writesize))
          oobbuf := some (pagesSpare d.c s.buffer p (len / d.c.writesize))
          ooblen := d.c.oobsize
          mode := .raw } : MtdOobOps) = ops
      obtain ⟨ret, left, pages, poi, hprogram, hwrite⟩ : ∃ ret left pages poi,
          programOpsFuel d.c d.layout (answers s.programmed) ops len (ofs / d.c.writesize) len
            (pagesData d.c s.buffer p (len / d.c.writesize)) (pagesSpare d.c s.buffer p (len / d.c.writesize))
            s.oobPoi = (ret, left, pages, poi) ∧
          writeOpsFuel d.c (answers s.programmed) .raw len (ofs / d.c.writesize) 0 len cached =
            (ret, left, pages.map PageProgram.access, cached) :=
        programOpsFuel_access hlen (pos_of_ne_zero hpos)
      rw [hprogram, hwrite]
      exact ⟨_, _, _, _, _, pages, rfl, rfl, rfl, rfl, rfl, rfl, rfl⟩

theorem nandDefaultBlockMarkbad_done {ofs : Nat} {answers : ChipAnswers} {s s' : ImageState}
    (h : nandDefaultBlockMarkbad c ofs answers s = (0, s')) :
    s'.ops.ooboffs = badblockpos c / 2 * 2 ∧ s'.buffer = s.buffer ∧
      s'.oobPoi = patch s.oobPoi 0 c.oobsize fun _ => 0xff := by
  have hinval : (-EINVAL : Int) ≠ 0 := by decide
  have hrofs : (-EROFS : Int) ≠ 0 := by decide
  unfold nandDefaultBlockMarkbad nandDoWriteOobPoi at h
  dsimp only at h
  generalize (if s.ops.mode = .auto then c.oobavail else c.oobsize) = len at h
  split at h
  · exact absurd (Prod.mk.inj h).1 hinval
  · split at h
    · exact absurd (Prod.mk.inj h).1 hinval
    · split at h
      · exact absurd (Prod.mk.inj h).1 hinval
      · split at h
        · exact absurd (Prod.mk.inj h).1 hrofs
        · rw [← (Prod.mk.inj h).2]
          exact ⟨rfl, rfl, rfl⟩

end UBoot
