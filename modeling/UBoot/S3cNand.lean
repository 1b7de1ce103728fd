import UBoot.NandOob

namespace UBoot

open FlashCells List Scatter

/-- What the driver asks of the ECC unit: `calculate` is given the bytes moved since `hwctl`,
`correct` also the buffer they are in, from where on, and the stored code. -/
structure EccEngine (eccbytes : Nat) where
  calculate : List UInt8 → List UInt8
  correct : List UInt8 → Flash → Nat → List UInt8 → Int × Flash
  calculate_length : ∀ d, (calculate d).length = eccbytes
  correct_same : ∀ d dat p, correct d dat p (calculate d) = (0, dat)

attribute [simp] EccEngine.calculate_length

structure NandEcc where
  writesize : Nat
  oobsize : Nat
  size : Nat
  bytes : Nat
  steps : Nat
  layout : NandEcclayout

namespace NandEcc

def total (c : NandEcc) : Nat := c.steps * c.bytes

def seccStart (c : NandEcc) : Nat := c.oobsize - c.bytes

end NandEcc

def s3cNandOob64 : NandEcclayout := ⟨List.range' 40 16, [⟨2, 38⟩, ⟨56, 8⟩]⟩

/-- What `board_nand_init` and `nand_scan_tail` make of a chip with 2048+64-byte pages. -/
def s3cNand2048 : NandEcc := ⟨2048, 64, 512, 4, 4, s3cNandOob64⟩

structure EccStats where
  failed : Nat
  corrected : Int

/-- One page of the chip, its spare area in the columns from `writesize` on, and what the
driver keeps of it. -/
structure PageState where
  cells : Flash
  oobPoi : Flash
  stats : EccStats

section Driver

variable (c : NandEcc) (e : EccEngine c.bytes)

/-- The spare area as it is sent: the bytes, and `oob_poi` with the code in its last bytes. -/
def sendSpare (oobPoi : Flash) : List UInt8 × Flash :=
  let moved := read oobPoi 0 c.seccStart
  let oobPoi := store oobPoi c.seccStart (e.calculate moved)
  (moved ++ read oobPoi c.seccStart c.bytes, oobPoi)

def s3cNandWriteOob (s : PageState) : PageState :=
  let spare := sendSpare c e s.oobPoi
  { s with cells := program s.cells c.writesize spare.1, oobPoi := spare.2 }

/-- The loop of `s3c_nand_write_page`: the bytes sent, and `ecc_calc`. -/
def writeMain (buf : Flash) : Nat → Nat → List UInt8 × List UInt8
  | 0, _ => ([], [])
  | eccsteps + 1, p =>
    let moved := read buf p c.size
    let rest := writeMain buf eccsteps (p + c.size)
    (moved ++ rest.1, e.calculate moved ++ rest.2)

def s3cNandWritePage (buf : Flash) (s : PageState) : PageState :=
  let main := writeMain c e buf c.steps 0
  let spare := sendSpare c e (scatter (c.layout.eccpos.take c.total) main.2 s.oobPoi)
  { s with cells := program s.cells 0 (main.1 ++ spare.1), oobPoi := spare.2 }

/-- The spare area read into `oob_poi` and corrected there. -/
def readSpare (s : PageState) : PageState :=
  let moved := read s.cells c.writesize c.seccStart
  let oobPoi := store (store s.oobPoi 0 moved) c.seccStart
    (read s.cells (c.writesize + c.seccStart) c.bytes)
  { s with oobPoi := (e.correct moved oobPoi 0 (read oobPoi c.seccStart c.bytes)).2 }

def s3cNandReadOob (s : PageState) : PageState := readSpare c e s

/-- The loop of `s3c_nand_read_page`. -/
def readMain (cells : Flash) (eccCode : List UInt8) :
    Nat → Nat → Nat → Nat → Flash → EccStats → Flash × EccStats
  | 0, _, _, _, buf, stats => (buf, stats)
  | eccsteps + 1, i, p, col, buf, stats =>
    let moved := read cells col c.size
    let r := e.correct moved (store buf p moved) p ((eccCode.drop i).take c.bytes)
    let stats :=
      if r.1 = -1 then { stats with failed := stats.failed + 1 }
      else { stats with corrected := stats.corrected + r.1 }
    readMain cells eccCode eccsteps (i + c.bytes) (p + c.size) (c.size * (c.steps - eccsteps)) r.2 stats

def s3cNandReadPage (buf : Flash) (s : PageState) : Flash × PageState :=
  let s := readSpare c e s
  let eccCode := (c.layout.eccpos.take c.total).map s.oobPoi
  let r := readMain c e s.cells eccCode c.steps 0 0 0 buf s.stats
  (r.1, { s with stats := r.2 })

/-- `memset(chip->oob_poi, 0xff, mtd->oobsize)` -/
def blankOob (oobPoi : Flash) : Flash := patch oobPoi 0 c.oobsize fun _ => 0xff

/-- `nand_do_write_oob` on a page of the device. -/
def nandDoWriteOob (oob : List UInt8) (ops : MtdOobOps) (s : PageState) : PageState :=
  let oobPoi := nandFillOob c.layout oob ops (blankOob c s.oobPoi)
  let s := s3cNandWriteOob c e { s with oobPoi := oobPoi }
  { s with oobPoi := blankOob c s.oobPoi }

/-- `nand_do_write_ops` on one page. With bytes for the spare area, the rest of `oob_poi` is what
the last operation left there. -/
def nandDoWriteOpsPage (ops : MtdOobOps) (buf : Flash) (s : PageState) : PageState :=
  let oobPoi :=
    match ops.oobbuf with
    | none => blankOob c s.oobPoi
    | some oob => nandFillOob c.layout oob ops s.oobPoi
  s3cNandWritePage c e buf { s with oobPoi := oobPoi }

end Driver

theorem length_flatMap_range {α : Type*} {f : Nat → List α} {n : Nat} (hf : ∀ k, (f k).length = n)
    (steps : Nat) : ((List.range steps).flatMap f).length = steps * n := by
  induction steps with
  | zero => simp
  | succ k ih =>
    rw [range_succ, flatMap_append, length_append, ih, flatMap_singleton, hf,
      Nat.succ_mul]

theorem slice_flatMap_range {α : Type*} {f : Nat → List α} {n : Nat} (hf : ∀ k, (f k).length = n)
    {steps k : Nat} (hk : k < steps) :
    (((List.range steps).flatMap f).drop (k * n)).take n = f k := by
  obtain ⟨j, rfl⟩ : ∃ j, steps = k + 1 + j := ⟨steps - (k + 1), by omega⟩
  have hlen := length_flatMap_range hf k
  rw [range_add, range_succ, flatMap_append, flatMap_append, append_assoc,
    drop_append_of_le_length (by omega), drop_of_length_le (by omega), nil_append,
    flatMap_singleton, take_append_of_le_length (by rw [hf]), ← hf k, take_length]

/-- The codes of the main area have places of their own in the spare area, before the code of the
spare area. Of its free bytes only that they are in it. -/
structure NandEcc.Sound (c : NandEcc) : Prop where
  main : c.writesize = c.steps * c.size
  codes : c.layout.eccpos.length = c.total
  apart : c.layout.eccpos.Nodup
  before : ∀ p ∈ c.layout.eccpos, p < c.seccStart
  room : c.bytes ≤ c.oobsize
  free : ∀ p ∈ freeBytes c.layout.oobfree, p < c.oobsize

section Pages

variable {c : NandEcc} {e : EccEngine c.bytes} {buf cells : Flash} {s : PageState}

def mainCodes (c : NandEcc) (e : EccEngine c.bytes) (buf : Flash) : List UInt8 :=
  (List.range c.steps).flatMap fun k => e.calculate (read buf (k * c.size) c.size)

theorem mainCodes_length : (mainCodes c e buf).length = c.total :=
  length_flatMap_range (fun _ => e.calculate_length _) c.steps

theorem writeMain_eq (n p : Nat) : writeMain c e buf n p = (read buf p (n * c.size),
      (List.range n).flatMap fun k => e.calculate (read buf (p + k * c.size) c.size)) := by
  induction n generalizing p with
  | zero =>
    rw [Nat.zero_mul]
    rfl
  | succ n ih =>
    unfold writeMain
    have hp : ∀ k, p + c.size + k * c.size = p + (k + 1) * c.size := by
      intro k
      rw [Nat.succ_mul]
      omega
    rw [ih, Nat.succ_mul, Nat.add_comm (n * c.size), read_append, range_succ_eq_map,
      flatMap_cons, flatMap_map]
    simp only [hp, Nat.zero_mul, Nat.add_zero, Nat.succ_eq_add_one]

/-- A page whose codes are those of what they cover. -/
structure Coded (c : NandEcc) (e : EccEngine c.bytes) (cells : Flash) : Prop where
  spare : read cells (c.writesize + c.seccStart) c.bytes = e.calculate (read cells c.writesize c.seccStart)
  main : c.layout.eccpos.map (fun p => cells (c.writesize + p)) = mainCodes c e cells

/-- The spare area in `oob_poi` once it is read. -/
def spareOf (c : NandEcc) (s : PageState) : Flash :=
  patch s.oobPoi 0 c.oobsize fun x => s.cells (c.writesize + x)

theorem read_spareOf (s : PageState) :
    read (spareOf c s) 0 c.oobsize = read s.cells c.writesize c.oobsize := by
  rw [spareOf, read_patch]
  apply read_congr
  intro i hi
  rw [Nat.zero_add]

theorem seccStart_add (hc : c.Sound) : c.seccStart + c.bytes = c.oobsize := by
  have := hc.room
  unfold NandEcc.seccStart
  omega

theorem readSpare_of_coded (hc : c.Sound) (h : Coded c e s.cells) :
    readSpare c e s = { s with oobPoi := spareOf c s } := by
  have hsum := seccStart_add hc
  have hoob : store (store s.oobPoi 0 (read s.cells c.writesize c.seccStart)) c.seccStart
      (read s.cells (c.writesize + c.seccStart) c.bytes) = spareOf c s := by
    have hlast : ∀ x, c.seccStart ≤ x → x < c.seccStart + c.bytes →
        s.cells (c.writesize + c.seccStart + (x - c.seccStart)) = s.cells (c.writesize + (x - 0)) := by
      intro x hx _
      congr 1
      omega
    have happ := patch_append s.oobPoi (fun x => s.cells (c.writesize + (x - 0))) 0 c.seccStart c.bytes
    rw [Nat.zero_add, hsum] at happ
    rw [store_read, store_read, patch_congr hlast, happ]
    rfl
  have hcode : read (spareOf c s) c.seccStart c.bytes = e.calculate (read s.cells c.writesize c.seccStart) := by
    rw [← h.spare]
    apply read_congr
    intro i hi
    rw [spareOf, patch_inside (by omega) (by omega), Nat.add_assoc]
  unfold readSpare
  dsimp only
  rw [hoob, hcode, e.correct_same]

theorem readMain_of_codes (e : EccEngine c.bytes) (buf cells : Flash) {n : Nat} (hn : n ≤ c.steps) (stats : EccStats) :
    readMain c e cells (mainCodes c e cells) n ((c.steps - n) * c.bytes) ((c.steps - n) * c.size)
        ((c.steps - n) * c.size) buf stats =
      (patch buf ((c.steps - n) * c.size) (n * c.size) cells, stats) := by
  induction n generalizing buf with
  | zero =>
    have hnone : patch buf ((c.steps - 0) * c.size) (0 * c.size) cells = buf := by
      funext x
      exact patch_outside (by omega)
    rw [hnone]
    rfl
  | succ n ih =>
    obtain ⟨k, hk⟩ : ∃ k, k = c.steps - (n + 1) := ⟨_, rfl⟩
    have hk' : c.steps - n = k + 1 := by omega
    have hcode : ((mainCodes c e cells).drop (k * c.bytes)).take c.bytes =
        e.calculate (read cells (k * c.size) c.size) :=
      slice_flatMap_range (fun _ => e.calculate_length _) (by omega)
    have hstore : store buf (k * c.size) (read cells (k * c.size) c.size) =
        patch buf (k * c.size) c.size cells := by
      rw [store_read]
      apply patch_congr
      intro x hx _
      rw [Nat.add_sub_cancel' hx]
    have hnext : (k + 1) * c.size = k * c.size + c.size := Nat.succ_mul k c.size
    have hrest := ih (patch buf (k * c.size) c.size cells) (by omega)
    rw [hk', hnext, patch_append] at hrest
    have hne : (0 : Int) ≠ -1 := by decide
    rw [← hk]
    unfold readMain
    dsimp only
    rw [hcode, e.correct_same, hstore, hk', Nat.mul_comm c.size (k + 1), hnext, if_neg hne, Int.add_zero,
      ← Nat.succ_mul k c.bytes, hrest, Nat.succ_mul, Nat.add_comm c.size]

theorem readMain_failed_le (eccCode : List UInt8) (n i p col : Nat) (stats : EccStats) :
    stats.failed ≤ (readMain c e cells eccCode n i p col buf stats).2.failed := by
  induction n generalizing i p col buf stats with
  | zero => exact le_refl _
  | succ n ih =>
    unfold readMain
    refine le_trans ?_ (ih ..)
    split
    · exact Nat.le_succ _
    · exact le_refl _

theorem readMain_failed_lt {eccCode : List UInt8} {n i p col : Nat} {stats : EccStats}
    (h : (e.correct (read cells col c.size) (store buf p (read cells col c.size)) p
      ((eccCode.drop i).take c.bytes)).1 = -1) :
    stats.failed < (readMain c e cells eccCode (n + 1) i p col buf stats).2.failed := by
  unfold readMain
  dsimp only
  rw [if_pos h]
  calc stats.failed
      < ({ stats with failed := stats.failed + 1 } : EccStats).failed := Nat.lt_succ_self _
    _ ≤ _ := readMain_failed_le ..

theorem s3cNandReadPage_of_coded (hc : c.Sound) (h : Coded c e s.cells) (buf : Flash) :
    s3cNandReadPage c e buf s = (patch buf 0 c.writesize s.cells, { s with oobPoi := spareOf c s }) := by
  have hcodes : (c.layout.eccpos.take c.total).map (spareOf c s) = mainCodes c e s.cells := by
    rw [← h.main, ← hc.codes, take_length]
    apply map_congr_left
    intro p hp
    have := hc.before p hp
    have := seccStart_add hc
    exact patch_inside (by omega) (by omega)
  have hmain := readMain_of_codes e buf s.cells (le_refl c.steps) s.stats
  rw [Nat.sub_self, Nat.zero_mul, Nat.zero_mul, ← hc.main] at hmain
  unfold s3cNandReadPage
  rw [readSpare_of_coded hc h]
  dsimp only
  rw [hcodes, hmain]

/-- `oob_poi` after a page is written: the codes of the main area put in, then the code of the
spare area. -/
def codedOob (c : NandEcc) (e : EccEngine c.bytes) (buf oobPoi : Flash) : Flash :=
  (sendSpare c e (scatter c.layout.eccpos (mainCodes c e buf) oobPoi)).2

theorem sendSpare_before {oobPoi : Flash} {x : Nat} (hx : x < c.seccStart) :
    (sendSpare c e oobPoi).2 x = oobPoi x :=
  store_outside (.inl hx)

theorem sendSpare_last (oobPoi : Flash) :
    read (sendSpare c e oobPoi).2 c.seccStart c.bytes = e.calculate (read oobPoi 0 c.seccStart) := by
  have h := read_store oobPoi c.seccStart (e.calculate (read oobPoi 0 c.seccStart))
  rwa [e.calculate_length] at h

theorem sendSpare_code {oobPoi : Flash} {j : Nat} (hj : j < c.bytes) :
    (sendSpare c e oobPoi).2 (c.seccStart + j) = (e.calculate (read oobPoi 0 c.seccStart)).getD j 0 := by
  rw [← sendSpare_last, getD_read hj]

theorem sendSpare_sent (hc : c.Sound) (oobPoi : Flash) :
    (sendSpare c e oobPoi).1 = read (sendSpare c e oobPoi).2 0 c.oobsize := by
  have hfirst : read oobPoi 0 c.seccStart = read (sendSpare c e oobPoi).2 0 c.seccStart := by
    apply read_congr
    intro i hi
    exact (sendSpare_before (by omega)).symm
  rw [← seccStart_add hc, read_append, Nat.zero_add, ← hfirst]
  rfl

theorem codedOob_free {oobPoi : Flash} {x : Nat} (hx : x < c.seccStart) (hpos : x ∉ c.layout.eccpos) :
    codedOob c e buf oobPoi x = oobPoi x :=
  (sendSpare_before hx).trans (scatter_outside hpos _ _)

theorem codedOob_last {oobPoi : Flash} {j : Nat} (hj : j < c.bytes) :
    codedOob c e buf oobPoi (c.seccStart + j) = (e.calculate (read
      (scatter c.layout.eccpos (mainCodes c e buf) oobPoi) 0 c.seccStart)).getD j 0 :=
  sendSpare_code hj

theorem codedOob_codes (e : EccEngine c.bytes) (buf : Flash) (hc : c.Sound) (oobPoi : Flash) :
    c.layout.eccpos.map (codedOob c e buf oobPoi) = mainCodes c e buf := by
  rw [← map_scatter hc.apart (mainCodes_length.trans hc.codes.symm) oobPoi]
  apply map_congr_left
  intro p hp
  exact sendSpare_before (hc.before p hp)

theorem s3cNandWriteOob_spare (hc : c.Sound) {i : Nat} (hi : i < c.oobsize) :
    (s3cNandWriteOob c e s).cells (c.writesize + i) =
      s.cells (c.writesize + i) &&& (sendSpare c e s.oobPoi).2 i := by
  unfold s3cNandWriteOob
  dsimp only
  rw [sendSpare_sent hc, program_read (Nat.le_add_right _ _) (by omega), Nat.zero_add,
    Nat.add_sub_cancel_left]

theorem s3cNandWritePage_cells (hc : c.Sound) : (s3cNandWritePage c e buf s).cells =
    program (program s.cells 0 (read buf 0 c.writesize)) c.writesize
      (read (codedOob c e buf s.oobPoi) 0 c.oobsize) := by
  have hpos : c.layout.eccpos.take c.total = c.layout.eccpos := by
    rw [← hc.codes, take_length]
  simp only [s3cNandWritePage, hpos, writeMain_eq, Nat.zero_add, ← hc.main, program_append,
    sendSpare_sent hc, read_length, codedOob, mainCodes]

theorem s3cNandWritePage_main (hc : c.Sound) {x : Nat} (hx : x < c.writesize) :
    (s3cNandWritePage c e buf s).cells x = s.cells x &&& buf x := by
  rw [s3cNandWritePage_cells hc, program_outside (.inl hx), program_read (Nat.zero_le x) (by omega),
    Nat.zero_add, Nat.sub_zero]

theorem s3cNandWritePage_spare (e : EccEngine c.bytes) (buf : Flash) (hc : c.Sound) {i : Nat} (hi : i < c.oobsize) :
    (s3cNandWritePage c e buf s).cells (c.writesize + i) =
      s.cells (c.writesize + i) &&& codedOob c e buf s.oobPoi i := by
  rw [s3cNandWritePage_cells hc, program_read (Nat.le_add_right _ _) (by omega), program_outside
    (.inr (by rw [read_length]; omega)), Nat.zero_add, Nat.add_sub_cancel_left]

theorem s3cNandWritePage_blank (e : EccEngine c.bytes) (buf : Flash) (hc : c.Sound) (hb : Blank s.cells 0 (c.writesize + c.oobsize)) :
    (∀ x, x < c.writesize → (s3cNandWritePage c e buf s).cells x = buf x) ∧ ∀ i, i < c.oobsize →
        (s3cNandWritePage c e buf s).cells (c.writesize + i) = codedOob c e buf s.oobPoi i := by
  have hones : ∀ b : UInt8, 0xff &&& b = b := fun _ => UInt8.neg_one_and
  constructor
  · intro x hx
    have hx' := hb x (by omega)
    rw [Nat.zero_add] at hx'
    rw [s3cNandWritePage_main hc hx, hx', hones]
  · intro i hi
    have hi' := hb (c.writesize + i) (by omega)
    rw [Nat.zero_add] at hi'
    rw [s3cNandWritePage_spare e buf hc hi, hi', hones]

theorem s3cNandWritePage_coded (e : EccEngine c.bytes) (buf : Flash) (hc : c.Sound) (hb : Blank s.cells 0 (c.writesize + c.oobsize)) :
    Coded c e (s3cNandWritePage c e buf s).cells := by
  obtain ⟨hmain, hspare⟩ := s3cNandWritePage_blank e buf hc hb
  have hsum := seccStart_add hc
  constructor
  · have hlast := sendSpare_last (e := e) (scatter c.layout.eccpos (mainCodes c e buf) s.oobPoi)
    have hfirst : read (s3cNandWritePage c e buf s).cells c.writesize c.seccStart =
        read (scatter c.layout.eccpos (mainCodes c e buf) s.oobPoi) 0 c.seccStart := by
      apply read_congr
      intro i hi
      rw [hspare i (by omega), Nat.zero_add]
      exact sendSpare_before hi
    rw [hfirst, ← hlast]
    apply read_congr
    intro i hi
    rw [Nat.add_assoc, hspare _ (by omega)]
    rfl
  · have hcodes : mainCodes c e (s3cNandWritePage c e buf s).cells = mainCodes c e buf := by
      unfold mainCodes
      refine flatMap_congr ?_
      intro k hk
      congr 1
      apply read_congr
      intro i hi
      have hle : (k + 1) * c.size ≤ c.steps * c.size := Nat.mul_le_mul_right _ (mem_range.mp hk)
      rw [Nat.succ_mul, ← hc.main] at hle
      exact hmain _ (by omega)
    rw [hcodes, ← codedOob_codes e buf hc s.oobPoi]
    apply map_congr_left
    intro p hp
    have := hc.before p hp
    exact hspare p (by omega)

end Pages

end UBoot
