import UBoot.Blit
import UBoot.CountLoop
import UBoot.PartAmiga

namespace UBoot.Lcd

open Loops Blit UBoot.Part

/-- `CONFIG_PXA250`, `CONFIG_MPC823`, `CONFIG_MCC200`, `CONFIG_ATMEL_LCD` or none of them. -/
inductive Platform where
  | pxa250 | mpc823 | mcc200 | atmel | other
  deriving DecidableEq

/-- `panel_info` of a panel with 16 bits per pixel (`wide`) or with 8. `invert` is `CONFIG_SYS_INVERT_COLORS` and
`align` is `CONFIG_SPLASH_SCREEN_ALIGN`. -/
structure Panel where
  platform : Platform
  order : ByteOrder
  invert : Bool
  align : Bool
  wide : Bool
  vlCol : UInt32
  vlRow : UInt32

/-- `bmp_color_table_entry_t` -/
structure Color where
  red : UInt8
  green : UInt8
  blue : UInt8

def rowBytes (width : UInt32) : Nat := (width.toNat + 3) / 4 * 4

/-- An uncompressed picture with 8 bits per pixel, its first row at offset 0. -/
structure Bmp where
  width : UInt32
  height : UInt32
  colorTable : UInt8 → Color
  pixels : Int → UInt8

def Bmp.pitch (b : Bmp) : Nat := rowBytes b.width

/-- By the offset from the first row; a read outside the rows is a failure. -/
def Bmp.byte (b : Bmp) (o : Int) : Option UInt8 :=
  if 0 ≤ o ∧ o < b.height.toNat * b.pitch then some (b.pixels o) else none

def colreg (invert : Bool) (c : Color) : UInt16 :=
  let colreg : UInt16 := ((c.red.toUInt16 <<< 8) &&& (0xf800 : UInt16)) |||
    ((c.green.toUInt16 <<< 3) &&& (0x07e0 : UInt16)) ||| ((c.blue.toUInt16 >>> 3) &&& (0x001f : UInt16))
  if invert then 0xffff - colreg else colreg

variable (p : Panel) (b : Bmp)

/-- `cmap_base[v]`. The map of the MPC823 runs downwards from `cmap_base`, and where the colours are put into
registers `cmap_base` is `NULL`. -/
def cmapBase (v : UInt8) : Option UInt16 :=
  match p.platform with
  | .pxa250 | .other => some (colreg p.invert (b.colorTable v))
  | .mpc823 => if v = 0 then some (colreg p.invert (b.colorTable v)) else none
  | .mcc200 | .atmel => none

def halfBytes (o : ByteOrder) (v : UInt16) : List UInt8 :=
  match o with
  | .little => [v.toUInt8, (v >>> 8).toUInt8]
  | .big => [(v >>> 8).toUInt8, v.toUInt8]

def shade (v : UInt8) : UInt8 :=
  match p.platform with
  | .mpc823 | .mcc200 => 255 - v
  | _ => v

/-- `bmap`, `fb` and the frame buffer. -/
structure Cursor where
  bmap : Int
  fb : Int
  mem : Int → UInt8

/-- The body of the inner loop. -/
def drawPixel (c : Cursor) : Option Cursor :=
  if p.wide then
    (b.byte c.bmap).bind fun v => (cmapBase p b v).map fun half =>
      ⟨c.bmap + 1, c.fb + 2, put c.mem c.fb (halfBytes p.order half)⟩
  else
    match p.platform with
    | .other => some c
    | _ => (b.byte c.bmap).map fun v => ⟨c.bmap + 1, c.fb + 1, put c.mem c.fb [shade p v]⟩

def lineLength : Nat := if p.wide then p.vlCol.toNat * 2 else p.vlCol.toNat

/-- The body of the outer loop. -/
def drawRow (width : Nat) (padded : UInt16) (c : Cursor) : Comp (Option Cursor) :=
  (Comp.count 65536 width (fun c => Comp.pure (drawPixel p b c)) c).andThen fun c =>
    let byteWidth := if p.wide then width * 2 else width
    Comp.pure (some { c with bmap := c.bmap + (width - padded.toNat), fb := c.fb - (byteWidth + lineLength p) })

def bmpAlignCenter : Int32 := 0x7FFF

def alignPos (align : Bool) (pos : Int32) (panel size : UInt32) : Int32 :=
  if align then
    if pos = bmpAlignCenter then max 0 ((panel - size) / 2).toInt32
    else if pos < 0 then max 0 (panel - size + pos.toUInt32 + 1).toInt32
    else pos
  else pos

def clip (pos : Int32) (panel size : UInt32) : UInt32 :=
  if panel < pos.toUInt32 + size then panel - pos.toUInt32 else size

def paddedLine (width : UInt32) : UInt16 :=
  (if width &&& 3 ≠ 0 then (width &&& ~~~3) + 4 else width).toUInt16

/-- `lcd_display_bitmap`: the frame buffer behind it. -/
def lcdDisplayBitmap (x y : Int32) (mem : Int → UInt8) : Comp (Option (Int → UInt8)) :=
  let x := alignPos p.align x p.vlCol b.width
  let y := alignPos p.align y p.vlRow b.height
  let width := clip x p.vlCol b.width
  let height := clip y p.vlRow b.height
  let fb := (y.toUInt32 + height - 1).toNat * lineLength p + x.toUInt32.toNat
  (Comp.count 65536 height.toNat (drawRow p b width.toNat (paddedLine b.width)) ⟨0, fb, mem⟩).andThen fun c =>
    Comp.pure (some c.mem)

variable {p : Panel} {b : Bmp} {c c' : Cursor} {width height : Nat} {padded : UInt16}

def pixelSize (p : Panel) : Nat := if p.wide then 2 else 1

def shown (p : Panel) (b : Bmp) (v : UInt8) : List UInt8 :=
  if p.wide then halfBytes p.order (colreg p.invert (b.colorTable v)) else [shade p v]

def Panel.Draws (p : Panel) : Prop := p.wide = true ∨ p.platform ≠ .other

/-- A byte of the picture with a colour that can be read. -/
def Readable (p : Panel) (b : Bmp) (o : Int) : Prop :=
  (0 ≤ o ∧ o < b.height.toNat * b.pitch) ∧ (p.wide = true → cmapBase p b (b.pixels o) ≠ none)

theorem cmapBase_some {v : UInt8} {half : UInt16} (h : cmapBase p b v = some half) :
    half = colreg p.invert (b.colorTable v) := by
  unfold cmapBase at h
  split at h
  · exact (Option.some.inj h).symm
  · exact (Option.some.inj h).symm
  · split at h
    · exact (Option.some.inj h).symm
    · cases h
  · cases h
  · cases h

theorem shown_length (v : UInt8) : (shown p b v).length = pixelSize p := by
  unfold shown pixelSize halfBytes
  cases p.wide with
  | false => rfl
  | true => cases p.order <;> rfl

theorem lineLength_eq : lineLength p = pixelSize p * p.vlCol.toNat := by
  unfold lineLength pixelSize
  split
  · exact mul_comm _ _
  · exact (one_mul _).symm

theorem byte_readable {o : Int} (h : 0 ≤ o ∧ o < b.height.toNat * b.pitch) : b.byte o = some (b.pixels o) := if_pos h

theorem drawPixel_narrow (hwide : p.wide = false) (hplat : p.platform ≠ .other) : drawPixel p b c =
    (b.byte c.bmap).map fun v => ⟨c.bmap + 1, c.fb + 1, put c.mem c.fb [shade p v]⟩ := by
  unfold drawPixel
  rw [hwide, if_neg Bool.false_ne_true]
  split
  next h => exact absurd h hplat
  · rfl

theorem drawPixel_iff (hdraws : p.Draws) : drawPixel p b c = some c' ↔ Readable p b c.bmap ∧
    c' = ⟨c.bmap + 1, c.fb + pixelSize p, put c.mem c.fb (shown p b (b.pixels c.bmap))⟩ := by
  unfold Readable pixelSize shown
  cases hwide : p.wide with
  | false =>
    have hplat : p.platform ≠ .other := hdraws.resolve_left (by simp [hwide])
    rw [drawPixel_narrow hwide hplat]
    by_cases hin : 0 ≤ c.bmap ∧ c.bmap < b.height.toNat * b.pitch
    · rw [byte_readable hin, Option.map_some, Option.some_inj]
      exact ⟨fun h => ⟨⟨hin, fun h => absurd h Bool.false_ne_true⟩, h.symm⟩, fun h => h.2.symm⟩
    · rw [show b.byte c.bmap = none from if_neg hin]
      exact ⟨nofun, fun h => absurd h.1.1 hin⟩
  | true =>
    unfold drawPixel
    rw [hwide, if_pos rfl]
    by_cases hin : 0 ≤ c.bmap ∧ c.bmap < b.height.toNat * b.pitch
    · rw [byte_readable hin, Option.bind_some]
      cases hmap : cmapBase p b (b.pixels c.bmap) with
      | none => exact ⟨nofun, fun h => absurd rfl (h.1.2 rfl)⟩
      | some half =>
        rw [← cmapBase_some hmap, Option.map_some, Option.some_inj]
        exact ⟨fun h => ⟨⟨hin, fun _ => Option.some_ne_none half⟩, h.symm⟩, fun h => h.2.symm⟩
    · rw [show b.byte c.bmap = none from if_neg hin]
      exact ⟨nofun, fun h => absurd h.1.1 hin⟩

def rowPixels (p : Panel) (b : Bmp) (bmap : Int) (j : Nat) : List UInt8 := shown p b (b.pixels (bmap + j))

theorem drawPixels_iff (hdraws : p.Draws) : Rounds (fun c => Comp.pure (drawPixel p b c)) width c c' ↔
    (∀ j < width, Readable p b (c.bmap + j)) ∧ c' = ⟨c.bmap + width, c.fb + pixelSize p * width,
      putRow (pixelSize p) (rowPixels p b c.bmap) c.fb width c.mem⟩ := by
  have hrounds : Rounds (fun c => Comp.pure (drawPixel p b c)) width _ c' ↔ _ :=
    Rounds.path_iff (fun j => Readable p b (c.bmap + j)) (fun j => ⟨c.bmap + j, c.fb + pixelSize p * j,
      putRow (pixelSize p) (rowPixels p b c.bmap) c.fb j c.mem⟩) fun j _ t => ?_
  · simpa [putRow] using hrounds
  have hplace : c.fb + pixelSize p * (j + 1 : Nat) = c.fb + pixelSize p * j + pixelSize p := by
    push_cast
    ring
  rw [Comp.returns_pure_iff, eq_comm, drawPixel_iff hdraws, hplace, putRow, Nat.cast_succ, ← Int.add_assoc]
  rfl

/-- How far `bmap` moves with one row. -/
def stride (width : Nat) (padded : UInt16) : Int := 2 * width - padded.toNat

theorem drawRow_iff (hdraws : p.Draws) (hw : width < 65536) :
    (drawRow p b width padded c).Returns (some c') ↔ (∀ j < width, Readable p b (c.bmap + j)) ∧
      c' = ⟨c.bmap + stride width padded, c.fb - lineLength p,
        putRow (pixelSize p) (rowPixels p b c.bmap) c.fb width c.mem⟩ := by
  have hmove : ∀ t : Cursor, t.bmap = c.bmap + width → t.fb = c.fb + pixelSize p * width →
      ({ t with bmap := t.bmap + (width - padded.toNat),
                fb := t.fb - ((if p.wide then width * 2 else width : Nat) + lineLength p) } : Cursor) =
        ⟨c.bmap + stride width padded, c.fb - lineLength p, t.mem⟩ := by
    intro t hbmap hfb
    rw [hbmap, hfb]
    unfold stride pixelSize
    congr 1
    · ring
    · split
      · push_cast
        ring
      · push_cast
        ring
  unfold drawRow
  constructor
  · intro h
    obtain ⟨x, hx, h⟩ := Comp.returns_bind.mp h
    cases x with
    | none => cases Comp.returns_pure_iff.mp h
    | some t =>
      obtain ⟨hread, ht⟩ := (drawPixels_iff hdraws).mp ((count_iff hw).mp hx)
      have heq := Option.some.inj (Comp.returns_pure_iff.mp h)
      refine ⟨hread, heq.trans ((hmove t (by rw [ht]) (by rw [ht])).trans ?_)⟩
      rw [ht]
  · rintro ⟨hread, rfl⟩
    have hrow := (count_iff hw).mpr ((drawPixels_iff (c := c) hdraws).mpr ⟨hread, rfl⟩)
    refine hrow.andThen (Comp.returns_pure_iff.mpr ?_)
    exact congrArg some (hmove ⟨c.bmap + width, c.fb + pixelSize p * width,
      putRow (pixelSize p) (rowPixels p b c.bmap) c.fb width c.mem⟩ rfl rfl).symm

def imagePixels (p : Panel) (b : Bmp) (step bmap : Int) (i j : Nat) : List UInt8 :=
  shown p b (b.pixels (bmap + i * step + j))

theorem imagePixels_length {step bmap : Int} {i j : Nat} : (imagePixels p b step bmap i j).length = pixelSize p :=
  shown_length _

theorem drawRows_iff (hdraws : p.Draws) (hw : width < 65536) : Rounds (drawRow p b width padded) height c c' ↔
    (∀ i < height, ∀ j < width, Readable p b (c.bmap + i * stride width padded + j)) ∧
      c' = ⟨c.bmap + height * stride width padded, c.fb - height * lineLength p,
        putRows (pixelSize p) (imagePixels p b (stride width padded) c.bmap) c.fb (lineLength p) width height
          c.mem⟩ := by
  have hrounds : Rounds (drawRow p b width padded) height _ c' ↔ _ := Rounds.path_iff
    (fun i => ∀ j < width, Readable p b (c.bmap + i * stride width padded + j))
    (fun i => ⟨c.bmap + i * stride width padded, c.fb - i * lineLength p,
      putRows (pixelSize p) (imagePixels p b (stride width padded) c.bmap) c.fb (lineLength p) width i c.mem⟩)
    fun i _ t => ?_
  · simpa [putRows] using hrounds
  have hnext (a d : Int) : a + (i + 1 : Nat) * d = a + i * d + d := by
    push_cast
    ring
  have hprev (a d : Int) : a - (i + 1 : Nat) * d = a - i * d - d := by
    push_cast
    ring
  rw [drawRow_iff hdraws hw, hnext, hprev, putRows]
  rfl

theorem drawRow_none (hnone : ¬p.Draws) (hw : width < 65536)
    (h : (drawRow p b width padded c).Returns (some c')) : c'.mem = c.mem := by
  obtain ⟨hwide, hplat⟩ := not_or.mp hnone
  have hpixel : ∀ t : Cursor, drawPixel p b t = some t := by
    intro t
    unfold drawPixel
    rw [if_neg hwide, not_not.mp hplat]
  obtain ⟨x, hx, h⟩ := Comp.returns_bind.mp h
  cases x with
  | none => cases Comp.returns_pure_iff.mp h
  | some t =>
    have ht : t.mem = c.mem := by
      refine Rounds.reach (fun _ u => u.mem = c.mem) (fun i hi u u' hu hstep => ?_) rfl ((count_iff hw).mp hx)
      have heq := Comp.returns_pure_iff.mp hstep
      rw [hpixel] at heq
      cases heq
      exact hu
    cases Comp.returns_pure_iff.mp h
    exact ht

variable {x y : Int32} {w h panel size : UInt32} {mem mem' : Int → UInt8}

def column (p : Panel) (w : UInt32) (x : Int32) : Int32 := alignPos p.align x p.vlCol w
def row (p : Panel) (h : UInt32) (y : Int32) : Int32 := alignPos p.align y p.vlRow h

/-- How many of `size` pixels from a position on are on the panel. -/
def visible (pos : Int32) (panel size : UInt32) : Nat := min size.toNat (panel.toNat - pos.toUInt32.toNat)

theorem pos_small {pos : Int32} (h : 0 ≤ pos) : pos.toUInt32.toNat < 2 ^ 31 := by
  have hint : 0 ≤ pos.toInt := Int32.le_iff_toInt_le.mp h
  have hnat : pos.toInt = pos.toBitVec.toInt := rfl
  have hval : pos.toUInt32.toNat = pos.toBitVec.toNat := rfl
  rw [hnat, BitVec.toInt_eq_toNat_cond] at hint
  split at hint
  · omega
  · have hlt := pos.toBitVec.isLt
    omega

theorem clip_toNat {pos : Int32} (hpos : pos.toUInt32 < panel) : (clip pos panel size).toNat =
      if pos.toUInt32.toNat + size.toNat < 2 ^ 32 then visible pos panel size else size.toNat := by
  have hlt := UInt32.lt_iff_toNat_lt.mp hpos
  have hsize := size.toNat_lt
  have hsum := UInt32.toNat_add pos.toUInt32 size
  have hsub := UInt32.toNat_sub_of_le panel pos.toUInt32 (UInt32.le_iff_toNat_le.mpr (by omega))
  unfold clip visible
  by_cases hover : panel < pos.toUInt32 + size
  · have hbeyond := UInt32.lt_iff_toNat_lt.mp hover
    rw [if_pos hover, hsub]
    split <;> omega
  · have hwithin := UInt32.not_lt.mp hover
    have hle := UInt32.le_iff_toNat_le.mp hwithin
    rw [if_neg hover]
    split <;> omega

theorem and_add_and_not (w m : UInt32) : (w &&& m) + (w &&& ~~~m) = w := by
  apply UInt32.eq_of_toBitVec_eq
  rw [UInt32.toBitVec_add, UInt32.toBitVec_and, UInt32.toBitVec_and, UInt32.toBitVec_not,
    BitVec.add_eq_or_of_and_eq_zero]
  · ext i hi
    rw [BitVec.getElem_or, BitVec.getElem_and, BitVec.getElem_and, BitVec.getElem_not]
    cases w.toBitVec[i] <;> cases m.toBitVec[i] <;> rfl
  · ext i hi
    rw [BitVec.getElem_and, BitVec.getElem_and, BitVec.getElem_and, BitVec.getElem_not, BitVec.getElem_zero]
    cases w.toBitVec[i] <;> cases m.toBitVec[i] <;> rfl

theorem and_three (w : UInt32) : (w &&& 3).toNat = w.toNat % 4 := by
  rw [UInt32.toNat_and]
  exact Nat.and_two_pow_sub_one_eq_mod w.toNat 2

theorem and_not_three (w : UInt32) : (w &&& ~~~3).toNat = w.toNat / 4 * 4 := by
  have hsum := congrArg UInt32.toNat (and_add_and_not w 3)
  rw [UInt32.toNat_add, and_three] at hsum
  have hle : (w &&& ~~~3).toNat ≤ w.toNat := by
    rw [UInt32.toNat_and]
    exact Nat.and_le_left
  omega

theorem paddedLine_toNat (b : Bmp) : (paddedLine b.width).toNat = b.pitch % 65536 := by
  unfold paddedLine Bmp.pitch rowBytes
  rw [UInt32.toNat_toUInt16]
  by_cases hz : b.width &&& 3 = 0
  · have hzero := congrArg UInt32.toNat hz
    rw [and_three, show (0 : UInt32).toNat = 0 from rfl] at hzero
    rw [if_neg (not_not.mpr hz)]
    omega
  · have hne : b.width.toNat % 4 ≠ 0 := fun h0 => hz (UInt32.toNat_inj.mp ((and_three _).trans h0))
    rw [if_pos hz, UInt32.toNat_add, and_not_three, show (4 : UInt32).toNat = 4 from rfl]
    omega

theorem clip_small_iff {pos : Int32} (hnn : 0 ≤ pos) (hpos : pos.toUInt32 < panel) :
    (clip pos panel size).toNat < 65536 ↔
      pos.toUInt32.toNat + size.toNat < 2 ^ 32 ∧ visible pos panel size < 65536 := by
  have hsmall := pos_small hnn
  rw [clip_toNat hpos]
  split
  next h => exact (and_iff_right h).symm
  next h => exact ⟨fun hlt => by omega, fun hand => absurd hand.1 h⟩

def cols (p : Panel) (b : Bmp) (x : Int32) : Nat := (clip (column p b.width x) p.vlCol b.width).toNat
def rows (p : Panel) (b : Bmp) (y : Int32) : Nat := (clip (row p b.height y) p.vlRow b.height).toNat
def bottom (p : Panel) (b : Bmp) (x y : Int32) : Nat :=
  ((row p b.height y).toUInt32 + clip (row p b.height y) p.vlRow b.height - 1).toNat * lineLength p +
    (column p b.width x).toUInt32.toNat

theorem lcdDisplayBitmap_returns : (lcdDisplayBitmap p b x y mem).Returns (some mem') ↔
    ∃ c : Cursor, (Comp.count 65536 (rows p b y) (drawRow p b (cols p b x) (paddedLine b.width))
      ⟨0, bottom p b x y, mem⟩).Returns (some c) ∧ mem' = c.mem := by
  constructor
  · intro h
    obtain ⟨t, ht, h⟩ := Comp.returns_bind.mp h
    cases t with
    | none => cases Comp.returns_pure_iff.mp h
    | some c => exact ⟨c, ht, Option.some.inj (Comp.returns_pure_iff.mp h)⟩
  · rintro ⟨c, hc, rfl⟩
    exact Comp.Returns.andThen hc (Comp.returns_pure _)

theorem sizes_of_returns (hpos : 0 < rows p b y) (h : (lcdDisplayBitmap p b x y mem).Returns (some mem')) :
    cols p b x < 65536 ∧ rows p b y < 65536 := by
  obtain ⟨c, hc, -⟩ := lcdDisplayBitmap_returns.mp h
  have hrows : rows p b y < 65536 := by
    by_contra hover
    exact count_overrun (by omega) (by omega) hc
  refine ⟨?_, hrows⟩
  by_contra hover
  generalize rows p b y = height at hpos hc hrows
  cases (count_iff hrows).mp hc with
  | none => omega
  | next hrow _ =>
    obtain ⟨u, hu, hrow⟩ := Comp.returns_bind.mp hrow
    cases u with
    | none => cases Comp.returns_pure_iff.mp hrow
    | some u => exact count_overrun (by omega) (by omega) hu

theorem lcdDisplayBitmap_iff (hdraws : p.Draws) (hw : cols p b x < 65536) (hh : rows p b y < 65536) :
    (lcdDisplayBitmap p b x y mem).Returns (some mem') ↔ (∀ i < rows p b y, ∀ j < cols p b x,
        Readable p b (0 + i * stride (cols p b x) (paddedLine b.width) + j)) ∧
      mem' = putRows (pixelSize p) (imagePixels p b (stride (cols p b x) (paddedLine b.width)) 0) (bottom p b x y)
        (lineLength p) (cols p b x) (rows p b y) mem := by
  rw [lcdDisplayBitmap_returns]
  constructor
  · rintro ⟨c, hc, rfl⟩
    obtain ⟨hread, rfl⟩ := (drawRows_iff hdraws hw).mp ((count_iff hh).mp hc)
    exact ⟨hread, rfl⟩
  · rintro ⟨hread, rfl⟩
    exact ⟨_, (count_iff hh).mpr ((drawRows_iff hdraws hw).mpr ⟨hread, rfl⟩), rfl⟩

theorem lcdDisplayBitmap_none (hnone : ¬p.Draws) (hw : cols p b x < 65536) (hh : rows p b y < 65536)
    (h : (lcdDisplayBitmap p b x y mem).Returns (some mem')) : mem' = mem := by
  obtain ⟨c, hc, rfl⟩ := lcdDisplayBitmap_returns.mp h
  refine Rounds.reach (fun _ t => t.mem = mem) (fun i hi t t' ht hstep => ?_) rfl ((count_iff hh).mp hc)
  exact (drawRow_none hnone hw hstep).trans ht

/-- What the pixel in a row and a column of the picture comes to, with `h` rows on the panel. -/
def picture (p : Panel) (b : Bmp) (h r c : Nat) : List UInt8 :=
  shown p b (b.pixels (((h - 1 - r) * b.pitch + c : Nat) : Int))

/-- The part of the picture that is on the panel is shown and nothing else changes. -/
def Displays (p : Panel) (b : Bmp) (x y : Int32) (mem : Int → UInt8) : Prop :=
  ∃ mem', (lcdDisplayBitmap p b x y mem).Returns (some mem') ∧
    Shows (Nat.cast : Nat → Int) (pixelSize p) (lineLength p) (column p b.width x).toUInt32.toNat
      (row p b.height y).toUInt32.toNat
      (visible (column p b.width x) p.vlCol b.width) (visible (row p b.height y) p.vlRow b.height)
      (picture p b (visible (row p b.height y) p.vlRow b.height)) mem mem'

/-- Pictures of this size are clipped, whatever they show and whatever is on the panel. -/
def Clipped (p : Panel) (w h : UInt32) (x y : Int32) : Prop :=
  ∀ table pixels mem, Displays p ⟨w, h, table, pixels⟩ x y mem

/-- A size that is not empty, at a position on the panel. -/
structure OnPanel (p : Panel) (w h : UInt32) (x y : Int32) : Prop where
  width : w ≠ 0
  height : h ≠ 0
  left : 0 ≤ column p w x
  right : (column p w x).toUInt32 < p.vlCol
  top : 0 ≤ row p h y
  bottom : (row p h y).toUInt32 < p.vlRow

/-- The positions and the sizes that come out right: neither sum wraps around, the counters reach the sizes, the one
step from row to row that is taken is the length of a row, and the position needs no scaling. -/
structure Drawable (p : Panel) (w h : UInt32) (x y : Int32) : Prop where
  across : (column p w x).toUInt32.toNat + w.toNat < 2 ^ 32
  down : (row p h y).toUInt32.toNat + h.toNat < 2 ^ 32
  columns : visible (column p w x) p.vlCol w < 65536
  rows : visible (row p h y) p.vlRow h < 65536
  padding : visible (row p h y) p.vlRow h = 1 ∨ 2 * visible (column p w x) p.vlCol w = rowBytes w + rowBytes w % 65536
  place : p.wide = true → (column p w x).toUInt32 = 0
  platform : if p.wide then p.platform = .pxa250 ∨ p.platform = .other else p.platform ≠ .other

theorem visible_pos {pos : Int32} (hpos : pos.toUInt32 < panel) (hsize : size ≠ 0) : 0 < visible pos panel size := by
  have hlt := UInt32.lt_iff_toNat_lt.mp hpos
  have hne : size.toNat ≠ 0 := fun h => hsize (UInt32.toNat_inj.mp h)
  unfold visible
  omega

theorem clip_pos {pos : Int32} (hpos : pos.toUInt32 < panel) (hsize : size ≠ 0) : 0 < (clip pos panel size).toNat := by
  have hvisible := visible_pos hpos hsize
  have hne : size.toNat ≠ 0 := fun h => hsize (UInt32.toNat_inj.mp h)
  rw [clip_toNat hpos]
  split <;> omega

theorem Drawable.draws (h : Drawable p w h x y) : p.Draws := by
  have hplat := h.platform
  unfold Panel.Draws
  split at hplat
  next hwide => exact .inl hwide
  · exact .inr hplat

section Sizes

variable (hon : OnPanel p b.width b.height x y)
include hon

theorem cols_eq (hacross : (column p b.width x).toUInt32.toNat + b.width.toNat < 2 ^ 32) :
    cols p b x = visible (column p b.width x) p.vlCol b.width := by
  unfold cols
  rw [clip_toNat hon.right, if_pos hacross]

theorem rows_eq (hdown : (row p b.height y).toUInt32.toNat + b.height.toNat < 2 ^ 32) :
    rows p b y = visible (row p b.height y) p.vlRow b.height := by
  unfold rows
  rw [clip_toNat hon.bottom, if_pos hdown]

theorem bottom_eq (hdown : (row p b.height y).toUInt32.toNat + b.height.toNat < 2 ^ 32) : bottom p b x y =
    ((row p b.height y).toUInt32.toNat + visible (row p b.height y) p.vlRow b.height - 1) * lineLength p +
      (column p b.width x).toUInt32.toNat := by
  have hrows := rows_eq hon hdown
  have hpos := visible_pos hon.bottom hon.height
  have hpanel := p.vlRow.toNat_lt
  have hin : visible (row p b.height y) p.vlRow b.height ≤ p.vlRow.toNat - (row p b.height y).toUInt32.toNat :=
    Nat.min_le_right _ _
  unfold rows at hrows
  have hsum : ((row p b.height y).toUInt32 + clip (row p b.height y) p.vlRow b.height).toNat =
      (row p b.height y).toUInt32.toNat + visible (row p b.height y) p.vlRow b.height := by
    rw [UInt32.toNat_add, hrows]
    omega
  unfold bottom
  have hone : (1 : UInt32).toNat = 1 := rfl
  have hle := UInt32.le_iff_toNat_le.mpr
    (show (1 : UInt32).toNat ≤ ((row p b.height y).toUInt32 + clip (row p b.height y) p.vlRow b.height).toNat by omega)
  rw [UInt32.toNat_sub_of_le _ _ hle, hsum, hone]

theorem stride_eq_iff (hacross : (column p b.width x).toUInt32.toNat + b.width.toNat < 2 ^ 32) :
    stride (cols p b x) (paddedLine b.width) = b.pitch ↔
      2 * visible (column p b.width x) p.vlCol b.width = rowBytes b.width + rowBytes b.width % 65536 := by
  unfold stride
  rw [paddedLine_toNat, cols_eq hon hacross]
  unfold Bmp.pitch
  omega

theorem rows_readable (hd : Drawable p b.width b.height x y) : ∀ i < rows p b y, ∀ j < cols p b x,
    0 + i * stride (cols p b x) (paddedLine b.width) + j = ((i * b.pitch + j : Nat) : Int) ∧
      Readable p b ((i * b.pitch + j : Nat) : Int) := by
  intro i hi j hj
  have hrow : (0 : Int) + i * stride (cols p b x) (paddedLine b.width) + j = ((i * b.pitch + j : Nat) : Int) := by
    rw [rows_eq hon hd.down] at hi
    rcases hd.padding with hone | hpad
    · rw [hone] at hi
      rw [show i = 0 from by omega]
      simp
    · rw [(stride_eq_iff hon hd.across).mpr hpad]
      push_cast
      ring
  refine ⟨hrow, ⟨Int.natCast_nonneg _, ?_⟩, fun hwide hmap => ?_⟩
  · rw [rows_eq hon hd.down] at hi
    rw [cols_eq hon hd.across] at hj
    have hheight : i + 1 ≤ b.height.toNat := by
      unfold visible at hi
      omega
    have hwidth : j < b.pitch := by
      unfold visible at hj
      unfold Bmp.pitch rowBytes
      omega
    have hle := Nat.mul_le_mul_right b.pitch hheight
    rw [add_mul, one_mul] at hle
    exact_mod_cast (by omega : i * b.pitch + j < b.height.toNat * b.pitch)
  · have hplat := hd.platform
    rw [if_pos hwide] at hplat
    unfold cmapBase at hmap
    rcases hplat with h | h
    · rw [h] at hmap
      cases hmap
    · rw [h] at hmap
      cases hmap

theorem drawing_shows (hacross : (column p b.width x).toUInt32.toNat + b.width.toNat < 2 ^ 32)
    (hdown : (row p b.height y).toUInt32.toNat + b.height.toNat < 2 ^ 32)
    (hplace : p.wide = true → (column p b.width x).toUInt32 = 0) (step : Int) :
    Shows (Nat.cast : Nat → Int) (pixelSize p) (lineLength p) (column p b.width x).toUInt32.toNat
      (row p b.height y).toUInt32.toNat
      (cols p b x) (rows p b y) (fun r c => imagePixels p b step 0 (rows p b y - 1 - r) c) mem
      (putRows (pixelSize p) (imagePixels p b step 0) (bottom p b x y) (lineLength p) (cols p b x) (rows p b y)
        mem) := by
  have hcols := cols_eq hon hacross
  have hrows := rows_eq hon hdown
  have hstart : bottom p b x y = ((row p b.height y).toUInt32.toNat + rows p b y - 1) * lineLength p +
      (column p b.width x).toUInt32.toNat * pixelSize p := by
    rw [bottom_eq hon hdown, hrows]
    unfold pixelSize
    split
    next hw => rw [hplace hw, UInt32.toNat_zero, zero_mul]
    · rw [mul_one]
  have hline : pixelSize p * cols p b x ≤ lineLength p := by
    rw [lineLength_eq, hcols]
    refine Nat.mul_le_mul_left _ ?_
    unfold visible
    omega
  rw [hstart]
  exact putRows_shows (fun _ _ _ _ => imagePixels_length) hline (hrows.trans_gt (visible_pos hon.bottom hon.height))

theorem displays_of_drawable (hd : Drawable p b.width b.height x y) : Displays p b x y mem := by
  have hcols := cols_eq hon hd.across
  have hrows := rows_eq hon hd.down
  have hread := rows_readable hon hd
  have hwide : cols p b x < 65536 := hcols.trans_lt hd.columns
  have hhigh : rows p b y < 65536 := hrows.trans_lt hd.rows
  refine ⟨_, (lcdDisplayBitmap_iff hd.draws hwide hhigh).mpr ⟨fun i hi j hj => ?_, rfl⟩, ?_⟩
  · rw [(hread i hi j hj).1]
    exact (hread i hi j hj).2
  · rw [← hcols, ← hrows]
    refine Shows.congr (fun r hr c hc => ?_) (drawing_shows hon hd.across hd.down hd.place _)
    unfold imagePixels picture
    rw [(hread (rows p b y - 1 - r) (by omega) c hc).1]

theorem small_of_displays (h : Displays p b x y mem) :
    ((column p b.width x).toUInt32.toNat + b.width.toNat < 2 ^ 32 ∧
      visible (column p b.width x) p.vlCol b.width < 65536) ∧
    (row p b.height y).toUInt32.toNat + b.height.toNat < 2 ^ 32 ∧
      visible (row p b.height y) p.vlRow b.height < 65536 := by
  obtain ⟨mem', hret, -⟩ := h
  obtain ⟨hw, hh⟩ := sizes_of_returns (clip_pos hon.bottom hon.height) hret
  exact ⟨(clip_small_iff hon.left hon.right).mp hw, (clip_small_iff hon.top hon.bottom).mp hh⟩

theorem drawn_of_displays (hdraws : p.Draws) (h : Displays p b x y mem) :
    (∀ i < rows p b y, ∀ j < cols p b x, Readable p b (0 + i * stride (cols p b x) (paddedLine b.width) + j)) ∧
      Shows (Nat.cast : Nat → Int) (pixelSize p) (lineLength p) (column p b.width x).toUInt32.toNat
        (row p b.height y).toUInt32.toNat
        (cols p b x) (rows p b y) (picture p b (rows p b y)) mem
        (putRows (pixelSize p) (imagePixels p b (stride (cols p b x) (paddedLine b.width)) 0) (bottom p b x y)
          (lineLength p) (cols p b x) (rows p b y) mem) := by
  obtain ⟨⟨hacross, hcols⟩, hdown, hrows⟩ := small_of_displays hon h
  obtain ⟨mem', hret, hshows⟩ := h
  rw [← cols_eq hon hacross] at hcols
  rw [← rows_eq hon hdown] at hrows
  rw [← cols_eq hon hacross, ← rows_eq hon hdown] at hshows
  obtain ⟨hread, rfl⟩ := (lcdDisplayBitmap_iff hdraws hcols hrows).mp hret
  exact ⟨hread, hshows⟩

end Sizes

theorem unscaled_outside {X Y W vw vh : Nat} (hX : X ≠ 0) (hin : vw ≤ W - X) : ∀ r < vh, ∀ c < vw, ∀ t < 2,
    (Y + vh - 1) * (2 * W) + X ≠ (Y + r) * (2 * W) + (X + c) * 2 + t := by
  intro r hr c hc t ht heq
  by_cases hlast : r = vh - 1
  · rw [hlast, show Y + (vh - 1) = Y + vh - 1 from by omega] at heq
    omega
  · have hrow := Nat.mul_le_mul_right (2 * W) (show Y + r + 1 ≤ Y + vh - 1 by omega)
    rw [add_mul (Y + r) 1, one_mul] at hrow
    omega

theorem place_of_displays (hon : OnPanel p b.width b.height x y) (hwide : p.wide = true)
    (hd : Displays p b x y fun _ => (shown p b (b.pixels 0)).getD 0 default + 1) :
    (column p b.width x).toUInt32 = 0 := by
  have hk : pixelSize p = 2 := if_pos hwide
  have hline : lineLength p = 2 * p.vlCol.toNat := by rw [lineLength_eq, hk]
  obtain ⟨⟨hacross, -⟩, hdown, -⟩ := small_of_displays hon hd
  obtain ⟨-, hshows⟩ := drawn_of_displays hon (.inl hwide) hd
  have hcols := cols_eq hon hacross
  have hrows := rows_eq hon hdown
  have hstart := bottom_eq hon hdown
  rw [← hrows, hline] at hstart
  have hin : cols p b x ≤ p.vlCol.toNat - (column p b.width x).toUInt32.toNat := hcols.trans_le (Nat.min_le_right _ _)
  by_contra hne
  have hX : (column p b.width x).toUInt32.toNat ≠ 0 := fun h0 => hne (UInt32.toNat_inj.mp h0)
  have hsame := hshows.outside (bottom p b x y) fun r hr c hc t ht heq => ?_
  · have hfits : ((pixelSize p : Nat) : Int) * (cols p b x : Nat) ≤ lineLength p := by
      rw [hk, hline]
      exact_mod_cast Nat.mul_le_mul_left 2 (hin.trans (Nat.sub_le _ _))
    have hw : 0 < cols p b x := hcols.trans_gt (visible_pos hon.right hon.width)
    have hh : 0 < rows p b y := hrows.trans_gt (visible_pos hon.bottom hon.height)
    rw [putRows_first (fun _ _ _ _ => imagePixels_length) hfits hh hw (by omega)] at hsame
    unfold imagePixels at hsame
    rw [Nat.cast_zero, Int.zero_mul, Int.add_zero, Int.add_zero] at hsame
    exact absurd (UInt8.left_eq_add.mp hsame) (by decide)
  · rw [hk] at heq ht
    rw [hstart, hline] at heq
    exact unscaled_outside hX hin r hr c hc t ht (Int.ofNat.inj heq)

theorem shown_black_white {v : UInt8} (htable : p.wide = true → b.colorTable = fun v => if v = 0 then ⟨0, 0, 0⟩ else
    ⟨255, 255, 255⟩) (h : shown p b v = shown p b 1) : v ≠ 0 := by
  intro hv
  rw [hv] at h
  unfold shown at h
  split at h
  next hwide =>
    rw [htable hwide] at h
    cases ho : p.order with
    | little =>
      rw [ho] at h
      cases hi : p.invert with
      | false =>
        rw [hi] at h
        exact absurd h (by decide)
      | true =>
        rw [hi] at h
        exact absurd h (by decide)
    | big =>
      rw [ho] at h
      cases hi : p.invert with
      | false =>
        rw [hi] at h
        exact absurd h (by decide)
      | true =>
        rw [hi] at h
        exact absurd h (by decide)
  · unfold shade at h
    cases hp : p.platform <;> rw [hp] at h <;> exact absurd h (by decide)

def whiteDot (w h : UInt32) : Bmp where
  width := w
  height := h
  colorTable := fun v => if v = 0 then ⟨0, 0, 0⟩ else ⟨255, 255, 255⟩
  pixels := fun o => if o = (rowBytes w : Nat) then 1 else 0

theorem padding_of_displays (hon : OnPanel p w h x y) (hdraws : p.Draws)
    (hplace : p.wide = true → (column p w x).toUInt32 = 0) (hd : Displays p (whiteDot w h) x y mem) :
    visible (row p h y) p.vlRow h = 1 ∨ 2 * visible (column p w x) p.vlCol w = rowBytes w + rowBytes w % 65536 := by
  have hon : OnPanel p (whiteDot w h).width (whiteDot w h).height x y := hon
  obtain ⟨⟨hacross, -⟩, hdown, -⟩ := small_of_displays hon hd
  obtain ⟨-, hshows⟩ := drawn_of_displays hon hdraws hd
  by_contra hno
  obtain ⟨hrows, hpad⟩ := not_or.mp hno
  have hpos := visible_pos hon.bottom hon.height
  have hheight := rows_eq hon hdown
  rw [← show rows p (whiteDot w h) y = visible (row p h y) p.vlRow h from hheight] at hrows
  rw [← hheight] at hpos
  have hcols : 0 < cols p (whiteDot w h) x := (cols_eq hon hacross).trans_gt (visible_pos hon.right hon.width)
  have hsecond : rows p (whiteDot w h) y - 1 - (rows p (whiteDot w h) y - 2) = 1 := by omega
  have hsame := (drawing_shows hon hacross hdown hplace _).pixel_unique hshows (r := rows p (whiteDot w h) y - 2)
    (c := 0) (by omega) hcols imagePixels_length (shown_length _)
  unfold imagePixels picture at hsame
  rw [hsecond, one_mul, add_zero, Nat.cast_one, Int.one_mul, Nat.cast_zero, Int.add_zero, Int.zero_add]
    at hsame
  have hwhite : (whiteDot w h).pixels ((whiteDot w h).pitch : Nat) = 1 := if_pos rfl
  rw [hwhite] at hsame
  have hne := shown_black_white (fun _ => rfl) hsame
  exact hpad ((stride_eq_iff hon hacross).mp (ite_ne_right_iff.mp hne).1)

section Needed

variable (hon : OnPanel p w h x y)
include hon

theorem platform_of_clipped (hc : Clipped p w h x y) :
    if p.wide then p.platform = .pxa250 ∨ p.platform = .other else p.platform ≠ .other := by
  split
  next hwide =>
    have hdraws : p.Draws := .inl hwide
    obtain ⟨hread, -⟩ := drawn_of_displays (b := ⟨w, h, fun _ => ⟨0, 0, 0⟩, fun _ => 1⟩) hon hdraws
      (hc _ _ fun _ => 0)
    have hfirst := (hread 0 (clip_pos hon.bottom hon.height) 0 (clip_pos hon.right hon.width)).2 hwide
    unfold cmapBase at hfirst
    cases hp : p.platform with
    | pxa250 => exact .inl rfl
    | other => exact .inr rfl
    | mpc823 =>
      rw [hp] at hfirst
      exact absurd (if_neg (show ¬(1 : UInt8) = 0 by decide)) hfirst
    | mcc200 =>
      rw [hp] at hfirst
      exact absurd rfl hfirst
    | atmel =>
      rw [hp] at hfirst
      exact absurd rfl hfirst
  next hwide =>
    intro hplat
    have hnone : ¬p.Draws := fun hd => hd.elim hwide fun hne => hne hplat
    have hd := hc (fun _ => ⟨0, 0, 0⟩) (fun _ => 0) fun _ => 1
    obtain ⟨⟨hacross, hcols⟩, hdown, hrows⟩ := small_of_displays (b := ⟨w, h, _, _⟩) hon hd
    obtain ⟨mem', hret, hshows⟩ := hd
    have hsame := lcdDisplayBitmap_none hnone ((cols_eq (b := ⟨w, h, _, _⟩) hon hacross).trans_lt hcols)
      ((rows_eq (b := ⟨w, h, _, _⟩) hon hdown).trans_lt hrows) hret
    have hpixel := hshows.inside 0 (visible_pos hon.bottom hon.height) 0 (visible_pos hon.right hon.width) 0
      (by unfold pixelSize; split <;> omega)
    rw [hsame] at hpixel
    unfold picture shown shade at hpixel
    rw [if_neg hwide, hplat] at hpixel
    exact absurd (show (1 : UInt8) = 0 from hpixel) (by decide)

theorem drawable_of_clipped (hc : Clipped p w h x y) : Drawable p w h x y := by
  have hplat := platform_of_clipped hon hc
  have hplace : p.wide = true → (column p w x).toUInt32 = 0 := fun hwide =>
    place_of_displays (b := ⟨w, h, fun _ => ⟨0, 0, 0⟩, fun _ => 0⟩) hon hwide (hc _ _ _)
  have hdraws : p.Draws := by
    unfold Panel.Draws
    split at hplat
    next hwide => exact .inl hwide
    · exact .inr hplat
  have hd : Displays p (whiteDot w h) x y fun _ => 0 := hc _ _ _
  obtain ⟨⟨hacross, hcols⟩, hdown, hrows⟩ := small_of_displays (b := whiteDot w h) hon hd
  exact ⟨hacross, hdown, hcols, hrows, padding_of_displays hon hdraws hplace hd, hplace, hplat⟩

end Needed

/-- A picture at a position on the panel is clipped and not skewed exactly where it is drawn right. -/
theorem clipped_iff_drawable {w h : UInt32} (hon : OnPanel p w h x y) : Clipped p w h x y ↔ Drawable p w h x y := by
  constructor
  · exact drawable_of_clipped hon
  · intro hd table pixels mem
    exact displays_of_drawable (b := ⟨w, h, table, pixels⟩) hon hd

def smallPanel : Panel := ⟨.pxa250, .little, false, false, false, 8, 8⟩

theorem clipped_four : Clipped smallPanel 4 2 6 7 :=
  (clipped_iff_drawable ⟨by decide, by decide, by decide, by decide, by decide, by decide⟩).mpr
    ⟨by decide, by decide, by decide, by decide, by decide, nofun, by decide⟩

/-- A picture of two rows with three columns each is skewed. -/
theorem skewed_three : OnPanel smallPanel 3 2 0 0 ∧ ¬Clipped smallPanel 3 2 0 0 := by
  have hon : OnPanel smallPanel 3 2 0 0 := ⟨by decide, by decide, by decide, by decide, by decide, by decide⟩
  refine ⟨hon, fun hc => ?_⟩
  have hpad := padding_of_displays hon (.inr (by decide)) nofun (hc _ _ fun _ => 0)
  exact absurd hpad (by decide)

end UBoot.Lcd
