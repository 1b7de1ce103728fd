import UBoot.Terminal
import UBoot.VideoBitmap

namespace UBoot.Video

open Blit UBoot.Part

/-- `VIDEO_FONT_WIDTH`, `VIDEO_FONT_HEIGHT`, `CONSOLE_BG_COL` -/
def videoFontWidth : Nat := 8
def videoFontHeight : Nat := 16
def consoleBgCol : UInt32 := 0x00

/-- The console of a graphics device, without a cursor that is drawn, `VIDEO_HW_BITBLT` and `VIDEO_HW_RECTFILL`.
`logoHeight` is `VIDEO_LOGO_HEIGHT`, `splash` tells that `video_logo` has displayed a splash image instead of the
logo, and `pixelSwap` is `VIDEO_FB_16BPP_PIXEL_SWAP`. -/
structure Console where
  screen : Screen
  pixelSwap : Bool
  logoHeight : Nat
  splash : Bool
  font : Nat → UInt8
  eorx : UInt32
  bgx : UInt32
  logoFits : logoHeight ≤ screen.rows.toNat
  atLeastCols : 8 ≤ screen.cols.toNat / videoFontWidth
  atLeastRows : 1 ≤ (screen.rows.toNat - logoHeight) / videoFontHeight

variable (con : Console)

/-- `VIDEO_PIXEL_SIZE`, `VIDEO_LINE_LEN` -/
def Console.pixelSize : Nat := con.screen.format.pixelSize
def Console.lineLen : Nat := con.screen.cols.toNat * con.pixelSize

/-- `CONSOLE_ROWS`, `CONSOLE_COLS`, `CONSOLE_ROW_SIZE`, `CONSOLE_SIZE`, `CONSOLE_SCROLL_SIZE` -/
def Console.rows : Nat := (con.screen.rows.toNat - con.logoHeight) / videoFontHeight
def Console.cols : Nat := con.screen.cols.toNat / videoFontWidth
def Console.rowSize : Nat := videoFontHeight * con.lineLen
def Console.size : Nat := con.rowSize * con.rows
def Console.scrollSize : Nat := con.size - con.rowSize

/-- `video_console_address` -/
def Console.address : Nat := if con.splash then 0 else con.logoHeight * con.lineLen

def shortswap32 (x : UInt32) : UInt32 :=
  if con.screen.littleEndian then
    ((x &&& 0x000000ff) <<< 8) ||| ((x &&& 0x0000ff00) >>> 8) ||| ((x &&& 0x00ff0000) <<< 8) |||
      ((x &&& 0xff000000) >>> 8)
  else if con.pixelSwap then (x >>> 16) ||| (x <<< 16)
  else x

def videoFontDrawTable8 : List UInt32 :=
  [0x00000000, 0x000000ff, 0x0000ff00, 0x0000ffff, 0x00ff0000, 0x00ff00ff, 0x00ffff00, 0x00ffffff,
   0xff000000, 0xff0000ff, 0xff00ff00, 0xff00ffff, 0xffff0000, 0xffff00ff, 0xffffff00, 0xffffffff]

def videoFontDrawTable15 : List UInt32 := [0x00000000, 0x00007fff, 0x7fff0000, 0x7fff7fff]

def videoFontDrawTable16 : List UInt32 := [0x00000000, 0x0000ffff, 0xffff0000, 0xffffffff]

def videoFontDrawTable24 : List (UInt32 × UInt32 × UInt32) :=
  [(0x00000000, 0x00000000, 0x00000000), (0x00000000, 0x00000000, 0x00ffffff), (0x00000000, 0x0000ffff, 0xff000000),
   (0x00000000, 0x0000ffff, 0xffffffff), (0x000000ff, 0xffff0000, 0x00000000), (0x000000ff, 0xffff0000, 0x00ffffff),
   (0x000000ff, 0xffffffff, 0xff000000), (0x000000ff, 0xffffffff, 0xffffffff), (0xffffff00, 0x00000000, 0x00000000),
   (0xffffff00, 0x00000000, 0x00ffffff), (0xffffff00, 0x0000ffff, 0xff000000), (0xffffff00, 0x0000ffff, 0xffffffff),
   (0xffffffff, 0xffff0000, 0x00000000), (0xffffffff, 0xffff0000, 0x00ffffff), (0xffffffff, 0xffffffff, 0xff000000),
   (0xffffffff, 0xffffffff, 0xffffffff)]

def videoFontDrawTable32 : List (UInt32 × UInt32 × UInt32 × UInt32) :=
  [(0x00000000, 0x00000000, 0x00000000, 0x00000000), (0x00000000, 0x00000000, 0x00000000, 0x00ffffff),
   (0x00000000, 0x00000000, 0x00ffffff, 0x00000000), (0x00000000, 0x00000000, 0x00ffffff, 0x00ffffff),
   (0x00000000, 0x00ffffff, 0x00000000, 0x00000000), (0x00000000, 0x00ffffff, 0x00000000, 0x00ffffff),
   (0x00000000, 0x00ffffff, 0x00ffffff, 0x00000000), (0x00000000, 0x00ffffff, 0x00ffffff, 0x00ffffff),
   (0x00ffffff, 0x00000000, 0x00000000, 0x00000000), (0x00ffffff, 0x00000000, 0x00000000, 0x00ffffff),
   (0x00ffffff, 0x00000000, 0x00ffffff, 0x00000000), (0x00ffffff, 0x00000000, 0x00ffffff, 0x00ffffff),
   (0x00ffffff, 0x00ffffff, 0x00000000, 0x00000000), (0x00ffffff, 0x00ffffff, 0x00000000, 0x00ffffff),
   (0x00ffffff, 0x00ffffff, 0x00ffffff, 0x00000000), (0x00ffffff, 0x00ffffff, 0x00ffffff, 0x00ffffff)]

def glyphWords (bits : UInt8) : List UInt32 :=
  let paint := fun v : UInt32 => (v &&& con.eorx) ^^^ con.bgx
  let hi := (bits >>> 4).toNat
  let lo := (bits &&& 15).toNat
  let pairs := [(bits >>> 6).toNat, ((bits >>> 4) &&& 3).toNat, ((bits >>> 2) &&& 3).toNat, (bits &&& 3).toNat]
  match con.screen.format with
  | .index8 | .rgb332 => [paint (videoFontDrawTable8.getD hi 0), paint (videoFontDrawTable8.getD lo 0)]
  | .rgb555 => pairs.map fun i => shortswap32 con (paint (videoFontDrawTable15.getD i 0))
  | .rgb565 => pairs.map fun i => shortswap32 con (paint (videoFontDrawTable16.getD i 0))
  | .x888 =>
    let h := videoFontDrawTable32.getD hi (0, 0, 0, 0)
    let l := videoFontDrawTable32.getD lo (0, 0, 0, 0)
    [h.1, h.2.1, h.2.2.1, h.2.2.2, l.1, l.2.1, l.2.2.1, l.2.2.2].map fun v => swap32 con.screen (paint v)
  | .rgb888 =>
    let h := videoFontDrawTable24.getD hi (0, 0, 0)
    let l := videoFontDrawTable24.getD lo (0, 0, 0)
    [h.1, h.2.1, h.2.2, l.1, l.2.1, l.2.2].map paint

def glyphLine (bits : UInt8) : List UInt8 := (glyphWords con bits).flatMap (wordBytes con.screen.order)

def putBytes (mem : Nat → UInt8) (a : Nat) (bytes : List UInt8) : Nat → UInt8 :=
  fun x => if a ≤ x ∧ x < a + bytes.length then bytes.getD (x - a) 0 else mem x

/-- `cdat`, `dest` and the frame buffer. -/
structure Pen where
  cdat : Nat
  dest : Nat
  mem : Nat → UInt8

/-- The body of the loop over the rows of a glyph. -/
def drawLine (p : Pen) : Pen :=
  ⟨p.cdat + 1, p.dest + con.lineLen, putBytes p.mem p.dest (glyphLine con (con.font p.cdat))⟩

def drawChar (c : UInt8) (dest0 : Nat) (mem : Nat → UInt8) : Nat → UInt8 :=
  ((drawLine con)^[videoFontHeight] ⟨c.toNat * videoFontHeight, dest0, mem⟩).mem

/-- The loop over the characters in `video_drawchars`. -/
def drawChars : List UInt8 → Nat → (Nat → UInt8) → Nat → UInt8
  | [], _, mem => mem
  | c :: s, dest0, mem => drawChars s (dest0 + videoFontWidth * con.pixelSize) (drawChar con c dest0 mem)

def videoDrawchars (xx yy : Nat) (s : List UInt8) (mem : Nat → UInt8) : Nat → UInt8 :=
  drawChars con s (yy * con.lineLen + xx * con.pixelSize) mem

def videoPutchar (xx yy : Nat) (c : UInt8) (mem : Nat → UInt8) : Nat → UInt8 :=
  videoDrawchars con xx (yy + con.logoHeight) [c] mem

def memsetl (p c : Nat) (v : UInt32) (mem : Nat → UInt8) : Nat → UInt8 :=
  ((fun t : Nat × (Nat → UInt8) => (t.1 + 4, putBytes t.2 t.1 (wordBytes con.screen.order v)))^[c] (p, mem)).2

def wordAt (mem : Nat → UInt8) (a : Nat) : List UInt8 := [mem a, mem (a + 1), mem (a + 2), mem (a + 3)]

def memcpyl (d s c : Nat) (mem : Nat → UInt8) : Nat → UInt8 :=
  ((fun t : Nat × Nat × (Nat → UInt8) =>
    (t.1 + 4, t.2.1 + 4, putBytes t.2.2 t.1 (wordAt t.2.2 t.2.1)))^[c] (d, s, mem)).2.2

def consoleScrollup (mem : Nat → UInt8) : Nat → UInt8 :=
  memsetl con (con.address + con.size - con.rowSize) (con.rowSize / 4) consoleBgCol
    (memcpyl con.address (con.address + con.rowSize) (con.scrollSize / 4) mem)

/-- The frame buffer, `console_col`, `console_row` and the `nl` of `video_putc`. -/
structure State where
  mem : Nat → UInt8
  col : Nat
  row : Nat
  nl : Bool

def consoleBack (st : State) : State :=
  let (col, row) := if st.col = 0 then (con.cols - 1, st.row - 1) else (st.col - 1, st.row)
  { st with
    col := col, row := row,
    mem := videoPutchar con (col * videoFontWidth) (row * videoFontHeight) 0x20 st.mem }

/-- `console_newline`. Where no cursor is drawn `CURSOR_OFF` is empty, and the `if` before it is about the statement
behind it. -/
def consoleNewline (st : State) : State :=
  let row := if st.col < con.cols then st.row + 1 else st.row
  if con.rows ≤ row then { st with col := 0, row := row - 1, mem := consoleScrollup con st.mem }
  else { st with col := 0, row := row }

def videoPutc (st : State) (c : UInt8) : State :=
  if c = 13 then { st with col := 0 }
  else if c = 10 then
    let st := if st.col ≠ 0 ∨ (st.col = 0 ∧ st.nl = true) then consoleNewline con st else st
    { st with nl := true }
  else if c = 9 then
    let col := (st.col ||| 0x0008) / 8 * 8
    let st := { st with col := col }
    if con.cols ≤ col then consoleNewline con st else st
  else if c = 8 then consoleBack con st
  else
    let st := { st with
      mem := videoPutchar con (st.col * videoFontWidth) (st.row * videoFontHeight) c st.mem, col := st.col + 1 }
    if con.cols ≤ st.col then { consoleNewline con st with nl := false } else st

variable {con : Console} {mem : Nat → UInt8}

theorem glyphLine_length (bits : UInt8) : (glyphLine con bits).length = videoFontWidth * con.pixelSize := by
  have hword : ∀ v ∈ glyphWords con bits, (wordBytes con.screen.order v).length = 4 := fun v _ => wordBytes_length _ v
  have hcount : (glyphWords con bits).length * 4 = videoFontWidth * con.pixelSize := by
    unfold glyphWords Console.pixelSize
    cases con.screen.format <;> rfl
  unfold glyphLine
  rw [List.length_flatMap, List.map_congr_left hword, List.map_const', List.sum_replicate, ← hcount]
  rfl

theorem putBytes_writes (mem : Nat → UInt8) (a : Nat) (bytes : List UInt8) :
    Writes (fun x v => ∃ t < bytes.length, x = a + t ∧ v = bytes.getD t 0) mem (putBytes mem a bytes) := by
  constructor
  · intro x hx
    refine if_neg fun hin => hx (bytes.getD (x - a) 0) ⟨x - a, by omega, by omega, rfl⟩
  · rintro x v ⟨t, ht, rfl, rfl⟩
    refine ⟨t, ht, rfl, ?_⟩
    unfold putBytes
    rw [if_pos (by omega), Nat.add_sub_cancel_left]

def glyphByte (con : Console) (c : UInt8) (k u : Nat) : UInt8 :=
  (glyphLine con (con.font (c.toNat * videoFontHeight + k))).getD u 0

theorem drawLine_mem (p : Pen) :
    (drawLine con p).mem = putBytes p.mem p.dest (glyphLine con (con.font p.cdat)) := rfl

theorem drawLines_place (con : Console) (p : Pen) (n : Nat) : ((drawLine con)^[n] p).cdat = p.cdat + n ∧
    ((drawLine con)^[n] p).dest = p.dest + n * con.lineLen := by
  induction n with
  | zero => simp
  | succ n ih =>
    rw [Function.iterate_succ_apply']
    refine ⟨?_, ?_⟩
    · show ((drawLine con)^[n] p).cdat + 1 = _
      rw [ih.1, add_assoc]
    · show ((drawLine con)^[n] p).dest + con.lineLen = _
      rw [ih.2, add_mul, one_mul, add_assoc]

theorem drawChar_writes (con : Console) (mem : Nat → UInt8) (c : UInt8) (dest : Nat) :
    Writes (fun a v => ∃ k < videoFontHeight, ∃ u < videoFontWidth * con.pixelSize,
      a = dest + k * con.lineLen + u ∧ v = glyphByte con c k u) mem (drawChar con c dest mem) := by
  refine Writes.rounds (p := fun k => ((drawLine con)^[k] ⟨c.toNat * videoFontHeight, dest, mem⟩).mem) fun k hk => ?_
  obtain ⟨hcdat, hdest⟩ := drawLines_place con ⟨c.toNat * videoFontHeight, dest, mem⟩ k
  have hline := putBytes_writes ((drawLine con)^[k] ⟨c.toNat * videoFontHeight, dest, mem⟩).mem
    (dest + k * con.lineLen) (glyphLine con (con.font (c.toNat * videoFontHeight + k)))
  rw [glyphLine_length] at hline
  rw [Function.iterate_succ_apply', drawLine_mem, hcdat, hdest]
  exact hline

theorem putBytes_apply (mem : Nat → UInt8) (a : Nat) (bytes : List UInt8) (x : Nat) :
    putBytes mem a bytes x = if a ≤ x ∧ x < a + bytes.length then bytes.getD (x - a) 0 else mem x := rfl

/-- The next word behind `n` of them. -/
theorem putBytes_next {v : Nat → UInt8} {p n : Nat} {word : List UInt8} (hlen : word.length = 4)
    (hword : ∀ k < 4, word.getD k 0 = v (p + 4 * n + k)) :
    putBytes (fun x => if p ≤ x ∧ x < p + 4 * n then v x else mem x) (p + 4 * n) word =
      fun x => if p ≤ x ∧ x < p + 4 * (n + 1) then v x else mem x := by
  funext x
  rw [putBytes_apply, hlen]
  by_cases hnow : p + 4 * n ≤ x ∧ x < p + 4 * n + 4
  · rw [if_pos hnow, if_pos (by omega), hword _ (by omega)]
    congr 1
    omega
  · rw [if_neg hnow]
    by_cases hpast : p ≤ x ∧ x < p + 4 * n
    · rw [if_pos hpast, if_pos (by omega)]
    · rw [if_neg hpast, if_neg (by omega)]

theorem memsetl_apply (p c : Nat) (v : UInt32) (x : Nat) : memsetl con p c v mem x =
    if p ≤ x ∧ x < p + 4 * c then (wordBytes con.screen.order v).getD ((x - p) % 4) 0 else mem x := by
  have hrun : ∀ n, ((fun t : Nat × (Nat → UInt8) =>
      (t.1 + 4, putBytes t.2 t.1 (wordBytes con.screen.order v)))^[n] (p, mem)) =
      (p + 4 * n, fun x => if p ≤ x ∧ x < p + 4 * n then (wordBytes con.screen.order v).getD ((x - p) % 4) 0
        else mem x) := by
    intro n
    induction n with
    | zero =>
      refine Prod.ext rfl (funext fun x => ?_)
      exact (if_neg (by omega)).symm
    | succ n ih =>
      rw [Function.iterate_succ_apply', ih]
      refine Prod.ext (by dsimp only; omega) (putBytes_next (wordBytes_length _ _) fun k hk => ?_)
      congr 1
      omega
  exact congrFun (congrArg Prod.snd (hrun c)) x

theorem wordAt_length (mem : Nat → UInt8) (a : Nat) : (wordAt mem a).length = 4 := rfl

theorem wordAt_getD (mem : Nat → UInt8) (a : Nat) {u : Nat} (hu : u < 4) : (wordAt mem a).getD u 0 = mem (a + u) := by
  obtain rfl | rfl | rfl | rfl : u = 0 ∨ u = 1 ∨ u = 2 ∨ u = 3 := by omega
  · rfl
  · rfl
  · rfl
  · rfl

theorem memcpyl_apply {d s : Nat} (hds : d ≤ s) (c x : Nat) :
    memcpyl d s c mem x = if d ≤ x ∧ x < d + 4 * c then mem (x - d + s) else mem x := by
  have hrun : ∀ n, ((fun t : Nat × Nat × (Nat → UInt8) =>
      (t.1 + 4, t.2.1 + 4, putBytes t.2.2 t.1 (wordAt t.2.2 t.2.1)))^[n] (d, s, mem)) =
      (d + 4 * n, s + 4 * n, fun x => if d ≤ x ∧ x < d + 4 * n then mem (x - d + s) else mem x) := by
    intro n
    induction n with
    | zero =>
      refine Prod.ext rfl (Prod.ext rfl (funext fun x => ?_))
      exact (if_neg (by omega)).symm
    | succ n ih =>
      rw [Function.iterate_succ_apply', ih]
      refine Prod.ext (by dsimp only; omega)
        (Prod.ext (by dsimp only; omega) (putBytes_next (wordAt_length _ _) fun k hk => ?_))
      rw [wordAt_getD _ _ hk]
      dsimp only
      rw [if_neg (by omega)]
      congr 1
      omega
  exact congrFun (congrArg (fun t => t.2.2) (hrun c)) x

def cellAdr (con : Console) (r c k u : Nat) : Nat :=
  (con.logoHeight + r * videoFontHeight + k) * con.lineLen + (c * (videoFontWidth * con.pixelSize) + u)

def InArea (con : Console) (a : Nat) : Prop :=
  con.logoHeight * con.lineLen ≤ a ∧ a < (con.logoHeight + con.rows * videoFontHeight) * con.lineLen

section Cells

variable {r c k u r' c' k' u' : Nat}

theorem cell_in_line (hc : c < con.cols) (hu : u < videoFontWidth * con.pixelSize) :
    c * (videoFontWidth * con.pixelSize) + u < con.lineLen := by
  have hcols : (c + 1) * videoFontWidth ≤ con.screen.cols.toNat :=
    (Nat.mul_le_mul_right _ hc).trans (Nat.div_mul_le_self _ _)
  have hline := Nat.mul_le_mul_right con.pixelSize hcols
  rw [mul_assoc, add_mul, one_mul] at hline
  unfold Console.lineLen
  omega

theorem cellAdr_inj (hc : c < con.cols) (hu : u < videoFontWidth * con.pixelSize) (hk : k < videoFontHeight)
    (hc' : c' < con.cols) (hu' : u' < videoFontWidth * con.pixelSize) (hk' : k' < videoFontHeight)
    (h : cellAdr con r c k u = cellAdr con r' c' k' u') : r = r' ∧ c = c' ∧ k = k' ∧ u = u' := by
  obtain ⟨hline, hin⟩ := mul_add_inj (cell_in_line hc hu) (cell_in_line hc' hu') h
  obtain ⟨hcol, hbyte⟩ := mul_add_inj hu hu' hin
  have hrows : r * videoFontHeight + k = r' * videoFontHeight + k' := by omega
  obtain ⟨hrow, hin'⟩ := mul_add_inj hk hk' hrows
  exact ⟨hrow, hcol, hin', hbyte⟩

theorem cell_in_area (hr : r < con.rows) (hc : c < con.cols) (hk : k < videoFontHeight)
    (hu : u < videoFontWidth * con.pixelSize) : InArea con (cellAdr con r c k u) := by
  have hin := cell_in_line hc hu
  have hlow := Nat.mul_le_mul_right con.lineLen
    (show con.logoHeight ≤ con.logoHeight + r * videoFontHeight + k by omega)
  have hrows := Nat.mul_le_mul_right videoFontHeight hr
  have hhigh := Nat.mul_le_mul_right con.lineLen
    (show con.logoHeight + r * videoFontHeight + k + 1 ≤ con.logoHeight + con.rows * videoFontHeight by
      rw [Nat.succ_mul] at hrows
      omega)
  rw [Nat.succ_mul] at hhigh
  unfold InArea cellAdr
  omega

theorem videoPutchar_writes (v : UInt8) (r c : Nat) : Writes (fun a w => ∃ k < videoFontHeight,
      ∃ u < videoFontWidth * con.pixelSize, a = cellAdr con r c k u ∧ w = glyphByte con v k u)
    mem (videoPutchar con (c * videoFontWidth) (r * videoFontHeight) v mem) := by
  have hplace : ∀ k u, (r * videoFontHeight + con.logoHeight) * con.lineLen + c * videoFontWidth * con.pixelSize +
      k * con.lineLen + u = cellAdr con r c k u := by
    intro k u
    unfold cellAdr
    ring
  have hdrawn := drawChar_writes con mem v
    ((r * videoFontHeight + con.logoHeight) * con.lineLen + c * videoFontWidth * con.pixelSize)
  simp only [hplace] at hdrawn
  exact hdrawn

theorem videoPutchar_cell (v : UInt8) (hc : c < con.cols) (hk : k < videoFontHeight)
    (hu : u < videoFontWidth * con.pixelSize) :
    videoPutchar con (c * videoFontWidth) (r * videoFontHeight) v mem (cellAdr con r c k u) = glyphByte con v k u := by
  refine (videoPutchar_writes v r c).only ⟨k, hk, u, hu, rfl, rfl⟩ ?_
  rintro w ⟨k', hk', u', hu', hadr, rfl⟩
  obtain ⟨-, -, rfl, rfl⟩ := cellAdr_inj hc hu hk hc hu' hk' hadr
  rfl

theorem videoPutchar_other (v : UInt8) {a : Nat} (h : ∀ k < videoFontHeight, ∀ u < videoFontWidth * con.pixelSize,
    a ≠ cellAdr con r c k u) : videoPutchar con (c * videoFontWidth) (r * videoFontHeight) v mem a = mem a := by
  refine (videoPutchar_writes v r c).kept a ?_
  rintro w ⟨k, hk, u, hu, rfl, -⟩
  exact h k hk u hu rfl

theorem scrollSize_eq : con.scrollSize = con.rowSize * (con.rows - 1) := by
  unfold Console.scrollSize Console.size
  rw [Nat.mul_sub, mul_one]

theorem scroll_apply (a : Nat) : consoleScrollup con mem a =
    if con.address ≤ a ∧ a < con.address + con.rowSize * (con.rows - 1) then mem (a + con.rowSize)
    else if con.address ≤ a ∧ a < con.address + con.rowSize * con.rows then 0
    else mem a := by
  have hrows : 1 ≤ con.rows := con.atLeastRows
  obtain ⟨n, hn⟩ : ∃ n, con.rows = n + 1 := ⟨con.rows - 1, by omega⟩
  have hwords : 4 * (con.rowSize / 4) = con.rowSize := by
    unfold Console.rowSize videoFontHeight
    omega
  have hscroll : 4 * (con.scrollSize / 4) = con.rowSize * n := by
    rw [scrollSize_eq, hn, Nat.add_sub_cancel, ← hwords, mul_assoc, Nat.mul_div_cancel_left _ (by decide)]
  have hblank : ∀ i, (wordBytes con.screen.order consoleBgCol).getD (i % 4) 0 = 0 := by
    intro i
    obtain h | h | h | h : i % 4 = 0 ∨ i % 4 = 1 ∨ i % 4 = 2 ∨ i % 4 = 3 := by omega
    all_goals
      rw [h]
      cases con.screen.order <;> rfl
  have hlast : con.address + con.size - con.rowSize = con.address + con.rowSize * n := by
    unfold Console.size
    rw [hn, Nat.mul_succ]
    omega
  unfold consoleScrollup
  rw [memsetl_apply, memcpyl_apply (by omega), hblank, hwords, hscroll, hlast, hn, Nat.add_sub_cancel, Nat.mul_succ]
  by_cases hmoved : con.address ≤ a ∧ a < con.address + con.rowSize * n
  · rw [if_neg (by omega), if_pos hmoved, if_pos hmoved]
    congr 1
    omega
  · rw [if_neg hmoved, if_neg hmoved]
    split
    · rw [if_pos (by omega)]
    · rw [if_neg (by omega)]

theorem scroll_cell (hadr : con.address = con.logoHeight * con.lineLen) (hr : r < con.rows) (hc : c < con.cols)
    (hk : k < videoFontHeight) (hu : u < videoFontWidth * con.pixelSize) :
    consoleScrollup con mem (cellAdr con r c k u) =
      if r + 1 < con.rows then mem (cellAdr con (r + 1) c k u) else 0 := by
  have hin := cell_in_line hc hu
  have hplace : cellAdr con r c k u = con.address + con.rowSize * r +
      (k * con.lineLen + (c * (videoFontWidth * con.pixelSize) + u)) := by
    rw [hadr]
    unfold cellAdr Console.rowSize
    ring
  have hnext : cellAdr con (r + 1) c k u = cellAdr con r c k u + con.rowSize := by
    unfold cellAdr Console.rowSize
    ring
  have hinside : k * con.lineLen + (c * (videoFontWidth * con.pixelSize) + u) < con.rowSize := by
    have hline := Nat.mul_le_mul_right con.lineLen hk
    rw [Nat.succ_mul] at hline
    unfold Console.rowSize
    omega
  have hbelow : ∀ n, r < n → con.rowSize * r + con.rowSize ≤ con.rowSize * n := by
    intro n hn
    have hle := Nat.mul_le_mul_left con.rowSize hn
    rwa [Nat.mul_succ] at hle
  rw [scroll_apply, hnext, hplace]
  by_cases hlast : r + 1 < con.rows
  · have hle := hbelow (con.rows - 1) (by omega)
    rw [if_pos (by omega), if_pos hlast]
  · have hrows : con.rows - 1 = r := by omega
    have hle := hbelow con.rows hr
    rw [hrows, if_neg (by omega), if_pos (by omega), if_neg hlast]

theorem scroll_outside (hadr : con.address = con.logoHeight * con.lineLen) {a : Nat} (ha : ¬InArea con a) :
    consoleScrollup con mem a = mem a := by
  have hsize : con.address + con.rowSize * con.rows =
      (con.logoHeight + con.rows * videoFontHeight) * con.lineLen := by
    rw [hadr]
    unfold Console.rowSize
    ring
  have hmoved := Nat.mul_le_mul_left con.rowSize (Nat.sub_le con.rows 1)
  unfold InArea at ha
  rw [scroll_apply, if_neg (by omega), if_neg (by omega)]

end Cells

/-- What stands in a cell: what was there before the first character, a character, or nothing behind a scroll. -/
inductive Cell where
  | untouched (r c : Nat)
  | char (v : UInt8)
  | blank

def render (con : Console) (mem₀ : Nat → UInt8) : Cell → Nat → Nat → UInt8
  | .untouched r c, k, u => mem₀ (cellAdr con r c k u)
  | .char v, k, u => glyphByte con v k u
  | .blank, _, _ => 0

def keyOf (c : UInt8) : Terminal.Key Cell :=
  if c = 13 then .carriageReturn
  else if c = 10 then .lineFeed
  else if c = 9 then .tab
  else if c = 8 then .backspace
  else .char (.char c)

def consoleRun (con : Console) (mem₀ : Nat → UInt8) (cs : List UInt8) : State :=
  cs.foldl (videoPutc con) ⟨mem₀, 0, 0, true⟩
def idealRun (con : Console) (cs : List UInt8) : Terminal.State Cell :=
  Terminal.State.run con.cols con.rows .blank (.char 0x20) ⟨.untouched, 0, 0, false⟩ (cs.map keyOf)

def ShowsText (con : Console) (mem₀ mem : Nat → UInt8) (text : Nat → Nat → Cell) : Prop :=
  ∀ r < con.rows, ∀ c < con.cols, ∀ k < videoFontHeight, ∀ u < videoFontWidth * con.pixelSize,
    mem (cellAdr con r c k u) = render con mem₀ (text r c) k u

/-- Behind these characters the cursor is on the screen, nothing was written outside of the console, and the text is
that of the ideal terminal. -/
def Conforms (con : Console) (mem₀ : Nat → UInt8) (cs : List UInt8) : Prop :=
  (consoleRun con mem₀ cs).col < con.cols ∧ (consoleRun con mem₀ cs).row < con.rows ∧
    (∀ a, ¬InArea con a → (consoleRun con mem₀ cs).mem a = mem₀ a) ∧
    ShowsText con mem₀ (consoleRun con mem₀ cs).mem (idealRun con cs).text

/-- A character that does not wrap: the scrolling finds the console behind the logo, the tab starts in an even group of
columns and ends on the line, something is before the cursor, or the column is not the last. -/
structure Plain (con : Console) (st : State) (c : UInt8) : Prop where
  lineFeed : c = 10 → st.row + 1 < con.rows ∨ con.address = con.logoHeight * con.lineLen
  tab : c = 9 → st.col / 8 % 2 = 0 ∧ (st.col / 8 + 1) * 8 < con.cols
  backspace : c = 8 → st.col ≠ 0 ∨ st.row ≠ 0
  char : c ≠ 13 → c ≠ 10 → c ≠ 9 → c ≠ 8 → st.col + 1 < con.cols

def PlainRun (con : Console) : State → List UInt8 → Prop
  | _, [] => True
  | st, c :: cs => Plain con st c ∧ PlainRun con (videoPutc con st c) cs

/-- The console shows what the ideal terminal holds. -/
structure Refines (con : Console) (mem₀ : Nat → UInt8) (st : State) (t : Terminal.State Cell) : Prop where
  col : t.col = st.col
  row : t.row = st.row
  colLt : st.col < con.cols
  rowLt : st.row < con.rows
  nl : st.nl = true
  wrapped : t.wrapped = false
  text : ShowsText con mem₀ st.mem t.text
  outside : ∀ a, ¬InArea con a → st.mem a = mem₀ a

section Refinement

variable {mem₀ : Nat → UInt8} {st : State} {t : Terminal.State Cell} {r c : Nat}

theorem text_put {text : Nat → Nat → Cell} (v : UInt8) (ht : ShowsText con mem₀ mem text) (hc : c < con.cols) :
    ShowsText con mem₀ (videoPutchar con (c * videoFontWidth) (r * videoFontHeight) v mem)
      (fun r' c' => if r' = r ∧ c' = c then .char v else text r' c') := by
  intro r' hr' c' hc' k hk u hu
  dsimp only
  by_cases hcell : r' = r ∧ c' = c
  · rw [hcell.1, hcell.2, videoPutchar_cell v hc hk hu, if_pos ⟨rfl, rfl⟩]
    rfl
  · rw [if_neg hcell, videoPutchar_other v fun k' hk' u' hu' hadr => ?_]
    · exact ht r' hr' c' hc' k hk u hu
    · obtain ⟨hrow, hcol, -⟩ := cellAdr_inj hc' hu hk hc hu' hk' hadr
      exact hcell ⟨hrow, hcol⟩

theorem put_outside (v : UInt8) (hr : r < con.rows) (hc : c < con.cols) {a : Nat} (ha : ¬InArea con a) :
    videoPutchar con (c * videoFontWidth) (r * videoFontHeight) v mem a = mem a :=
  videoPutchar_other v fun _ hk _ hu hadr => ha (hadr ▸ cell_in_area hr hc hk hu)

theorem text_scroll {text : Nat → Nat → Cell} (hadr : con.address = con.logoHeight * con.lineLen)
    (ht : ShowsText con mem₀ mem text) : ShowsText con mem₀ (consoleScrollup con mem)
      (fun r c => if r + 1 < con.rows then text (r + 1) c else .blank) := by
  intro r hr c hc k hk u hu
  dsimp only
  rw [scroll_cell hadr hr hc hk hu]
  by_cases hlast : r + 1 < con.rows
  · rw [if_pos hlast, if_pos hlast, ht (r + 1) hlast c hc k hk u hu]
  · rw [if_neg hlast, if_neg hlast]
    rfl

theorem newline_refines (h : Refines con mem₀ st t)
    (hadr : st.row + 1 < con.rows ∨ con.address = con.logoHeight * con.lineLen) :
    Refines con mem₀ { consoleNewline con st with nl := true }
      { t.nextLine con.rows .blank with wrapped := false } := by
  have hcols : 0 < con.cols := lt_of_lt_of_le (by decide) con.atLeastCols
  have hrowLt := h.rowLt
  unfold consoleNewline Terminal.State.nextLine
  rw [if_pos h.colLt, h.row]
  by_cases hroom : st.row + 1 < con.rows
  · rw [if_neg (by omega), if_pos hroom]
    exact ⟨rfl, rfl, hcols, hroom, rfl, rfl, h.text, h.outside⟩
  · have hplace := hadr.resolve_left hroom
    rw [if_pos (by omega), if_neg hroom]
    refine ⟨rfl, rfl, hcols, hrowLt, rfl, rfl, text_scroll hplace h.text, fun a ha => ?_⟩
    exact (scroll_outside hplace ha).trans (h.outside a ha)

theorem tab_stop {n : Nat} (h : n / 8 % 2 = 0) : (n ||| 0x0008) / 8 * 8 = (n / 8 + 1) * 8 := by
  have hgroup : (n ||| 8) / 8 = n / 8 ||| 1 := Nat.or_div_two_pow (n := 3)
  have hhalf : (n / 8 ||| 1) / 2 = n / 8 / 2 ||| 0 := Nat.or_div_two
  have hodd : (n / 8 ||| 1) % 2 = 1 := Nat.or_mod_two_eq_one.mpr (.inr rfl)
  rw [Nat.or_zero] at hhalf
  rw [hgroup]
  omega

theorem back_refines (h : Refines con mem₀ st t) (hpos : st.col ≠ 0 ∨ st.row ≠ 0) :
    Refines con mem₀ (consoleBack con st) (t.step con.cols con.rows .blank (.char 0x20) .backspace) := by
  have hcolLt := h.colLt
  have hrowLt := h.rowLt
  unfold consoleBack Terminal.State.step Terminal.State.previous
  rw [h.col, h.row]
  by_cases hcol : st.col = 0
  · have hrow := hpos.resolve_left (not_not.mpr hcol)
    rw [if_pos hcol, if_neg (not_not.mpr hcol), if_pos hrow]
    refine ⟨rfl, rfl, by dsimp only; omega, by dsimp only; omega, h.nl, rfl, text_put 0x20 h.text (by omega), ?_⟩
    exact fun a ha => (put_outside 0x20 (by omega) (by omega) ha).trans (h.outside a ha)
  · rw [if_neg hcol, if_pos hcol]
    refine ⟨rfl, rfl, by dsimp only; omega, hrowLt, h.nl, rfl, text_put 0x20 h.text (by omega), ?_⟩
    exact fun a ha => (put_outside 0x20 hrowLt (by omega) ha).trans (h.outside a ha)

theorem step_refines {ch : UInt8} (h : Refines con mem₀ st t) (hp : Plain con st ch) :
    Refines con mem₀ (videoPutc con st ch) (t.step con.cols con.rows .blank (.char 0x20) (keyOf ch)) := by
  have hcols : 0 < con.cols := lt_of_lt_of_le (by decide) con.atLeastCols
  unfold videoPutc keyOf
  by_cases hcr : ch = 13
  · rw [if_pos hcr, if_pos hcr]
    exact ⟨rfl, h.row, hcols, h.rowLt, h.nl, rfl, h.text, h.outside⟩
  rw [if_neg hcr, if_neg hcr]
  by_cases hlf : ch = 10
  · rw [if_pos hlf, if_pos hlf, if_pos (by by_cases h0 : st.col = 0; exact .inr ⟨h0, h.nl⟩; exact .inl h0)]
    have hline := newline_refines h (hp.lineFeed hlf)
    unfold Terminal.State.step
    rw [h.wrapped, if_neg Bool.false_ne_true]
    exact hline
  rw [if_neg hlf, if_neg hlf]
  by_cases htab : ch = 9
  · obtain ⟨heven, hstop⟩ := hp.tab htab
    rw [if_pos htab, if_pos htab, tab_stop heven, if_neg (by omega)]
    unfold Terminal.State.step
    dsimp only
    rw [h.col, if_pos hstop]
    exact ⟨rfl, h.row, hstop, h.rowLt, h.nl, rfl, h.text, h.outside⟩
  rw [if_neg htab, if_neg htab]
  by_cases hbs : ch = 8
  · rw [if_pos hbs, if_pos hbs]
    exact back_refines h (hp.backspace hbs)
  rw [if_neg hbs, if_neg hbs]
  have hroom := hp.char hcr hlf htab hbs
  dsimp only
  rw [if_neg (by omega)]
  unfold Terminal.State.step
  dsimp only
  rw [Terminal.State.put_col, h.col, h.row, if_pos hroom]
  refine ⟨rfl, h.row, hroom, h.rowLt, h.nl, rfl, text_put ch h.text h.colLt, fun a ha => ?_⟩
  exact (put_outside ch h.rowLt h.colLt ha).trans (h.outside a ha)

theorem run_refines {cs : List UInt8} (h : Refines con mem₀ st t) (hp : PlainRun con st cs) :
    Refines con mem₀ (cs.foldl (videoPutc con) st)
      (Terminal.State.run con.cols con.rows .blank (.char 0x20) t (cs.map keyOf)) := by
  induction cs generalizing st t with
  | nil => exact h
  | cons ch cs ih => exact ih (step_refines h hp.1) hp.2

theorem start_refines (con : Console) (mem₀ : Nat → UInt8) :
    Refines con mem₀ ⟨mem₀, 0, 0, true⟩ ⟨.untouched, 0, 0, false⟩ :=
  ⟨rfl, rfl, lt_of_lt_of_le (show 0 < 8 by decide) con.atLeastCols, con.atLeastRows, rfl, rfl,
    fun _ _ _ _ _ _ _ _ => rfl, fun _ _ => rfl⟩

theorem PlainRun.of_prefix {pre cs : List UInt8} (hpre : pre <+: cs) (h : PlainRun con st cs) :
    PlainRun con st pre := by
  obtain ⟨rest, rfl⟩ := hpre
  induction pre generalizing st with
  | nil => trivial
  | cons ch pre ih => exact ⟨h.1, ih h.2⟩

end Refinement

/-- In a run that never wraps, every text on the way is that of the ideal terminal. -/
theorem plain_run_conforms (con : Console) (mem₀ : Nat → UInt8) {cs : List UInt8}
    (h : PlainRun con ⟨mem₀, 0, 0, true⟩ cs) : ∀ pre, pre <+: cs → Conforms con mem₀ pre := by
  intro pre hpre
  have hrun := run_refines (start_refines con mem₀) (h.of_prefix hpre)
  exact ⟨hrun.colLt, hrun.rowLt, hrun.outside, hrun.text⟩

theorem smallConsole_fits : (32 : UInt32).toNat * (64 : UInt32).toNat * Format.index8.pixelSize < 2 ^ 32 := by decide
theorem smallConsole_cols : 8 ≤ (64 : UInt32).toNat / videoFontWidth := by decide
theorem smallConsole_rows : 1 ≤ ((32 : UInt32).toNat - 0) / videoFontHeight := by decide

def smallConsole : Console where
  screen := ⟨.index8, .big, false, false, 64, 32, smallConsole_fits⟩
  pixelSwap := false
  logoHeight := 0
  splash := false
  font := fun i => if i < 66 * videoFontHeight then 0 else 0xff
  eorx := 0xffffffff
  bgx := 0
  logoFits := Nat.zero_le _
  atLeastCols := smallConsole_cols
  atLeastRows := smallConsole_rows

theorem two_lines_plain : PlainRun smallConsole ⟨fun _ => 0, 0, 0, true⟩ [66, 10, 65, 13, 10, 66] :=
  ⟨⟨by decide, by decide, by decide, by decide⟩, ⟨by decide, by decide, by decide, by decide⟩,
    ⟨by decide, by decide, by decide, by decide⟩, ⟨by decide, by decide, by decide, by decide⟩,
    ⟨by decide, by decide, by decide, by decide⟩, ⟨by decide, by decide, by decide, by decide⟩, trivial⟩

theorem two_lines_conform : Conforms smallConsole (fun _ => 0) [66, 10, 65, 13, 10, 66] :=
  plain_run_conforms smallConsole (fun _ => 0) two_lines_plain _ List.prefix_rfl

/-- Behind a full line of eight A the B stands in the first column of the same line. -/
theorem ninth_overwrites : ¬Conforms smallConsole (fun _ => 0) [65, 65, 65, 65, 65, 65, 65, 65, 66] := by
  rintro ⟨-, -, -, htext⟩
  have hfirst := htext 0 (by decide) 0 (by decide) 0 (by decide) 0 (by decide)
  exact absurd hfirst (by decide)

end UBoot.Video
