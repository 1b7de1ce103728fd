import UBoot.FlashCells
import UBoot.GoodSpace
import UBoot.Loops

namespace UBoot.FwEnv

open FlashCells GoodSpace Loops

/-- `struct envdev_s`, and the blocks that `MEMGETBADBLOCK` reports bad by their address. The erase size
is a power of two, and no operation of the flash fails. -/
structure EnvDev where
  nand : Bool
  devoff : Nat
  eraseSize : Nat
  envSectors : Nat
  isbad : Nat → Bool
  erasable : 0 < eraseSize

variable (d : EnvDev)

/-- `offset & ~(DEVESIZE (dev) - 1)` -/
def EnvDev.blockstart (offset : Nat) : Nat := offset / d.eraseSize * d.eraseSize

def EnvDev.topOfRange : Nat := d.blockstart d.devoff + d.envSectors * d.eraseSize

def EnvDev.flashBadBlock (blockstart : Nat) : Bool := d.nand && d.isbad blockstart

def EnvDev.good (a : Nat) : Bool := !d.flashBadBlock (d.blockstart a)

structure ReadState where
  processed : Nat
  readlen : Nat
  blockSeek : Nat
  blockstart : Nat
  buf : Flash

/-- One round of `flash_read_buf`: `count`, `blocklen` and `top_of_range` do not change. -/
def readRound (m : Flash) (count blocklen top : Nat) (s : ReadState) : ReadState ⊕ (Int × Flash) :=
  if s.processed < count then
    if top < s.blockstart + s.blockSeek + s.readlen then .inr (-1, s.buf)
    else if d.flashBadBlock s.blockstart then .inl { s with blockstart := s.blockstart + blocklen }
    else .inl {
      processed := s.processed + s.readlen
      readlen := min blocklen (count - (s.processed + s.readlen))
      blockSeek := 0
      blockstart := s.blockstart + blocklen
      buf := patch s.buf s.processed s.readlen fun x => m (s.blockstart + s.blockSeek + (x - s.processed)) }
  else .inr (s.processed, s.buf)

/-- `flash_read_buf`: what it returns and the buffer it leaves. -/
def flashReadBuf (m buf : Flash) (count offset : Nat) : Comp (Int × Flash) :=
  let blockstart := d.blockstart offset
  let blockSeek := offset - blockstart
  if d.nand then
    Comp.loop (fun s => Comp.pure (readRound d m count d.eraseSize d.topOfRange s))
      ⟨0, if d.eraseSize - blockSeek < count then d.eraseSize - blockSeek else count, blockSeek, blockstart, buf⟩
  else
    Comp.loop (fun s => Comp.pure (readRound d m count 0 (offset + count) s))
      ⟨0, count, blockSeek, blockstart, buf⟩

structure WriteState where
  processed : Nat
  blockstart : Nat
  flash : Flash

/-- One round of `flash_write_buf`: the area is erased and programmed. -/
def writeRound (data : Flash) (writeTotal erasesize : Nat) (s : WriteState) : WriteState ⊕ (Int × Flash) :=
  if s.processed < writeTotal then
    if d.topOfRange < s.blockstart + erasesize then .inr (-1, s.flash)
    else if d.flashBadBlock s.blockstart then .inl { s with blockstart := s.blockstart + d.eraseSize }
    else .inl {
      processed := s.processed + d.eraseSize
      blockstart := s.blockstart + d.eraseSize
      flash := program (erase s.flash s.blockstart erasesize) s.blockstart (read data s.processed erasesize) }
  else .inr (s.processed, s.flash)

def writeLoop (data : Flash) (writeTotal : Nat) (offset : Nat) (m : Flash) : Comp (Int × Flash) :=
  let erasesize := if d.nand then d.eraseSize else d.topOfRange - d.blockstart offset
  Comp.loop (fun s => Comp.pure (writeRound d data writeTotal erasesize s)) ⟨0, d.blockstart offset, m⟩

/-- The data that have to be written: whole blocks from the one of `offset` on. -/
def EnvDev.writeTotal (count offset : Nat) : Nat :=
  d.blockstart (offset - d.blockstart offset + count + d.eraseSize - 1)

/-- `flash_write_buf`: what it returns and the flash it leaves. `heap` is what `malloc` gives, and `buf`
goes on behind its `count` bytes with whatever lies there. -/
def flashWriteBuf (m heap buf : Flash) (count offset : Nat) : Comp (Int × Flash) :=
  let blockSeek := offset - d.blockstart offset
  let writeTotal := d.writeTotal count offset
  if count < writeTotal then
    (flashReadBuf d m heap writeTotal (d.blockstart offset)).bind fun r =>
      if r.1 ≠ writeTotal then Comp.pure (-1, m)
      else writeLoop d (patch r.2 blockSeek count fun x => buf (x - blockSeek)) writeTotal offset m
  else writeLoop d buf writeTotal offset m

variable {d : EnvDev} {m m' w buf buf' data : Flash} {count offset total b p l seek : Nat}

section Blocks

theorem blockstart_dvd (x : Nat) : d.eraseSize ∣ d.blockstart x := Nat.dvd_mul_left _ _

theorem blockstart_le (x : Nat) : d.blockstart x ≤ x := Nat.div_mul_le_self x _

theorem lt_blockstart (x : Nat) : x < d.blockstart x + d.eraseSize := by
  have hmod := Nat.mod_lt x d.erasable
  have hdiv := Nat.div_add_mod' x d.eraseSize
  unfold EnvDev.blockstart
  omega

theorem blockstart_of_block (hb : d.eraseSize ∣ b) {x : Nat} (h₁ : b ≤ x) (h₂ : x < b + d.eraseSize) :
    d.blockstart x = b := by
  obtain ⟨k, rfl⟩ := hb
  have hdiv : x / d.eraseSize = k := by
    apply Nat.div_eq_of_lt_le
    · rwa [Nat.mul_comm]
    · rwa [Nat.succ_mul, Nat.mul_comm]
  unfold EnvDev.blockstart
  rw [hdiv, Nat.mul_comm]

theorem blockstart_of_dvd (hb : d.eraseSize ∣ b) : d.blockstart b = b :=
  blockstart_of_block hb le_rfl (Nat.lt_add_of_pos_right d.erasable)

theorem top_dvd : d.eraseSize ∣ d.topOfRange := Nat.dvd_add (blockstart_dvd _) (Nat.dvd_mul_left _ _)

theorem block_le (hb : d.eraseSize ∣ b) (hlt : b < d.topOfRange) : b + d.eraseSize ≤ d.topOfRange := by
  have hle := Nat.le_of_dvd (by omega) (Nat.dvd_sub top_dvd hb)
  omega

theorem goods_block_bad (hb : d.eraseSize ∣ b) (hbad : d.flashBadBlock b = true) (hlt : b < d.topOfRange) :
    goods d.good b d.topOfRange = goods d.good (b + d.eraseSize) d.topOfRange := by
  have hnone : goods d.good b (b + d.eraseSize) = [] := by
    apply goods_none
    intro x h₁ h₂
    unfold EnvDev.good
    rw [blockstart_of_block hb h₁ h₂, hbad]
    rfl
  rw [goods_append (Nat.le_add_right b _) (block_le hb hlt), hnone, List.nil_append]

theorem goods_block_good (hb : d.eraseSize ∣ b) (hgood : d.flashBadBlock b = false) (hlt : b < d.topOfRange) :
    goods d.good b d.topOfRange = List.range' b d.eraseSize ++ goods d.good (b + d.eraseSize) d.topOfRange := by
  have hall : goods d.good b (b + d.eraseSize) = List.range' b (b + d.eraseSize - b) := by
    apply goods_all
    intro x h₁ h₂
    unfold EnvDev.good
    rw [blockstart_of_block hb h₁ h₂, hgood]
    rfl
  rw [goods_append (Nat.le_add_right b _) (block_le hb hlt), hall, Nat.add_sub_cancel_left]

/-- The address that byte `j` of the good blocks from `b` on has. -/
def EnvDev.place (d : EnvDev) (b j : Nat) : Nat := (goods d.good b d.topOfRange).getD j 0

theorem place_bad (hb : d.eraseSize ∣ b) (hbad : d.flashBadBlock b = true) (hlt : b < d.topOfRange) (j : Nat) :
    d.place b j = d.place (b + d.eraseSize) j := by
  unfold EnvDev.place
  rw [goods_block_bad hb hbad hlt]

theorem place_first (hb : d.eraseSize ∣ b) (hgood : d.flashBadBlock b = false) (hlt : b < d.topOfRange) {j : Nat}
    (hj : j < d.eraseSize) : d.place b j = b + j := by
  unfold EnvDev.place
  rw [goods_block_good hb hgood hlt, List.getD_append _ _ _ _ (by rw [List.length_range']; exact hj)]
  simp [List.getD, hj]

theorem place_rest (hb : d.eraseSize ∣ b) (hgood : d.flashBadBlock b = false) (hlt : b < d.topOfRange) (j : Nat) :
    d.place b (d.eraseSize + j) = d.place (b + d.eraseSize) j := by
  unfold EnvDev.place
  rw [goods_block_good hb hgood hlt,
    List.getD_append_right _ _ _ _ (by rw [List.length_range']; exact Nat.le_add_right _ _), List.length_range',
    Nat.add_sub_cancel_left]

/-- How many bytes the good blocks from `b` on have. -/
def EnvDev.roomFrom (d : EnvDev) (b : Nat) : Nat := (goods d.good b d.topOfRange).length

theorem room_bad (hb : d.eraseSize ∣ b) (hbad : d.flashBadBlock b = true) (hlt : b < d.topOfRange) :
    d.roomFrom b = d.roomFrom (b + d.eraseSize) := by
  unfold EnvDev.roomFrom
  rw [goods_block_bad hb hbad hlt]

theorem room_good (hb : d.eraseSize ∣ b) (hgood : d.flashBadBlock b = false) (hlt : b < d.topOfRange) :
    d.roomFrom b = d.eraseSize + d.roomFrom (b + d.eraseSize) := by
  unfold EnvDev.roomFrom
  rw [goods_block_good hb hgood hlt, List.length_append, List.length_range']

theorem lt_top_of_room (h : 0 < d.roomFrom b) : b < d.topOfRange := by
  by_contra hge
  unfold EnvDev.roomFrom at h
  rw [goods_empty (by omega)] at h
  exact lt_irrefl 0 h

theorem place_mem {j : Nat} (h : j < d.roomFrom b) : b ≤ d.place b j ∧ d.place b j < d.topOfRange := by
  unfold EnvDev.place
  unfold EnvDev.roomFrom at h
  rw [List.getD_eq_getElem _ _ h]
  obtain ⟨h₁, h₂, -⟩ := mem_goods.mp (List.getElem_mem h)
  exact ⟨h₁, h₂⟩

end Blocks

theorem readLoop_returns (hb : d.eraseSize ∣ b) (hseek : seek < d.eraseSize) (hp : p ≤ count)
    (hroom : seek + (count - p) ≤ d.roomFrom b) :
    ∃ buf', (Comp.loop (fun s => Comp.pure (readRound d m count d.eraseSize d.topOfRange s))
        ⟨p, min (d.eraseSize - seek) (count - p), seek, b, buf⟩).Returns ((count : Int), buf') ∧
      (∀ x, x < p ∨ count ≤ x → buf' x = buf x) ∧ ∀ i, i < count - p → buf' (p + i) = m (d.place b (seek + i)) := by
  obtain ⟨n, hn⟩ : ∃ n, n = d.topOfRange - b := ⟨_, rfl⟩
  induction n using Nat.strong_induction_on generalizing b p seek buf with
  | _ n ih =>
    rcases lt_or_ge p count with hlt | hge
    · have herase := d.erasable
      have htop : b < d.topOfRange := lt_top_of_room (by omega)
      have hblock := block_le hb htop
      have hfits : ¬d.topOfRange < b + seek + min (d.eraseSize - seek) (count - p) := by omega
      have hnext : d.eraseSize ∣ b + d.eraseSize := Nat.dvd_add hb (Nat.dvd_refl _)
      cases hbad : d.flashBadBlock b with
      | true =>
        rw [room_bad hb hbad htop] at hroom
        obtain ⟨buf', hret, hframe, hdata⟩ := ih (d.topOfRange - (b + d.eraseSize)) (by omega) hnext
          hseek hp hroom rfl
        refine ⟨buf', returns_round ?_ hret, hframe, fun i hi => ?_⟩
        · unfold readRound
          rw [if_pos hlt, if_neg hfits, if_pos hbad]
        · rw [hdata i hi, place_bad hb hbad htop]
      | false =>
        obtain ⟨k, hk⟩ : ∃ k, k = min (d.eraseSize - seek) (count - p) := ⟨_, rfl⟩
        rw [room_good hb hbad htop] at hroom
        have hnextRoom : 0 + (count - (p + k)) ≤ d.roomFrom (b + d.eraseSize) := by omega
        obtain ⟨buf', hret, hframe, hdata⟩ := @ih (d.topOfRange - (b + d.eraseSize)) (by omega)
          (patch buf p k fun x => m (b + seek + (x - p))) (b + d.eraseSize) (p + k) 0 hnext herase (by omega) hnextRoom rfl
        refine ⟨buf', returns_round ?_ hret, fun x hx => ?_, fun i hi => ?_⟩
        · unfold readRound
          rw [if_pos hlt, if_neg hfits, hbad, if_neg (by decide), ← hk, Nat.sub_zero]
        · rw [hframe x (by omega), patch_outside (by omega)]
        · rcases lt_or_ge i k with hik | hik
          · rw [hframe (p + i) (.inl (by omega)), patch_inside (by omega) (by omega),
              place_first hb hbad htop (by omega), Nat.add_sub_cancel_left, Nat.add_assoc]
          · have hat : p + i = p + k + (i - k) := by omega
            have hplace : seek + i = d.eraseSize + (0 + (i - k)) := by omega
            rw [hat, hdata (i - k) (by omega), hplace, place_rest hb hbad htop]
    · obtain rfl : p = count := by omega
      refine ⟨buf, returns_end ?_, fun _ _ => rfl, fun i hi => by omega⟩
      unfold readRound
      rw [if_neg (lt_irrefl p)]

theorem writeLoop_returns (hb : d.eraseSize ∣ b) (hp : d.eraseSize ∣ total - p) (hle : p ≤ total)
    (hroom : total - p ≤ d.roomFrom b) :
    ∃ m', (Comp.loop (fun s => Comp.pure (writeRound d data total d.eraseSize s)) ⟨p, b, w⟩).Returns
        ((total : Int), m') ∧
      (∀ i, i < total - p → m' (d.place b i) = data (p + i)) ∧
      ∀ x, (∀ i, i < total - p → x ≠ d.place b i) → m' x = w x := by
  obtain ⟨n, hn⟩ : ∃ n, n = d.topOfRange - b := ⟨_, rfl⟩
  induction n using Nat.strong_induction_on generalizing b p w with
  | _ n ih =>
    rcases lt_or_ge p total with hlt | hge
    · have herase := d.erasable
      have htop : b < d.topOfRange := lt_top_of_room (by omega)
      have hblock := block_le hb htop
      have hnext : d.eraseSize ∣ b + d.eraseSize := Nat.dvd_add hb (Nat.dvd_refl _)
      cases hbad : d.flashBadBlock b with
      | true =>
        rw [room_bad hb hbad htop] at hroom
        obtain ⟨m', hret, hdata, hframe⟩ := ih (d.topOfRange - (b + d.eraseSize)) (by omega) (w := w) hnext
          hp hle hroom rfl
        refine ⟨m', returns_round ?_ hret, fun i hi => ?_, fun x hx => hframe x fun i hi => ?_⟩
        · unfold writeRound
          rw [if_pos hlt, if_neg (by dsimp only; omega), if_pos hbad]
        · rw [place_bad hb hbad htop, hdata i hi]
        · rw [← place_bad hb hbad htop]
          exact hx i hi
      | false =>
        have hone := Nat.le_of_dvd (by omega) hp
        have hrest : d.eraseSize ∣ total - (p + d.eraseSize) := by
          rw [← Nat.sub_sub]
          exact Nat.dvd_sub hp (Nat.dvd_refl _)
        rw [room_good hb hbad htop] at hroom
        obtain ⟨m', hret, hdata, hframe⟩ := ih (d.topOfRange - (b + d.eraseSize)) (by omega)
          (w := program (erase w b d.eraseSize) b (read data p d.eraseSize)) (p := p + d.eraseSize) hnext hrest
          (by omega) (by omega) rfl
        have hbehind : ∀ x, x < b + d.eraseSize → ∀ i, i < total - (p + d.eraseSize) →
            x ≠ d.place (b + d.eraseSize) i := by
          intro x hx i hi
          have hmem := (place_mem (d := d) (b := b + d.eraseSize) (j := i) (by omega)).1
          omega
        refine ⟨m', returns_round ?_ hret, fun i hi => ?_, fun x hx => ?_⟩
        · unfold writeRound
          rw [if_pos hlt, if_neg (by dsimp only; omega), hbad, if_neg (by decide)]
        · rcases lt_or_ge i d.eraseSize with hik | hik
          · rw [place_first hb hbad htop hik, hframe (b + i) (hbehind _ (by omega)),
              program_read (by omega) (by omega), erase, patch_inside (by omega) (by omega),
              Nat.add_sub_cancel_left]
            exact UInt8.neg_one_and
          · have hat : i = d.eraseSize + (i - d.eraseSize) := by omega
            rw [hat, place_rest hb hbad htop, hdata (i - d.eraseSize) (by omega), Nat.add_assoc]
        · have hout : x < b ∨ b + d.eraseSize ≤ x := by
            by_contra hin
            refine hx (x - b) (by omega) ?_
            rw [place_first hb hbad htop (by omega)]
            omega
          rw [hframe x fun i hi => ?_, program_outside (by rw [read_length]; exact hout), erase_outside hout]
          rw [← place_rest hb hbad htop]
          exact hx _ (by omega)
    · obtain rfl : p = total := by omega
      refine ⟨w, returns_end ?_, fun i hi => by omega, fun _ _ => rfl⟩
      unfold writeRound
      rw [if_neg (lt_irrefl p)]

end UBoot.FwEnv
