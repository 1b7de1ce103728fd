import Mathlib.Data.List.GetD
import UBoot.FlashCells
import UBoot.NandReadSkipBad
import UBoot.NandSkipBadSafe

namespace UBoot

open FlashCells GoodSpace List NandInfo

/-- `nandll_read_page`: the page number goes out in three address cycles. -/
def nandllReadPage (m : Flash) (addr : Nat) (largeBlock : Bool) : List UInt8 :=
  let pageSize := if largeBlock then 2048 else 512
  read m (addr % 2 ^ 24 * pageSize) pageSize

def nandllReadBlocks (m : Flash) (size : Nat) (largeBlock : Bool) : List UInt8 :=
  let pageShift := if largeBlock then 11 else 9
  (List.range (size >>> pageShift)).flatMap fun i => nandllReadPage m i largeBlock

def ubootSize : Nat := 0x80000

/-- The device code by which `copy_to_ram_from_nand` takes a chip for one of large pages. -/
def largeBlock (id : UInt8) : Bool := 0x80 < id

/-- What `copy_to_ram_from_nand` leaves at `TEXT_BASE`. -/
def copyToRamFromNand (id : UInt8) (m : Flash) : List UInt8 :=
  nandllReadBlocks m ubootSize (largeBlock id)

/-- A `nand_write` that returns 0 lies inside the device and has stored its data, so that the
pages read back without bit errors. One that fails may leave anything. -/
structure StoresImage (n : NandInfo) (image : List UInt8) (write : NandWrite Flash) : Prop where
  whole : ∀ ofs len p m, (write ofs len p m).1.1 = 0 → (write ofs len p m).1.2 = len
  inside : ∀ ofs len p m, (write ofs len p m).1.1 = 0 → ofs + len ≤ n.size
  stored : ∀ ofs len p m, (write ofs len p m).1.1 = 0 →
    (write ofs len p m).2 = patch m ofs len fun x => image.getD (p + (x - ofs)) 0

def goodWrite (n : NandInfo) (image : List UInt8) : NandWrite Flash := fun ofs len p m =>
  if n.size < ofs + len then ((-EINVAL, len), m)
  else ((0, len), patch m ofs len fun x => image.getD (p + (x - ofs)) 0)

theorem goodWrite_stores (n : NandInfo) (image : List UInt8) : StoresImage n image (goodWrite n image) := by
  have hne : (-EINVAL : Int) ≠ 0 := by decide
  refine ⟨fun ofs len p m h => ?_, fun ofs len p m h => ?_, fun ofs len p m h => ?_⟩ <;>
    unfold goodWrite at * <;> split at h
  · exact absurd h hne
  · rw [if_neg ‹_›]
  · exact absurd h hne
  · omega
  · exact absurd h hne
  · rw [if_neg ‹_›]

section Loop

variable {n : NandInfo} {image : List UInt8} {write : NandWrite Flash} {t f o l p : Nat} {m : Flash}
  {r : SkipResult Flash}

theorem getD_goods_block {k i : Nat} (hin : o + k ≤ n.size) (hgood : ∀ x, o ≤ x → x < o + k → n.good x = true) :
    (i < k → (goods n.good o n.size).getD i 0 = o + i) ∧
      (k ≤ i → (goods n.good o n.size).getD i 0 = (goods n.good (o + k) n.size).getD (i - k) 0) := by
  rw [goods_append (Nat.le_add_right o k) hin, goods_all hgood, Nat.add_sub_cancel_left]
  constructor
  · intro hi
    rw [getD_append _ _ _ _ (by rw [length_range']; exact hi)]
    simp [List.getD, hi]
  · intro hi
    rw [getD_append_right _ _ _ _ (by rw [length_range']; exact hi), length_range']

theorem goods_front {k : Nat} (hin : o + k ≤ n.size) (hg : n.good o = true) (hk : o + k ≤ n.next o) :
    (goods n.good o n.size).length = k + (goods n.good (o + k) n.size).length ∧
      ∀ i, (i < k → (goods n.good o n.size).getD i 0 = o + i) ∧
        (k ≤ i → (goods n.good o n.size).getD i 0 = (goods n.good (o + k) n.size).getD (i - k) 0) := by
  have hgood : ∀ x, o ≤ x → x < o + k → n.good x = true := by
    intro x h₁ h₂
    rw [good_of_block h₁ (by omega), hg]
  refine ⟨?_, fun i => getD_goods_block hin hgood⟩
  rw [goods_append (by omega : o ≤ o + k) hin, goods_all hgood, length_append, length_range',
    Nat.add_sub_cancel_left]

theorem skipWriteFuel_image (hn : n.Idle) (hst : StoresImage n image write)
    (h : skipWriteFuel n write t f o l p 0 m = some r) (hrc : r.rc = 0) :
    l ≤ (goods n.good o n.size).length ∧ (∀ x, x < o ∨ n.good x = false → r.state x = m x) ∧
      ∀ i, i < l → r.state ((goods n.good o n.size).getD i 0) = image.getD (p + i) 0 := by
  refine skipWriteFuel_rule (q := fun o l p m m' => l ≤ (goods n.good o n.size).length ∧
    (∀ x, x < o ∨ n.good x = false → m' x = m x) ∧
      ∀ i, i < l → m' ((goods n.good o n.size).getD i 0) = image.getD (p + i) 0)
    hst.whole hst.inside (fun o p m => ?_) (fun o l p m m' ho hg => ?_) ?_ h hrc
  · exact ⟨Nat.zero_le _, fun _ _ => rfl, fun i hi => absurd hi (Nat.not_lt_zero i)⟩
  · have hlt := lt_next (n := n) o
    rintro ⟨hroom, hframe, hdata⟩
    rw [goods_step ho, goods_block_bad hg, nil_append]
    exact ⟨hroom, fun x hx => hframe x (hx.imp (by omega) id), hdata⟩
  rintro o k l p m m' hg hnext hin hk hok ⟨hroom, hframe, hdata⟩
  have hstep : n.bufferStep k = k := by simp [bufferStep, hn.rwOob]
  rw [hst.stored o k p m hok] at hframe
  rw [hstep] at hdata
  obtain ⟨hlen, hat⟩ := goods_front hin hg hnext
  refine ⟨by omega, fun x hx => ?_, fun i hi => ?_⟩
  · rw [hframe x (hx.imp (by omega) id), patch_outside]
    by_contra hin
    rcases hx with hx | hx
    · omega
    · rw [good_of_block (a := o) (by omega) (by omega), hg] at hx
      cases hx
  · rcases lt_or_ge i k with hik | hik
    · rw [(hat i).1 hik, hframe (o + i) (.inl (by omega)), patch_inside (by omega) (by omega),
        Nat.add_sub_cancel_left]
    · rw [(hat i).2 hik, hdata (i - k) (by omega), show p + k + (i - k) = p + i by omega]

end Loop

theorem copyToRamFromNand_eq (id : UInt8) (m : Flash) : copyToRamFromNand id m = read m 0 ubootSize := by
  have hpages (k size : Nat) (hk : k ≤ 2 ^ 24) :
      (List.range k).flatMap (fun i => read m (i % 2 ^ 24 * size) size) = read m 0 (k * size) := by
    rw [← read_pages]
    refine flatMap_congr fun i hi => ?_
    rw [Nat.mod_eq_of_lt (lt_of_lt_of_le (mem_range.mp hi) hk)]
  unfold copyToRamFromNand nandllReadBlocks nandllReadPage
  cases largeBlock id with
  | false => exact hpages 1024 512 (by decide)
  | true => exact hpages 256 2048 (by decide)

theorem read_eq_image {m : Flash} {image : List UInt8} (hlen : image.length = ubootSize) :
    read m 0 ubootSize = image ↔ ∀ i, i < ubootSize → m i = image.getD i 0 := by
  constructor
  · intro h i hi
    rw [← h]
    simp [FlashCells.read, List.getD, hi]
  · intro h
    refine ext_getElem (by rw [read_length, hlen]) fun i h₁ h₂ => ?_
    have hi := h i (by omega)
    rw [getD_eq_getElem _ _ h₂] at hi
    simp [FlashCells.read, hi]

/-- The page size by which `copy_to_ram_from_nand` reads the chip. -/
def pageSize (id : UInt8) : Nat := if largeBlock id then 2048 else 512

theorem ubootSize_aligned {n : NandInfo} {id : UInt8} (hn : n.Idle) (hpage : n.writesize = pageSize id) :
    n.Aligned 0 ubootSize ∧ n.dataLen ubootSize = ubootSize := by
  unfold Aligned dataLen
  rw [hn.rwOob, hpage, pageSize]
  refine ⟨?_, if_neg (by decide)⟩
  rw [if_neg (by decide : ¬(0 : Nat) = 1)]
  cases largeBlock id <;> decide

theorem goodWrite_returns {n : NandInfo} {id : UInt8} (hn : n.Idle) (hpage : n.writesize = pageSize id)
    (hroom : ubootSize ≤ (goods n.good 0 n.size).length) (image : List UInt8) (m : Flash) :
    ∃ r, nandWriteSkipBad n (goodWrite n image) (n.size + 1) 0 ubootSize m = some r ∧ r.rc = 0 := by
  obtain ⟨halign, hdata⟩ := ubootSize_aligned hn hpage
  have hle := hroom.trans (goods_length_le n.good 0 n.size)
  obtain ⟨o', hlen, -, hin, -⟩ := getLenInclBad_spec (n := n) (l := ubootSize) (o := 0) (by
    have : 0 < ubootSize := by decide
    omega)
  rw [nandWriteSkipBad_aligned halign, hdata, skipWrite]
  dsimp only
  rw [if_neg (by omega)]
  split
  · have hok : goodWrite n image 0 ubootSize 0 m =
        ((0, ubootSize), patch m 0 ubootSize fun x => image.getD (0 + (x - 0)) 0) := if_neg (by omega)
    exact ⟨_, rfl, by rw [hok]⟩
  · rw [hn.skipFb]
    obtain ⟨r, hr, hrc⟩ := @skipWriteFuel_room _ n (goodWrite n image) ubootSize (n.size + 1) 0
      ubootSize 0 m (goodWrite_stores n image).whole (by omega) (Nat.zero_le _) hroom
    refine ⟨r, hr, hrc fun ofs len p s hin => ?_⟩
    rw [goodWrite, if_neg (by omega)]

theorem copy_misses {n : NandInfo} {id : UInt8} (hn : n.Idle) (hpage : n.writesize = pageSize id) {a : Nat}
    (ha : a < ubootSize) (hga : n.good a = false) (hroom : ubootSize ≤ (goods n.good 0 n.size).length) :
    ∃ image m fuel r, image.length = ubootSize ∧
      nandWriteSkipBad n (goodWrite n image) fuel 0 ubootSize m = some r ∧ r.rc = 0 ∧
      copyToRamFromNand id r.state ≠ image := by
  obtain ⟨r, hr, hrc⟩ := goodWrite_returns hn hpage hroom (List.replicate ubootSize 0) fun _ => 1
  refine ⟨List.replicate ubootSize 0, fun _ => 1, n.size + 1, r, length_replicate, hr, hrc, ?_⟩
  obtain ⟨halign, hdata⟩ := ubootSize_aligned hn hpage
  have hsize : 0 < n.size := by
    have := goods_length_le n.good 0 n.size
    omega
  obtain ⟨o', hlen, -, hin, -⟩ := getLenInclBad_spec (n := n) (l := ubootSize) hsize
  have hslow : ¬(getLenInclBad n 0 ubootSize = ubootSize ∧ n.rwOob = 0) := by
    rintro ⟨heq, -⟩
    obtain ⟨-, -, hall⟩ := (getLenInclBad_eq_iff hsize (by decide) hroom).mp heq
    rw [hall a (Nat.zero_le a) (by omega)] at hga
    cases hga
  rw [nandWriteSkipBad_aligned halign, hdata, skipWrite] at hr
  rw [if_neg (by omega), if_neg hslow, hn.skipFb] at hr
  rw [copyToRamFromNand_eq, Ne, read_eq_image length_replicate]
  intro hcopy
  have hkept := (skipWriteFuel_image hn (goodWrite_stores n _) hr hrc).2.1 a (.inr hga)
  rw [hcopy a ha] at hkept
  simp [List.getD, ha] at hkept

/-- The loader copies what `nand_write_skip_bad` stored, for every image on every device,
exactly where the blocks that the image covers are good, or there is no room for it behind
the bad ones. -/
theorem copy_to_ram_iff (n : NandInfo) (id : UInt8) (hn : n.Idle) (hpage : n.writesize = pageSize id) :
    (∀ image write m fuel r, image.length = ubootSize → StoresImage n image write →
      nandWriteSkipBad n write fuel 0 ubootSize m = some r → r.rc = 0 →
      copyToRamFromNand id r.state = image) ↔
    (∀ a, a < ubootSize → n.good a = true) ∨ (goods n.good 0 n.size).length < ubootSize := by
  obtain ⟨halign, hdata⟩ := ubootSize_aligned hn hpage
  constructor
  · intro h
    by_contra hcond
    rw [not_or, not_lt] at hcond
    obtain ⟨a, ha, hga⟩ : ∃ a, a < ubootSize ∧ n.good a = false := by
      by_contra hno
      refine hcond.1 fun a ha => ?_
      rw [← Bool.not_eq_false]
      exact fun hga => hno ⟨a, ha, hga⟩
    obtain ⟨image, m, fuel, r, hlength, hrun, hrc, hne⟩ := copy_misses hn hpage ha hga hcond.2
    exact hne (h image _ m fuel r hlength (goodWrite_stores n image) hrun hrc)
  · intro hcond image write m fuel r hlength hst hrun hrc
    rw [copyToRamFromNand_eq, read_eq_image hlength]
    rw [nandWriteSkipBad_aligned halign, hdata, skipWrite] at hrun
    simp only at hrun
    split at hrun
    · cases Option.some.inj hrun
      exact absurd hrc (show (-EINVAL : Int) ≠ 0 by decide)
    next hin =>
      split at hrun
      · cases Option.some.inj hrun
        intro i hi
        change (write 0 ubootSize 0 m).2 i = _
        rw [hst.stored 0 ubootSize 0 m hrc, patch, if_pos (by omega), zero_add, Nat.sub_zero]
      · rw [hn.skipFb] at hrun
        obtain ⟨hroom, -, hput⟩ := skipWriteFuel_image hn hst hrun hrc
        have hall := hcond.resolve_right (Nat.not_lt_of_le hroom)
        have hle : ubootSize ≤ n.size := hroom.trans (goods_length_le n.good 0 n.size)
        intro i hi
        have hat : (goods n.good 0 n.size).getD i 0 = i := by
          rw [goods_append (Nat.zero_le _) hle, goods_all fun x _ hx => hall x hx,
            getD_append _ _ _ _ (by rw [length_range']; exact hi)]
          simp [List.getD, hi]
        have := hput i hi
        rwa [hat, zero_add] at this

def largePage : NandInfo where
  size := 0x10000000
  erasesize := 0x20000
  writesize := 0x800
  oobsize := 64
  rwOob := 0
  skipFb := 0
  isbad a := a == 0x80000
  erasable := by decide
  wholeBlocks := by decide
  wholePages := by decide
  addressable := by decide

def bootChip (bad : Option Nat) : NandInfo := { largePage with isbad := fun a => bad = some a }

theorem copy_to_ram_good_chip : ∃ r, nandWriteSkipBad (bootChip none)
      (goodWrite (bootChip none) (List.replicate ubootSize 0)) ((bootChip none).size + 1) 0 ubootSize (fun _ => 1) =
        some r ∧ r.rc = 0 ∧ copyToRamFromNand 0xda r.state = List.replicate ubootSize 0 := by
  have hgood : ∀ a, (bootChip none).good a = true := by simp [NandInfo.good, bootChip]
  have hroom : ubootSize ≤ (goods (bootChip none).good 0 (bootChip none).size).length := by
    rw [goods_all fun x _ _ => hgood x, length_range']
    decide
  obtain ⟨r, hr, hrc⟩ := @goodWrite_returns (bootChip none) 0xda ⟨rfl, rfl⟩ (by decide) hroom
    (List.replicate ubootSize 0) fun _ => 1
  refine ⟨r, hr, hrc, ?_⟩
  exact (copy_to_ram_iff (bootChip none) 0xda ⟨rfl, rfl⟩ (by decide)).mpr (.inl fun a _ => hgood a) _ _ _ _ r
    length_replicate (goodWrite_stores _ _) hr hrc

/-- With its second block bad the chip does not boot. -/
theorem copy_to_ram_second_block_bad : ¬∀ image write m fuel r, image.length = ubootSize →
    StoresImage (bootChip (some 0x20000)) image write →
    nandWriteSkipBad (bootChip (some 0x20000)) write fuel 0 ubootSize m = some r → r.rc = 0 →
    copyToRamFromNand 0xda r.state = image := by
  intro h
  have hgood : ∀ x, 0x40000 ≤ x → x < 0x10000000 → (bootChip (some 0x20000)).good x = true := by
    intro x h₁ _
    have hne : 0x20000 ≠ x / 0x20000 * 0x20000 := by omega
    simpa [NandInfo.good, bootChip, largePage] using hne
  have hroom : ubootSize ≤ (goods (bootChip (some 0x20000)).good 0 (bootChip (some 0x20000)).size).length := by
    change 0x80000 ≤ (goods (bootChip (some 0x20000)).good 0 0x10000000).length
    rw [goods_append (b := 0x40000) (by decide) (by decide), goods_all hgood, length_append,
      length_range']
    omega
  obtain ⟨image, m, fuel, r, hlength, hrun, hrc, hne⟩ := @copy_misses (bootChip (some 0x20000)) 0xda
    ⟨rfl, rfl⟩ (by decide) 0x20000 (by decide) (by decide) hroom
  exact hne (h image _ m fuel r hlength (goodWrite_stores _ image) hrun hrc)

end UBoot
