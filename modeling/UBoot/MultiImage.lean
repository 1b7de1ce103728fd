import Mathlib.Algebra.GroupWithZero.Nat
import UBoot.Words

namespace UBoot.MultiImage

open FlashCells List Words

def imageHeaderSize : Nat := 64

/-- The options that bear on an image of several files. -/
structure Params where
  addr : UInt32
  ep : UInt32
  eflag : Bool
  xflag : Bool

/-- `params.ep` after the options are read. -/
def Params.entry (p : Params) : UInt32 :=
  if p.eflag then p.ep else if p.xflag then p.addr + 64 else p.addr

/-- A write of the bytes, `accepts` being which lengths the system takes. -/
def write (accepts : Nat → Bool) (bs : List UInt8) : Option (List UInt8) :=
  if accepts bs.length then some bs else none

def offset (xflag : Bool) : Nat := if xflag then imageHeaderSize else 0

/-- `int size` of `copy_file`. -/
def size (xflag : Bool) (datafile : List UInt8) : Int :=
  ((datafile.length : Int) - offset xflag).bmod 4294967296

/-- The part of a file that `copy_file` writes. -/
def copied (xflag : Bool) (datafile : List UInt8) : List UInt8 :=
  (datafile.drop (offset xflag)).take (size xflag datafile).toNat

def roomForHeader (datafile : List UInt8) : Bool :=
  imageHeaderSize ≤ datafile.length % 4294967296 ∧ (datafile.take imageHeaderSize).all (· == 0xff)

/-- `copy_file`; `none` where it ends the program. A file of no bytes cannot be mapped, a negative
size is a count that `write` refuses with -1, and the padding is taken from `int zero`, with `stack`
behind it. -/
def copyFile (accepts : Nat → Bool) (stack : UInt8) (xflag : Bool) (datafile : List UInt8)
    (pad : Bool) : Option (List UInt8) :=
  if datafile = [] then none
  else if xflag ∧ roomForHeader datafile = false then none
  else
    let n := size xflag datafile
    let tail := n.tmod 4
    let body := if 0 ≤ n then write accepts (copied xflag datafile) else if n = -1 then some [] else none
    body.bind fun body =>
      if pad ∧ tail ≠ 0 then
        (write accepts (([0, 0, 0, 0, stack] : List UInt8).take (4 - tail).toNat)).map (body ++ ·)
      else some body

/-- The second loop over the files: all but the last are padded. -/
def copyFiles (accepts : Nat → Bool) (stack : UInt8) (xflag : Bool) : List (List UInt8) → Option (List UInt8)
  | [] => some []
  | [file] => copyFile accepts stack xflag file false
  | file :: rest =>
    (copyFile accepts stack xflag file true).bind fun bytes =>
      (copyFiles accepts stack xflag rest).map (bytes ++ ·)

/-- The first loop: the lengths of the files, and a zero behind them. -/
def sizeTable (files : List (List UInt8)) : List UInt8 :=
  files.flatMap (fun file => be32Bytes file.length) ++ be32Bytes 0

/-- `mkimage -T multi` and `-T script`, with the header that `set_header` fills in at the end. -/
def mkimage (accepts : Nat → Bool) (stack : UInt8) (p : Params) (header : List UInt8)
    (files : List (List UInt8)) : Option (List UInt8) :=
  if p.xflag ∧ p.entry ≠ p.addr + 64 then none
  else (copyFiles accepts stack p.xflag files).map fun bytes => header ++ sizeTable files ++ bytes

def imageGetData (hdr : Nat) : Nat := hdr + imageHeaderSize

/-- The loop of `image_multi_count` from slot `i` on; `fuel` bounds its rounds. -/
def countSlots (m : Flash) (table : Nat) : Nat → Nat → Option Nat
  | 0, _ => none
  | fuel + 1, i => if be32 m (table + 4 * i) = 0 then some i else countSlots m table fuel (i + 1)

def imageMultiCount (fuel : Nat) (m : Flash) (hdr : Nat) : Option Nat :=
  countSlots m (imageGetData hdr) fuel 0

/-- `(x + 3) & ~3` in 32 bits. -/
def roundUp (x : Nat) : Nat := (x + 3) % 4294967296 / 4 * 4

/-- The offset after the first `idx` components. -/
def offsetOf (m : Flash) (table : Nat) : Nat → Nat
  | 0 => 0
  | idx + 1 => (offsetOf m table idx + roundUp (be32 m (table + 4 * idx))) % 4294967296

/-- `image_multi_getimg`: the address and the length of a component. -/
def imageMultiGetimg (fuel : Nat) (m : Flash) (hdr idx : Nat) : Option (Nat × Nat) :=
  (imageMultiCount fuel m hdr).map fun count =>
    if idx < count then
      ((imageGetData hdr + (count + 1) * 4 + offsetOf m (imageGetData hdr) idx) % 4294967296,
        be32 m (imageGetData hdr + 4 * idx))
    else (0, 0)

/-- Each file comes back: as many components as files, each inside the image and with the bytes that
were copied. -/
def ComesBack (fuel : Nat) (m : Flash) (hdr : Nat) (xflag : Bool) (files : List (List UInt8))
    (image : List UInt8) : Prop :=
  imageMultiCount fuel m hdr = some files.length ∧
    ∀ i (h : i < files.length), ∃ data len, imageMultiGetimg fuel m hdr i = some (data, len) ∧
      imageGetData hdr ≤ data ∧ data + len ≤ hdr + image.length ∧
      read m data len = copied xflag (files.get ⟨i, h⟩)

def Agreed (file : List UInt8) : Prop :=
  file.length % 4294967296 ≠ 0 ∧ file.length % 4294967296 ≠ 4294967295

section
variable {accepts : Nat → Bool} {stack : UInt8} {m : Flash} {table fuel i n : Nat}
  {file bytes : List UInt8} {files : List (List UInt8)}

theorem size_plain (file : List UInt8) : size false file = if file.length % 4294967296 < 2147483648 then
      ((file.length % 4294967296 : Nat) : Int)
    else ((file.length % 4294967296 : Nat) : Int) - 4294967296 := by
  have hoffset : offset false = 0 := rfl
  unfold size Int.bmod
  rw [hoffset]
  dsimp only
  split <;> split <;> omega

theorem copied_plain (h : file.length % 4294967296 < 2147483648) :
    (copied false file).length = file.length % 4294967296 := by
  have hoffset : offset false = 0 := rfl
  unfold copied
  rw [size_plain, if_pos h, hoffset, drop_zero, length_take, Int.toNat_natCast]
  omega

theorem copyFile_plain {pad : Bool} (ha : Agreed file)
    (h : copyFile accepts stack false file pad = some bytes) :
    file.length % 4294967296 < 2147483648 ∧ ∃ zeros, bytes = copied false file ++ zeros ∧
        (pad = true → bytes.length = roundUp (file.length % 4294967296)) := by
  obtain ⟨hzero, hlast⟩ := ha
  have hsize := size_plain file
  generalize hn : file.length % 4294967296 = n at hsize hzero hlast ⊢
  unfold copyFile at h
  split at h
  · cases h
  · rw [if_neg (by simp)] at h
    obtain ⟨body, hbody, hrest⟩ := Option.bind_eq_some_iff.mp h
    have hsmall : n < 2147483648 := by
      by_contra hlarge
      rw [if_neg hlarge] at hsize
      rw [if_neg (by omega), if_neg (by omega)] at hbody
      exact absurd hbody (by simp)
    rw [if_pos hsmall] at hsize
    rw [if_pos (by omega)] at hbody
    have hlen : (copied false file).length = n := by
      rw [copied_plain (by omega), hn]
    have hcopy : body = copied false file := by
      unfold write at hbody
      split at hbody
      · exact (Option.some.inj hbody).symm
      · cases hbody
    rw [hcopy] at hrest
    apply And.intro hsmall
    have htail : (size false file).tmod 4 = ((n % 4 : Nat) : Int) := by
      rw [hsize]
      rfl
    rw [htail] at hrest
    unfold roundUp
    split at hrest
    next hpad =>
      obtain ⟨zeros, hzeros, rfl⟩ := Option.map_eq_some_iff.mp hrest
      refine ⟨zeros, rfl, fun _ => ?_⟩
      unfold write at hzeros
      split at hzeros
      · cases Option.some.inj hzeros
        simp only [length_append, hlen, length_take, length_cons, length_nil]
        omega
      · cases hzeros
    next hpad =>
      cases Option.some.inj hrest
      refine ⟨[], (append_nil _).symm, fun hp => ?_⟩
      rw [hlen]
      have : n % 4 = 0 := by
        by_contra hne
        exact hpad ⟨hp, by omega⟩
      omega

theorem table_slots (h : read m table (sizeTable files).length = sizeTable files) :
    (∀ i (hi : i < files.length), be32 m (table + 4 * i) = (files.get ⟨i, hi⟩).length % 4294967296) ∧
      be32 m (table + 4 * files.length) = 0 := by
  induction files generalizing table with
  | nil => exact ⟨fun i hi => absurd hi (Nat.not_lt_zero i), be32_of_read (v := 0) h⟩
  | cons file files ih =>
    have hsplit : sizeTable (file :: files) = be32Bytes file.length ++ sizeTable files := by
      simp [sizeTable]
    rw [hsplit] at h
    obtain ⟨hfirst, hrest⟩ := read_eq_append.mp h
    have hfour : (be32Bytes file.length).length = 4 := rfl
    rw [hfour] at hfirst hrest
    obtain ⟨hslots, hend⟩ := ih hrest
    constructor
    · intro i hi
      cases i with
      | zero => exact be32_of_read hfirst
      | succ i =>
        have hslot := hslots i (Nat.lt_of_succ_lt_succ hi)
        rw [show table + 4 * (i + 1) = table + 4 + 4 * i by omega]
        exact hslot
    · rw [length_cons, show table + 4 * (files.length + 1) = table + 4 + 4 * files.length by omega]
      exact hend

theorem countSlots_eq_some_iff (hi : i ≤ n) (hf : n - i < fuel) : countSlots m table fuel i = some n ↔
      (∀ j, i ≤ j → j < n → be32 m (table + 4 * j) ≠ 0) ∧ be32 m (table + 4 * n) = 0 := by
  induction fuel generalizing i with
  | zero => omega
  | succ fuel ih =>
    rw [countSlots]
    by_cases hslot : be32 m (table + 4 * i) = 0
    · rw [if_pos hslot]
      constructor
      · intro heq
        obtain rfl : i = n := Option.some.inj heq
        exact ⟨fun j hj hjn => absurd hj (by omega), hslot⟩
      · rintro ⟨hfull, _⟩
        by_contra hne
        exact hfull i (le_refl i) (by
          have : i ≠ n := fun h => hne (congrArg some h)
          omega) hslot
    · rw [if_neg hslot]
      rcases eq_or_lt_of_le hi with rfl | hlt
      · constructor
        · intro heq
          -- Beyond its own slot the count is at least one more.
          have hmore : ∀ fuel k, countSlots m table fuel k = some i → k ≤ i := by
            intro fuel
            induction fuel with
            | zero => exact fun k hk => (by cases hk)
            | succ fuel ihf =>
              intro k hk
              rw [countSlots] at hk
              split at hk
              · exact le_of_eq (Option.some.inj hk)
              · exact Nat.le_of_succ_le (ihf (k + 1) hk)
          have := hmore fuel (i + 1) heq
          omega
        · exact fun h => absurd h.2 hslot
      · rw [ih hlt (by omega)]
        constructor
        · rintro ⟨hfull, hend⟩
          refine ⟨fun j hj hjn => ?_, hend⟩
          rcases eq_or_lt_of_le hj with rfl | hj
          · exact hslot
          · exact hfull j hj hjn
        · rintro ⟨hfull, hend⟩
          exact ⟨fun j hj hjn => hfull j (by omega) hjn, hend⟩

def startOf (files : List (List UInt8)) (i : Nat) : Nat :=
  ((files.take i).map fun file => roundUp (file.length % 4294967296)).sum

theorem startOf_succ (h : i < files.length) :
    startOf files (i + 1) = startOf files i + roundUp ((files.get ⟨i, h⟩).length % 4294967296) := by
  unfold startOf
  rw [take_add_one, List.getElem?_eq_getElem h, map_append, sum_append]
  rfl

theorem copyFiles_at (ha : ∀ file ∈ files, Agreed file)
    (hc : copyFiles accepts stack false files = some bytes)
    (h : read m table bytes.length = bytes) (hi : i < files.length) :
    read m (table + startOf files i) ((files.get ⟨i, hi⟩).length % 4294967296) =
        copied false (files.get ⟨i, hi⟩) ∧
      startOf files i + (files.get ⟨i, hi⟩).length % 4294967296 ≤ bytes.length := by
  have hone : ∀ {file body : List UInt8} {pad : Bool} {table : Nat}, Agreed file →
      copyFile accepts stack false file pad = some body → read m table body.length = body →
      read m table (file.length % 4294967296) = copied false file ∧
        file.length % 4294967296 ≤ body.length := by
    intro file body pad table hfile hbody hread
    obtain ⟨hsmall, zeros, heq, _⟩ := copyFile_plain hfile hbody
    have hlen := copied_plain hsmall
    rw [heq] at hread ⊢
    rw [length_append, hlen]
    have hpart := (read_eq_append.mp hread).1
    rw [hlen] at hpart
    exact ⟨hpart, Nat.le_add_right _ _⟩
  induction files generalizing table bytes i with
  | nil => exact absurd hi (Nat.not_lt_zero i)
  | cons file rest ih =>
    have hfile := ha file mem_cons_self
    cases rest with
    | nil =>
      have hzero : i = 0 := by
        rw [length_singleton] at hi
        omega
      subst hzero
      obtain ⟨hpart, hle⟩ := hone hfile hc h
      refine ⟨hpart, ?_⟩
      have hstart : startOf [file] 0 = 0 := rfl
      rw [hstart, zero_add]
      exact hle
    | cons next rest =>
      obtain ⟨body, hbody, htail⟩ := Option.bind_eq_some_iff.mp hc
      obtain ⟨more, hmore, rfl⟩ := Option.map_eq_some_iff.mp htail
      obtain ⟨hread, hbehind⟩ := read_eq_append.mp h
      obtain ⟨_, _, _, hround⟩ := copyFile_plain hfile hbody
      have hlen := hround rfl
      cases i with
      | zero =>
        obtain ⟨hpart, hle⟩ := hone hfile hbody hread
        refine ⟨hpart, ?_⟩
        have hstart : startOf (file :: next :: rest) 0 = 0 := rfl
        rw [hstart, zero_add, length_append]
        exact le_trans hle (Nat.le_add_right _ _)
      | succ i =>
        obtain ⟨hpart, hle⟩ := ih (fun file hf => ha file (mem_cons_of_mem _ hf)) hmore hbehind
          (Nat.lt_of_succ_lt_succ hi)
        have hstart : startOf (file :: next :: rest) (i + 1) = body.length + startOf (next :: rest) i := by
          rw [hlen]
          simp [startOf]
        rw [hstart, length_append]
        constructor
        · rw [← add_assoc]
          exact hpart
        · rw [add_assoc]
          exact Nat.add_le_add_left hle _

theorem offsetOf_eq
    (hs : ∀ i (hi : i < files.length), be32 m (table + 4 * i) = (files.get ⟨i, hi⟩).length % 4294967296)
    (hb : ∀ i, i < files.length → startOf files i < 4294967296) (hi : i < files.length) :
    offsetOf m table i = startOf files i := by
  induction i with
  | zero => rfl
  | succ i ih =>
    have hlt : i < files.length := by omega
    have hbound := hb (i + 1) hi
    rw [startOf_succ hlt] at hbound ⊢
    rw [offsetOf, ih hlt, hs i hlt, Nat.mod_eq_of_lt hbound]

theorem copied_short (h : roomForHeader file = true) :
    (copied true file).length < file.length % 4294967296 := by
  unfold roomForHeader imageHeaderSize at h
  have hroom : 64 ≤ file.length % 4294967296 := (of_decide_eq_true h).1
  have hoffset : offset true = 64 := rfl
  have hsize : (size true file).toNat ≤ file.length % 4294967296 - 64 := by
    unfold size Int.bmod
    rw [hoffset]
    dsimp only
    split <;> omega
  have hle : (copied true file).length ≤ (size true file).toNat := length_take_le _ _
  omega

theorem copyFiles_room (h : copyFiles accepts stack true (file :: files) = some bytes) :
    roomForHeader file = true := by
  have hone : ∀ {pad : Bool} {body : List UInt8},
      copyFile accepts stack true file pad = some body → roomForHeader file = true := by
    intro pad body hbody
    unfold copyFile at hbody
    split at hbody
    · cases hbody
    · split at hbody
      · cases hbody
      next hroom => simpa using hroom
  cases files with
  | nil => exact hone h
  | cons next rest =>
    obtain ⟨body, hbody, _⟩ := Option.bind_eq_some_iff.mp h
    exact hone hbody

theorem image_slots {p : Params} {header image : List UInt8} {hdr : Nat}
    (hh : header.length = imageHeaderSize)
    (hm : mkimage accepts stack p header files = some image)
    (hmem : read m hdr image.length = image) :
    ∃ bytes, copyFiles accepts stack p.xflag files = some bytes ∧
      read m (imageGetData hdr) (sizeTable files).length = sizeTable files ∧
      read m (imageGetData hdr + (files.length + 1) * 4) bytes.length = bytes ∧
      hdr + image.length = imageGetData hdr + (files.length + 1) * 4 + bytes.length := by
  unfold mkimage at hm
  split at hm
  · cases hm
  · obtain ⟨bytes, hbytes, himage⟩ := Option.map_eq_some_iff.mp hm
    have hlen : (sizeTable files).length = (files.length + 1) * 4 := by
      unfold sizeTable
      rw [length_append, length_flatMap]
      have hfour : ∀ v, (be32Bytes v).length = 4 := fun _ => rfl
      simp only [hfour, map_const', sum_replicate_nat]
      omega
    rw [← himage] at hmem
    obtain ⟨hfront, hdata⟩ := read_eq_append.mp hmem
    obtain ⟨_, htable⟩ := read_eq_append.mp hfront
    rw [hh] at htable
    rw [length_append, hh, ← add_assoc, hlen] at hdata
    refine ⟨bytes, hbytes, htable, hdata, ?_⟩
    rw [← himage, length_append, length_append, hh, hlen]
    unfold imageGetData
    omega

/-- An image of several files can be taken apart into what was copied just when it was made without
`-x` and of files whose lengths the table can hold. -/
theorem multi_image_round_trip_iff {p : Params} {header image : List UInt8} {hdr : Nat}
    (hh : header.length = imageHeaderSize) (hf : files ≠ [])
    (hm : mkimage accepts stack p header files = some image)
    (hmem : read m hdr image.length = image) (hfit : hdr + image.length ≤ 4294967296)
    (hfuel : files.length < fuel) :
    ComesBack fuel m hdr p.xflag files image ↔ p.xflag = false ∧ ∀ file ∈ files, Agreed file := by
  obtain ⟨bytes, hbytes, htable, hdata, htotal⟩ := image_slots hh hm hmem
  obtain ⟨hslots, hend⟩ := table_slots htable
  have hcount := @countSlots_eq_some_iff m (imageGetData hdr) fuel 0 files.length (Nat.zero_le files.length) hfuel
  constructor
  · rintro ⟨hcounted, hparts⟩
    have hfull := (hcount.mp hcounted).1
    have hsame : ∀ i (hi : i < files.length), (files.get ⟨i, hi⟩).length % 4294967296 =
          (copied p.xflag (files.get ⟨i, hi⟩)).length := by
      intro i hi
      obtain ⟨data, len, hget, _, _, hread⟩ := hparts i hi
      unfold imageMultiGetimg at hget
      rw [hcounted, Option.map_some, if_pos hi] at hget
      have hlen := congrArg Prod.snd (Option.some.inj hget)
      dsimp only at hlen
      rw [← hread, read_length, ← hlen, hslots i hi]
    cases hx : p.xflag with
    | true =>
      rw [hx] at hbytes hsame
      cases files with
      | nil => exact absurd rfl hf
      | cons file rest =>
        have hshort := copied_short (copyFiles_room hbytes)
        have hfirst := hsame 0 (Nat.succ_pos _)
        simp only [get_eq_getElem, getElem_cons_zero] at hfirst
        omega
    | false =>
      rw [hx] at hsame
      refine ⟨rfl, fun file hfile => ?_⟩
      obtain ⟨i, hi, rfl⟩ := mem_iff_getElem.mp hfile
      have hslot := hslots i hi
      have hlen := hsame i hi
      simp only [get_eq_getElem] at hslot hlen
      constructor
      · intro hzero
        exact hfull i (Nat.zero_le i) hi (hslot.trans hzero)
      · intro hlast
        have hsize := size_plain files[i]
        rw [hlast, if_neg (by omega)] at hsize
        have hnone : copied false files[i] = [] := by
          unfold copied
          rw [hsize]
          rfl
        rw [hnone, hlast] at hlen
        cases hlen
  · rintro ⟨hx, hagreed⟩
    rw [hx] at hbytes ⊢
    have hat := fun i (hi : i < files.length) => copyFiles_at hagreed hbytes hdata hi
    have hcounted : imageMultiCount fuel m hdr = some files.length := by
      refine hcount.mpr ⟨fun i _ hi => ?_, hend⟩
      rw [hslots i hi]
      exact (hagreed _ (get_mem files ⟨i, hi⟩)).1
    refine ⟨hcounted, fun i hi => ?_⟩
    obtain ⟨hpart, hle⟩ := hat i hi
    have hpos : (files.get ⟨i, hi⟩).length % 4294967296 ≠ 0 := (hagreed _ (get_mem files ⟨i, hi⟩)).1
    have hoffset := offsetOf_eq hslots (fun j hj => by
      have := (hat j hj).2
      omega) hi
    refine ⟨imageGetData hdr + (files.length + 1) * 4 + startOf files i,
      (files.get ⟨i, hi⟩).length % 4294967296, ?_, by omega, by omega, hpart⟩
    unfold imageMultiGetimg
    rw [hcounted, Option.map_some, if_pos hi, hoffset, hslots i hi, Nat.mod_eq_of_lt (by omega)]

end

def plainParams : Params := ⟨0, 0, false, false⟩
def placeParams : Params := ⟨0, 0, false, true⟩

def memoryOf (bytes : List UInt8) : Flash := fun a => bytes.getD a 0

def threeFiles : List (List UInt8) := [[65, 66, 67], [1, 2, 3, 4, 5], [7]]

/-- The lengths, and the files with three bytes of padding behind the second one and one behind the first. -/
def threeImage : List UInt8 :=
  List.replicate 64 0 ++ [0, 0, 0, 3, 0, 0, 0, 5, 0, 0, 0, 1, 0, 0, 0, 0, 65, 66, 67, 0, 1, 2, 3, 4, 5, 0, 0, 0, 7]

theorem multi_image_round_trip_three_files : ComesBack 4 (memoryOf threeImage) 0 false threeFiles threeImage := by
  refine (@multi_image_round_trip_iff (fun _ => true) 0 (memoryOf threeImage) 4 threeFiles plainParams
    (List.replicate 64 0) threeImage 0 (by decide) (by decide) (by decide +kernel) (by decide +kernel) (by decide)
    (by decide)).mpr ⟨rfl, by unfold Agreed; decide⟩

/-- A file of 68 bytes with room for the header: 4 bytes are copied, and 68 come back. -/
theorem in_place_length_kept : mkimage (fun _ => true) 0 placeParams (List.replicate 64 0)
        [List.replicate 64 0xff ++ [65, 66, 67, 68]] =
      some (List.replicate 64 0 ++ [0, 0, 0, 68, 0, 0, 0, 0, 65, 66, 67, 68]) ∧
    imageMultiGetimg 2 (memoryOf (List.replicate 64 0 ++
        [0, 0, 0, 68, 0, 0, 0, 0, 65, 66, 67, 68])) 0 0 = some (72, 68) ∧
    (copied true (List.replicate 64 0xff ++ [65, 66, 67, 68])).length = 4 := by
  decide +kernel

end UBoot.MultiImage
