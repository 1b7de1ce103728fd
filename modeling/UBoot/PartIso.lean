import UBoot.CString
import UBoot.PartAmiga

namespace UBoot.Part

open List Loops

/-- What `tmpbuf` holds, `CD_SECTSIZE` bytes. -/
abbrev Sector := Fin 2048 → UInt8

instance sector_size_ne : NeZero 2048 := ⟨Nat.succ_ne_zero 2047⟩

/-- `block_dev_desc_t` of a CD: `blockRead` gives the sector where a read of one block returns 1. -/
structure CdDev where
  ifType : IfType
  dev : Nat
  blockRead : UInt32 → Option Sector

/-- The messages. The device and the partition number that stand in them are those of the call. -/
inductive IsoMsg where
  | notPrimary
  | wrongIsoIdent (text : List UInt8)
  | noBootCatalog
  | wrongElTorito (text : List UInt8)
  | cantRead (addr : UInt32)
  | checksum
  | key
  | notFound
  | notBootable

/-- What a part of the lookup gives: none where it reads outside the buffer, an error for a return of -1 with
the message that was printed. -/
abbrev IsoStep (α : Type) := Option (Except (Option IsoMsg) α)

variable {α β : Type}

def IsoStep.andThen (x : IsoStep α) (k : α → IsoStep β) : IsoStep β :=
  x.bind fun r =>
    match r with
    | .error msg => some (.error msg)
    | .ok a => k a

/-- The return of -1, where `verb` is set behind a message; none where the message reads outside. -/
def giveUp (verb : Bool) (msg : Option IsoMsg) : IsoStep α :=
  if verb then msg.map fun m => .error (some m) else some (.error none)

/-- A read outside the buffer is a failure. -/
def Sector.byte (s : Sector) (i : Nat) : Option UInt8 := if h : i < 2048 then some (s ⟨i, h⟩) else none

theorem half_lo_lt (i : Fin 1024) : 2 * i.val < 2048 := by omega
theorem half_hi_lt (i : Fin 1024) : 2 * i.val + 1 < 2048 := by omega

/-- The `i`-th `unsigned short` of a sector. -/
def Sector.half (o : ByteOrder) (s : Sector) (i : Fin 1024) : UInt16 :=
  let lo := s ⟨2 * i, half_lo_lt i⟩
  let hi := s ⟨2 * i + 1, half_hi_lt i⟩
  match o with
  | .little => (hi.toUInt16 <<< 8) + lo.toUInt16
  | .big => (lo.toUInt16 <<< 8) + hi.toUInt16

instance sector_longs_ne : NeZero 512 := ⟨Nat.succ_ne_zero 511⟩
instance sector_halves_ne : NeZero 1024 := ⟨Nat.succ_ne_zero 1023⟩

/-- The `i`-th `unsigned long` of a sector. -/
def Sector.long (o : ByteOrder) (s : Sector) (i : Fin 512) : UInt32 :=
  let b0 := s ⟨4 * i, by omega⟩
  let b1 := s ⟨4 * i + 1, by omega⟩
  let b2 := s ⟨4 * i + 2, by omega⟩
  let b3 := s ⟨4 * i + 3, by omega⟩
  match o with
  | .little => le32ToInt b0 b1 b2 b3
  | .big => le32ToInt b3 b2 b1 b0

/-- The text that `%s` prints from a place of the buffer on. -/
def Sector.text (s : Sector) (i : Nat) : Option (List UInt8) := cstrAt (List.ofFn s) i

/-- `strncmp` of a place of the buffer with a text, up to the text's length. -/
def Sector.startsWith (s : Sector) : Nat → List UInt8 → Option Bool
  | _, [] => some true
  | i, c :: rest => (s.byte i).bind fun b => if b = c then s.startsWith (i + 1) rest else some false

def Sector.desctype (s : Sector) : UInt8 := s 0

def cd001 : List UInt8 := [67, 68, 48, 48, 49]

def elTorito : List UInt8 :=
  [69, 76, 32, 84, 79, 82, 73, 84, 79, 32, 83, 80, 69, 67, 73, 70, 73, 67, 65, 84, 73, 79, 78]

/-- `lastsect`, the bytes of `firstsek_LEpathtab1_LE` the other way round. -/
def Sector.lastsect (o : ByteOrder) (pvd : Sector) : UInt32 :=
  let w := pvd.long o 35
  ((w &&& 0x000000ff) <<< 24) + ((w &&& 0x0000ff00) <<< 8) + ((w &&& 0x00ff0000) >>> 8) +
    ((w &&& 0xff000000) >>> 24)

/-- `secsize_BE` -/
def Sector.secsize (o : ByteOrder) (pvd : Sector) : UInt16 := pvd.half o 65

def Sector.pointer (pbr : Sector) : UInt32 := le32ToInt (pbr 71) (pbr 72) (pbr 73) (pbr 74)

variable (o : ByteOrder) (d : CdDev)

def primaryDesc (verb : Bool) : IsoStep Sector :=
  match d.blockRead 0x10 with
  | none => some (.error none)
  | some ppr =>
    if ppr.desctype ≠ 0x01 then giveUp verb (some .notPrimary)
    else (ppr.startsWith 1 cd001).bind fun same =>
      if same then some (.ok ppr) else giveUp verb ((ppr.text 1).map .wrongIsoIdent)

/-- The loop over the sectors behind it, with so many left: what the buffer holds at its end. -/
def seekBoot (verb : Bool) : Nat → UInt32 → Sector → IsoStep Sector
  | 0, _, buf => some (.ok buf)
  | n + 1, i, _ =>
    match d.blockRead i with
    | none => some (.error none)
    | some s =>
      if s.desctype = 0x00 then some (.ok s)
      else if s.desctype = 0xff then giveUp verb (some .noBootCatalog)
      else seekBoot verb n (i + 1) s

def bootRecord (verb : Bool) (ppr : Sector) : IsoStep Sector :=
  (seekBoot d verb ((ppr.lastsect o).toNat - 0x10) 0x10 ppr).andThen fun pbr =>
    (pbr.startsWith 7 elTorito).bind fun same =>
      if same then some (.ok pbr) else giveUp verb ((pbr.text 7).map .wrongElTorito)

/-- The sum of so many words of the validation entry, their bytes the other way round. -/
def sumShorts (s : Sector) : Nat → Option UInt16
  | 0 => some 0
  | n + 1 => (sumShorts s n).bind fun chksum =>
    if h : n < 1024 then
      let w := s.half o ⟨n, h⟩
      some (chksum + (((w &&& 0xff) <<< 8) + ((w &&& 0xff00) >>> 8)))
    else none

def bootCatalog (verb : Bool) (pbr : Sector) : IsoStep Sector :=
  match d.blockRead pbr.pointer with
  | none => giveUp verb (some (.cantRead pbr.pointer))
  | some cat => (sumShorts o cat 0x10).bind fun chksum =>
    if chksum ≠ 0 then giveUp verb (some .checksum)
    else if cat 30 ≠ 0x55 ∨ cat 31 ≠ 0xAA then giveUp verb (some .key)
    else some (.ok cat)

def isCounted (bootInd : UInt8) : Bool := bootInd == 0x88 || bootInd == 0x00

def isSkipped (bootInd : UInt8) : Bool := bootInd == 0x90 || bootInd == 0x91 || bootInd == 0x44

/-- The loop over the entries from an offset on, so many of them before the end of the buffer: where the one
with the number stands. -/
def findEntry (cat : Sector) (partNum : Int) : Nat → Nat → Nat → Option (Option Nat)
  | 0, _, _ => some none
  | n + 1, entryNum, offset =>
    (cat.byte offset).bind fun bootInd =>
      if isCounted bootInd then
        if (entryNum : Int) = partNum then some (some offset)
        else findEntry cat partNum n (entryNum + 1) (offset + 0x20)
      else if isSkipped bootInd then findEntry cat partNum n entryNum (offset + 0x20)
      else some none

/-- `info->size`, from `boot_media` and `sec_cnt`. -/
def isoSize (bootMedia : UInt8) (secCnt : UInt16) : UInt32 :=
  if bootMedia = 0x00 then secCnt.toUInt32 >>> 2
  else if bootMedia = 0x01 then (2400 : UInt32) >>> 2
  else if bootMedia = 0x02 then (2880 : UInt32) >>> 2
  else if bootMedia = 0x03 then (5760 : UInt32) >>> 2
  else if bootMedia = 0x04 then (2880 : UInt32) >>> 2
  else 0

def isoExtent (cat : Sector) (offset : Nat) : Option (UInt32 × UInt32) := do
  let bootMedia ← cat.byte (offset + 1)
  let c0 ← cat.byte (offset + 6)
  let c1 ← cat.byte (offset + 7)
  let a0 ← cat.byte (offset + 8)
  let a1 ← cat.byte (offset + 9)
  let a2 ← cat.byte (offset + 10)
  let a3 ← cat.byte (offset + 11)
  pure (isoSize bootMedia ((c1.toUInt16 <<< 8) + c0.toUInt16), le32ToInt a0 a1 a2 a3)

/-- `info->name` and `info->type`, or none where a text does not fit into its field. -/
def isoTexts (partNum : Int) : Option (Field × Field) :=
  (Field.write (ascii "U-Boot" ++ [0])).bind fun type =>
    (Field.write (ascii d.ifType.namePrefix ++ [UInt8.ofNat (97 + d.dev)] ++ decimal (Int32.ofInt partNum) ++ [0])).map
      fun name => (name, type)

/-- The search in a catalogue and the fields of `info`. -/
def entryInfo (partNum : Int) (verb : Bool) (blksz : UInt16) (cat : Sector) : IsoStep DiskPartition :=
  (isoTexts d partNum).bind fun texts =>
    (findEntry cat partNum 63 0 0x20).bind fun found =>
      match found with
      | none => giveUp verb (some .notFound)
      | some offset => (cat.byte offset).bind fun bootInd =>
        if bootInd ≠ 0x88 then giveUp verb (some .notBootable)
        else (isoExtent cat offset).map fun extent =>
          .ok ⟨extent.2, extent.1, blksz.toUInt32, texts.1, texts.2⟩

def getPartitionInfoIsoVerb (partNum : Int) (verb : Bool) : IsoStep DiskPartition :=
  (primaryDesc d verb).andThen fun ppr =>
    (bootRecord o d verb ppr).andThen fun pbr =>
      (bootCatalog o d verb pbr).andThen fun cat =>
        entryInfo d partNum verb (ppr.secsize o) cat

def getPartitionInfoIso (partNum : Int) : IsoStep DiskPartition := getPartitionInfoIsoVerb o d partNum true

/-- A printed line. -/
structure IsoLine where
  num : Nat
  start : UInt32
  size : UInt32
  blksz : UInt32
  type : Field

def isoLine (num : Nat) (info : DiskPartition) : IsoLine := ⟨num, info.start, info.size, info.blksz, info.type⟩

/-- One round of the loop of `print_part_iso`: the number, what was found for it and the lines before it. -/
def isoRound (s : Nat × DiskPartition × List IsoLine) :
    Option ((Nat × DiskPartition × List IsoLine) ⊕ List IsoLine) :=
  let lines := s.2.2 ++ [isoLine s.1 s.2.1]
  (getPartitionInfoIsoVerb o d (s.1 + 1 : Nat) false).map fun r =>
    match r with
    | .error _ => .inr lines
    | .ok info => .inl (s.1 + 1, info, lines)

/-- `print_part_iso`, without lines where no boot partition is found. -/
def printPartIso : Comp (Option (List IsoLine)) :=
  match getPartitionInfoIsoVerb o d 0 false with
  | none => Comp.pure none
  | some (.error _) => Comp.pure (some [])
  | some (.ok info) => Comp.loop (fun s => Comp.round (isoRound o d s)) (0, info, [])

/-- The bytes of a sector from a place on are those of a text. -/
def Sector.Has (s : Sector) (i : Nat) (text : List UInt8) : Prop :=
  ∀ k c, text[k]? = some c → s.byte (i + k) = some c

/-- The first descriptor is a primary one. -/
structure CdDev.First (ppr : Sector) : Prop where
  read : d.blockRead 0x10 = some ppr
  primary : ppr.desctype = 0x01

def CdDev.Passes (i : Nat) : Prop :=
  ∃ s, d.blockRead (UInt32.ofNat i) = some s ∧ s.desctype ≠ 0x00 ∧ s.desctype ≠ 0xff

/-- The search for the boot record stops at this sector: at the first of type 0, or else at the last one below
`lastsect`, with no terminator before. -/
def CdDev.StopsAt (ppr pbr : Sector) : Prop :=
  ∃ k : Nat, 16 ≤ k ∧ k < max 17 (ppr.lastsect o).toNat ∧ d.blockRead (UInt32.ofNat k) = some pbr ∧
    (∀ j, 16 ≤ j → j < k → d.Passes j) ∧
    (pbr.desctype = 0x00 ∨ pbr.desctype ≠ 0xff ∧ k + 1 = max 17 (ppr.lastsect o).toNat)

/-- A valid catalogue, with the descriptor and the boot record that lead to it. -/
structure CdDev.Catalogue (ppr cat : Sector) : Prop where
  first : d.First ppr
  iso : ppr.Has 1 cd001
  record : ∃ pbr, d.StopsAt o ppr pbr ∧ pbr.Has 7 elTorito ∧ d.blockRead pbr.pointer = some cat
  sum : sumShorts o cat 0x10 = some 0
  key0 : cat 30 = 0x55
  key1 : cat 31 = 0xAA

/-- The offsets of the counted ones among so many entries from an offset on, up to the first unknown one. -/
def Sector.entriesFrom (cat : Sector) (offset n : Nat) : List Nat :=
  ((List.range' offset n 0x20).takeWhile fun x => (cat.byte x).any fun ind => isCounted ind || isSkipped ind).filter
    fun x => (cat.byte x).any isCounted

def Sector.entries (cat : Sector) : List Nat := cat.entriesFrom 0x20 63

def Sector.Bootable (cat : Sector) (offset : Nat) : Prop := cat.byte offset = some 0x88

/-- The catalogue of the medium has a bootable entry with this number. -/
def CdDev.Finds (partNum : Int) (info : DiskPartition) : Prop :=
  ∃ ppr cat, d.Catalogue o ppr cat ∧ ∃ (k : Nat) (offset : Nat) (texts : Field × Field) (extent : UInt32 × UInt32),
    partNum = k ∧ cat.entries[k]? = some offset ∧ cat.Bootable offset ∧ isoTexts d partNum = some texts ∧
    isoExtent cat offset = some extent ∧ info = ⟨extent.2, extent.1, (ppr.secsize o).toUInt32, texts.1, texts.2⟩

variable {x : IsoStep α} {k : α → IsoStep β} {b : β} {verb : Bool} {msg : Option IsoMsg}
variable {o : ByteOrder} {d : CdDev} {s ppr pbr cat buf : Sector}

theorem giveUp_not_ok {a : α} : giveUp verb msg ≠ some (.ok a) := by
  unfold giveUp
  cases verb with
  | false => simp
  | true => cases msg <;> simp

theorem giveUp_inside : (giveUp verb msg : IsoStep α) ≠ none ↔ verb = false ∨ msg ≠ none := by
  unfold giveUp
  cases verb with
  | false => simp
  | true => cases msg <;> simp

theorem IsoStep.andThen_ok : x.andThen k = some (.ok b) ↔ ∃ a, x = some (.ok a) ∧ k a = some (.ok b) := by
  unfold IsoStep.andThen
  rcases x with _ | msg | a
  · simp
  · simp
  · simp

theorem IsoStep.andThen_inside : x.andThen k ≠ none ↔ x ≠ none ∧ ∀ a, x = some (.ok a) → k a ≠ none := by
  unfold IsoStep.andThen
  rcases x with _ | msg | a
  · simp
  · simp
  · simp

theorem Sector.byte_inside {i : Nat} (h : i < 2048) : s.byte i = some (s ⟨i, h⟩) := dif_pos h

theorem Sector.byte_bound {i : Nat} {c : UInt8} (h : s.byte i = some c) : i < 2048 := by
  unfold Sector.byte at h
  split at h
  next hi => exact hi
  · cases h

theorem Sector.has_nil {i : Nat} : s.Has i [] := fun k c h => by simp at h

theorem Sector.has_cons {i : Nat} {c : UInt8} {text : List UInt8} :
    s.Has i (c :: text) ↔ s.byte i = some c ∧ s.Has (i + 1) text := by
  constructor
  · intro h
    refine ⟨h 0 c rfl, fun k e hk => ?_⟩
    rw [add_assoc, add_comm 1 k]
    exact h (k + 1) e hk
  · rintro ⟨hc, h⟩ k e hk
    cases k with
    | zero =>
      cases hk
      exact hc
    | succ k =>
      have hrest := h k e hk
      rwa [add_assoc, add_comm 1 k] at hrest

theorem Sector.startsWith_spec (s : Sector) (text : List UInt8) {i : Nat} (h : i + text.length ≤ 2048) :
    ∃ same, s.startsWith i text = some same ∧ (same = true ↔ s.Has i text) := by
  induction text generalizing i with
  | nil => exact ⟨true, rfl, by simp [Sector.has_nil]⟩
  | cons c rest ih =>
    rw [length_cons] at h
    have hbyte : s.byte i = some (s ⟨i, by omega⟩) := Sector.byte_inside (by omega)
    rw [Sector.startsWith, hbyte, Option.bind_some, Sector.has_cons, hbyte, Option.some_inj]
    by_cases hc : s ⟨i, by omega⟩ = c
    · obtain ⟨same, hsame, hiff⟩ := ih (i := i + 1) (by omega)
      rw [if_pos hc]
      exact ⟨same, hsame, hiff.trans ⟨fun h => ⟨hc, h⟩, fun h => h.2⟩⟩
    · rw [if_neg hc]
      exact ⟨false, rfl, by simp [hc]⟩

theorem Sector.text_inside {i : Nat} : s.text i ≠ none ↔ ∃ j, i ≤ j ∧ s.byte j = some 0 := by
  have hget : ∀ j, (List.ofFn s)[j]? = s.byte j := by
    intro j
    rw [List.getElem?_ofFn]
    rfl
  constructor
  · intro h
    obtain ⟨t, ht⟩ := Option.ne_none_iff_exists'.mp h
    obtain ⟨-, rest, hdrop⟩ := cstrAt_some ht
    refine ⟨i + t.length, by omega, ?_⟩
    rw [← hget, ← List.getElem?_drop, hdrop]
    simp
  · rintro ⟨j, hj, hbyte⟩
    rw [← hget] at hbyte
    have hnul : ((List.ofFn s).drop i)[j - i]? = some 0 := by
      rw [List.getElem?_drop, Nat.add_sub_of_le hj, hbyte]
    obtain ⟨t, rest, -, hdrop, ht, -⟩ := cstrAt_of_nul hnul
    have hsplit : List.ofFn s = (List.ofFn s).take i ++ t ++ 0 :: rest := by
      rw [append_assoc, ← hdrop, take_append_drop]
    have hlen : ((List.ofFn s).take i).length = i := by
      have := Sector.byte_bound ((hget j).symm.trans hbyte)
      rw [length_take, length_ofFn]
      omega
    have htext := cstrAt_append (p := (List.ofFn s).take i) (t := rest) ht
    rw [← hsplit, hlen] at htext
    unfold Sector.text
    rw [htext]
    simp

theorem primaryDesc_ok : primaryDesc d verb = some (.ok ppr) ↔ d.First ppr ∧ ppr.Has 1 cd001 := by
  unfold primaryDesc
  cases hread : d.blockRead 0x10 with
  | none => exact ⟨nofun, fun h => (by cases hread.symm.trans h.1.read)⟩
  | some p =>
    have hfirst : d.First ppr ↔ p = ppr ∧ ppr.desctype = 0x01 := by
      constructor
      · exact fun h => ⟨Option.some.inj (hread.symm.trans h.read), h.primary⟩
      · rintro ⟨rfl, h⟩
        exact ⟨hread, h⟩
    obtain ⟨same, hsame, hiff⟩ := Sector.startsWith_spec p cd001 (i := 1) (by decide)
    dsimp only
    by_cases htype : p.desctype = 0x01
    · rw [if_neg (not_not_intro htype), hsame, Option.bind_some, hfirst]
      cases same with
      | false =>
        refine ⟨fun h => absurd h giveUp_not_ok, ?_⟩
        rintro ⟨⟨rfl, -⟩, hhas⟩
        exact absurd (hiff.mpr hhas) Bool.false_ne_true
      | true =>
        have hhas := hiff.mp rfl
        simp only [if_true, Option.some.injEq, Except.ok.injEq]
        constructor
        · rintro rfl
          exact ⟨⟨rfl, htype⟩, hhas⟩
        · exact fun h => h.1.1
    · rw [if_pos htype, hfirst]
      refine ⟨fun h => absurd h giveUp_not_ok, ?_⟩
      rintro ⟨⟨rfl, h⟩, -⟩
      exact absurd h htype

theorem primaryDesc_inside : primaryDesc d verb ≠ none ↔
    verb = false ∨ ∀ ppr, d.First ppr → ¬ppr.Has 1 cd001 → ∃ j, 1 ≤ j ∧ ppr.byte j = some 0 := by
  unfold primaryDesc
  cases hread : d.blockRead 0x10 with
  | none =>
    refine ⟨fun _ => .inr fun ppr h => ?_, fun _ h => (by cases h)⟩
    cases hread.symm.trans h.read
  | some p =>
    obtain ⟨same, hsame, hiff⟩ := Sector.startsWith_spec p cd001 (i := 1) (by decide)
    dsimp only
    by_cases htype : p.desctype = 0x01
    · have hfirst : d.First p := ⟨hread, htype⟩
      rw [if_neg (not_not_intro htype), hsame, Option.bind_some]
      cases same with
      | false =>
        have hhas : ¬p.Has 1 cd001 := fun h => Bool.false_ne_true (hiff.mpr h)
        simp only [Bool.false_eq_true, if_false]
        rw [giveUp_inside, ne_eq, Option.map_eq_none_iff, ← ne_eq, Sector.text_inside]
        refine or_congr_right ⟨fun h ppr hppr _ => ?_, fun h => h p hfirst hhas⟩
        cases Option.some.inj (hread.symm.trans hppr.read)
        exact h
      | true =>
        refine ⟨fun _ => .inr fun ppr hppr hno => ?_, fun _ h => (by cases h)⟩
        cases Option.some.inj (hread.symm.trans hppr.read)
        exact absurd (hiff.mp rfl) hno
    · rw [if_pos htype, giveUp_inside]
      refine ⟨fun _ => .inr fun ppr hppr => ?_, fun _ => .inr (Option.some_ne_none _)⟩
      cases Option.some.inj (hread.symm.trans hppr.read)
      exact absurd hppr.primary htype

theorem seekBoot_ok {n i : Nat} : seekBoot d verb n (UInt32.ofNat i) buf = some (.ok pbr) ↔
    n = 0 ∧ buf = pbr ∨ ∃ k, i ≤ k ∧ k < i + n ∧ d.blockRead (UInt32.ofNat k) = some pbr ∧
      (∀ j, i ≤ j → j < k → d.Passes j) ∧ (pbr.desctype = 0x00 ∨ pbr.desctype ≠ 0xff ∧ k + 1 = i + n) := by
  induction n generalizing i buf with
  | zero =>
    simp only [seekBoot, Option.some.injEq, Except.ok.injEq, true_and]
    exact ⟨.inl, fun h => h.elim id fun ⟨k, hik, hk, _⟩ => by omega⟩
  | succ n ih =>
    rw [seekBoot]
    cases hread : d.blockRead (UInt32.ofNat i) with
    | none =>
      refine ⟨nofun, ?_⟩
      rintro (⟨hn, -⟩ | ⟨k, hik, hk, hrec, hpass, -⟩)
      · omega
      · rcases eq_or_lt_of_le hik with rfl | hlt
        · cases hread.symm.trans hrec
        · obtain ⟨t, ht, -⟩ := hpass i (le_refl i) hlt
          cases hread.symm.trans ht
    | some t =>
      dsimp only
      by_cases hboot : t.desctype = 0x00
      · rw [if_pos hboot]
        constructor
        · intro h
          cases h
          exact .inr ⟨i, le_refl i, by omega, hread, fun j hj hlt => by omega, .inl hboot⟩
        · rintro (⟨hn, -⟩ | ⟨k, hik, hk, hrec, hpass, -⟩)
          · omega
          · rcases eq_or_lt_of_le hik with rfl | hlt
            · rw [Option.some.inj (hread.symm.trans hrec)]
            · obtain ⟨u, hu, hne, -⟩ := hpass i (le_refl i) hlt
              cases Option.some.inj (hread.symm.trans hu)
              exact absurd hboot hne
      · rw [if_neg hboot]
        by_cases hend : t.desctype = 0xff
        · rw [if_pos hend]
          refine ⟨fun h => absurd h giveUp_not_ok, ?_⟩
          rintro (⟨hn, -⟩ | ⟨k, hik, hk, hrec, hpass, htype⟩)
          · omega
          · rcases eq_or_lt_of_le hik with rfl | hlt
            · cases Option.some.inj (hread.symm.trans hrec)
              exact absurd htype (by simp [hend])
            · obtain ⟨u, hu, -, hne⟩ := hpass i (le_refl i) hlt
              cases Option.some.inj (hread.symm.trans hu)
              exact absurd hend hne
        · have hpass : d.Passes i := ⟨t, hread, hboot, hend⟩
          have hnext : UInt32.ofNat i + 1 = UInt32.ofNat (i + 1) := (UInt32.ofNat_add i 1).symm
          rw [if_neg hend, hnext, ih]
          constructor
          · rintro (⟨rfl, rfl⟩ | ⟨k, hik, hk, hrec, hbelow, htype⟩)
            · exact .inr ⟨i, le_refl i, by omega, hread, fun j hj hlt => by omega, .inr ⟨hend, rfl⟩⟩
            · refine .inr ⟨k, by omega, by omega, hrec, fun j hj hlt => ?_, htype.imp_right fun h => ⟨h.1, by omega⟩⟩
              rcases eq_or_lt_of_le hj with rfl | hj
              · exact hpass
              · exact hbelow j hj hlt
          · rintro (⟨hn, -⟩ | ⟨k, hik, hk, hrec, hbelow, htype⟩)
            · omega
            · rcases eq_or_lt_of_le hik with rfl | hlt
              · cases Option.some.inj (hread.symm.trans hrec)
                have hlast := (htype.resolve_left hboot).2
                exact .inl ⟨by omega, rfl⟩
              · exact .inr ⟨k, hlt, by omega, hrec, fun j hj => hbelow j (by omega),
                  htype.imp_right fun h => ⟨h.1, by omega⟩⟩

theorem seekBoot_inside {n : Nat} {i : UInt32} : seekBoot d verb n i buf ≠ none := by
  induction n generalizing i buf with
  | zero => exact Option.some_ne_none _
  | succ n ih =>
    rw [seekBoot]
    cases d.blockRead i with
    | none => exact Option.some_ne_none _
    | some t =>
      dsimp only
      split
      · exact Option.some_ne_none _
      · split
        · exact giveUp_inside.mpr (.inr (Option.some_ne_none _))
        · exact ih

theorem seekBoot_stops (h : d.First ppr) :
    seekBoot d verb ((ppr.lastsect o).toNat - 0x10) 0x10 ppr = some (.ok pbr) ↔ d.StopsAt o ppr pbr := by
  refine (seekBoot_ok (i := 16)).trans ?_
  by_cases hlast : (ppr.lastsect o).toNat ≤ 16
  · have hmax : max 17 (ppr.lastsect o).toNat = 17 := by omega
    have hnone : (ppr.lastsect o).toNat - 16 = 0 := by omega
    unfold CdDev.StopsAt
    rw [hmax, hnone]
    constructor
    · rintro (⟨-, rfl⟩ | ⟨k, hik, hk, -⟩)
      · refine ⟨16, le_refl 16, by omega, h.read, fun j hj hlt => by omega, .inr ⟨?_, rfl⟩⟩
        rw [h.primary]
        decide
      · omega
    · rintro ⟨k, hik, hk, hrec, -⟩
      obtain rfl : k = 16 := by omega
      exact .inl ⟨rfl, Option.some.inj (h.read.symm.trans hrec)⟩
  · have hmax : max 17 (ppr.lastsect o).toNat = (ppr.lastsect o).toNat := by omega
    have hsum : 16 + ((ppr.lastsect o).toNat - 16) = (ppr.lastsect o).toNat := by omega
    unfold CdDev.StopsAt
    rw [hmax, hsum]
    exact ⟨fun h => h.resolve_left (by omega), .inr⟩

theorem bootRecord_ok (h : d.First ppr) :
    bootRecord o d verb ppr = some (.ok pbr) ↔ d.StopsAt o ppr pbr ∧ pbr.Has 7 elTorito := by
  have hcheck : ∀ t : Sector, ((t.startsWith 7 elTorito).bind fun same =>
      if same then some (.ok t) else giveUp verb ((t.text 7).map .wrongElTorito)) = some (.ok pbr) ↔
      t = pbr ∧ pbr.Has 7 elTorito := by
    intro t
    obtain ⟨same, hsame, hiff⟩ := Sector.startsWith_spec t elTorito (i := 7) (by decide)
    rw [hsame, Option.bind_some]
    cases same with
    | false =>
      refine ⟨fun h => absurd h giveUp_not_ok, ?_⟩
      rintro ⟨rfl, hhas⟩
      exact absurd (hiff.mpr hhas) Bool.false_ne_true
    | true =>
      have hhas := hiff.mp rfl
      simp only [if_true, Option.some.injEq, Except.ok.injEq]
      constructor
      · rintro rfl
        exact ⟨rfl, hhas⟩
      · exact fun h => h.1
  unfold bootRecord
  rw [IsoStep.andThen_ok]
  constructor
  · rintro ⟨t, ht, hok⟩
    obtain ⟨rfl, hhas⟩ := (hcheck t).mp hok
    exact ⟨(seekBoot_stops h).mp ht, hhas⟩
  · rintro ⟨hstop, hhas⟩
    exact ⟨pbr, (seekBoot_stops h).mpr hstop, (hcheck pbr).mpr ⟨rfl, hhas⟩⟩

theorem bootRecord_inside (h : d.First ppr) : bootRecord o d verb ppr ≠ none ↔
    verb = false ∨ ∀ pbr, d.StopsAt o ppr pbr → ¬pbr.Has 7 elTorito → ∃ j, 7 ≤ j ∧ pbr.byte j = some 0 := by
  have hcheck : ∀ t : Sector, ((t.startsWith 7 elTorito).bind fun same =>
      if same then some (.ok t) else giveUp verb ((t.text 7).map .wrongElTorito)) ≠ (none : IsoStep Sector) ↔
      verb = false ∨ (¬t.Has 7 elTorito → ∃ j, 7 ≤ j ∧ t.byte j = some 0) := by
    intro t
    obtain ⟨same, hsame, hiff⟩ := Sector.startsWith_spec t elTorito (i := 7) (by decide)
    rw [hsame, Option.bind_some]
    cases same with
    | false =>
      have hhas : ¬t.Has 7 elTorito := fun h => Bool.false_ne_true (hiff.mpr h)
      simp only [Bool.false_eq_true, if_false]
      rw [giveUp_inside, ne_eq, Option.map_eq_none_iff, ← ne_eq, Sector.text_inside]
      exact or_congr_right ⟨fun h _ => h, fun h => h hhas⟩
    | true => exact ⟨fun _ => .inr fun hno => absurd (hiff.mp rfl) hno, fun _ h => (by cases h)⟩
  unfold bootRecord
  rw [IsoStep.andThen_inside]
  constructor
  · rintro ⟨-, hall⟩
    by_cases hverb : verb = false
    · exact .inl hverb
    · refine .inr fun pbr hstop => ?_
      exact ((hcheck pbr).mp (hall pbr ((seekBoot_stops h).mpr hstop))).resolve_left hverb
  · refine fun hcond => ⟨seekBoot_inside, fun t ht => (hcheck t).mpr ?_⟩
    exact hcond.imp_right fun hall => hall t ((seekBoot_stops h).mp ht)

theorem sumShorts_inside {n : Nat} (h : n ≤ 1024) : ∃ sum, sumShorts o s n = some sum := by
  induction n with
  | zero => exact ⟨0, rfl⟩
  | succ n ih =>
    obtain ⟨sum, hsum⟩ := ih (by omega)
    rw [sumShorts, hsum, Option.bind_some, dif_pos (by omega)]
    exact ⟨_, rfl⟩

theorem bootCatalog_ok : bootCatalog o d verb pbr = some (.ok cat) ↔
    d.blockRead pbr.pointer = some cat ∧ sumShorts o cat 0x10 = some 0 ∧ cat 30 = 0x55 ∧ cat 31 = 0xAA := by
  unfold bootCatalog
  cases hread : d.blockRead pbr.pointer with
  | none => exact ⟨fun h => absurd h giveUp_not_ok, fun h => (by cases h.1)⟩
  | some t =>
    obtain ⟨sum, hsum⟩ := sumShorts_inside (o := o) (s := t) (n := 0x10) (by decide)
    dsimp only
    rw [hsum, Option.bind_some]
    by_cases hzero : sum = 0
    · rw [if_neg (not_not_intro hzero)]
      by_cases hkey : t 30 ≠ 0x55 ∨ t 31 ≠ 0xAA
      · rw [if_pos hkey]
        refine ⟨fun h => absurd h giveUp_not_ok, ?_⟩
        rintro ⟨heq, -, h30, h31⟩
        cases heq
        exact hkey.elim (fun h => absurd h30 h) fun h => absurd h31 h
      · rw [if_neg hkey]
        obtain ⟨h30, h31⟩ := not_or.mp hkey
        constructor
        · intro h
          cases h
          exact ⟨rfl, hzero ▸ hsum, not_not.mp h30, not_not.mp h31⟩
        · rintro ⟨heq, -⟩
          cases heq
          rfl
    · rw [if_pos hzero]
      refine ⟨fun h => absurd h giveUp_not_ok, ?_⟩
      rintro ⟨heq, hsum0, -⟩
      cases heq
      exact absurd (Option.some.inj (hsum.symm.trans hsum0)) hzero

theorem bootCatalog_inside : bootCatalog o d verb pbr ≠ none := by
  have hmsg : ∀ m, (giveUp verb (some m) : IsoStep Sector) ≠ none :=
    fun m => giveUp_inside.mpr (.inr (Option.some_ne_none _))
  unfold bootCatalog
  cases d.blockRead pbr.pointer with
  | none => exact hmsg _
  | some t =>
    obtain ⟨sum, hsum⟩ := sumShorts_inside (o := o) (s := t) (n := 0x10) (by decide)
    dsimp only
    rw [hsum, Option.bind_some]
    split
    · exact hmsg _
    · split
      · exact hmsg _
      · exact Option.some_ne_none _

variable {partNum : Int} {info : DiskPartition} {blksz : UInt16}

theorem entriesFrom_counted {offset n : Nat} {ind : UInt8} (hbyte : cat.byte offset = some ind)
    (h : isCounted ind = true) : cat.entriesFrom offset (n + 1) = offset :: cat.entriesFrom (offset + 0x20) n := by
  unfold Sector.entriesFrom
  rw [List.range'_succ, takeWhile_cons_of_pos (by simp [hbyte, h]), filter_cons_of_pos (by simp [hbyte, h])]

theorem entriesFrom_skipped {offset n : Nat} {ind : UInt8} (hbyte : cat.byte offset = some ind)
    (h : isCounted ind = false) (hskip : isSkipped ind = true) :
    cat.entriesFrom offset (n + 1) = cat.entriesFrom (offset + 0x20) n := by
  unfold Sector.entriesFrom
  rw [List.range'_succ, takeWhile_cons_of_pos (by simp [hbyte, hskip]),
    filter_cons_of_neg (by simp [hbyte, h])]

theorem entriesFrom_unknown {offset n : Nat} {ind : UInt8} (hbyte : cat.byte offset = some ind)
    (h : isCounted ind = false) (hskip : isSkipped ind = false) : cat.entriesFrom offset (n + 1) = [] := by
  unfold Sector.entriesFrom
  rw [List.range'_succ, takeWhile_cons_of_neg (by simp [hbyte, h, hskip])]
  rfl

theorem entriesFrom_length (offset n : Nat) : (cat.entriesFrom offset n).length ≤ n :=
  calc (cat.entriesFrom offset n).length
    _ ≤ _ := length_filter_le _ _
    _ ≤ (List.range' offset n 0x20).length := List.IsPrefix.length_le (List.takeWhile_prefix _)
    _ = n := length_range'

theorem entriesFrom_inside {offset n x : Nat} (h : offset + 0x20 * n ≤ 2048) (hx : x ∈ cat.entriesFrom offset n) :
    x + 0x20 ≤ 2048 := by
  have hmem : x ∈ List.range' offset n 0x20 := (List.takeWhile_prefix _).subset (mem_of_mem_filter hx)
  obtain ⟨k, hk, rfl⟩ := mem_range'.mp hmem
  omega

theorem findEntry_spec (cat : Sector) (partNum : Int) {n : Nat} (num offset : Nat) (h : offset + 0x20 * n ≤ 2048) :
    ∃ found, findEntry cat partNum n num offset = some found ∧
      ∀ x, found = some x ↔ ∃ k : Nat, partNum = num + k ∧ (cat.entriesFrom offset n)[k]? = some x := by
  induction n generalizing num offset with
  | zero => exact ⟨none, rfl, by simp [Sector.entriesFrom]⟩
  | succ n ih =>
    have hbyte : cat.byte offset = some (cat ⟨offset, by omega⟩) := Sector.byte_inside (by omega)
    rw [findEntry, hbyte, Option.bind_some]
    cases hcount : isCounted (cat ⟨offset, by omega⟩) with
    | true =>
      rw [entriesFrom_counted hbyte hcount, if_pos rfl]
      by_cases hnum : (num : Int) = partNum
      · rw [if_pos hnum]
        refine ⟨_, rfl, fun x => ⟨fun hx => ⟨0, by omega, hx⟩, ?_⟩⟩
        rintro ⟨k, hk, hx⟩
        obtain rfl : k = 0 := by omega
        exact hx
      · rw [if_neg hnum]
        obtain ⟨found, hfound, hiff⟩ := ih (num + 1) (offset + 0x20) (by omega)
        refine ⟨found, hfound, fun x => (hiff x).trans ⟨?_, ?_⟩⟩
        · rintro ⟨k, hk, hx⟩
          exact ⟨k + 1, by omega, hx⟩
        · rintro ⟨k, hk, hx⟩
          obtain ⟨k, rfl⟩ : ∃ m, k = m + 1 := ⟨k - 1, by omega⟩
          exact ⟨k, by omega, hx⟩
    | false =>
      rw [if_neg Bool.false_ne_true]
      cases hskip : isSkipped (cat ⟨offset, by omega⟩) with
      | true =>
        rw [entriesFrom_skipped hbyte hcount hskip, if_pos rfl]
        exact ih num (offset + 0x20) (by omega)
      | false =>
        rw [entriesFrom_unknown hbyte hcount hskip, if_neg Bool.false_ne_true]
        exact ⟨none, rfl, by simp⟩

theorem isoExtent_inside (cat : Sector) {offset : Nat} (h : offset + 0x20 ≤ 2048) :
    ∃ extent, isoExtent cat offset = some extent := by
  have hbyte : ∀ j, j < 0x20 → ∃ c, cat.byte (offset + j) = some c :=
    fun j hj => ⟨_, Sector.byte_inside (by omega)⟩
  obtain ⟨b1, h1⟩ := hbyte 1 (by omega)
  obtain ⟨b6, h6⟩ := hbyte 6 (by omega)
  obtain ⟨b7, h7⟩ := hbyte 7 (by omega)
  obtain ⟨b8, h8⟩ := hbyte 8 (by omega)
  obtain ⟨b9, h9⟩ := hbyte 9 (by omega)
  obtain ⟨b10, h10⟩ := hbyte 10 (by omega)
  obtain ⟨b11, h11⟩ := hbyte 11 (by omega)
  unfold isoExtent
  rw [h1, h6, h7, h8, h9, h10, h11]
  exact ⟨_, rfl⟩

theorem isoTexts_fit (d : CdDev) (partNum : Int) : ∃ texts, isoTexts d partNum = some texts := by
  have hstarts := d.ifType.namePrefix_length
  have hnum := decimal_length (Int32.ofInt partNum)
  have hname : (ascii d.ifType.namePrefix ++ [UInt8.ofNat (97 + d.dev)] ++ decimal (Int32.ofInt partNum) ++
      [0]).length ≤ 32 := by
    simp only [length_append, length_singleton]
    omega
  have htype : (ascii "U-Boot" ++ [0]).length ≤ 32 := by decide
  unfold isoTexts
  rw [Field.write_fits hname, Field.write_fits htype]
  exact ⟨_, rfl⟩

theorem entryInfo_spec : entryInfo d partNum verb blksz cat ≠ none ∧
    ∀ info, entryInfo d partNum verb blksz cat = some (.ok info) ↔
      ∃ (k : Nat) (offset : Nat) (texts : Field × Field) (extent : UInt32 × UInt32),
        partNum = k ∧ cat.entries[k]? = some offset ∧ cat.Bootable offset ∧ isoTexts d partNum = some texts ∧
        isoExtent cat offset = some extent ∧ info = ⟨extent.2, extent.1, blksz.toUInt32, texts.1, texts.2⟩ := by
  have hmsg : ∀ m, (giveUp verb (some m) : IsoStep DiskPartition) ≠ none :=
    fun m => giveUp_inside.mpr (.inr (Option.some_ne_none _))
  obtain ⟨texts, htexts⟩ := isoTexts_fit d partNum
  obtain ⟨found, hfound, hiff⟩ := findEntry_spec cat partNum (n := 63) 0 0x20 (by omega)
  have hentry : ∀ x, found = some x ↔ ∃ k : Nat, partNum = k ∧ cat.entries[k]? = some x := by
    intro x
    rw [hiff]
    simp only [Nat.cast_zero, Int.zero_add]
    rfl
  unfold entryInfo
  rw [htexts, Option.bind_some, hfound, Option.bind_some]
  cases hcase : found with
  | none =>
    refine ⟨hmsg _, fun info => ⟨fun h => absurd h giveUp_not_ok, ?_⟩⟩
    rintro ⟨k, x, -, -, hk, hx, -⟩
    cases hcase.symm.trans ((hentry x).mpr ⟨k, hk, hx⟩)
  | some x =>
    obtain ⟨k, hk, hx⟩ := (hentry x).mp hcase
    have hroom : x + 0x20 ≤ 2048 := entriesFrom_inside (by omega) (mem_of_getElem? hx)
    obtain ⟨extent, hextent⟩ := isoExtent_inside cat hroom
    have hbyte : cat.byte x = some (cat ⟨x, by omega⟩) := Sector.byte_inside (by omega)
    have hsame : ∀ {k' x'}, partNum = (k' : Nat) → cat.entries[k']? = some x' → x' = x := by
      intro k' x' hk' hx'
      obtain rfl : k' = k := by omega
      exact Option.some.inj (hx'.symm.trans hx)
    dsimp only
    rw [hbyte, Option.bind_some]
    by_cases hboot : cat ⟨x, by omega⟩ = 0x88
    · rw [if_neg (not_not_intro hboot), hextent, Option.map_some]
      refine ⟨Option.some_ne_none _, fun info => ⟨fun h => ?_, ?_⟩⟩
      · cases h
        exact ⟨k, x, texts, extent, hk, hx, hbyte.trans (congrArg some hboot), rfl, hextent, rfl⟩
      · rintro ⟨k', x', texts', extent', hk', hx', -, htexts', hextent', rfl⟩
        obtain rfl := hsame hk' hx'
        cases htexts'
        cases hextent.symm.trans hextent'
        rfl
    · rw [if_pos hboot]
      refine ⟨hmsg _, fun info => ⟨fun h => absurd h giveUp_not_ok, ?_⟩⟩
      rintro ⟨k', x', -, -, hk', hx', hboot', -⟩
      obtain rfl := hsame hk' hx'
      exact absurd (Option.some.inj (hbyte.symm.trans hboot')) hboot

theorem lookup_ok : getPartitionInfoIsoVerb o d partNum verb = some (.ok info) ↔ d.Finds o partNum info := by
  unfold getPartitionInfoIsoVerb
  simp only [IsoStep.andThen_ok, primaryDesc_ok, bootCatalog_ok, entryInfo_spec.2]
  constructor
  · rintro ⟨ppr, ⟨hfirst, hiso⟩, pbr, hrec, cat, ⟨hread, hsum, h30, h31⟩, hentry⟩
    obtain ⟨hstop, htorito⟩ := (bootRecord_ok hfirst).mp hrec
    exact ⟨ppr, cat, ⟨hfirst, hiso, ⟨pbr, hstop, htorito, hread⟩, hsum, h30, h31⟩, hentry⟩
  · rintro ⟨ppr, cat, hcat, hentry⟩
    obtain ⟨pbr, hstop, htorito, hread⟩ := hcat.record
    exact ⟨ppr, ⟨hcat.first, hcat.iso⟩, pbr, (bootRecord_ok hcat.first).mpr ⟨hstop, htorito⟩, cat,
      ⟨hread, hcat.sum, hcat.key0, hcat.key1⟩, hentry⟩

/-- An identifier that is not the one expected is a text that ends inside the buffer. -/
structure CdDev.IdentsEnd (o : ByteOrder) (d : CdDev) : Prop where
  iso : ∀ ppr, d.First ppr → ¬ppr.Has 1 cd001 → ∃ j, 1 ≤ j ∧ ppr.byte j = some 0
  torito : ∀ ppr pbr, d.First ppr → ppr.Has 1 cd001 → d.StopsAt o ppr pbr → ¬pbr.Has 7 elTorito →
    ∃ j, 7 ≤ j ∧ pbr.byte j = some 0

theorem lookup_inside : getPartitionInfoIsoVerb o d partNum verb ≠ none ↔ verb = false ∨ d.IdentsEnd o := by
  unfold getPartitionInfoIsoVerb
  rw [IsoStep.andThen_inside, primaryDesc_inside]
  have hbelow : ∀ ppr, (∀ pbr, bootRecord o d verb ppr = some (.ok pbr) →
      (bootCatalog o d verb pbr).andThen (fun cat => entryInfo d partNum verb (ppr.secsize o) cat) ≠ none) := by
    intro ppr pbr _
    exact IsoStep.andThen_inside.mpr ⟨bootCatalog_inside, fun cat _ => entryInfo_spec.1⟩
  constructor
  · rintro ⟨hiso, hall⟩
    by_cases hverb : verb = false
    · exact .inl hverb
    · refine .inr ⟨hiso.resolve_left hverb, fun ppr pbr hfirst hhas hstop hno => ?_⟩
      have hrec := (IsoStep.andThen_inside.mp (hall ppr (primaryDesc_ok.mpr ⟨hfirst, hhas⟩))).1
      exact ((bootRecord_inside hfirst).mp hrec).resolve_left hverb pbr hstop hno
  · intro hcond
    refine ⟨hcond.imp_right fun h => h.iso, fun ppr hppr => ?_⟩
    obtain ⟨hfirst, hhas⟩ := primaryDesc_ok.mp hppr
    refine IsoStep.andThen_inside.mpr ⟨(bootRecord_inside hfirst).mpr ?_, hbelow ppr⟩
    exact hcond.imp_right fun h pbr => h.torito ppr pbr hfirst hhas

theorem CdDev.StopsAt.unique {pbr' : Sector} (h : d.First ppr) (hstop : d.StopsAt o ppr pbr)
    (hstop' : d.StopsAt o ppr pbr') : pbr = pbr' := by
  have hseek : ∀ p, d.StopsAt o ppr p →
      seekBoot d false ((ppr.lastsect o).toNat - 0x10) 0x10 ppr = some (.ok p) :=
    fun p hp => (seekBoot_stops h).mpr hp
  cases (hseek pbr hstop).symm.trans (hseek pbr' hstop')
  rfl

theorem CdDev.Catalogue.unique {ppr' cat' : Sector} (h : d.Catalogue o ppr cat) (h' : d.Catalogue o ppr' cat') :
    ppr = ppr' ∧ cat = cat' := by
  obtain rfl : ppr = ppr' := Option.some.inj (h.first.read.symm.trans h'.first.read)
  obtain ⟨pbr, hstop, -, hread⟩ := h.record
  obtain ⟨pbr', hstop', -, hread'⟩ := h'.record
  obtain rfl := hstop.unique h.first hstop'
  exact ⟨rfl, Option.some.inj (hread.symm.trans hread')⟩

theorem CdDev.Finds.unique {info' : DiskPartition} (h : d.Finds o partNum info) (h' : d.Finds o partNum info') :
    info = info' := by
  have hlook : ∀ i, d.Finds o partNum i → getPartitionInfoIsoVerb o d partNum false = some (.ok i) :=
    fun i hi => lookup_ok.mpr hi
  cases (hlook info h).symm.trans (hlook info' h')
  rfl

theorem CdDev.Finds.bound {n : Nat} (h : d.Finds o n info) : n < 63 := by
  obtain ⟨ppr, cat, -, k, x, -, -, hk, hx, -⟩ := h
  have hlen := (List.getElem?_eq_some_iff.mp hx).1
  have hmax : cat.entries.length ≤ 63 := entriesFrom_length 0x20 63
  omega

theorem CdDev.Catalogue.finds {k x : Nat} (h : d.Catalogue o ppr cat) (hx : cat.entries[k]? = some x)
    (hboot : cat.Bootable x) : ∃ info, d.Finds o k info := by
  obtain ⟨texts, htexts⟩ := isoTexts_fit d k
  obtain ⟨extent, hextent⟩ := isoExtent_inside cat (entriesFrom_inside (by omega) (mem_of_getElem? hx))
  exact ⟨_, ppr, cat, h, k, x, texts, extent, rfl, hx, hboot, htexts, hextent, rfl⟩

/-- The lines for the numbers below a number, each with what the medium has. -/
structure CdDev.Listed (o : ByteOrder) (d : CdDev) (n : Nat) (lines : List IsoLine) : Prop where
  numbers : lines.map IsoLine.num = List.range n
  found : ∀ l ∈ lines, ∃ info, d.Finds o l.num info ∧ l = isoLine l.num info

theorem CdDev.Listed.snoc {n : Nat} {lines : List IsoLine} (h : d.Listed o n lines) (hfound : d.Finds o n info) :
    d.Listed o (n + 1) (lines ++ [isoLine n info]) := by
  constructor
  · rw [map_append, h.numbers, range_succ]
    rfl
  · intro l hl
    rcases mem_append.mp hl with hl | hl
    · exact h.found l hl
    · obtain rfl := mem_singleton.mp hl
      exact ⟨info, hfound, rfl⟩

theorem isoRound_cases (s : Nat × DiskPartition × List IsoLine) : (∃ info, d.Finds o (s.1 + 1 : Nat) info ∧
      isoRound o d s = some (.inl (s.1 + 1, info, s.2.2 ++ [isoLine s.1 s.2.1]))) ∨
    (∀ info, ¬d.Finds o (s.1 + 1 : Nat) info) ∧ isoRound o d s = some (.inr (s.2.2 ++ [isoLine s.1 s.2.1])) := by
  have hinside : getPartitionInfoIsoVerb o d (s.1 + 1 : Nat) false ≠ none := lookup_inside.mpr (.inl rfl)
  obtain ⟨r, hr⟩ := Option.ne_none_iff_exists'.mp hinside
  unfold isoRound
  rw [hr]
  cases r with
  | error msg =>
    refine .inr ⟨fun info h => ?_, rfl⟩
    cases hr.symm.trans (lookup_ok.mpr h)
  | ok info => exact .inl ⟨info, lookup_ok.mp hr, rfl⟩

theorem isoRound_again {t t' : Nat × DiskPartition × List IsoLine}
    (h : (Comp.round (isoRound o d t)).Returns (.inl t')) :
    d.Finds o t'.1 t'.2.1 ∧ t' = (t.1 + 1, t'.2.1, t.2.2 ++ [isoLine t.1 t.2.1]) := by
  have h := Comp.returns_round_again.mp h
  rcases isoRound_cases (o := o) (d := d) t with ⟨info, hfound, heq⟩ | ⟨-, heq⟩
  · cases heq.symm.trans h
    exact ⟨hfound, rfl⟩
  · cases heq.symm.trans h

theorem isoRound_done {t : Nat × DiskPartition × List IsoLine} {out : Option (List IsoLine)}
    (h : (Comp.round (isoRound o d t)).Returns (.inr out)) :
    out = some (t.2.2 ++ [isoLine t.1 t.2.1]) ∧ ∀ info, ¬d.Finds o (t.1 + 1 : Nat) info := by
  have h := Comp.returns_round_done.mp h
  rcases isoRound_cases (o := o) (d := d) t with ⟨info, -, heq⟩ | ⟨hnone, heq⟩
  · cases out with
    | none => cases heq.symm.trans h
    | some lines => cases heq.symm.trans h
  · cases out with
    | none => cases heq.symm.trans h
    | some lines =>
      cases heq.symm.trans h
      exact ⟨rfl, hnone⟩

theorem printLoop_ends (h : d.Finds o (0 : Nat) info) :
    (Comp.loop (fun t => Comp.round (isoRound o d t)) (0, info, [])).Ends := by
  refine Comp.loop_ends (fun t => d.Finds o t.1 t.2.1) (fun t => 63 - t.1) (s := (0, info, []))
    (fun t _ => Comp.ends_round (isoRound o d t)) (fun t t' _ ht' => ?_) h
  obtain ⟨hfound, heq⟩ := isoRound_again ht'
  have hlt := hfound.bound
  have hnum : t'.1 = t.1 + 1 := congrArg Prod.fst heq
  refine ⟨hfound, ?_⟩
  omega

theorem printPartIso_lists (o : ByteOrder) (d : CdDev) : ∃ n lines, (printPartIso o d).Returns (some lines) ∧
    d.Listed o n lines ∧ ∀ info, ¬d.Finds o n info := by
  have hinside : getPartitionInfoIsoVerb o d 0 false ≠ none := lookup_inside.mpr (.inl rfl)
  have hempty : d.Listed o 0 [] := ⟨rfl, fun l hl => absurd hl not_mem_nil⟩
  obtain ⟨r, hr⟩ := Option.ne_none_iff_exists'.mp hinside
  unfold printPartIso
  rw [hr]
  cases r with
  | error msg =>
    refine ⟨0, [], Comp.returns_pure _, hempty, fun info h => ?_⟩
    cases hr.symm.trans (lookup_ok.mpr h)
  | ok info =>
    have hstart : d.Finds o (0 : Nat) info := lookup_ok.mp hr
    obtain ⟨out, hout⟩ := printLoop_ends hstart
    have hlists : ∃ n lines, out = some lines ∧ d.Listed o n lines ∧ ∀ info, ¬d.Finds o n info := by
      refine Comp.loop_returns (s := (0, info, []))
        (fun t : Nat × DiskPartition × List IsoLine => d.Finds o t.1 t.2.1 ∧ d.Listed o t.1 t.2.2)
        (Q := fun out => ∃ n lines, out = some lines ∧ d.Listed o n lines ∧ ∀ info, ¬d.Finds o n info)
        (fun t t' ht ht' => ?_) (fun t out ht hout => ?_) ⟨hstart, hempty⟩ hout
      · obtain ⟨hfound, heq⟩ := isoRound_again ht'
        refine ⟨hfound, ?_⟩
        rw [heq]
        exact ht.2.snoc ht.1
      · obtain ⟨rfl, hnone⟩ := isoRound_done hout
        exact ⟨t.1 + 1, _, rfl, ht.2.snoc ht.1, hnone⟩
    obtain ⟨n, lines, rfl, hlisted, hnone⟩ := hlists
    exact ⟨n, lines, hout, hlisted, hnone⟩

/-- `print_part_iso` and every lookup return without a read outside the buffer, and the numbers listed are those
that are found, with the same start and size. -/
def CdDev.ListingIsLookup (o : ByteOrder) (d : CdDev) : Prop :=
  ∃ lines, (printPartIso o d).Returns (some lines) ∧ (lines.map IsoLine.num).Nodup ∧
    ∀ partNum, getPartitionInfoIso o d partNum ≠ none ∧ ∀ start size,
      (∃ l ∈ lines, (l.num : Int) = partNum ∧ l.start = start ∧ l.size = size) ↔
        ∃ info, getPartitionInfoIso o d partNum = some (.ok info) ∧ info.start = start ∧ info.size = size

/-- No bootable entry of the catalogue comes behind a counted one that is not bootable. -/
def CdDev.BootableFirst (o : ByteOrder) (d : CdDev) : Prop :=
  ∀ ppr cat, d.Catalogue o ppr cat → cat.entries.Pairwise fun x y => cat.Bootable y → cat.Bootable x

theorem listed_agree {n : Nat} {lines : List IsoLine} (hlisted : d.Listed o n lines)
    (hbelow : ∀ (k : Nat) info, d.Finds o k info → k < n) (start size : UInt32) :
    (∃ l ∈ lines, (l.num : Int) = partNum ∧ l.start = start ∧ l.size = size) ↔
      ∃ info, d.Finds o partNum info ∧ info.start = start ∧ info.size = size := by
  constructor
  · rintro ⟨l, hl, rfl, hstart, hsize⟩
    obtain ⟨info, hfound, heq⟩ := hlisted.found l hl
    rw [heq] at hstart hsize
    exact ⟨info, hfound, hstart, hsize⟩
  · rintro ⟨info, hfound, hstart, hsize⟩
    obtain ⟨k, rfl⟩ : ∃ k : Nat, partNum = k := by
      obtain ⟨-, -, -, k, -, -, -, hk, -⟩ := hfound
      exact ⟨k, hk⟩
    have hmem : k ∈ lines.map IsoLine.num := by
      rw [hlisted.numbers]
      exact mem_range.mpr (hbelow k info hfound)
    obtain ⟨l, hl, rfl⟩ := mem_map.mp hmem
    obtain ⟨info', hfound', heq⟩ := hlisted.found l hl
    cases hfound.unique hfound'
    refine ⟨l, hl, rfl, ?_⟩
    rw [heq]
    exact ⟨hstart, hsize⟩

theorem CdDev.ListingIsLookup.bootableFirst (h : d.ListingIsLookup o) : d.BootableFirst o := by
  obtain ⟨lines, hret, -, hagree⟩ := h
  obtain ⟨n, lines', hret', hlisted, -⟩ := printPartIso_lists o d
  cases hret.unique hret'
  intro ppr cat hcat
  refine pairwise_iff_getElem.mpr fun i j hi hj hij hboot => ?_
  obtain ⟨info, hfound⟩ := hcat.finds (List.getElem?_eq_getElem hj) hboot
  obtain ⟨l, hl, hnum, -⟩ := ((hagree j).2 info.start info.size).mpr ⟨info, lookup_ok.mpr hfound, rfl, rfl⟩
  have hmem : l.num ∈ List.range n := by
    rw [← hlisted.numbers]
    exact mem_map_of_mem hl
  have hin : i ∈ lines.map IsoLine.num := by
    have := mem_range.mp hmem
    rw [hlisted.numbers]
    exact mem_range.mpr (by omega)
  obtain ⟨l', hl', rfl⟩ := mem_map.mp hin
  obtain ⟨info', ⟨ppr', cat', hcat', k, x, -, -, hk, hx, hbootx, -⟩, -⟩ := hlisted.found l' hl'
  obtain ⟨rfl, rfl⟩ := hcat.unique hcat'
  obtain rfl : l'.num = k := by omega
  rw [List.getElem?_eq_getElem hi] at hx
  cases hx
  exact hbootx

theorem CdDev.BootableFirst.below {n k : Nat} (h : d.BootableFirst o) (hnone : ∀ info, ¬d.Finds o n info)
    (hfound : d.Finds o k info) : k < n := by
  by_contra hge
  obtain ⟨ppr, cat, hcat, k', x, -, -, hk, hx, hboot, -⟩ := hfound
  obtain rfl : k = k' := by omega
  obtain ⟨hlen, hxk⟩ := List.getElem?_eq_some_iff.mp hx
  have hn : n < cat.entries.length := by omega
  have hbootn : cat.Bootable cat.entries[n] := by
    rcases eq_or_lt_of_le (not_lt.mp hge) with heq | hlt
    · subst heq
      exact hxk.symm ▸ hboot
    · exact pairwise_iff_getElem.mp (h ppr cat hcat) n k hn hlen hlt (hxk.symm ▸ hboot)
  obtain ⟨info', hfound'⟩ := hcat.finds (List.getElem?_eq_getElem hn) hbootn
  exact hnone info' hfound'

/-- The listing and the lookup agree on exactly the media whose identifiers end and whose bootable entries come
first. -/
theorem listingIsLookup_iff (o : ByteOrder) (d : CdDev) :
    d.ListingIsLookup o ↔ d.IdentsEnd o ∧ d.BootableFirst o := by
  constructor
  · intro h
    refine ⟨?_, h.bootableFirst⟩
    obtain ⟨lines, -, -, hagree⟩ := h
    exact (lookup_inside.mp (hagree 0).1).resolve_left (by decide)
  · rintro ⟨hidents, hfirst⟩
    obtain ⟨n, lines, hret, hlisted, hnone⟩ := printPartIso_lists o d
    refine ⟨lines, hret, ?_, fun partNum => ⟨lookup_inside.mpr (.inr hidents), fun start size => ?_⟩⟩
    · rw [hlisted.numbers]
      exact nodup_range
    · unfold getPartitionInfoIso
      simp only [lookup_ok]
      exact listed_agree hlisted (fun k info => hfirst.below hnone) start size

def mixedPvd : Sector := fun i =>
  if i.val = 0 then 0x01 else if i.val ≤ 5 then cd001.getD (i.val - 1) 0 else if i.val = 140 then 18 else 0

def mixedBoot : Sector := fun i =>
  if i.val < 7 then 0 else if i.val < 30 then elTorito.getD (i.val - 7) 0 else if i.val = 71 then 18 else 0

def mixedCat : Sector := fun i =>
  if i.val = 0 then 0x01 else if i.val = 28 then 0xAA else if i.val = 29 then 0x55
  else if i.val = 30 then 0x55 else if i.val = 31 then 0xAA
  else if i.val = 64 then 0x88 else if i.val = 96 then 0xff else 0

def mixedCd : CdDev where
  ifType := .ide
  dev := 0
  blockRead i :=
    if i = 16 then some mixedPvd else if i = 17 then some mixedBoot else if i = 18 then some mixedCat else none

theorem mixed_catalogue : mixedCd.Catalogue .big mixedPvd mixedCat where
  first := ⟨rfl, rfl⟩
  iso := by simp only [cd001, Sector.has_cons, Sector.has_nil]; decide
  record := by
    refine ⟨mixedBoot, ⟨17, by decide, by decide, rfl, fun j hj hlt => ?_, .inl rfl⟩, ?_, rfl⟩
    · obtain rfl : j = 16 := by omega
      exact ⟨mixedPvd, rfl, by decide, by decide⟩
    · simp only [elTorito, Sector.has_cons, Sector.has_nil]
      decide
  sum := by decide
  key0 := rfl
  key1 := rfl

/-- The bootable entry behind the one that is not bootable is found and not listed. -/
theorem listing_stops_early : ¬mixedCd.ListingIsLookup .big := by
  intro h
  have hentries : mixedCat.entries = [32, 64] := by decide
  have hpairs := h.bootableFirst mixedPvd mixedCat mixed_catalogue
  rw [hentries, pairwise_pair] at hpairs
  have hboot : mixedCat.Bootable 32 := hpairs rfl
  revert hboot
  unfold Sector.Bootable
  decide

end UBoot.Part
