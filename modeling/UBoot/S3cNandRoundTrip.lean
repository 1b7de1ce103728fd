import UBoot.S3cNand

namespace UBoot

open FlashCells List Scatter

/-- Bytes of a client for the free bytes of a spare area, all of which have a place there. -/
structure ClientOob (layout : NandEcclayout) where
  ooboffs : Nat
  oob : List UInt8
  fits : ooboffs + oob.length ≤ (freeBytes layout.oobfree).length

def ClientOob.writeOps {layout : NandEcclayout} (data : List UInt8) : Option (ClientOob layout) → MtdOobOps
  | none => ⟨.place, 0, 0, some data, none⟩
  | some client => ⟨.auto, client.oob.length, client.ooboffs, some data, some client.oob⟩

def ClientOob.readOps {layout : NandEcclayout} (client : ClientOob layout) : MtdOobOps :=
  ⟨.auto, client.oob.length, client.ooboffs, none, none⟩

section RoundTrip

variable (c : NandEcc) (e : EccEngine c.bytes)

/-- An erased page, its spare area with a cleanmarker or without, after it is written.
`oobPoi` is what the buffer of the spare area holds before. -/
def writtenPage (cleanmarked : Bool) (client : Option (ClientOob c.layout)) (data oobPoi : Flash)
    (stats : EccStats) : PageState :=
  let erased : PageState := ⟨fun _ => 0xff, oobPoi, stats⟩
  let cells :=
    if cleanmarked then
      (nandDoWriteOob c e cleanmarker ⟨.auto, 8, 0, none, some cleanmarker⟩ erased).cells
    else erased.cells
  nandDoWriteOpsPage c e (ClientOob.writeOps (read data 0 c.writesize) client) data
    { erased with cells := cells }

structure ReadsBack (client : Option (ClientOob c.layout)) (data buf : Flash) (s : PageState) : Prop where
  data : read (s3cNandReadPage c e buf s).1 0 c.writesize = read data 0 c.writesize
  failed : (s3cNandReadPage c e buf s).2.stats.failed = s.stats.failed
  client : ∀ cl, client = some cl →
    nandTransferOob c.layout cl.readOps cl.oob.length (s3cNandReadPage c e buf s).2.oobPoi = cl.oob
  spare : read (s3cNandReadOob c e (s3cNandReadPage c e buf s).2).oobPoi 0 c.oobsize =
    read (s3cNandReadPage c e buf s).2.oobPoi 0 c.oobsize

end RoundTrip

section Plain

variable {c : NandEcc} {e : EccEngine c.bytes} {client : Option (ClientOob c.layout)}
  {data oobPoi buf : Flash} {stats : EccStats}

/-- `oob_poi` when the page functions get it. -/
def filledOob (c : NandEcc) (client : Option (ClientOob c.layout)) (oobPoi : Flash) : Flash :=
  match client with
  | none => blankOob c oobPoi
  | some cl => fillAuto c.layout.oobfree cl.ooboffs cl.oob oobPoi

theorem nandDoWriteOpsPage_eq (s : PageState) :
    nandDoWriteOpsPage c e (ClientOob.writeOps (read data 0 c.writesize) client) data s =
      s3cNandWritePage c e data { s with oobPoi := filledOob c client s.oobPoi } := by
  cases client with
  | none => rfl
  | some cl => simp [nandDoWriteOpsPage, ClientOob.writeOps, nandFillOob, filledOob]

theorem readsBack_writtenPage (hc : c.Sound) :
    ReadsBack c e client data buf (writtenPage c e false client data oobPoi stats) ↔
      ∀ cl, client = some cl → ∀ i, i < cl.oob.length → codedOob c e data (filledOob c client oobPoi)
          ((freeBytes c.layout.oobfree).getD (cl.ooboffs + i) 0) = cl.oob.getD i 0 := by
  obtain ⟨s, hs⟩ : ∃ s : PageState, s = ⟨fun _ => 0xff, filledOob c client oobPoi, stats⟩ := ⟨_, rfl⟩
  have hb : Blank s.cells 0 (c.writesize + c.oobsize) := by
    subst s
    exact fun _ _ => rfl
  have hpage : writtenPage c e false client data oobPoi stats = s3cNandWritePage c e data s := by
    subst s
    exact nandDoWriteOpsPage_eq _
  obtain ⟨hmain, hspare⟩ := s3cNandWritePage_blank e data hc hb
  have hcoded := s3cNandWritePage_coded e data hc hb
  have hoob : ∀ i, i < c.oobsize →
      spareOf c (s3cNandWritePage c e data s) i = codedOob c e data s.oobPoi i := by
    intro i hi
    rw [spareOf, patch_inside (Nat.zero_le i) (by omega), hspare i hi]
  have hclient : ∀ cl : ClientOob c.layout,
      nandTransferOob c.layout cl.readOps cl.oob.length (spareOf c (s3cNandWritePage c e data s)) = cl.oob ↔
        ∀ i, i < cl.oob.length → codedOob c e data s.oobPoi
          ((freeBytes c.layout.oobfree).getD (cl.ooboffs + i) 0) = cl.oob.getD i 0 := by
    intro cl
    have hfit := cl.fits
    refine (transferAuto_eq_iff hfit _).trans (forall₂_congr fun i hi => ?_)
    rw [hoob]
    rw [getD_eq_getElem _ _ (by omega)]
    exact hc.free _ (getElem_mem _)
  have hread := s3cNandReadPage_of_coded hc hcoded buf
  rw [hpage]
  constructor
  · intro h cl hcl
    have := h.client cl hcl
    rw [hread] at this
    have := (hclient cl).mp this
    rwa [hs] at this
  · intro h
    constructor
    · rw [hread]
      rw [read_patch]
      apply read_congr
      intro i hi
      rw [Nat.zero_add, hmain i hi]
    · rw [hread]
    · intro cl hcl
      rw [hread]
      apply (hclient cl).mpr
      rw [hs]
      exact h cl hcl
    · have hagain := readSpare_of_coded (e := e) (s :=
        { s3cNandWritePage c e data s with oobPoi := spareOf c (s3cNandWritePage c e data s) }) hc hcoded
      rw [hread]
      unfold s3cNandReadOob
      rw [hagain, read_spareOf, read_spareOf]

end Plain

section LargePage

theorem s3cNandOob64_free : freeBytes s3cNandOob64.oobfree = List.range' 2 38 ++ List.range' 56 8 := rfl

theorem s3cNand2048_sound : s3cNand2048.Sound where
  main := rfl
  codes := rfl
  apart := nodup_range'
  before := by
    intro p hp
    have := mem_range'_1.mp hp
    change p < 60
    omega
  room := by decide
  free := by
    intro p hp
    change p ∈ freeBytes s3cNandOob64.oobfree at hp
    rw [s3cNandOob64_free, mem_append, mem_range'_1, mem_range'_1] at hp
    change p < 64
    omega

/-- An ECC unit that gives every byte of a code the value `code`, and that spoils the buffer when
the stored code is another. -/
def plainEngine (code : List UInt8 → UInt8) (n : Nat) : EccEngine n where
  calculate d := List.replicate n (code d)
  correct d dat _ stored :=
    if stored = List.replicate n (code d) then (0, dat) else (-1, fun x => ~~~ dat x)
  calculate_length _ := length_replicate
  correct_same _ _ _ := if_pos rfl

theorem plainEngine_spoils {code : List UInt8 → UInt8} {d stored : List UInt8} (dat : Flash) (p : Nat)
    (h : stored.getD 0 0 ≠ code d) :
    (plainEngine code 4).correct d dat p stored = (-1, fun x => ~~~ dat x) := by
  have hne : stored ≠ List.replicate 4 (code d) := by
    rintro rfl
    exact h rfl
  exact if_neg hne

variable {client : Option (ClientOob s3cNand2048.layout)} {data oobPoi buf : Flash} {stats : EccStats}

theorem freeBytes_before : ∀ i, i < 42 → (freeBytes s3cNandOob64.oobfree).getD i 0 < 60 ∧
    (freeBytes s3cNandOob64.oobfree).getD i 0 ∉ s3cNandOob64.eccpos := by
  decide

theorem freeBytes_last {i : Nat} (hlo : 42 ≤ i) (hi : i < 46) :
    (freeBytes s3cNandOob64.oobfree).getD i 0 = 60 + (i - 42) := by
  rw [s3cNandOob64_free, getD_append_right _ _ _ _ (by rw [length_range']; omega),
    length_range', getD_eq_getElem _ _ (by rw [length_range']; omega),
    getElem_range'_1]
  omega

variable {cl : ClientOob s3cNand2048.layout}

theorem filledOob_fits {i : Nat} (hi : i < cl.oob.length) :
    filledOob s3cNand2048 (some cl) oobPoi ((freeBytes s3cNandOob64.oobfree).getD (cl.ooboffs + i) 0) =
      cl.oob.getD i 0 := by
  have hn : (freeBytes s3cNandOob64.oobfree).Nodup := by decide
  have h := transferAuto_fillAuto hn cl.fits oobPoi
  exact (transferAuto_eq_iff cl.fits _).mp h i hi

theorem add_one_ne (b : UInt8) : b + 1 ≠ b := by
  intro h
  have hnat := congrArg UInt8.toNat h
  rw [UInt8.toNat_add] at hnat
  change (b.toNat + 1) % 256 = b.toNat at hnat
  omega

theorem client_lost {i : Nat} {b : UInt8} (hi : i < cl.oob.length)
    (hlast : 42 ≤ cl.ooboffs + i) (hb : b ≠ cl.oob.getD i 0) :
    ¬ReadsBack s3cNand2048 (plainEngine (fun _ => b) 4) (some cl) data buf
      (writtenPage s3cNand2048 (plainEngine (fun _ => b) 4) false (some cl) data oobPoi stats) := by
  intro h
  have hfits : cl.ooboffs + cl.oob.length ≤ 46 := cl.fits
  have hback := (readsBack_writtenPage s3cNand2048_sound).mp h cl rfl i hi
  have hplace : (freeBytes s3cNand2048.layout.oobfree).getD (cl.ooboffs + i) 0 =
      60 + (cl.ooboffs + i - 42) := freeBytes_last hlast (by omega)
  rw [hplace] at hback
  have hsame := (codedOob_last (c := s3cNand2048) (by omega : cl.ooboffs + i - 42 < 4)).symm.trans hback
  change (List.replicate 4 b).getD (cl.ooboffs + i - 42) 0 = _ at hsame
  rw [getD_replicate _ (by omega)] at hsame
  exact hb hsame

theorem client_kept_iff : (∀ e : EccEngine s3cNand2048.bytes, ReadsBack s3cNand2048 e (some cl) data buf
      (writtenPage s3cNand2048 e false (some cl) data oobPoi stats)) ↔
      cl.oob = [] ∨ cl.ooboffs + cl.oob.length ≤ 42 := by
  constructor
  · intro h
    by_contra hnot
    rw [not_or, not_le] at hnot
    obtain ⟨hne, hlast⟩ := hnot
    have hpos : 0 < cl.oob.length := length_pos_iff.mpr hne
    exact client_lost (by omega : cl.oob.length - 1 < cl.oob.length) (by omega) (add_one_ne _) (h _)
  · intro h e
    apply (readsBack_writtenPage s3cNand2048_sound).mpr
    intro cl' hcl i hi
    cases Option.some.inj hcl
    have hlt : cl.ooboffs + i < 42 := by
      rcases h with h | h
      · rw [h] at hi
        cases hi
      · omega
    obtain ⟨hbefore, hapart⟩ := freeBytes_before _ hlt
    exact (codedOob_free hbefore hapart).trans (filledOob_fits hi)

/-- The value that a unit gives the bytes of the spare area's code: 0 as long as the first code of the
main area is not programmed. -/
def spareCode (d : List UInt8) : UInt8 := if d.length = 60 then ~~~ d.getD 40 0 else 0

theorem cleanmarked_code : (nandDoWriteOob s3cNand2048 (plainEngine spareCode 4) cleanmarker
      ⟨.auto, 8, 0, none, some cleanmarker⟩ ⟨fun _ => 0xff, oobPoi, stats⟩).cells 2108 = 0 := by
  obtain ⟨oob, hoob⟩ : ∃ oob, oob = nandFillOob s3cNandOob64 cleanmarker
    ⟨.auto, 8, 0, none, some cleanmarker⟩ (blankOob s3cNand2048 oobPoi) := ⟨_, rfl⟩
  have hfree : oob 40 = 0xff := by
    have hout : 40 ∉ (freeBytes s3cNandOob64.oobfree).drop 0 := by decide
    rw [hoob, nandFillOob]
    dsimp only
    rw [fillAuto_eq, scatter_outside hout]
    rfl
  have hcode : (sendSpare s3cNand2048 (plainEngine spareCode 4) oob).2 (60 + 0) = 0 := by
    refine (sendSpare_code (by decide : 0 < 4)).trans ?_
    change spareCode (read oob 0 60) = 0
    rw [spareCode, if_pos (read_length _ _ _), getD_read (by decide), hfree]
    rfl
  have hcell := s3cNandWriteOob_spare (e := plainEngine spareCode 4) (s := ⟨fun _ => 0xff, oob, stats⟩)
    s3cNand2048_sound (by decide : 60 < 64)
  rw [hcode, hoob] at hcell
  exact hcell.trans UInt8.and_zero

theorem mainCodes_zero : mainCodes s3cNand2048 (plainEngine spareCode 4) data = List.replicate 16 0 := by
  have hcode : ∀ k, (plainEngine spareCode 4).calculate (read data (k * 512) 512) = List.replicate 4 0 := by
    intro k
    change List.replicate 4 (spareCode _) = _
    rw [spareCode, read_length, if_neg (by decide)]
  unfold mainCodes
  change (List.range 4).flatMap (fun k => (plainEngine spareCode 4).calculate (read data (k * 512) 512)) = _
  simp only [hcode]
  rfl

theorem cleanmarked_fails : ¬ReadsBack s3cNand2048 (plainEngine spareCode 4) client data buf
      (writtenPage s3cNand2048 (plainEngine spareCode 4) true client data oobPoi stats) := by
  obtain ⟨s, hs⟩ : ∃ s, s = writtenPage s3cNand2048 (plainEngine spareCode 4) true client data oobPoi
    stats := ⟨_, rfl⟩
  obtain ⟨marked, hmarked⟩ : ∃ cells, cells = (nandDoWriteOob s3cNand2048 (plainEngine spareCode 4)
    cleanmarker ⟨.auto, 8, 0, none, some cleanmarker⟩ ⟨fun _ => 0xff, oobPoi, stats⟩).cells := ⟨_, rfl⟩
  have hpage : s = s3cNandWritePage s3cNand2048 (plainEngine spareCode 4) data
      ⟨marked, filledOob s3cNand2048 client oobPoi, stats⟩ := by
    rw [hs, hmarked]
    exact nandDoWriteOpsPage_eq _
  have hmain : s.cells 2088 = 0 := by
    have hcodes := codedOob_codes (plainEngine spareCode 4) data s3cNand2048_sound
      (filledOob s3cNand2048 client oobPoi)
    rw [mainCodes_zero] at hcodes
    have hfirst := (List.cons.inj hcodes).1
    have hcell := s3cNandWritePage_spare (plainEngine spareCode 4) data
      (s := ⟨marked, filledOob s3cNand2048 client oobPoi, stats⟩) s3cNand2048_sound (by decide : 40 < 64)
    rw [hfirst, UInt8.and_zero] at hcell
    rw [hpage]
    exact hcell
  have hspare : s.cells 2108 = 0 := by
    have hcell := s3cNandWritePage_spare (plainEngine spareCode 4) data
      (s := ⟨marked, filledOob s3cNand2048 client oobPoi, stats⟩) s3cNand2048_sound (by decide : 60 < 64)
    have hzero : marked (2048 + 60) = 0 := by
      rw [hmarked]
      exact cleanmarked_code
    rw [hpage]
    refine hcell.trans ?_
    change marked (2048 + 60) &&& _ = 0
    rw [hzero, UInt8.zero_and]
  have hoob : (readSpare s3cNand2048 (plainEngine spareCode 4) s).oobPoi 40 = 0xff := by
    have hcode : spareCode (read s.cells 2048 60) = 0xff := by
      rw [spareCode, if_pos (read_length _ _ _), getD_read (by decide), hmain]
      rfl
    obtain ⟨oob, hbuf⟩ : ∃ oob, oob =
      store (store s.oobPoi 0 (read s.cells 2048 60)) 60 (read s.cells 2108 4) := ⟨_, rfl⟩
    have hstored : (read oob 60 4).getD 0 0 = 0 := by
      have hread := read_store (store s.oobPoi 0 (read s.cells 2048 60)) 60 (read s.cells 2108 4)
      rw [read_length, ← hbuf] at hread
      rw [hread, getD_read (by decide), hspare]
    have hdat : oob 40 = 0 := by
      rw [hbuf, store_outside (.inl (by decide)), store_read, patch_inside (by decide) (by decide)]
      exact hmain
    have hspoiled := plainEngine_spoils (d := read s.cells 2048 60) oob 0
      (show (read oob 60 4).getD 0 0 ≠ spareCode (read s.cells 2048 60) by
        rw [hstored, hcode]
        decide)
    rw [hbuf] at hspoiled
    refine (congrFun (congrArg Prod.snd hspoiled) 40).trans ?_
    dsimp only
    rw [← hbuf, hdat]
    rfl
  rw [← hs]
  intro h
  have hlt : s.stats.failed < (s3cNandReadPage s3cNand2048 (plainEngine spareCode 4) buf s).2.stats.failed := by
    apply readMain_failed_lt
    have hne : ((((s3cNandOob64.eccpos.take 16).map
        (readSpare s3cNand2048 (plainEngine spareCode 4) s).oobPoi).drop 0).take 4).getD 0 0 ≠
          spareCode (read s.cells 0 512) := by
      change (readSpare s3cNand2048 (plainEngine spareCode 4) s).oobPoi 40 ≠ _
      rw [hoob, spareCode, read_length, if_neg (by decide)]
      decide
    exact congrArg Prod.fst (plainEngine_spoils _ 0 hne)
  exact absurd h.failed (ne_of_gt hlt)

/-- A page comes back as written whatever the ECC unit does with a wrong code, if and only if no
cleanmarker was put to it before and the client's bytes end before the code of the spare area. -/
theorem s3c_nand_read_page_iff (cleanmarked : Bool) (client : Option (ClientOob s3cNand2048.layout))
    (data oobPoi buf : Flash) (stats : EccStats) :
    (∀ e : EccEngine s3cNand2048.bytes, ReadsBack s3cNand2048 e client data buf
      (writtenPage s3cNand2048 e cleanmarked client data oobPoi stats)) ↔
      cleanmarked = false ∧ ∀ cl, client = some cl → cl.oob = [] ∨ cl.ooboffs + cl.oob.length ≤ 42 := by
  cases cleanmarked with
  | true => exact ⟨fun h => absurd (h _) cleanmarked_fails, fun h => nomatch h.1⟩
  | false =>
    cases client with
    | none =>
      have h : ∀ e : EccEngine s3cNand2048.bytes, ReadsBack s3cNand2048 e none data buf
          (writtenPage s3cNand2048 e false none data oobPoi stats) := by
        intro e
        apply (readsBack_writtenPage s3cNand2048_sound).mpr
        intro cl hcl
        cases hcl
      exact ⟨fun _ => ⟨rfl, fun cl hcl => nomatch hcl⟩, fun _ => h⟩
    | some cl =>
      rw [client_kept_iff]
      constructor
      · intro h
        refine ⟨rfl, fun cl' hcl => ?_⟩
        cases Option.some.inj hcl
        exact h
      · intro h
        exact h.2 cl rfl

/-- A client's zero in the last entry of the layout comes back as a byte of the code. -/
theorem s3c_nand_read_page_client_lost :
    ¬ReadsBack s3cNand2048 (plainEngine (fun _ => 1) 4) (some ⟨42, [0], by decide⟩) (fun _ => 0) (fun _ => 0)
      (writtenPage s3cNand2048 (plainEngine (fun _ => 1) 4) false (some ⟨42, [0], by decide⟩) (fun _ => 0)
        (fun _ => 0xff) ⟨0, 0⟩) :=
  client_lost (i := 0) (by decide) (by decide) (by decide)

end LargePage

end UBoot
