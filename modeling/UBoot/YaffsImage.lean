import Mathlib.Algebra.GroupWithZero.Nat
import UBoot.NandMode
import UBoot.NandSkipBadSafe
import UBoot.YaffsWrite

namespace UBoot

open FlashCells GoodSpace List NandInfo

/-- A page of the image: its data, and its spare bytes. -/
structure PageRecord (c : NandChip) where
  data : List UInt8
  spare : List UInt8
  dataSize : data.length = c.writesize
  spareSize : spare.length = c.oobsize

namespace PageRecord

variable {c : NandChip}

def bytes (r : PageRecord c) : List UInt8 := r.data ++ r.spare

def program (page : Nat) (r : PageRecord c) : PageProgram := ⟨⟨.writePageRaw, page⟩, r.data, r.spare⟩

/-- The spare bytes behind those that `ooboffs` leaves at `chip->oob_poi`. -/
def spareBehind (oobPoi : Flash) (ooboffs : Nat) (r : PageRecord c) : List UInt8 :=
  (read oobPoi 0 ooboffs ++ r.spare).take c.oobsize

def programBehind (oobPoi : Flash) (ooboffs page : Nat) (r : PageRecord c) : PageProgram :=
  ⟨⟨.writePageRaw, page⟩, r.data, r.spareBehind oobPoi ooboffs⟩

theorem bytes_length (r : PageRecord c) : r.bytes.length = c.writesize + c.oobsize := by
  rw [bytes, length_append, r.dataSize, r.spareSize]

end PageRecord

variable {c : NandChip} {layout : NandEcclayout} {answers : ChipAnswers} {records : List (PageRecord c)}
  {m poi : Flash} {p : Nat}

theorem pagesData_succ (pages : Nat) : pagesData c m p (pages + 1) =
    read m p c.writesize ++ pagesData c m (p + (c.writesize + c.oobsize)) pages := by
  unfold pagesData
  rw [range_succ_eq_map, flatMap_cons, flatMap_map, mul_zero, add_zero]
  refine congrArg _ (flatMap_congr fun i _ => ?_)
  rw [Nat.succ_eq_add_one, Nat.mul_add, mul_one]
  congr 1
  omega

theorem pagesSpare_succ (pages : Nat) : pagesSpare c m p (pages + 1) =
    read m (p + c.writesize) c.oobsize ++ pagesSpare c m (p + (c.writesize + c.oobsize)) pages := by
  unfold pagesSpare
  rw [range_succ_eq_map, flatMap_cons, flatMap_map, mul_zero, add_zero]
  refine congrArg _ (flatMap_congr fun i _ => ?_)
  rw [Nat.succ_eq_add_one, Nat.mul_add, mul_one]
  congr 1
  omega

theorem bytes_flatMap_length (records : List (PageRecord c)) :
    (records.flatMap PageRecord.bytes).length = records.length * (c.writesize + c.oobsize) := by
  rw [length_flatMap, map_congr_left fun r _ => r.bytes_length]
  simp

theorem image_cons {r : PageRecord c}
    (h : read m p ((r :: records).length * (c.writesize + c.oobsize)) = (r :: records).flatMap PageRecord.bytes) :
    read m p c.writesize = r.data ∧ read m (p + c.writesize) c.oobsize = r.spare ∧
      read m (p + (c.writesize + c.oobsize)) (records.length * (c.writesize + c.oobsize)) =
        records.flatMap PageRecord.bytes := by
  rw [← bytes_flatMap_length, flatMap_cons] at h
  obtain ⟨hfirst, hrest⟩ := read_eq_append.mp h
  obtain ⟨hdata, hspare⟩ := read_eq_append.mp hfirst
  rw [r.bytes_length, bytes_flatMap_length] at hrest
  rw [r.dataSize] at hdata hspare
  rw [r.spareSize] at hspare
  exact ⟨hdata, hspare, hrest⟩

theorem pages_image
    (h : read m p (records.length * (c.writesize + c.oobsize)) = records.flatMap PageRecord.bytes) :
    pagesData c m p records.length = records.flatMap PageRecord.data ∧
      pagesSpare c m p records.length = records.flatMap PageRecord.spare := by
  induction records generalizing p with
  | nil => exact ⟨rfl, rfl⟩
  | cons r records ih =>
    obtain ⟨hdata, hspare, hrest⟩ := image_cons h
    obtain ⟨ihData, ihSpare⟩ := ih hrest
    rw [length_cons, pagesData_succ, pagesSpare_succ, hdata, hspare, ihData, ihSpare]
    exact ⟨rfl, rfl⟩

theorem read_nandFillOob {ops : MtdOobOps} (hmode : ops.mode = .raw) (hlen : ops.ooblen = c.oobsize)
    (r : PageRecord c) (rest : List UInt8) :
    read (nandFillOob layout (r.spare ++ rest) ops poi) 0 c.oobsize = r.spareBehind poi ops.ooboffs ∧
      ∀ x, x < ops.ooboffs → nandFillOob layout (r.spare ++ rest) ops poi x = poi x := by
  have hfill : nandFillOob layout (r.spare ++ rest) ops poi = store poi ops.ooboffs r.spare := by
    unfold nandFillOob
    rw [hmode, hlen, take_left' r.spareSize]
  rw [hfill]
  refine ⟨?_, fun x hx => store_outside (.inl hx)⟩
  have hall : read (store poi ops.ooboffs r.spare) 0 (ops.ooboffs + r.spare.length) =
      read poi 0 ops.ooboffs ++ r.spare := by
    rw [read_append, read_store_outside (.inl (by omega)), zero_add, read_store]
  have htake : ((read (store poi ops.ooboffs r.spare) 0 (ops.ooboffs + r.spare.length)).drop 0).take c.oobsize =
      read (store poi ops.ooboffs r.spare) (0 + 0) c.oobsize :=
    take_drop_read _ (by rw [r.spareSize]; omega)
  rw [drop_zero, hall] at htake
  exact htake.symm

theorem spareBehind_congr {poi' : Flash} {ooboffs : Nat} (h : ∀ x, x < ooboffs → poi' x = poi x)
    (r : PageRecord c) : r.spareBehind poi' ooboffs = r.spareBehind poi ooboffs := by
  unfold PageRecord.spareBehind
  have hread : read poi' 0 ooboffs = read poi 0 ooboffs := read_congr fun i hi => h (0 + i) (by omega)
  rw [hread]

theorem programOpsFuel_spec {ops : MtdOobOps} (hmode : ops.mode = .raw) (hlen : ops.ooblen = c.oobsize)
    {fuel page left : Nat} {pages : List PageProgram} {poi' : Flash} (hne : records ≠ [])
    (hf : records.length ≤ fuel)
    (hrun : programOpsFuel c layout answers ops fuel page (records.length * c.writesize)
      (records.flatMap PageRecord.data) (records.flatMap PageRecord.spare) poi = (0, left, pages, poi')) :
    left = 0 ∧ (∀ x, x < ops.ooboffs → poi' x = poi x) ∧
      pages = List.zipWith (PageRecord.programBehind poi ops.ooboffs) (List.range' page records.length)
        records := by
  induction records generalizing fuel page poi left pages poi' with
  | nil => exact absurd rfl hne
  | cons r records ih =>
    obtain ⟨fuel, rfl⟩ : ∃ k, fuel = k + 1 := ⟨fuel - 1, by rw [length_cons] at hf; omega⟩
    obtain ⟨hread, hsame⟩ : read (nandFillOob layout (r.spare ++ records.flatMap PageRecord.spare) ops poi) 0
          c.oobsize = r.spareBehind poi ops.ooboffs ∧
        ∀ x, x < ops.ooboffs → nandFillOob layout (r.spare ++ records.flatMap PageRecord.spare) ops poi x = poi x :=
      read_nandFillOob hmode hlen r _
    have hws := c.hasPages
    have hleft : (r :: records).length * c.writesize - c.writesize = records.length * c.writesize := by
      rw [length_cons, Nat.add_mul, one_mul, Nat.add_sub_cancel]
    rw [programOpsFuel, flatMap_cons, flatMap_cons] at hrun
    generalize nandFillOob layout (r.spare ++ records.flatMap PageRecord.spare) ops poi = poi₁ at hread hsame hrun
    rw [hread, take_left' r.dataSize, drop_left' r.dataSize, hlen, drop_left' r.spareSize, hleft] at hrun
    have hfirst : (⟨⟨.writePageRaw, page⟩, r.data, r.spareBehind poi ops.ooboffs⟩ : PageProgram) =
        r.programBehind poi ops.ooboffs page := rfl
    rw [hfirst] at hrun
    rw [length_cons, List.range'_succ, zipWith_cons_cons]
    split at hrun
    next hret => exact absurd (Prod.mk.inj hrun).1 hret
    · split at hrun
      next hdone =>
        obtain ⟨-, hrun⟩ := Prod.mk.inj hrun
        obtain ⟨hzero, hrun⟩ := Prod.mk.inj hrun
        obtain ⟨hpages, hpoi⟩ := Prod.mk.inj hrun
        have hnil : records = [] := length_eq_zero_iff.mp ((Nat.mul_eq_zero.mp hdone).resolve_right hws.ne')
        subst hnil
        exact ⟨hzero.symm, fun x hx => hpoi ▸ hsame x hx, hpages.symm⟩
      next hmore =>
        obtain ⟨⟨ret, left', pages', poi₂⟩, hinner⟩ : ∃ t, programOpsFuel c layout answers ops fuel (page + 1)
          (records.length * c.writesize) (records.flatMap PageRecord.data) (records.flatMap PageRecord.spare) poi₁ = t :=
          ⟨_, rfl⟩
        rw [hinner] at hrun
        obtain ⟨hret, hrest⟩ := Prod.mk.inj hrun
        obtain ⟨hleft', hlists⟩ := Prod.mk.inj hrest
        obtain ⟨hpages', hpoi'⟩ := Prod.mk.inj hlists
        subst hret hleft' hpages' hpoi'
        have hrest : records ≠ [] := fun hnil => hmore (by rw [hnil, length_nil, zero_mul])
        obtain ⟨hleft', hsame', hpages⟩ := ih hrest (Nat.le_of_succ_le_succ hf) hinner
        refine ⟨hleft', fun x hx => (hsame' x hx).trans (hsame x hx), ?_⟩
        rw [hpages]
        refine congrArg _ (congrArg (List.zipWith · _ _) ?_)
        funext pg r'
        rw [PageRecord.programBehind, PageRecord.programBehind, spareBehind_congr hsame]

variable {d : ImageDevice} {s s' : ImageState} {ofs written : Nat}

/-- What `nand_write` has done to the chip and to the buffer where it has written an image. -/
structure Written (d : ImageDevice) (records : List (PageRecord d.c)) (ofs p : Nat) (s s' : ImageState) : Prop where
  inside : ofs + records.length * d.c.writesize ≤ d.c.size
  ooboffs : s'.ops.ooboffs = s.ops.ooboffs
  oobPoi : ∀ x, x < s.ops.ooboffs → s'.oobPoi x = s.oobPoi x
  programmed : s'.programmed = s.programmed ++
    List.zipWith (PageRecord.programBehind s.oobPoi s.ops.ooboffs)
      (List.range' (ofs / d.c.writesize) records.length) records
  behind : ∀ a k, p + records.length * (d.c.writesize + d.c.oobsize) ≤ a → read s'.buffer a k = read s.buffer a k

theorem nandWriteImage_written {answers : List PageProgram → ChipAnswers} {records : List (PageRecord d.c)}
    (hne : records ≠ [])
    (himage : read s.buffer p (records.length * (d.c.writesize + d.c.oobsize)) = records.flatMap PageRecord.bytes)
    (hrun : nandWriteImage d answers ofs (records.length * d.c.writesize) p s = ((0, written), s')) :
    written = records.length * d.c.writesize ∧ Written d records ofs p s s' := by
  have hws := d.c.hasPages
  have hinval : (-EINVAL : Int) ≠ 0 := by decide
  have hio : (- EIO : Int) ≠ 0 := by decide
  have hpages : records.length * d.c.writesize / d.c.writesize = records.length := Nat.mul_div_cancel _ hws
  have hpos : records.length ≠ 0 := fun h => hne (length_eq_zero_iff.mp h)
  obtain ⟨hdata, hspare⟩ := pages_image himage
  unfold nandWriteImage at hrun
  dsimp only at hrun
  rw [hpages, gatherPages_data, gatherPages_spare, hdata, hspare] at hrun
  split at hrun
  · exact absurd (Prod.mk.inj (Prod.mk.inj hrun).1).1 hinval
  next hin =>
    rw [if_neg (by rw [Nat.mul_eq_zero]; omega)] at hrun
    unfold programOps at hrun
    split at hrun
    · exact absurd (Prod.mk.inj (Prod.mk.inj hrun).1).1 hinval
    · split at hrun
      · exact absurd (Prod.mk.inj (Prod.mk.inj hrun).1).1 hinval
      · split at hrun
        · exact absurd (Prod.mk.inj (Prod.mk.inj hrun).1).1 hio
        · obtain ⟨⟨ret, left, pages, poi⟩, hloop⟩ : ∃ t, programOpsFuel d.c d.layout (answers s.programmed)
            { s.ops with
              datbuf := some (records.flatMap PageRecord.data)
              oobbuf := some (records.flatMap PageRecord.spare)
              ooblen := d.c.oobsize
              mode := .raw } (records.length * d.c.writesize) (ofs / d.c.writesize)
            (records.length * d.c.writesize) (records.flatMap PageRecord.data) (records.flatMap PageRecord.spare)
            s.oobPoi = t := ⟨_, rfl⟩
          rw [hloop] at hrun
          obtain ⟨hrc, rfl⟩ := Prod.mk.inj hrun
          obtain ⟨hret, rfl⟩ := Prod.mk.inj hrc
          have hret : ret = 0 := hret
          subst hret
          obtain ⟨rfl, hsame, rfl⟩ := programOpsFuel_spec rfl rfl hne (Nat.le_mul_of_pos_right _ hws) hloop
          exact ⟨rfl, by omega, rfl, hsame, rfl, fun a k ha => gatherPages_rest ha⟩

namespace NandInfo

variable (n : NandInfo)

/-- The pages of the good blocks from `o` on. -/
def pagesFrom (o : Nat) : List Nat :=
  goods (fun page => n.good (page * n.writesize)) (o / n.writesize) (n.size / n.writesize)

/-- The pages that an image may take, in order. A `skip_fb` not yet served takes those of the first good block
away. -/
def goodPages (skipFb offset : Nat) : List Nat :=
  match n.pagesFrom offset with
  | [] => []
  | page :: pages => if skipFb = 1 then n.pagesFrom (n.next (page * n.writesize)) else page :: pages

end NandInfo

section Loop

variable {n : NandInfo} {o k b f t l : Nat}

theorem pagesFrom_split (hk : n.writesize ∣ k) (h : o + k ≤ n.size) : n.pagesFrom o =
    goods (fun page => n.good (page * n.writesize)) (o / n.writesize) (o / n.writesize + k / n.writesize) ++
      n.pagesFrom (o + k) := by
  have hws : 0 < n.writesize := Nat.pos_of_dvd_of_pos n.wholePages n.erasable
  have hdiv : (o + k) / n.writesize = o / n.writesize + k / n.writesize := by
    obtain ⟨q, rfl⟩ := hk
    rw [Nat.add_mul_div_left _ _ hws, Nat.mul_div_cancel_left _ hws]
  unfold pagesFrom
  rw [hdiv, ← goods_append (Nat.le_add_right _ _)]
  rw [← hdiv]
  exact Nat.div_le_div_right h

theorem good_page (ho : n.writesize ∣ o) (hk : n.writesize ∣ k) (hend : o + k ≤ n.next o) {page : Nat}
    (h₁ : o / n.writesize ≤ page) (h₂ : page < o / n.writesize + k / n.writesize) :
    n.good (page * n.writesize) = n.good o := by
  have hws : 0 < n.writesize := Nat.pos_of_dvd_of_pos n.wholePages n.erasable
  have hfirst := Nat.mul_le_mul_right n.writesize h₁
  have hlast := Nat.mul_lt_mul_of_pos_right h₂ hws
  rw [Nat.div_mul_cancel ho] at hfirst
  rw [Nat.add_mul, Nat.div_mul_cancel ho, Nat.div_mul_cancel hk] at hlast
  exact good_of_block hfirst (by omega)

theorem pagesFrom_bad (ho : n.writesize ∣ o) (hlt : o < n.size) (hg : n.good o = false) :
    n.pagesFrom o = n.pagesFrom (n.next o) := by
  have hnext := lt_next (n := n) o
  have hsum : o + (n.next o - o) = n.next o := by omega
  have hk : n.writesize ∣ n.next o - o := Nat.dvd_sub (page_dvd_next o) ho
  have hsplit := pagesFrom_split (o := o) hk (by rw [hsum]; exact next_le_size hlt)
  rw [hsum] at hsplit
  rw [hsplit, goods_none, nil_append]
  intro page h₁ h₂
  exact (good_page ho hk (le_of_eq hsum) h₁ h₂).trans hg

theorem pagesFrom_good (ho : n.writesize ∣ o) (hk : n.writesize ∣ k) (hlt : o < n.size) (hg : n.good o = true)
    (hend : o + k ≤ n.next o) :
    n.pagesFrom o = List.range' (o / n.writesize) (k / n.writesize) ++ n.pagesFrom (o + k) := by
  rw [pagesFrom_split hk (hend.trans (next_le_size hlt)), goods_all, Nat.add_sub_cancel_left]
  intro page h₁ h₂
  exact (good_page ho hk hend h₁ h₂).trans hg

theorem goodPages_of_ne (hb : b ≠ 1) : n.goodPages b o = n.pagesFrom o := by
  unfold goodPages
  split
  next h => exact h.symm
  next h => rw [if_neg hb, h]

theorem goodPages_bad (ho : n.writesize ∣ o) (hlt : o < n.size) (hg : n.good o = false) :
    n.goodPages b o = n.goodPages b (n.next o) := by
  unfold goodPages
  rw [pagesFrom_bad ho hlt hg]

theorem goodPages_skip (ho : n.writesize ∣ o) (hlt : o < n.size) (hg : n.good o = true) :
    n.goodPages 1 o = n.goodPages 0 (n.next o) := by
  have hnext := lt_next (n := n) o
  have hws : 0 < n.writesize := Nat.pos_of_dvd_of_pos n.wholePages n.erasable
  have hk : n.writesize ∣ n.next o - o := Nat.dvd_sub (page_dvd_next o) ho
  obtain ⟨q, hq⟩ : ∃ q, (n.next o - o) / n.writesize = q + 1 := by
    refine Nat.exists_eq_succ_of_ne_zero (Nat.div_pos (Nat.le_of_dvd ?_ hk) hws).ne'
    omega
  have hfirst : n.pagesFrom o = o / n.writesize ::
      (List.range' (o / n.writesize + 1) q ++ n.pagesFrom (o + (n.next o - o))) := by
    rw [pagesFrom_good ho hk hlt hg (by omega), hq, List.range'_succ]
    rfl
  rw [goodPages_of_ne (b := 0) (by decide)]
  unfold goodPages
  rw [hfirst]
  dsimp only
  rw [if_pos rfl, Nat.div_mul_cancel ho]

theorem skipImageFuel_past {answers : List PageProgram → ChipAnswers} {r : SkipResult ImageState}
    (ho : d.n.size ≤ o) (hl : 0 < l)
    (hrun : skipWriteFuel d.n (nandWriteImage d answers) t f o l p b s = some r) : r.rc ≠ 0 := by
  induction f generalizing o b with
  | zero => cases hrun
  | succ f ih =>
    have hblock : 0 < d.n.erasesize - d.n.blockOffset o := Nat.sub_pos_of_lt (blockOffset_lt o)
    rw [skipWriteFuel, if_pos hl] at hrun
    dsimp only at hrun
    split at hrun
    · exact ih (by omega) hrun
    · split at hrun
      · exact ih (by omega) hrun
      · obtain ⟨m, hm, hpos⟩ : ∃ m, (if l < d.n.erasesize - d.n.blockOffset o then l
            else d.n.erasesize - d.n.blockOffset o) = m ∧ 0 < m := by
          refine ⟨_, rfl, ?_⟩
          split
          · exact hl
          · exact hblock
        have hout : d.c.size < o + m := by
          rw [← d.size]
          omega
        have hrefused : nandWriteImage d answers o m p s = ((-EINVAL, m),
            { s with buffer := gatherPages d.c p (m / d.c.writesize) s.buffer }) := if_pos hout
        have hinval : (-EINVAL : Int) ≠ 0 := by decide
        rw [hm, hrefused] at hrun
        rw [if_pos hinval] at hrun
        rw [← Option.some.inj hrun]
        exact hinval

/-- An image is programmed: each record to its own page, with the spare bytes behind what `ooboffs` leaves. -/
structure Programs (d : ImageDevice) (records : List (PageRecord d.c)) (pages : List Nat) (s s' : ImageState) :
    Prop where
  fits : records.length ≤ pages.length
  programmed : s'.programmed = s.programmed ++
    List.zipWith (PageRecord.programBehind s.oobPoi s.ops.ooboffs) pages records

theorem image_append {first rest : List (PageRecord c)}
    (h : read m p ((first ++ rest).length * (c.writesize + c.oobsize)) =
      (first ++ rest).flatMap PageRecord.bytes) :
    read m p (first.length * (c.writesize + c.oobsize)) = first.flatMap PageRecord.bytes ∧
      read m (p + first.length * (c.writesize + c.oobsize)) (rest.length * (c.writesize + c.oobsize)) =
        rest.flatMap PageRecord.bytes := by
  rw [← bytes_flatMap_length, flatMap_append] at h
  have hparts := read_eq_append.mp h
  rwa [bytes_flatMap_length, bytes_flatMap_length] at hparts

theorem Written.programs {first rest : List (PageRecord d.c)} {s₁ : ImageState} {pages : List Nat}
    (hw : Written d first o p s s₁) (hrest : Programs d rest pages s₁ s') :
    Programs d (first ++ rest) (List.range' (o / d.c.writesize) first.length ++ pages) s s' := by
  have hsame : PageRecord.programBehind (c := d.c) s₁.oobPoi s₁.ops.ooboffs =
      PageRecord.programBehind s.oobPoi s.ops.ooboffs := by
    funext page r
    rw [hw.ooboffs, PageRecord.programBehind, PageRecord.programBehind, spareBehind_congr hw.oobPoi]
  have hlen := hrest.fits
  refine ⟨?_, ?_⟩
  · rw [length_append, length_append, length_range']
    omega
  · rw [hrest.programmed, hw.programmed, hsame, append_assoc, zipWith_append length_range']

theorem skipWriteFuel_programs {answers : List PageProgram → ChipAnswers} {records : List (PageRecord d.c)}
    {r : SkipResult ImageState} (hoob : d.n.rwOob = 1) (ho : d.n.writesize ∣ o)
    (himage : read s.buffer p (records.length * (d.c.writesize + d.c.oobsize)) = records.flatMap PageRecord.bytes)
    (hrun : skipWriteFuel d.n (nandWriteImage d answers) t f o (records.length * d.c.writesize) p b s = some r)
    (hrc : r.rc = 0) : Programs d records (d.n.goodPages b o) s r.state := by
  have hws := d.c.hasPages
  induction f generalizing records o p b s with
  | zero => cases hrun
  | succ f ih =>
    by_cases hnil : records = []
    · subst hnil
      rw [length_nil, zero_mul, skipWriteFuel_done (Nat.succ_pos f)] at hrun
      rw [← Option.some.inj hrun]
      exact ⟨Nat.zero_le _, by rw [zipWith_nil_right, append_nil]⟩
    have hcount : 0 < records.length := length_pos_iff.mpr hnil
    have hpos : 0 < records.length * d.c.writesize := Nat.mul_pos hcount hws
    by_cases hlt : o < d.n.size
    case neg => exact absurd hrc (skipImageFuel_past (not_lt.mp hlt) hpos hrun)
    cases hg : d.n.good o with
    | false =>
      rw [skipWriteFuel_bad hpos hlt hg] at hrun
      rw [goodPages_bad ho hlt hg]
      exact ih (page_dvd_next o) himage hrun
    | true =>
      by_cases hb : b = 1
      · subst hb
        rw [skipWriteFuel_skip hpos hlt hg] at hrun
        rw [goodPages_skip ho hlt hg]
        exact ih (page_dvd_next o) himage hrun
      -- the records that go to the rest of the block
      obtain ⟨q, hq⟩ : ∃ q, d.n.next o - o = q * d.c.writesize := by
        obtain ⟨q, hq⟩ := Nat.dvd_sub (page_dvd_next o) ho
        exact ⟨q, by rw [hq, d.writesize, mul_comm]⟩
      have hnext := lt_next (n := d.n) o
      have hqpos : 0 < q := Nat.pos_of_mul_pos_right (b := d.c.writesize) (by omega)
      obtain ⟨first, rest, hsplit, hfirst⟩ : ∃ first rest, records = first ++ rest ∧
          first.length = min records.length q :=
        ⟨records.take q, records.drop q, (take_append_drop _ _).symm,
          by rw [length_take, Nat.min_comm]⟩
      have hfirstNe : first ≠ [] := fun h => by
        rw [h, length_nil] at hfirst
        omega
      have hsize : min (records.length * d.c.writesize) (d.n.next o - o) = first.length * d.c.writesize := by
        rw [hq, hfirst, Nat.mul_min_mul_right]
      obtain ⟨⟨⟨rval, written⟩, s₁⟩, hwrite⟩ : ∃ t, nandWriteImage d answers o (first.length * d.c.writesize) p s = t :=
        ⟨_, rfl⟩
      rw [← hsize] at hwrite
      rw [skipWriteFuel_write hpos hlt hg hb hwrite] at hrun
      rw [hsize] at hwrite
      split at hrun
      next hfail =>
        rw [← Option.some.inj hrun] at hrc
        exact absurd hrc hfail
      next hdone =>
        rw [ne_eq, not_not] at hdone
        subst hdone
        rw [hsplit] at himage
        obtain ⟨himageFirst, himageRest⟩ := image_append himage
        obtain ⟨rfl, hw⟩ := nandWriteImage_written hfirstNe himageFirst hwrite
        have hpage : d.n.writesize ∣ first.length * d.c.writesize := by
          rw [d.writesize]
          exact Nat.dvd_mul_left _ _
        have hleft : records.length * d.c.writesize - first.length * d.c.writesize =
            rest.length * d.c.writesize := by
          rw [hsplit, length_append, Nat.add_mul, Nat.add_sub_cancel_left]
        have hstep : d.n.bufferStep (first.length * d.c.writesize) =
            first.length * (d.c.writesize + d.c.oobsize) := by
          rw [bufferStep, if_pos hoob, d.writesize, d.oobsize, Nat.mul_div_cancel _ hws, Nat.mul_add]
        rw [hleft, hstep] at hrun
        have hbehind := (hw.behind _ _ le_rfl).trans himageRest
        have hrest := ih (Nat.dvd_add ho hpage) hbehind hrun
        have hend : o + first.length * d.c.writesize ≤ d.n.next o := by omega
        rw [goodPages_of_ne hb] at hrest ⊢
        rw [pagesFrom_good ho hpage hlt hg hend, hsplit, d.writesize, Nat.mul_div_cancel _ hws]
        exact hw.programs hrest

end Loop

/-- Page `k` of the good blocks is programmed raw with the data and the spare bytes of record `k`, and no other page
is programmed. -/
structure ImageRight (d : ImageDevice) (offset : Nat) (records : List (PageRecord d.c)) (s s' : ImageState) :
    Prop where
  fits : records.length ≤ (d.n.goodPages d.n.skipFb offset).length
  programmed : s'.programmed = s.programmed ++
    List.zipWith PageRecord.program (d.n.goodPages d.n.skipFb offset) records

/-- The spare bytes are the same behind those that `ooboffs` leaves. -/
def PageRecord.SpareStays (s : ImageState) (r : PageRecord c) : Prop :=
  r.spareBehind s.oobPoi s.ops.ooboffs = r.spare

theorem zipWith_program_iff {ooboffs : Nat} {pages : List Nat} (hfits : records.length ≤ pages.length) :
    List.zipWith (PageRecord.programBehind poi ooboffs) pages records =
        List.zipWith PageRecord.program pages records ↔
      ∀ r ∈ records, r.spareBehind poi ooboffs = r.spare := by
  induction records generalizing pages with
  | nil => simp
  | cons r records ih =>
    cases pages with
    | nil => exact absurd hfits (Nat.not_succ_le_zero _)
    | cons page pages =>
      rw [zipWith_cons_cons, zipWith_cons_cons, List.cons.injEq, forall_mem_cons,
        ih (Nat.le_of_succ_le_succ hfits)]
      refine and_congr_left fun _ => ⟨fun h => congrArg PageProgram.spare h, fun h => ?_⟩
      rw [PageRecord.programBehind, h]
      rfl

theorem Programs.right_iff {records : List (PageRecord d.c)} {offset : Nat}
    (h : Programs d records (d.n.goodPages d.n.skipFb offset) s s') :
    ImageRight d offset records s s' ↔ ∀ record ∈ records, record.SpareStays s := by
  have hsame : List.zipWith (PageRecord.programBehind s.oobPoi s.ops.ooboffs) (d.n.goodPages d.n.skipFb offset) records =
      List.zipWith PageRecord.program (d.n.goodPages d.n.skipFb offset) records ↔ ∀ r ∈ records, r.SpareStays s :=
    zipWith_program_iff h.fits
  constructor
  · intro hright
    exact hsame.mp (append_cancel_left (h.programmed.symm.trans hright.programmed))
  · intro hstays
    refine ⟨h.fits, ?_⟩
    rw [h.programmed, hsame.mpr hstays]

theorem nandWriteSkipBad_programs {answers : List PageProgram → ChipAnswers} {records : List (PageRecord d.c)}
    {fuel offset : Nat} {r : SkipResult ImageState} (hoob : d.n.rwOob = 1) (hoffset : d.n.erasesize ∣ offset)
    (himage : read s.buffer 0 (records.length * (d.c.writesize + d.c.oobsize)) = records.flatMap PageRecord.bytes)
    (hrun : nandWriteSkipBad d.n (nandWriteImage d answers) fuel offset
      (records.length * (d.c.writesize + d.c.oobsize)) s = some r)
    (hrc : r.rc = 0) : Programs d records (d.n.goodPages d.n.skipFb offset) s r.state := by
  have hws := d.c.hasPages
  have hinval : (-EINVAL : Int) ≠ 0 := by decide
  have hlen : records.length * (d.c.writesize + d.c.oobsize) / (d.c.writesize + d.c.oobsize) = records.length :=
    Nat.mul_div_cancel _ (by omega)
  have hmod : records.length * (d.c.writesize + d.c.oobsize) % (d.c.oobsize + d.c.writesize) = 0 := by
    rw [add_comm d.c.oobsize]
    exact Nat.mul_mod_left _ _
  unfold nandWriteSkipBad at hrun
  rw [if_pos hoob, d.oobsize, d.writesize, hmod, hlen, if_neg (not_not.mpr rfl)] at hrun
  unfold skipWrite at hrun
  dsimp only at hrun
  split at hrun
  · rw [← Option.some.inj hrun] at hrc
    exact absurd hrc hinval
  · rw [if_neg (by rw [hoob]; omega)] at hrun
    exact skipWriteFuel_programs hoob (Nat.dvd_trans d.n.wholePages hoffset) himage hrun hrc

/-- Where `nand_write_skip_bad` returns 0 for a YAFFS image, each page keeps its own spare bytes exactly where
`chip->ops.ooboffs` is 0, or leaves bytes at `chip->oob_poi` with which they are the same. -/
theorem yaffs_image_right_iff (d : ImageDevice) (answers : List PageProgram → ChipAnswers)
    {records : List (PageRecord d.c)} {fuel offset : Nat} {s : ImageState} {r : SkipResult ImageState}
    (hoob : d.n.rwOob = 1) (hoffset : d.n.erasesize ∣ offset)
    (himage : read s.buffer 0 (records.length * (d.c.writesize + d.c.oobsize)) = records.flatMap PageRecord.bytes)
    (hrun : nandWriteSkipBad d.n (nandWriteImage d answers) fuel offset
      (records.length * (d.c.writesize + d.c.oobsize)) s = some r)
    (hrc : r.rc = 0) :
    ImageRight d offset records s r.state ↔ ∀ record ∈ records, record.SpareStays s :=
  (nandWriteSkipBad_programs hoob hoffset himage hrun hrc).right_iff

def smallPages : ImageDevice where
  n := { endBad with rwOob := 1, isbad := fun a => a == 0x4000 }
  c := smallPage
  layout := ⟨[0, 1, 2, 3, 6, 7], [⟨8, 8⟩]⟩
  size := rfl
  writesize := rfl
  oobsize := rfl

def sureAnswers : ChipAnswers := ⟨false, fun _ => 0, 0, fun _ => false, fun _ => false, fun _ => false⟩

def numbered : PageRecord smallPages.c where
  data := List.replicate 512 0
  spare := (List.range 16).map fun i => UInt8.ofNat (i + 1)
  dataSize := length_replicate
  spareSize := rfl

def freshImage (records : List (PageRecord c)) : ImageState :=
  ⟨ChipState.init.ops, fun _ => 0xff, store (fun _ => 0) 0 (records.flatMap PageRecord.bytes), []⟩

theorem freshImage_read (records : List (PageRecord c)) :
    read (freshImage records).buffer 0 (records.length * (c.writesize + c.oobsize)) =
      records.flatMap PageRecord.bytes := by
  rw [← bytes_flatMap_length, freshImage, read_store]

theorem programOpsFuel_rc {ops : MtdOobOps} (h : ∀ page, answers.page page = 0) (fuel page len : Nat)
    (buf oob : List UInt8) : (programOpsFuel c layout answers ops fuel page len buf oob poi).1 = 0 := by
  induction fuel generalizing page len buf oob poi with
  | zero => rfl
  | succ fuel ih =>
    rw [programOpsFuel]
    rw [if_neg (not_not.mpr (h page))]
    split
    · rfl
    · exact ih _ _ _ _

theorem nandWriteImage_rc {answers : List PageProgram → ChipAnswers} {len : Nat}
    (hpage : ∀ done page, (answers done).page page = 0) (hwp : ∀ done, (answers done).writeProtected = false)
    (hofs : ofs % d.c.writesize = 0) (hlen : len % d.c.writesize = 0) (hin : ofs + len ≤ d.c.size) :
    (nandWriteImage d answers ofs len p s).1.1 = 0 := by
  have hsubpage : ∀ {x : Nat}, x % d.c.writesize = 0 → x % d.c.subpagesize = 0 :=
    fun hx => Nat.mod_eq_zero_of_dvd (Nat.dvd_trans d.c.subpages (Nat.dvd_of_mod_eq_zero hx))
  unfold nandWriteImage
  rw [if_neg (not_lt.mpr hin)]
  split
  · rfl
  · unfold programOps
    rw [hsubpage hofs, hsubpage hlen, hofs, hlen, hwp, if_neg (by omega), if_neg (by omega), if_neg Bool.false_ne_true]
    exact programOpsFuel_rc (hpage _) _ _ _ _ _

theorem smallPages_run {records : List (PageRecord smallPages.c)} (hpos : 0 < records.length)
    (hblock : records.length ≤ 32) (hlen : getLenInclBad smallPages.n 0 (records.length * 512) = 0x4000)
    (himage : read s.buffer 0 (records.length * (smallPages.c.writesize + smallPages.c.oobsize)) =
      records.flatMap PageRecord.bytes) :
    ∃ r, nandWriteSkipBad smallPages.n (nandWriteImage smallPages fun _ => sureAnswers) 5 0
      (records.length * 528) s = some r ∧ r.rc = 0 := by
  have hin : 0 + records.length * 512 ≤ smallPages.c.size := by
    have hsize : 32 * 512 ≤ smallPages.c.size := by decide
    omega
  obtain ⟨⟨⟨rval, written⟩, s₁⟩, hwrite⟩ : ∃ t,
    nandWriteImage smallPages (fun _ => sureAnswers) 0 (records.length * 512) 0 s = t := ⟨_, rfl⟩
  have hrval : rval = 0 := by
    have hrc : (nandWriteImage smallPages (fun _ => sureAnswers) 0 (records.length * 512) 0 s).1.1 = 0 :=
      nandWriteImage_rc (fun _ _ => rfl) (fun _ => rfl) (by decide) (Nat.mul_mod_left _ _) hin
    rw [hwrite] at hrc
    exact hrc
  subst hrval
  obtain ⟨rfl, -⟩ := nandWriteImage_written (ne_nil_of_length_pos hpos) himage hwrite
  have hdata : smallPages.n.dataLen (records.length * 528) = records.length * 512 := by
    have hpages : records.length * 528 / 528 = records.length := Nat.mul_div_cancel _ (by decide)
    exact (if_pos rfl).trans (congrArg (· * 512) hpages)
  have hloop : nandWriteSkipBad smallPages.n (nandWriteImage smallPages fun _ => sureAnswers) 5 0
      (records.length * 528) s = skipWriteFuel smallPages.n (nandWriteImage smallPages fun _ => sureAnswers)
        (records.length * 512) 5 0 (records.length * 512) 0 0 s := by
    have haligned : smallPages.n.Aligned 0 (records.length * 528) :=
      Eq.mpr (if_pos rfl) (Nat.mul_mod_left _ _)
    rw [nandWriteSkipBad_aligned haligned, hdata, skipWrite]
    rw [hlen, if_neg (by decide), if_neg fun h => absurd h.2 (by decide)]
    rfl
  have hsize : min (records.length * 512) (smallPages.n.next 0 - 0) = records.length * 512 := by
    have hnext : smallPages.n.next 0 = 0x4000 := by decide
    omega
  rw [← hsize] at hwrite
  rw [hloop, skipWriteFuel_write (by omega) (by decide) (by decide) (by decide) hwrite, if_neg (not_not.mpr rfl),
    show records.length * 512 - records.length * smallPages.c.writesize = 0 from Nat.sub_self _]
  exact ⟨_, skipWriteFuel_done (by decide), rfl⟩

/-- Two records with different spare bytes, into two pages of one block. -/
def twoRecords : List (PageRecord smallPages.c) :=
  [numbered, { numbered with spare := List.replicate 16 0x55, spareSize := rfl }]

theorem yaffs_image_right_two_records :
    ∃ r, nandWriteSkipBad smallPages.n (nandWriteImage smallPages fun _ => sureAnswers) 5 0 1056
        (freshImage twoRecords) = some r ∧
      (ImageRight smallPages 0 twoRecords (freshImage twoRecords) r.state ↔
        ∀ record ∈ twoRecords, record.SpareStays (freshImage twoRecords)) := by
  obtain ⟨r, hrun, hrc⟩ := smallPages_run (by decide) (by decide) (by decide +kernel) (freshImage_read twoRecords)
  exact ⟨r, hrun, yaffs_image_right_iff smallPages _ rfl (Nat.dvd_zero _) (freshImage_read twoRecords) hrun hrc⟩

/-- A block has been marked bad, and the next image gets its spare bytes four places too high. -/
theorem marked_block_moves_spare : ∃ s r,
    nandDefaultBlockMarkbad smallPages.c 0x4000 sureAnswers (freshImage [numbered]) = (0, s) ∧
      nandWriteSkipBad smallPages.n (nandWriteImage smallPages fun _ => sureAnswers) 5 0 528 s = some r ∧
      r.rc = 0 ∧ ¬ImageRight smallPages 0 [numbered] s r.state := by
  obtain ⟨s, hmark⟩ : ∃ s, nandDefaultBlockMarkbad smallPages.c 0x4000 sureAnswers (freshImage [numbered]) = (0, s) :=
    ⟨_, Prod.ext rfl rfl⟩
  obtain ⟨hooboffs, hbuffer, hpoi⟩ := nandDefaultBlockMarkbad_done hmark
  have himage := freshImage_read [numbered]
  rw [← hbuffer] at himage
  obtain ⟨r, hrun, hrc⟩ := smallPages_run (by decide) (by decide) (by decide +kernel) himage
  have hprograms := nandWriteSkipBad_programs rfl (Nat.dvd_zero _) himage hrun hrc
  refine ⟨s, r, hmark, hrun, hrc, fun hright => ?_⟩
  have hstays := hprograms.right_iff.mp hright numbered (mem_singleton.mpr rfl)
  unfold PageRecord.SpareStays PageRecord.spareBehind at hstays
  have hblank : read s.oobPoi 0 4 = [0xff, 0xff, 0xff, 0xff] := by
    rw [hpoi]
    rfl
  have hshift : badblockpos smallPages.c / 2 * 2 = 4 := by decide
  rw [hooboffs, hshift, hblank] at hstays
  exact absurd hstays (by decide)

end UBoot
