import UBoot.Extents
import UBoot.FlashWrite

namespace UBoot.FlashErase

open List

open UBoot.FlashWrite (Sector FlashInfo spans spans_bounds flashUnknown)
open Extents (Extent Covers Tiles)

/-- What ends `flash_fill_sect_ranges` with 1. -/
inductive FillError where
  | endNotOnBoundary
  | endPrecedesStart
  | startNotOnBoundary
  | reverseOrder
deriving DecidableEq

def bEnd (info : FlashInfo) : Nat := (info.start + info.size + (2 ^ 32 - 1)) % 2 ^ 32

/-- `info->start[sect]` -/
def startOf (info : FlashInfo) (sect : Nat) : Nat := (info.sectors[sect]?.map Sector.start).getD 0

def sEnd (info : FlashInfo) : Nat := info.sectors.length - 1

/-- `end`, the last address in current sect -/
def lastOf (info : FlashInfo) (sect : Nat) : Nat :=
  if sect = sEnd info then bEnd info else (startOf info (sect + 1) + (2 ^ 32 - 1)) % 2 ^ 32

/-- One sector of a bank against the range, with `s_first[bank]` and `s_last[bank]`. -/
def markSector (info : FlashInfo) (addrFirst addrLast : Nat) (r : Option Nat × Option Nat) (sect : Nat) :
    Option Nat × Option Nat :=
  if addrFirst > lastOf info sect then r
  else if addrLast < startOf info sect then r
  else (if addrFirst = startOf info sect then some sect else r.1, if addrLast = lastOf info sect then some sect else r.2)

def markSectors (info : FlashInfo) (addrFirst addrLast : Nat) : Option Nat × Option Nat :=
  (List.range info.sectors.length).foldl (markSector info addrFirst addrLast) (none, none)

def withRange (range : Option (Nat × Nat)) (n : Nat) :
    Except FillError (List (Option (Nat × Nat)) × Nat) → Except FillError (List (Option (Nat × Nat)) × Nat)
  | .ok (ranges, count) => .ok (range :: ranges, count + n)
  | .error e => .error e

/-- `flash_fill_sect_ranges`: for each bank the sectors to erase, and their number. -/
@[grind =] def fillSectRanges : List FlashInfo → Nat → Nat → Except FillError (List (Option (Nat × Nat)) × Nat)
  | [], _, _ => .ok ([], 0)
  | info :: infos, addrFirst, addrLast =>
    if addrFirst > addrLast then .ok ((info :: infos).map fun _ => none, 0)
    else if info.flashId = flashUnknown then withRange none 0 (fillSectRanges infos addrFirst addrLast)
    else
      match markSectors info addrFirst addrLast with
      | (some first, last) =>
        match last.or (if addrLast > bEnd info then some (sEnd info) else none) with
        | none => .error .endNotOnBoundary
        | some last =>
          if last < first then .error .endPrecedesStart
          else
            let next := if last = sEnd info then (bEnd info + 1) % 2 ^ 32 else startOf info (last + 1)
            withRange (some (first, last)) (last - first + 1) (fillSectRanges infos next addrLast)
      | (none, last) =>
        if addrFirst ≥ info.start ∧ addrFirst < bEnd info then .error .startNotOnBoundary
        else if last.isSome then .error .reverseOrder
        else withRange none 0 (fillSectRanges infos addrFirst addrLast)

/-- A call of `flash_erase`. -/
structure EraseCall where
  info : FlashInfo
  sFirst : Nat
  sLast : Nat

/-- The loop that erases. What `flash_erase` returns may depend on the calls so far. -/
def eraseLoop (flashErase : List EraseCall → Int) : List (FlashInfo × Option (Nat × Nat)) → List EraseCall →
    Int × List EraseCall
  | [], calls => (0, calls)
  | (_, none) :: rest, calls => eraseLoop flashErase rest calls
  | (info, some (first, last)) :: rest, calls =>
    let calls := calls ++ [⟨info, first, last⟩]
    if flashErase calls ≠ 0 then (flashErase calls, calls) else eraseLoop flashErase rest calls

/-- `flash_sect_erase`: what it returns, and its calls of `flash_erase`. -/
def flashSectErase (infos : List FlashInfo) (flashErase : List EraseCall → Int) (addrFirst addrLast : Nat) :
    Int × List EraseCall :=
  match fillSectRanges infos addrFirst addrLast with
  | .error _ => (1, [])
  | .ok (ranges, planned) => if planned ≠ 0 then eraseLoop flashErase (infos.zip ranges) [] else (1, [])

def extents (info : FlashInfo) : List Extent :=
  (spans (info.start + info.size) info.sectors).map fun s => ⟨s.1.start, s.2⟩

/-- The sectors from `sFirst` to `sLast`. -/
def EraseCall.sectors (c : EraseCall) : List Extent := ((extents c.info).take (c.sLast + 1)).drop c.sFirst

def erased (calls : List EraseCall) : List Extent := calls.flatMap EraseCall.sectors

/-- `flash_info`: banks in any order and without an address in common, and unknown flash between them. -/
structure Banks (infos : List FlashInfo) : Prop where
  whole : ∀ info ∈ infos, info.flashId ≠ flashUnknown → info.IsBank
  disjoint : infos.Pairwise fun a b => a.flashId ≠ flashUnknown → b.flashId ≠ flashUnknown →
    a.start + a.size ≤ b.start ∨ b.start + b.size ≤ a.start

def Has (infos : List FlashInfo) (e : Extent) : Prop := ∃ info ∈ infos, info.flashId ≠ flashUnknown ∧ e ∈ extents info

/-- The range starts and ends on sector boundaries, and sectors cover it. -/
structure Erasable (infos : List FlashInfo) (addrFirst addrLast : Nat) : Prop where
  first : ∃ e, Has infos e ∧ e.lo = addrFirst
  last : ∃ e, Has infos e ∧ e.hi = addrLast + 1
  covered : ∀ x, addrFirst ≤ x → x ≤ addrLast → ∃ e, Has infos e ∧ e.Contains x

/-- The sectors of the range, each one once, if it returns 0, and nothing of a range that is none of whole sectors. -/
structure Exact (infos : List FlashInfo) (addrFirst addrLast : Nat) (r : Int × List EraseCall) : Prop where
  tiled : r.1 = 0 → (∀ x, Covers (erased r.2) x ↔ addrFirst ≤ x ∧ x ≤ addrLast) ∧
    (erased r.2).Pairwise fun e f => e.hi ≤ f.lo ∨ f.hi ≤ e.lo
  refused : ¬Erasable infos addrFirst addrLast → r.1 ≠ 0 ∧ r.2 = []

/-- Banks that the walk takes one after another: in the order of the table, each from where the one before ends. -/
structure Chain (infos chain : List FlashInfo) (addrFirst : Nat) : Prop where
  sublist : chain.Sublist infos
  known : ∀ info ∈ chain, info.flashId ≠ flashUnknown
  first : ∃ info e, chain.head? = some info ∧ e ∈ extents info ∧ e.lo = addrFirst
  next : chain.IsChain fun a b => a.start + a.size = b.start

/-- The range starts on a sector boundary and ends on none, and the banks from its start on end before its end. -/
structure CutOff (infos : List FlashInfo) (addrFirst addrLast : Nat) : Prop where
  first : ∃ e, Has infos e ∧ e.lo = addrFirst
  last : ∀ e, Has infos e → e.hi ≠ addrLast + 1
  short : ∀ chain info, Chain infos chain addrFirst → info ∈ chain → info.start + info.size ≤ addrLast

/-- The range ends at the top of the address space, and a bank at address 0 is behind the banks of the range. -/
def Wraps (infos : List FlashInfo) (addrFirst addrLast : Nat) : Prop :=
  addrLast = 2 ^ 32 - 1 ∧ ∃ chain top bottom, Chain infos (chain ++ [top]) addrFirst ∧ top.start + top.size = 2 ^ 32 ∧
    (chain ++ [top, bottom]).Sublist infos ∧ bottom.flashId ≠ flashUnknown ∧ bottom.start = 0

section
variable {info : FlashInfo} {s : Sector} {sectors : List Sector} {e : Extent} {ks : List Nat}
  {b stop k f addrFirst addrLast : Nat}

theorem spans_getElem? : (spans b sectors)[k]? = some (s, stop) ↔
    sectors[k]? = some s ∧ stop = (sectors[k + 1]?.map Sector.start).getD b := by
  fun_induction spans b sectors generalizing k with
  | case1 => simp
  | case2 s' =>
    cases k with
    | zero => simp [eq_comm]
    | succ k => simp
  | case3 s₁ s₂ sectors ih =>
    cases k with
    | zero => simp [eq_comm]
    | succ k => exact ih

theorem extents_getElem? : (extents info)[k]? = some e ↔ k < info.sectors.length ∧ e.lo = startOf info k ∧
    e.hi = if k = sEnd info then info.start + info.size else startOf info (k + 1) := by
  unfold extents startOf sEnd
  rw [List.getElem?_map, Option.map_eq_some_iff]
  constructor
  · rintro ⟨⟨s, stop⟩, hs, rfl⟩
    obtain ⟨hk, rfl⟩ := (spans_getElem?).mp hs
    obtain ⟨hlt, _⟩ := List.getElem?_eq_some_iff.mp hk
    refine ⟨hlt, by simp [hk], ?_⟩
    split
    next heq => simp [show info.sectors[k + 1]? = none from List.getElem?_eq_none (by omega)]
    next hne => simp [show k + 1 < info.sectors.length by omega]
  · rintro ⟨hlt, hlo, hhi⟩
    refine ⟨(info.sectors[k], e.hi), (spans_getElem?).mpr ⟨List.getElem?_eq_getElem hlt, ?_⟩, ?_⟩
    · rw [hhi]
      split
      next heq => simp [show info.sectors[k + 1]? = none from List.getElem?_eq_none (by omega)]
      next hne => simp [show k + 1 < info.sectors.length by omega]
    · rw [List.getElem?_eq_getElem hlt] at hlo
      exact congrArg (Extent.mk · e.hi) hlo.symm

theorem extents_tiles (h : info.IsBank) : Tiles info.start (info.start + info.size) (extents info) := by
  have htiles : ∀ (sectors : List Sector) (b : Nat), sectors ≠ [] →
      sectors.Pairwise (fun s s' => s.start < s'.start) → (∀ s ∈ sectors, s.start < b) →
      Tiles ((sectors.head?.map Sector.start).getD 0) b ((spans b sectors).map fun s => ⟨s.1.start, s.2⟩) := by
    intro sectors b
    fun_induction spans b sectors with
    | case1 => exact fun hne => absurd rfl hne
    | case2 s => exact fun _ _ hbelow => ⟨rfl, hbelow s mem_cons_self, rfl⟩
    | case3 s s' sectors ih =>
      intro _ hasc hbelow
      obtain ⟨hfirst, hrest⟩ := pairwise_cons.mp hasc
      exact ⟨rfl, hfirst s' mem_cons_self,
        ih (cons_ne_nil _ _) hrest fun t ht => hbelow t (mem_cons_of_mem _ ht)⟩
  exact htiles info.sectors _ h.sectors h.ascending h.below

theorem sEnd_lt (h : info.IsBank) : sEnd info < info.sectors.length := by
  have hpos := length_pos_of_ne_nil h.sectors
  unfold sEnd
  omega

theorem bEnd_eq (h : info.IsBank) : bEnd info = info.start + info.size - 1 := by
  have hpos := h.size_pos
  have htop := h.addressable
  unfold bEnd
  omega

theorem lastOf_eq (h : info.IsBank) (he : (extents info)[k]? = some e) : lastOf info k = e.hi - 1 := by
  obtain ⟨hk, hlo, hhi⟩ := (extents_getElem?).mp he
  have hbounds := (extents_tiles h).bounds (mem_of_getElem? he)
  have htop := h.addressable
  unfold lastOf
  split at hhi
  next heq => rw [if_pos heq, bEnd_eq h, hhi]
  next hne =>
    rw [if_neg hne]
    omega

theorem foldl_marks {step : Option Nat × Option Nat → Nat → Option Nat × Option Nat}
    {g : Option Nat × Option Nat → Option Nat} (hstep : ∀ k ∈ ks, ∀ r, g (step r k) = if k = f then some k else g r)
    (r : Option Nat × Option Nat) : g (ks.foldl step r) = if f ∈ ks then some f else g r := by
  induction ks generalizing r with
  | nil => rfl
  | cons k ks ih =>
    rw [foldl_cons, ih (fun k' hk' => hstep k' (mem_cons_of_mem _ hk')), hstep k mem_cons_self]
    by_cases hf : k = f
    · simp [hf]
    · simp [hf, Ne.symm hf]

theorem extents_unique (h : info.IsBank) {k' : Nat} {e' : Extent} (he : (extents info)[k]? = some e)
    (he' : (extents info)[k']? = some e') (hsame : e.lo = e'.lo ∨ e.hi = e'.hi) : k = k' := by
  have hordered := (extents_tiles h).ordered
  have hsorted := pairwise_iff_getElem.mp hordered.sorted
  have hproper := hordered.proper e (mem_of_getElem? he)
  have hproper' := hordered.proper e' (mem_of_getElem? he')
  obtain ⟨hk, hek⟩ := List.getElem?_eq_some_iff.mp he
  obtain ⟨hk', hek'⟩ := List.getElem?_eq_some_iff.mp he'
  rcases lt_trichotomy k k' with hlt | heq | hgt
  · have hapart := hsorted k k' hk hk' hlt
    rw [hek, hek'] at hapart
    omega
  · exact heq
  · have hapart := hsorted k' k hk' hk hgt
    rw [hek, hek'] at hapart
    omega

theorem extents_getElem?_range (hk : k ∈ List.range info.sectors.length) : ∃ e, (extents info)[k]? = some e := by
  refine ⟨⟨startOf info k, if k = sEnd info then info.start + info.size else startOf info (k + 1)⟩, ?_⟩
  exact (extents_getElem?).mpr ⟨mem_range.mp hk, rfl, rfl⟩

section
variable (h : info.IsBank) (hle : addrFirst ≤ addrLast)
include h hle

theorem markSector_eq (he : (extents info)[k]? = some e) (r : Option Nat × Option Nat) :
    (markSector info addrFirst addrLast r k).1 = (if e.lo = addrFirst then some k else r.1) ∧
      (markSector info addrFirst addrLast r k).2 = if e.hi = addrLast + 1 then some k else r.2 := by
  have hbounds := (extents_tiles h).bounds (mem_of_getElem? he)
  obtain ⟨_, hlo, _⟩ := (extents_getElem?).mp he
  unfold markSector
  rw [lastOf_eq h he, ← hlo]
  split
  next hbehind => exact ⟨(if_neg (by omega)).symm, (if_neg (by omega)).symm⟩
  next hnot =>
    split
    next hbefore => exact ⟨(if_neg (by omega)).symm, (if_neg (by omega)).symm⟩
    next hnot' =>
      refine ⟨if_congr eq_comm rfl rfl, if_congr ?_ rfl rfl⟩
      omega

theorem markSectors_first (he : (extents info)[f]? = some e) (hfirst : e.lo = addrFirst) :
    (markSectors info addrFirst addrLast).1 = some f := by
  unfold markSectors
  rw [foldl_marks (f := f) (g := Prod.fst)]
  · exact if_pos (mem_range.mpr ((extents_getElem?).mp he).1)
  · intro k hk r
    obtain ⟨e', he'⟩ := extents_getElem?_range hk
    rw [(markSector_eq h hle he' r).1]
    refine if_congr ⟨fun hlo => ?_, fun heq => ?_⟩ rfl rfl
    · exact extents_unique h he' he (.inl (hlo.trans hfirst.symm))
    · subst heq
      exact Option.some.inj (he'.symm.trans he) ▸ hfirst

theorem markSectors_first_none (hnone : ∀ e ∈ extents info, e.lo ≠ addrFirst) :
    (markSectors info addrFirst addrLast).1 = none := by
  unfold markSectors
  rw [foldl_marks (f := info.sectors.length) (g := Prod.fst)]
  · exact if_neg (by simp)
  · intro k hk r
    obtain ⟨e', he'⟩ := extents_getElem?_range hk
    rw [(markSector_eq h hle he' r).1, if_neg (hnone e' (mem_of_getElem? he')),
      if_neg (ne_of_lt (mem_range.mp hk))]

theorem markSectors_last (he : (extents info)[f]? = some e) (hlast : e.hi = addrLast + 1) :
    (markSectors info addrFirst addrLast).2 = some f := by
  unfold markSectors
  rw [foldl_marks (f := f) (g := Prod.snd)]
  · exact if_pos (mem_range.mpr ((extents_getElem?).mp he).1)
  · intro k hk r
    obtain ⟨e', he'⟩ := extents_getElem?_range hk
    rw [(markSector_eq h hle he' r).2]
    refine if_congr ⟨fun hhi => ?_, fun heq => ?_⟩ rfl rfl
    · exact extents_unique h he' he (.inr (hhi.trans hlast.symm))
    · subst heq
      exact Option.some.inj (he'.symm.trans he) ▸ hlast

theorem markSectors_last_none (hnone : ∀ e ∈ extents info, e.hi ≠ addrLast + 1) :
    (markSectors info addrFirst addrLast).2 = none := by
  unfold markSectors
  rw [foldl_marks (f := info.sectors.length) (g := Prod.snd)]
  · exact if_neg (by simp)
  · intro k hk r
    obtain ⟨e', he'⟩ := extents_getElem?_range hk
    rw [(markSector_eq h hle he' r).2, if_neg (hnone e' (mem_of_getElem? he')),
      if_neg (ne_of_lt (mem_range.mp hk))]

end

end

section
variable {infos : List FlashInfo} {info : FlashInfo} {e e' : Extent} {f k addrFirst addrLast : Nat}

def planned (infos : List FlashInfo) (ranges : List (Option (Nat × Nat))) : List Extent :=
  (infos.zip ranges).flatMap fun
    | (_, none) => []
    | (info, some (first, last)) => EraseCall.sectors ⟨info, first, last⟩

theorem fillSectRanges_unknown (hle : addrFirst ≤ addrLast) (h : info.flashId = flashUnknown) :
    fillSectRanges (info :: infos) addrFirst addrLast = withRange none 0 (fillSectRanges infos addrFirst addrLast) := by
  rw [fillSectRanges, if_neg (by omega), if_pos h]

theorem fillSectRanges_behind (hlt : addrLast < addrFirst) :
    fillSectRanges infos addrFirst addrLast = .ok (infos.map fun _ => none, 0) := by
  cases infos with
  | nil => rfl
  | cons info infos => rw [fillSectRanges, if_pos hlt]

section
variable (hknown : info.flashId ≠ flashUnknown) (h : info.IsBank) (hle : addrFirst ≤ addrLast)
include hknown h hle

theorem fillSectRanges_pass (hfirst : ¬(info.start ≤ addrFirst ∧ addrFirst < info.start + info.size))
    (hlast : ∀ e ∈ extents info, e.hi ≠ addrLast + 1) :
    fillSectRanges (info :: infos) addrFirst addrLast = withRange none 0 (fillSectRanges infos addrFirst addrLast) := by
  have hnone : ∀ e ∈ extents info, e.lo ≠ addrFirst := by
    intro e he hlo
    have hbounds := (extents_tiles h).bounds he
    omega
  have hmarks : markSectors info addrFirst addrLast = (none, none) :=
    Prod.ext (markSectors_first_none h hle hnone) (markSectors_last_none h hle hlast)
  have hend := bEnd_eq h
  rw [fillSectRanges, if_neg (by omega), if_neg hknown, hmarks]
  exact if_neg (by omega)

variable (infos) in
theorem fillSectRanges_miss (hnone : ∀ e ∈ extents info, e.lo ≠ addrFirst) :
    (∃ error, fillSectRanges (info :: infos) addrFirst addrLast = .error error) ∨
      (∀ e ∈ extents info, e.hi ≠ addrLast + 1) ∧ fillSectRanges (info :: infos) addrFirst addrLast =
          withRange none 0 (fillSectRanges infos addrFirst addrLast) := by
  have hfirst := markSectors_first_none h hle hnone
  rw [fillSectRanges, if_neg (by omega), if_neg hknown]
  split
  next first last hmarks =>
    rw [hmarks] at hfirst
    cases hfirst
  next last hmarks =>
    split
    next hinside => exact .inl ⟨_, rfl⟩
    next houtside =>
      split
      next hsome => exact .inl ⟨_, rfl⟩
      next hlast =>
        refine .inr ⟨fun e he hhi => hlast ?_, rfl⟩
        obtain ⟨k, hk⟩ := mem_iff_getElem?.mp he
        have hmark := markSectors_last h hle hk hhi
        rw [hmarks] at hmark
        exact Option.isSome_iff_exists.mpr ⟨k, hmark⟩

omit h in
theorem fillSectRanges_to {r : Option Nat} (hmarks : markSectors info addrFirst addrLast = (some f, r))
    (hend : r.or (if addrLast > bEnd info then some (sEnd info) else none) = some k) (horder : f ≤ k) :
    fillSectRanges (info :: infos) addrFirst addrLast = withRange (some (f, k)) (k - f + 1) (fillSectRanges infos
      (if k = sEnd info then (bEnd info + 1) % 2 ^ 32 else startOf info (k + 1)) addrLast) := by
  rw [fillSectRanges, if_neg (by omega), if_neg hknown, hmarks]
  show (match r.or (if addrLast > bEnd info then some (sEnd info) else none) with
    | none => _
    | some last => _) = _
  rw [hend]
  exact if_neg (by omega)

omit h in
theorem fillSectRanges_no_end {r : Option Nat} (hmarks : markSectors info addrFirst addrLast = (some f, r))
    (hend : r.or (if addrLast > bEnd info then some (sEnd info) else none) = none) :
    fillSectRanges (info :: infos) addrFirst addrLast = .error .endNotOnBoundary := by
  rw [fillSectRanges, if_neg (by omega), if_neg hknown, hmarks]
  show (match r.or (if addrLast > bEnd info then some (sEnd info) else none) with
    | none => _
    | some last => _) = _
  rw [hend]

variable (infos) in
theorem fillSectRanges_last (he : (extents info)[f]? = some e) (hfirst : e.lo = addrFirst)
    (he' : (extents info)[k]? = some e') (hlast : e'.hi = addrLast + 1) :
    f ≤ k ∧ fillSectRanges (info :: infos) addrFirst addrLast =
      withRange (some (f, k)) (k - f + 1) (fillSectRanges infos ((addrLast + 1) % 2 ^ 32) addrLast) := by
  have hmarks : markSectors info addrFirst addrLast = (some f, some k) :=
    Prod.ext (markSectors_first h hle he hfirst) (markSectors_last h hle he' hlast)
  have hsorted := pairwise_iff_getElem.mp (extents_tiles h).ordered.sorted
  have htop := h.addressable
  have horder : f ≤ k := by
    by_contra hgt
    obtain ⟨hf, hef⟩ := List.getElem?_eq_some_iff.mp he
    obtain ⟨hk, hek⟩ := List.getElem?_eq_some_iff.mp he'
    have hapart := hsorted k f hk hf (by omega)
    rw [hek, hef] at hapart
    omega
  have hnext : (if k = sEnd info then (bEnd info + 1) % 2 ^ 32 else startOf info (k + 1)) = (addrLast + 1) % 2 ^ 32 := by
    obtain ⟨hk, _, hhi⟩ := (extents_getElem?).mp he'
    split at hhi
    next heq =>
      rw [if_pos heq, bEnd_eq h]
      omega
    next hne =>
      obtain ⟨e₂, he₂⟩ : ∃ e, (extents info)[k + 1]? = some e :=
        extents_getElem?_range (mem_range.mpr (by unfold sEnd at hne; omega))
      have hbounds₂ := (extents_tiles h).bounds (mem_of_getElem? he₂)
      have hlo₂ := ((extents_getElem?).mp he₂).2.1
      rw [if_neg hne]
      omega
  refine ⟨horder, ?_⟩
  rw [fillSectRanges_to hknown hle hmarks Option.some_or horder, hnext]

variable (infos) in
theorem fillSectRanges_rest (he : (extents info)[f]? = some e) (hfirst : e.lo = addrFirst)
    (hbehind : info.start + info.size ≤ addrLast) (haddr : addrLast < 2 ^ 32) :
    f ≤ sEnd info ∧ fillSectRanges (info :: infos) addrFirst addrLast =
      withRange (some (f, sEnd info)) (sEnd info - f + 1) (fillSectRanges infos (info.start + info.size) addrLast) := by
  have hnone : ∀ e ∈ extents info, e.hi ≠ addrLast + 1 := by
    intro e' he' hhi
    have hbounds := (extents_tiles h).bounds he'
    omega
  have hmarks : markSectors info addrFirst addrLast = (some f, none) :=
    Prod.ext (markSectors_first h hle he hfirst) (markSectors_last_none h hle hnone)
  have horder : f ≤ sEnd info := by
    have hf := ((extents_getElem?).mp he).1
    unfold sEnd
    omega
  have hpos := h.size_pos
  have hend := bEnd_eq h
  have hnext : (bEnd info + 1) % 2 ^ 32 = info.start + info.size := by omega
  refine ⟨horder, ?_⟩
  have hbeyond : addrLast > bEnd info := by omega
  rw [fillSectRanges_to hknown hle hmarks (Option.none_or.trans (if_pos hbeyond)) horder, if_pos rfl, hnext]

theorem fillSectRanges_inside (he : (extents info)[f]? = some e) (hfirst : e.lo = addrFirst)
    (hlast : ∀ e ∈ extents info, e.hi ≠ addrLast + 1) (hinside : addrLast < info.start + info.size) :
    fillSectRanges (info :: infos) addrFirst addrLast = .error .endNotOnBoundary := by
  have hmarks : markSectors info addrFirst addrLast = (some f, none) :=
    Prod.ext (markSectors_first h hle he hfirst) (markSectors_last_none h hle hlast)
  have hend := bEnd_eq h
  have hnot : ¬addrLast > bEnd info := by omega
  exact fillSectRanges_no_end hknown hle hmarks (Option.none_or.trans (if_neg hnot))

end

theorem planned_some {ranges : List (Option (Nat × Nat))} : planned (info :: infos) (some (f, k) :: ranges) =
    ((extents info).take (k + 1)).drop f ++ planned infos ranges := rfl

theorem sectors_tile (h : info.IsBank) (hle : f ≤ k) (he : (extents info)[f]? = some e)
    (he' : (extents info)[k]? = some e') : Tiles e.lo e'.hi (((extents info).take (k + 1)).drop f) := by
  have htake := (extents_tiles h).take he'
  exact htake.drop ((List.getElem?_take_of_lt (by omega)).trans he)

end

end UBoot.FlashErase
