import UBoot.FlashErase

namespace UBoot.FlashErase

open List

open UBoot.FlashWrite (FlashInfo flashUnknown)
open Extents (Extent Tiles Covers)

section
variable {infos chain : List FlashInfo} {info : FlashInfo} {e : Extent} {a addrFirst addrLast count n : Nat}
  {ranges : List (Option (Nat × Nat))} {range : Option (Nat × Nat)}

theorem withRange_ok {r : Except FillError (List (Option (Nat × Nat)) × Nat)}
    (h : withRange range n r = .ok (ranges, count)) :
    ∃ ranges' count', r = .ok (ranges', count') ∧ ranges = range :: ranges' ∧ count = count' + n := by
  cases r with
  | error error => cases h
  | ok planned =>
    obtain ⟨ranges', count'⟩ := planned
    cases h
    exact ⟨ranges', count', rfl, rfl, rfl⟩

theorem planned_nones : planned infos (infos.map fun _ => none) = [] := by
  induction infos with
  | nil => rfl
  | cons info infos ih => exact ih

theorem Has.cons (h : Has infos e) : Has (info :: infos) e := by
  obtain ⟨info', hmem, h⟩ := h
  exact ⟨info', mem_cons_of_mem _ hmem, h⟩

theorem Has.head (hknown : info.flashId ≠ flashUnknown) (he : e ∈ extents info) : Has (info :: infos) e :=
  ⟨info, mem_cons_self, hknown, he⟩

theorem has_cons : Has (info :: infos) e ↔ (info.flashId ≠ flashUnknown ∧ e ∈ extents info) ∨ Has infos e := by
  constructor
  · rintro ⟨info', hmem, hknown, he⟩
    rcases mem_cons.mp hmem with rfl | hmem
    · exact .inl ⟨hknown, he⟩
    · exact .inr ⟨info', hmem, hknown, he⟩
  · rintro (⟨hknown, he⟩ | h)
    · exact Has.head hknown he
    · exact h.cons

theorem has_cons_unknown (hunknown : info.flashId = flashUnknown) : Has (info :: infos) e ↔ Has infos e :=
  has_cons.trans (or_iff_right fun h => h.1 hunknown)

theorem Banks.tail (h : Banks (info :: infos)) : Banks infos :=
  ⟨fun i hi => h.whole i (mem_cons_of_mem _ hi), h.disjoint.of_cons⟩

theorem Banks.head (h : Banks (info :: infos)) (hknown : info.flashId ≠ flashUnknown) : info.IsBank :=
  h.whole info mem_cons_self hknown

theorem Banks.apart (h : Banks (info :: infos)) (hknown : info.flashId ≠ flashUnknown) (he : Has infos e) :
    info.start + info.size ≤ e.lo ∨ e.hi ≤ info.start := by
  obtain ⟨info', hmem, hknown', he⟩ := he
  have hbounds := (extents_tiles (h.tail.whole info' hmem hknown')).bounds he
  rcases (pairwise_cons.mp h.disjoint).1 info' hmem hknown hknown' with hlow | hhigh
  · exact .inl (by omega)
  · exact .inr (by omega)

theorem fillSectRanges_no_start (h : Banks infos) (hle : addrFirst ≤ addrLast)
    (hnone : ∀ e, Has infos e → e.lo ≠ addrFirst) :
    (∃ error, fillSectRanges infos addrFirst addrLast = .error error) ∨
      (∀ e, Has infos e → e.hi ≠ addrLast + 1) ∧
        fillSectRanges infos addrFirst addrLast = .ok (infos.map fun _ => none, 0) := by
  induction infos with
  | nil => exact .inr ⟨fun e ⟨_, hmem, _⟩ => absurd hmem not_mem_nil, rfl⟩
  | cons info infos ih =>
    have hrest := ih h.tail fun e he => hnone e he.cons
    by_cases hunknown : info.flashId = flashUnknown
    · rw [fillSectRanges_unknown hle hunknown]
      rcases hrest with ⟨error, herror⟩ | ⟨hlast, hok⟩
      · exact .inl ⟨error, by rw [herror]; rfl⟩
      · exact .inr ⟨fun e he => hlast e ((has_cons_unknown hunknown).mp he), by rw [hok]; rfl⟩
    · rcases fillSectRanges_miss infos hunknown (h.head hunknown) hle
        fun e he => hnone e (Has.head hunknown he) with herror | ⟨hlast, hfill⟩
      · exact .inl herror
      · rw [hfill]
        rcases hrest with ⟨error, herror⟩ | ⟨hlast', hok⟩
        · exact .inl ⟨error, by rw [herror]; rfl⟩
        · refine .inr ⟨fun e he => ?_, by rw [hok]; rfl⟩
          exact (has_cons.mp he).elim (fun he => hlast e he.2) (hlast' e)

theorem fillSectRanges_none (h : Banks infos) (hle : addrFirst ≤ addrLast)
    (houtside : ∀ e, Has infos e → ¬e.Contains addrFirst) (hlast : ∀ e, Has infos e → e.hi ≠ addrLast + 1) :
    fillSectRanges infos addrFirst addrLast = .ok (infos.map fun _ => none, 0) := by
  induction infos with
  | nil => rfl
  | cons info infos ih =>
    have hrest := ih h.tail (fun e he => houtside e he.cons) fun e he => hlast e he.cons
    by_cases hunknown : info.flashId = flashUnknown
    · rw [fillSectRanges_unknown hle hunknown, hrest]
      rfl
    · have hbank := h.head hunknown
      have hfirst : ¬(info.start ≤ addrFirst ∧ addrFirst < info.start + info.size) := by
        intro hinside
        obtain ⟨e, he, hcontains⟩ := (extents_tiles hbank).covers_iff.mpr hinside
        exact houtside e (Has.head hunknown he) hcontains
      rw [fillSectRanges_pass hunknown hbank hle hfirst fun e he => hlast e (Has.head hunknown he), hrest]
      rfl

theorem Chain.cons_of_cons (h : Chain infos chain addrFirst) : Chain (info :: infos) chain addrFirst :=
  { h with sublist := h.sublist.cons info }

theorem Chain.of_cons (h : Chain (info :: infos) chain addrFirst)
    (hnone : info.flashId ≠ flashUnknown → ∀ e ∈ extents info, e.lo ≠ addrFirst) : Chain infos chain addrFirst := by
  obtain ⟨b, e, hhead, he, hlo⟩ := h.first
  refine { h with sublist := ?_ }
  rcases sublist_cons_iff.mp h.sublist with hsub | ⟨rest, rfl, _⟩
  · exact hsub
  · cases hhead
    exact absurd hlo (hnone (h.known _ mem_cons_self) e he)

theorem Chain.tail (h : Chain (info :: infos) chain addrFirst) (hb : Banks (info :: infos))
    (hknown : info.flashId ≠ flashUnknown) (he : e ∈ extents info) (hlo : e.lo = addrFirst) :
    ∃ rest, chain = info :: rest ∧ (rest = [] ∨ Chain infos rest (info.start + info.size)) := by
  obtain ⟨b, e', hhead, he', hlo'⟩ := h.first
  have hbounds := (extents_tiles (hb.head hknown)).bounds he
  rcases sublist_cons_iff.mp h.sublist with hsub | ⟨rest, rfl, hsub⟩
  · have hmem := hsub.subset (mem_of_head? hhead)
    have hapart := hb.apart hknown ⟨b, hmem, h.known b (mem_of_head? hhead), he'⟩
    have hproper := (extents_tiles (hb.tail.whole b hmem (h.known b (mem_of_head? hhead)))).bounds he'
    omega
  · refine ⟨rest, rfl, ?_⟩
    cases rest with
    | nil => exact .inl rfl
    | cons b' rest =>
      obtain ⟨hnext, hchain⟩ := isChain_cons_cons.mp h.next
      have hmem : b' ∈ infos := hsub.subset mem_cons_self
      have hknown' := h.known b' (mem_cons_of_mem _ mem_cons_self)
      obtain ⟨s, hs⟩ := exists_mem_of_ne_nil _ (hb.tail.whole b' hmem hknown').sectors
      refine .inr ⟨hsub, fun i hi => h.known i (mem_cons_of_mem _ hi), ?_, hchain⟩
      obtain ⟨e₂, he₂⟩ : ∃ e, (extents b')[0]? = some e :=
        extents_getElem?_range (mem_range.mpr (length_pos_of_mem hs))
      have hlo₂ := (extents_getElem?.mp he₂).2.1
      refine ⟨b', e₂, rfl, mem_of_getElem? he₂, ?_⟩
      rw [hlo₂, hnext]
      unfold startOf FlashInfo.start
      rw [List.head?_eq_getElem?]

theorem Chain.cons (h : Chain infos chain (info.start + info.size)) (hb : Banks (info :: infos))
    (hknown : info.flashId ≠ flashUnknown) (he : e ∈ extents info) (hlo : e.lo = addrFirst) :
    Chain (info :: infos) (info :: chain) addrFirst := by
  refine ⟨h.sublist.cons_cons info, forall_mem_cons.mpr ⟨hknown, h.known⟩, ⟨info, e, rfl, he, hlo⟩, ?_⟩
  refine isChain_cons.mpr ⟨fun b hhead => ?_, h.next⟩
  obtain ⟨b', e', hhead', he', hlo'⟩ := h.first
  cases Option.some.inj (hhead'.symm.trans hhead)
  have hmem := h.sublist.subset (mem_of_head? hhead')
  have hknown' := h.known b (mem_of_head? hhead')
  have hbounds := (extents_tiles (hb.tail.whole b hmem hknown')).bounds he'
  have hapart := (pairwise_cons.mp hb.disjoint).1 b hmem hknown hknown'
  omega

theorem Chain.one (hknown : info.flashId ≠ flashUnknown) (he : e ∈ extents info) (hlo : e.lo = addrFirst) :
    Chain (info :: infos) [info] addrFirst :=
  ⟨singleton_sublist.mpr mem_cons_self, forall_mem_singleton.mpr hknown, ⟨info, e, rfl, he, hlo⟩,
    isChain_singleton info⟩

theorem CutOff.cons_of_cons (h : CutOff infos addrFirst addrLast)
    (hnone : info.flashId ≠ flashUnknown → ∀ e ∈ extents info, e.lo ≠ addrFirst)
    (hlast : info.flashId ≠ flashUnknown → ∀ e ∈ extents info, e.hi ≠ addrLast + 1) :
    CutOff (info :: infos) addrFirst addrLast := by
  obtain ⟨e, he, hlo⟩ := h.first
  refine ⟨⟨e, he.cons, hlo⟩, fun e he => ?_, fun chain i hchain => h.short chain i (hchain.of_cons hnone)⟩
  exact (has_cons.mp he).elim (fun he => hlast he.1 e he.2) (h.last e)

theorem Wraps.cons_of_cons (h : Wraps infos addrFirst addrLast) : Wraps (info :: infos) addrFirst addrLast := by
  obtain ⟨hlast, chain, top, bottom, hchain, htop, hsub, hbottom⟩ := h
  exact ⟨hlast, chain, top, bottom, hchain.cons_of_cons, htop, hsub.cons info, hbottom⟩

section
variable (h : Banks (info :: infos)) (hknown : info.flashId ≠ flashUnknown) (he : e ∈ extents info) (hlo : e.lo = addrFirst)
include h hknown he hlo

theorem fillSectRanges_start_last (hle : addrFirst ≤ addrLast) (haddr : addrLast < 2 ^ 32) {e' : Extent}
    (he' : e' ∈ extents info) (hlast : e'.hi = addrLast + 1)
    (hok : fillSectRanges (info :: infos) addrFirst addrLast = .ok (ranges, count)) :
    Wraps (info :: infos) addrFirst addrLast ∨ Tiles addrFirst (addrLast + 1) (planned (info :: infos) ranges) ∧
      ∀ e ∈ planned (info :: infos) ranges, Has (info :: infos) e := by
  have hbank := h.head hknown
  have hbounds := (extents_tiles hbank).bounds he'
  have htop := hbank.addressable
  obtain ⟨f, hf⟩ := mem_iff_getElem?.mp he
  obtain ⟨k, hk⟩ := mem_iff_getElem?.mp he'
  obtain ⟨hfk, hfill⟩ := fillSectRanges_last infos hknown hbank hle hf hlo hk hlast
  rw [hfill] at hok
  obtain ⟨ranges, count, hrest, rfl, _⟩ := withRange_ok hok
  have hdone : fillSectRanges infos ((addrLast + 1) % 2 ^ 32) addrLast = .ok (infos.map fun _ => none, 0) →
      Tiles addrFirst (addrLast + 1) (planned (info :: infos) (some (f, k) :: ranges)) ∧
        ∀ e ∈ planned (info :: infos) (some (f, k) :: ranges), Has (info :: infos) e := by
    intro hnones
    cases hnones.symm.trans hrest
    rw [planned_some, planned_nones, append_nil, ← hlo, ← hlast]
    refine ⟨sectors_tile hbank hfk hf hk, fun e he => Has.head hknown ?_⟩
    exact mem_of_mem_take (mem_of_mem_drop he)
  rcases Nat.lt_or_eq_of_le (Nat.succ_le_of_lt haddr) with hbelow | hwrap
  · refine .inr (hdone ?_)
    rw [Nat.mod_eq_of_lt hbelow]
    exact fillSectRanges_behind (Nat.lt_succ_self addrLast)
  · have hzero : (addrLast + 1) % 2 ^ 32 = 0 := by omega
    rw [hzero] at hdone hrest
    by_cases hbottom : ∃ e, Has infos e ∧ e.lo = 0
    · obtain ⟨e₀, ⟨bottom, hmem, hknown₀, he₀⟩, hlo₀⟩ := hbottom
      have hbounds₀ := (extents_tiles (h.tail.whole bottom hmem hknown₀)).bounds he₀
      refine .inl ⟨by omega, [], info, bottom, Chain.one hknown he hlo, by omega, ?_, hknown₀, by omega⟩
      exact (singleton_sublist.mpr hmem).cons_cons info
    · refine .inr (hdone ?_)
      rcases fillSectRanges_no_start h.tail (Nat.zero_le addrLast) fun e he hlo => hbottom ⟨e, he, hlo⟩ with
        ⟨error, herror⟩ | ⟨_, hnones⟩
      · cases herror.symm.trans hrest
      · exact hnones

theorem CutOff.of_no_next (hbehind : info.start + info.size ≤ addrLast)
    (hnone : ∀ e, Has infos e → e.lo ≠ info.start + info.size) (hlast : ∀ e, Has infos e → e.hi ≠ addrLast + 1) :
    CutOff (info :: infos) addrFirst addrLast := by
  refine ⟨⟨e, Has.head hknown he, hlo⟩, fun e' he' hhi => ?_, fun chain i hchain hi => ?_⟩
  · rcases has_cons.mp he' with ⟨_, he'⟩ | he'
    · have hbounds := (extents_tiles (h.head hknown)).bounds he'
      omega
    · exact hlast e' he' hhi
  · obtain ⟨rest, rfl, hrest⟩ := hchain.tail h hknown he hlo
    rcases hrest with rfl | hrest
    · cases mem_singleton.mp hi
      exact hbehind
    · obtain ⟨b, e', hhead, he', hlo'⟩ := hrest.first
      have hmem := mem_of_head? hhead
      exact absurd hlo' (hnone e' ⟨b, hrest.sublist.subset hmem, hrest.known b hmem, he'⟩)

theorem CutOff.cons (hcut : CutOff infos (info.start + info.size) addrLast)
    (hbehind : info.start + info.size ≤ addrLast) : CutOff (info :: infos) addrFirst addrLast := by
  refine ⟨⟨e, Has.head hknown he, hlo⟩, fun e' he' hhi => ?_, fun chain i hchain hi => ?_⟩
  · rcases has_cons.mp he' with ⟨_, he'⟩ | he'
    · have hbounds := (extents_tiles (h.head hknown)).bounds he'
      omega
    · exact hcut.last e' he' hhi
  · obtain ⟨rest, rfl, hrest⟩ := hchain.tail h hknown he hlo
    rcases mem_cons.mp hi with rfl | hi
    · exact hbehind
    · rcases hrest with rfl | hrest
      · cases hi
      · exact hcut.short rest i hrest hi

theorem Wraps.cons (hwraps : Wraps infos (info.start + info.size) addrLast) :
    Wraps (info :: infos) addrFirst addrLast := by
  obtain ⟨hlast, chain, top, bottom, hchain, htop, hsub, hbottom⟩ := hwraps
  exact ⟨hlast, info :: chain, top, bottom, hchain.cons h hknown he hlo, htop, hsub.cons_cons info, hbottom⟩

end

theorem fillSectRanges_start (h : Banks infos) (hle : addrFirst ≤ addrLast) (haddr : addrLast < 2 ^ 32)
    (hstart : ∃ e, Has infos e ∧ e.lo = addrFirst)
    (hok : fillSectRanges infos addrFirst addrLast = .ok (ranges, count)) :
    CutOff infos addrFirst addrLast ∨ Wraps infos addrFirst addrLast ∨
      Tiles addrFirst (addrLast + 1) (planned infos ranges) ∧ ∀ e ∈ planned infos ranges, Has infos e := by
  induction infos generalizing addrFirst ranges count with
  | nil =>
    obtain ⟨e, ⟨info, hmem, _⟩, _⟩ := hstart
    cases hmem
  | cons info infos ih =>
    by_cases hunknown : info.flashId = flashUnknown
    · rw [fillSectRanges_unknown hle hunknown] at hok
      obtain ⟨ranges, count, hrest, rfl, _⟩ := withRange_ok hok
      obtain ⟨e, he, hlo⟩ := hstart
      rcases ih h.tail hle ⟨e, (has_cons_unknown hunknown).mp he, hlo⟩ hrest with hcut | hwraps | ⟨htiles, hhas⟩
      · exact .inl (hcut.cons_of_cons (absurd hunknown) (absurd hunknown))
      · exact .inr (.inl hwraps.cons_of_cons)
      · exact .inr (.inr ⟨htiles, fun e he => (hhas e he).cons⟩)
    · have hbank := h.head hunknown
      by_cases hhere : ∃ e ∈ extents info, e.lo = addrFirst
      · obtain ⟨e, he, hlo⟩ := hhere
        by_cases hlast : ∃ e' ∈ extents info, e'.hi = addrLast + 1
        · obtain ⟨e', he', hhi⟩ := hlast
          exact .inr (fillSectRanges_start_last h hunknown he hlo hle haddr he' hhi hok)
        obtain ⟨f, hf⟩ := mem_iff_getElem?.mp he
        have hnone : ∀ e' ∈ extents info, e'.hi ≠ addrLast + 1 := fun e' he' hhi => hlast ⟨e', he', hhi⟩
        rcases lt_or_ge addrLast (info.start + info.size) with hinside | hbehind
        · cases (fillSectRanges_inside hunknown hbank hle hf hlo hnone hinside).symm.trans hok
        obtain ⟨hfk, hfill⟩ := fillSectRanges_rest infos hunknown hbank hle hf hlo hbehind haddr
        rw [hfill] at hok
        obtain ⟨ranges, count, hrest, rfl, _⟩ := withRange_ok hok
        by_cases hnext : ∃ e, Has infos e ∧ e.lo = info.start + info.size
        · rcases ih h.tail hbehind hnext hrest with hcut | hwraps | ⟨htiles, hhas⟩
          · exact .inl (CutOff.cons h hunknown he hlo hcut hbehind)
          · exact .inr (.inl (Wraps.cons h hunknown he hlo hwraps))
          · obtain ⟨e', hk⟩ := extents_getElem?_range (mem_range.mpr (sEnd_lt hbank))
            have hhi := (extents_getElem?.mp hk).2.2
            rw [if_pos rfl] at hhi
            have hpart := sectors_tile hbank hfk hf hk
            rw [hlo, hhi] at hpart
            refine .inr (.inr ⟨hpart.append htiles, fun e he => ?_⟩)
            rcases mem_append.mp he with he | he
            · exact Has.head hunknown (mem_of_mem_take (mem_of_mem_drop he))
            · exact (hhas e he).cons
        · have hnone' : ∀ e, Has infos e → e.lo ≠ info.start + info.size := fun e he hlo => hnext ⟨e, he, hlo⟩
          rcases fillSectRanges_no_start h.tail hbehind hnone' with ⟨error, herror⟩ | ⟨hlast', _⟩
          · cases herror.symm.trans hrest
          · exact .inl (CutOff.of_no_next h hunknown he hlo hbehind hnone' hlast')
      · have hnone : ∀ e ∈ extents info, e.lo ≠ addrFirst := fun e he hlo => hhere ⟨e, he, hlo⟩
        rcases fillSectRanges_miss infos hunknown hbank hle hnone with ⟨error, herror⟩ | ⟨hlast, hfill⟩
        · cases herror.symm.trans hok
        · rw [hfill] at hok
          obtain ⟨ranges, count, hrest, rfl, _⟩ := withRange_ok hok
          obtain ⟨e, he, hlo⟩ := hstart
          have he' := (has_cons.mp he).resolve_left fun he => hnone e he.2 hlo
          rcases ih h.tail hle ⟨e, he', hlo⟩ hrest with hcut | hwraps | ⟨htiles, hhas⟩
          · exact .inl (hcut.cons_of_cons (fun _ => hnone) fun _ => hlast)
          · exact .inr (.inl hwraps.cons_of_cons)
          · exact .inr (.inr ⟨htiles, fun e he => (hhas e he).cons⟩)

theorem CutOff.of_cons (h : CutOff (info :: infos) addrFirst addrLast)
    (hnone : info.flashId ≠ flashUnknown → ∀ e ∈ extents info, e.lo ≠ addrFirst) : CutOff infos addrFirst addrLast := by
  obtain ⟨e, he, hlo⟩ := h.first
  refine ⟨⟨e, (has_cons.mp he).resolve_left fun he => hnone he.1 e he.2 hlo, hlo⟩, fun e he => h.last e he.cons, ?_⟩
  exact fun chain i hchain => h.short chain i hchain.cons_of_cons

theorem Wraps.of_cons (h : Wraps (info :: infos) addrFirst addrLast)
    (hnone : info.flashId ≠ flashUnknown → ∀ e ∈ extents info, e.lo ≠ addrFirst) : Wraps infos addrFirst addrLast := by
  obtain ⟨hlast, chain, top, bottom, hchain, htop, hsub, hbottom⟩ := h
  have hchain' := hchain.of_cons hnone
  refine ⟨hlast, chain, top, bottom, hchain', htop, ?_, hbottom⟩
  rcases sublist_cons_iff.mp hsub with hsub | ⟨rest, heq, _⟩
  · exact hsub
  · obtain ⟨b, e, hhead, he, hlo⟩ := hchain.first
    have hfirst : (chain ++ [top]).head? = some info := by
      cases chain with
      | nil => exact congrArg some (List.cons.inj heq).1
      | cons b' chain => exact congrArg some (List.cons.inj heq).1
    cases Option.some.inj (hhead.symm.trans hfirst)
    exact absurd hlo (hnone (hchain.known _ (mem_of_head? hfirst)) e he)

theorem fillSectRanges_elsewhere (h : Banks (info :: infos)) (hknown : info.flashId ≠ flashUnknown)
    (hle : addrFirst ≤ addrLast) (he : Has infos e) (hlo : e.lo = addrFirst)
    (hlast : ∀ e ∈ extents info, e.hi ≠ addrLast + 1) :
    fillSectRanges (info :: infos) addrFirst addrLast = withRange none 0 (fillSectRanges infos addrFirst addrLast) := by
  refine fillSectRanges_pass hknown (h.head hknown) hle ?_ hlast
  have hapart := h.apart hknown he
  obtain ⟨info', hmem, hknown', he⟩ := he
  have hproper := ((extents_tiles (h.tail.whole info' hmem hknown')).bounds he).2.1
  omega

theorem planned_first {f k : Nat} (h : info.IsBank) (hfk : f ≤ k) (he : (extents info)[f]? = some e)
    (hlo : e.lo = addrFirst) : ∃ e ∈ planned (info :: infos) (some (f, k) :: ranges), e.Contains addrFirst := by
  have hproper := ((extents_tiles h).bounds (mem_of_getElem? he)).2.1
  rw [planned_some]
  refine ⟨e, mem_append_left _ (mem_iff_getElem?.mpr ⟨0, ?_⟩), le_of_eq hlo, hlo ▸ hproper⟩
  rw [List.getElem?_drop, List.getElem?_take_of_lt (by omega)]
  exact he

theorem CutOff.planned (hcut : CutOff infos addrFirst addrLast) (h : Banks infos) (hle : addrFirst ≤ addrLast)
    (haddr : addrLast < 2 ^ 32) : ∃ ranges count, fillSectRanges infos addrFirst addrLast = .ok (ranges, count) ∧
      count ≠ 0 ∧ ∃ e ∈ planned infos ranges, e.Contains addrFirst := by
  induction infos generalizing addrFirst with
  | nil =>
    obtain ⟨e, ⟨info, hmem, _⟩, _⟩ := hcut.first
    cases hmem
  | cons info infos ih =>
    by_cases hunknown : info.flashId = flashUnknown
    · obtain ⟨ranges, count, hok, hcount, hplanned⟩ := ih (hcut.of_cons (absurd hunknown)) h.tail hle
      exact ⟨none :: ranges, count, by rw [fillSectRanges_unknown hle hunknown, hok]; rfl, hcount, hplanned⟩
    · have hbank := h.head hunknown
      by_cases hhere : ∃ e ∈ extents info, e.lo = addrFirst
      · obtain ⟨e, he, hlo⟩ := hhere
        have hbehind := hcut.short [info] info (Chain.one hunknown he hlo) mem_cons_self
        obtain ⟨f, hf⟩ := mem_iff_getElem?.mp he
        obtain ⟨hfk, hfill⟩ := fillSectRanges_rest infos hunknown hbank hle hf hlo hbehind haddr
        have hrest : ∃ ranges count, fillSectRanges infos (info.start + info.size) addrLast = .ok (ranges, count) := by
          by_cases hnext : ∃ e, Has infos e ∧ e.lo = info.start + info.size
          · have hcut' : CutOff infos (info.start + info.size) addrLast :=
              ⟨hnext, fun e he => hcut.last e he.cons, fun chain i hchain hi =>
                hcut.short _ i (hchain.cons h hunknown he hlo) (mem_cons_of_mem _ hi)⟩
            obtain ⟨ranges, count, hok, _⟩ := ih hcut' h.tail hbehind
            exact ⟨ranges, count, hok⟩
          · refine ⟨_, _, fillSectRanges_none h.tail hbehind (fun e he hcontains => hnext ⟨e, he, ?_⟩) fun e he =>
              hcut.last e he.cons⟩
            have hapart := h.apart hunknown he
            obtain ⟨hlow, hhigh⟩ := hcontains
            omega
        obtain ⟨ranges, count, hok⟩ := hrest
        refine ⟨some (f, sEnd info) :: ranges, _, by rw [hfill, hok]; rfl, by omega, ?_⟩
        exact planned_first hbank hfk hf hlo
      · have hnone : ∀ e ∈ extents info, e.lo ≠ addrFirst := fun e he hlo => hhere ⟨e, he, hlo⟩
        have hcut' := hcut.of_cons fun _ => hnone
        obtain ⟨e, he, hlo⟩ := hcut'.first
        obtain ⟨ranges, count, hok, hcount, hplanned⟩ := ih hcut' h.tail hle
        refine ⟨none :: ranges, count, ?_, hcount, hplanned⟩
        rw [fillSectRanges_elsewhere h hunknown hle he hlo fun e he => hcut.last e (Has.head hunknown he), hok]
        rfl

theorem cutOff_zero (h : Banks (info :: infos)) (hknown : info.flashId ≠ flashUnknown)
    (htop : info.start + info.size = 2 ^ 32) {bottom : FlashInfo} (hmem : bottom ∈ infos)
    (hbottom : bottom.flashId ≠ flashUnknown) (hzero : bottom.start = 0) : CutOff infos 0 (2 ^ 32 - 1) := by
  have hends : ∀ e, Has infos e → e.hi < 2 ^ 32 := by
    intro e he
    have hapart := h.apart hknown he
    obtain ⟨b, hb, hknown', he⟩ := he
    have hbank := h.tail.whole b hb hknown'
    have hbounds := (extents_tiles hbank).bounds he
    have haddr := hbank.addressable
    have hsize := (h.head hknown).size_pos
    omega
  refine ⟨?_, fun e he hhi => ?_, fun chain i hchain hi => ?_⟩
  · have hbank := h.tail.whole bottom hmem hbottom
    obtain ⟨e, he, hlow, hhigh⟩ := (extents_tiles hbank).covers_iff.mpr
      ⟨le_refl _, Nat.lt_add_of_pos_right hbank.size_pos⟩
    exact ⟨e, ⟨bottom, hmem, hbottom, he⟩, by omega⟩
  · have hend := hends e he
    omega
  · have hbank := h.tail.whole i (hchain.sublist.subset hi) (hchain.known i hi)
    obtain ⟨e', hk⟩ := extents_getElem?_range (mem_range.mpr (sEnd_lt hbank))
    have hend := hends e' ⟨i, hchain.sublist.subset hi, hchain.known i hi, mem_of_getElem? hk⟩
    have hhi := (extents_getElem?.mp hk).2.2
    rw [if_pos rfl] at hhi
    omega

theorem Wraps.planned (hwraps : Wraps infos addrFirst addrLast) (h : Banks infos) (hle : addrFirst ≤ addrLast) :
    ∃ ranges count, fillSectRanges infos addrFirst addrLast = .ok (ranges, count) ∧
      count ≠ 0 ∧ ∃ e ∈ planned infos ranges, e.Contains 0 := by
  induction infos generalizing addrFirst with
  | nil =>
    obtain ⟨_, chain, top, bottom, _, _, hsub, _⟩ := hwraps
    simp at hsub
  | cons info infos ih =>
    by_cases hunknown : info.flashId = flashUnknown
    · obtain ⟨ranges, count, hok, hcount, hplanned⟩ := ih (hwraps.of_cons (absurd hunknown)) h.tail hle
      exact ⟨none :: ranges, count, by rw [fillSectRanges_unknown hle hunknown, hok]; rfl, hcount, hplanned⟩
    have hbank := h.head hunknown
    by_cases hhere : ∃ e ∈ extents info, e.lo = addrFirst
    · obtain ⟨e, he, hlo⟩ := hhere
      obtain ⟨f, hf⟩ := mem_iff_getElem?.mp he
      obtain ⟨e', hk⟩ := extents_getElem?_range (mem_range.mpr (sEnd_lt hbank))
      have hhi := (extents_getElem?.mp hk).2.2
      rw [if_pos rfl] at hhi
      obtain ⟨hlast, chain, top, bottom, hchain, htop, hsub, hbottom, hzero⟩ := hwraps
      obtain ⟨rest, heq, hrest⟩ := hchain.tail h hunknown he hlo
      cases chain with
      | nil =>
        obtain ⟨rfl, rfl⟩ := List.cons.inj heq
        have hmem := singleton_sublist.mp (cons_sublist_cons.mp hsub)
        obtain ⟨hfk, hfill⟩ := fillSectRanges_last infos hunknown hbank hle hf hlo hk (by omega)
        have hnext : (addrLast + 1) % 2 ^ 32 = 0 := by omega
        obtain ⟨ranges, count, hok, hcount, e₀, he₀, hlo₀⟩ :=
          (hlast ▸ cutOff_zero h hunknown htop hmem hbottom hzero).planned h.tail (Nat.zero_le addrLast) (by omega)
        rw [hnext, hok] at hfill
        exact ⟨_, _, hfill, by omega, e₀, mem_append_right _ he₀, hlo₀⟩
      | cons first chain =>
        obtain ⟨rfl, rfl⟩ := List.cons.inj heq
        have hchain' := hrest.resolve_left (by simp)
        have hsub' := cons_sublist_cons.mp hsub
        have htopmem : top ∈ infos := hchain'.sublist.subset (mem_append_right _ mem_cons_self)
        have htopknown := hchain'.known top (mem_append_right _ mem_cons_self)
        have hapart := (pairwise_cons.mp h.disjoint).1 top htopmem hunknown htopknown
        have hsize := hbank.size_pos
        have htopsize := (h.tail.whole top htopmem htopknown).size_pos
        have haddr := hbank.addressable
        obtain ⟨hfk, hfill⟩ := fillSectRanges_rest infos hunknown hbank hle hf hlo (by omega) (by omega)
        obtain ⟨ranges, count, hok, hcount, e₀, he₀, hlo₀⟩ :=
          ih ⟨hlast, chain, top, bottom, hchain', htop, hsub', hbottom, hzero⟩ h.tail (by omega)
        rw [hok] at hfill
        exact ⟨_, _, hfill, by omega, e₀, mem_append_right _ he₀, hlo₀⟩
    · have hnone : ∀ e ∈ extents info, e.lo ≠ addrFirst := fun e he hlo => hhere ⟨e, he, hlo⟩
      have hwraps' := hwraps.of_cons fun _ => hnone
      obtain ⟨ranges, count, hok, hcount, hplanned⟩ := ih hwraps' h.tail hle
      obtain ⟨hlast, chain, top, bottom, hchain, htop, _⟩ := hwraps'
      obtain ⟨b, e, hhead, he, hlo⟩ := hchain.first
      have hmem := mem_of_head? hhead
      refine ⟨none :: ranges, count, ?_, hcount, hplanned⟩
      rw [fillSectRanges_elsewhere h hunknown hle ⟨b, hchain.sublist.subset hmem, hchain.known b hmem, he⟩ hlo ?_, hok]
      · rfl
      · intro e he hhi
        have htopmem : top ∈ infos := hchain.sublist.subset (mem_append_right _ mem_cons_self)
        have htopknown := hchain.known top (mem_append_right _ mem_cons_self)
        have hapart := (pairwise_cons.mp h.disjoint).1 top htopmem hunknown htopknown
        have hsize := hbank.size_pos
        have htopsize := (h.tail.whole top htopmem htopknown).size_pos
        have haddr := hbank.addressable
        have hbounds := (extents_tiles hbank).bounds he
        omega

theorem eraseLoop_zero {flashErase : List EraseCall → Int} {calls : List EraseCall}
    (h : (eraseLoop flashErase (infos.zip ranges) calls).1 = 0) :
    erased (eraseLoop flashErase (infos.zip ranges) calls).2 = erased calls ++ planned infos ranges := by
  unfold UBoot.FlashErase.planned
  generalize infos.zip ranges = pairs at h ⊢
  induction pairs generalizing calls with
  | nil => exact (append_nil _).symm
  | cons pair pairs ih =>
    obtain ⟨info, range⟩ := pair
    cases range with
    | none => exact ih h
    | some range =>
      rw [eraseLoop] at h ⊢
      by_cases hfail : flashErase (calls ++ [⟨info, range.1, range.2⟩]) ≠ 0
      · rw [if_pos hfail] at h
        exact absurd h hfail
      · rw [if_neg hfail] at h ⊢
        rw [ih h]
        simp [erased]

theorem eraseLoop_all {calls : List EraseCall} : (eraseLoop (fun _ => 0) (infos.zip ranges) calls).1 = 0 := by
  generalize infos.zip ranges = pairs
  induction pairs generalizing calls with
  | nil => rfl
  | cons pair pairs ih =>
    obtain ⟨info, range⟩ := pair
    cases range with
    | none => exact ih
    | some range => exact ih

theorem Wraps.first_pos (hwraps : Wraps infos addrFirst addrLast) (h : Banks infos) : 0 < addrFirst := by
  obtain ⟨_, chain, top, bottom, hchain, _, hsub, hknown, hzero⟩ := hwraps
  obtain ⟨b, e, hhead, he, hlo⟩ := hchain.first
  have hmem := mem_of_head? hhead
  have hsplit : chain ++ [top, bottom] = (chain ++ [top]) ++ [bottom] := by simp
  have hdisjoint := h.disjoint.sublist (hsplit ▸ hsub)
  have hapart := (pairwise_append.mp hdisjoint).2.2 b hmem bottom mem_cons_self (hchain.known b hmem) hknown
  have hbank := h.whole b (hchain.sublist.subset hmem) (hchain.known b hmem)
  have hbottom := h.whole bottom (hsub.subset (by simp)) hknown
  have hsize := hbottom.size_pos
  have hbounds := (extents_tiles hbank).bounds he
  omega

end

section
variable {infos : List FlashInfo} {e : Extent} {addrFirst addrLast count lo hi : Nat}
  {ranges : List (Option (Nat × Nat))} {es : List Extent}

theorem Erasable.of_tiles (h : Tiles addrFirst (addrLast + 1) es) (hhas : ∀ e ∈ es, Has infos e)
    (hle : addrFirst ≤ addrLast) : Erasable infos addrFirst addrLast := by
  refine ⟨?_, ?_, fun x hfirst hlast => ?_⟩
  · obtain ⟨e, he, hlow, hhigh⟩ := h.covers_iff.mpr ⟨le_refl _, Nat.lt_succ_of_le hle⟩
    have hbounds := h.bounds he
    exact ⟨e, hhas e he, by omega⟩
  · obtain ⟨e, he, hlow, hhigh⟩ := h.covers_iff.mpr ⟨hle, Nat.lt_succ_self _⟩
    have hbounds := h.bounds he
    exact ⟨e, hhas e he, by omega⟩
  · obtain ⟨e, he, hcontains⟩ := h.covers_iff.mpr ⟨hfirst, Nat.lt_succ_of_le hlast⟩
    exact ⟨e, hhas e he, hcontains⟩

theorem flashSectErase_error {flashErase : List EraseCall → Int} {error : FillError}
    (h : fillSectRanges infos addrFirst addrLast = .error error) :
    flashSectErase infos flashErase addrFirst addrLast = (1, []) := by
  unfold flashSectErase
  rw [h]

theorem flashSectErase_ok {flashErase : List EraseCall → Int}
    (h : fillSectRanges infos addrFirst addrLast = .ok (ranges, count)) :
    flashSectErase infos flashErase addrFirst addrLast =
      if count ≠ 0 then eraseLoop flashErase (infos.zip ranges) [] else (1, []) := by
  unfold flashSectErase
  rw [h]

theorem Exact.refusal : Exact infos addrFirst addrLast (1, []) :=
  ⟨fun h => absurd h (by decide), fun _ => ⟨by decide, rfl⟩⟩

/-- Exactly the sectors of the range are erased, or nothing, except where banks that do not hold the end of the range
are taken for all of it, or the address after the last one is taken for 0. -/
theorem flash_sect_erase_exact_iff (h : Banks infos) (hle : addrFirst ≤ addrLast) (haddr : addrLast < 2 ^ 32) :
    (∀ flashErase, Exact infos addrFirst addrLast (flashSectErase infos flashErase addrFirst addrLast)) ↔
      ¬CutOff infos addrFirst addrLast ∧ ¬Wraps infos addrFirst addrLast := by
  constructor
  · intro hexact
    refine ⟨fun hcut => ?_, fun hwraps => ?_⟩
    · obtain ⟨ranges, count, hok, hcount, _⟩ := hcut.planned h hle haddr
      have hresult := hexact fun _ => 0
      rw [flashSectErase_ok hok, if_pos hcount] at hresult
      refine (hresult.refused fun herasable => ?_).1 eraseLoop_all
      obtain ⟨e, he, hhi⟩ := herasable.last
      exact hcut.last e he hhi
    · obtain ⟨ranges, count, hok, hcount, e, he, hzero⟩ := hwraps.planned h hle
      have hresult := hexact fun _ => 0
      rw [flashSectErase_ok hok, if_pos hcount] at hresult
      obtain ⟨hcovers, _⟩ := hresult.tiled eraseLoop_all
      rw [eraseLoop_zero eraseLoop_all] at hcovers
      have hfirst := ((hcovers 0).mp ⟨e, he, hzero⟩).1
      have hpos := hwraps.first_pos h
      omega
  · rintro ⟨hcut, hwraps⟩ flashErase
    cases hfill : fillSectRanges infos addrFirst addrLast with
    | error error =>
      rw [flashSectErase_error hfill]
      exact Exact.refusal
    | ok plan =>
      obtain ⟨ranges, count⟩ := plan
      rw [flashSectErase_ok hfill]
      split
      next hcount =>
        by_cases hstart : ∃ e, Has infos e ∧ e.lo = addrFirst
        · rcases fillSectRanges_start h hle haddr hstart hfill with hcut' | hwraps' | ⟨htiles, hhas⟩
          · exact absurd hcut' hcut
          · exact absurd hwraps' hwraps
          · refine ⟨fun hzero => ?_, fun hnot => absurd (Erasable.of_tiles htiles hhas hle) hnot⟩
            rw [eraseLoop_zero hzero]
            refine ⟨fun x => htiles.covers_iff.trans (and_congr_right fun _ => Nat.lt_succ_iff), ?_⟩
            exact htiles.ordered.sorted.imp .inl
        · rcases fillSectRanges_no_start h hle fun e he hlo => hstart ⟨e, he, hlo⟩ with ⟨error, herror⟩ | ⟨_, hnones⟩
          · cases herror.symm.trans hfill
          · cases hnones.symm.trans hfill
            exact absurd rfl hcount
      · exact Exact.refusal

end

def twoSectors : FlashInfo := { size := 0x20000, flashId := 1, sectors := [⟨0, false⟩, ⟨0x10000, false⟩] }

theorem twoSectors_banks : Banks [twoSectors] := by
  refine ⟨fun info hmem _ => ?_, pairwise_singleton _ _⟩
  cases mem_singleton.mp hmem
  exact ⟨by decide, by decide, by decide, by decide, by decide, by decide⟩

theorem twoSectors_has {e : Extent} : Has [twoSectors] e ↔ e = ⟨0, 0x10000⟩ ∨ e = ⟨0x10000, 0x20000⟩ := by
  constructor
  · rintro ⟨info, hmem, _, he⟩
    cases mem_singleton.mp hmem
    simpa [extents, twoSectors, FlashInfo.start, FlashWrite.spans] using he
  · exact fun he => ⟨twoSectors, mem_cons_self, by decide, by
      simpa [extents, twoSectors, FlashInfo.start, FlashWrite.spans] using he⟩

theorem two_sectors_erased :
    Exact [twoSectors] 0x10000 0x1ffff (flashSectErase [twoSectors] (fun _ => 0) 0x10000 0x1ffff) := by
  refine (flash_sect_erase_exact_iff twoSectors_banks (by decide) (by decide)).mpr ⟨fun hcut => ?_, fun hwraps => ?_⟩ _
  · exact hcut.last ⟨0x10000, 0x20000⟩ (twoSectors_has.mpr (.inr rfl)) rfl
  · exact absurd hwraps.1 (by decide)

/-- A range that goes on behind the last bank is taken to end with it. -/
theorem beyond_the_last_bank :
    ¬Exact [twoSectors] 0x10000 0x2ffff (flashSectErase [twoSectors] (fun _ => 0) 0x10000 0x2ffff) := by
  intro h
  refine (h.refused fun herasable => ?_).1 (by decide)
  obtain ⟨e, he, hhi⟩ := herasable.last
  rcases twoSectors_has.mp he with rfl | rfl
  · exact absurd hhi (by decide)
  · exact absurd hhi (by decide)

end UBoot.FlashErase
