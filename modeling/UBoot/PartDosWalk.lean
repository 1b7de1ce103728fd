import Mathlib.Logic.Relation
import UBoot.PartDos

namespace UBoot.Part

open List Loops

variable {d : BlockDev} {s t u : Spot} {b b' : Block} {k : Nat} {whichPart : Int} {start size : UInt32}
  {lines : List Line}

def BlockDev.Record (d : BlockDev) (s : Spot) (b : Block) : Prop :=
  d.blockRead s.ext = some b ∧ b.signed = true

def Block.extendeds (b : Block) : List DosPartition := b.table.filter fun pt => isExtended pt.sysInd

/-- An extended entry of the record at `s` leads to `t`. -/
def BlockDev.Link (d : BlockDev) (s t : Spot) : Prop :=
  ∃ b, d.Record s b ∧ ∃ pt ∈ b.extendeds, t = s.follow pt

def BlockDev.Reach (d : BlockDev) : Spot → Spot → Prop := Relation.ReflTransGen d.Link

/-- The lookup returns a partition with this start and size. -/
def BlockDev.Finds (d : BlockDev) (s : Spot × Nat) (whichPart : Int) (start size : UInt32) : Prop :=
  ∃ info, (getPartitionInfoExtended d s.1 s.2 whichPart).Returns (some (some info)) ∧
    info.start = start ∧ info.size = size

def BlockDev.EndsAt (d : BlockDev) (s : Spot) : Prop := Acc (fun t s => d.Link s t) s

theorem BlockDev.Record.unique (h : d.Record s b) (h' : d.Record s b') : b = b' :=
  Option.some.inj (h.1.symm.trans h'.1)

theorem link_iff (h : d.Record s b) : d.Link s t ↔ ∃ pt ∈ b.extendeds, t = s.follow pt := by
  constructor
  · rintro ⟨b', hb', hpt⟩
    rwa [h.unique hb']
  · exact fun hpt => ⟨b, h, hpt⟩

theorem reach_cases (h : d.Reach s t) : t = s ∨ ∃ u, d.Link s u ∧ d.Reach u t := by
  rcases Relation.ReflTransGen.cases_head h with heq | ⟨u, hu, hut⟩
  · exact .inl heq.symm
  · exact .inr ⟨u, hu, hut⟩

theorem reach_link (h : d.Link s u) (hr : d.Reach u t) : d.Reach s t := Relation.ReflTransGen.head h hr

theorem blockType_of_signed (h : b.signed = true) :
    testBlockType b = some .dosPbr ∨ testBlockType b = some .dosMbr := by
  unfold testBlockType
  rw [if_pos h]
  split
  · exact .inl rfl
  · exact .inr rfl

theorem blockType_of_not_signed (h : ¬b.signed = true) : testBlockType b = none := if_neg h

theorem printNode_end {p : Spot × Nat} (h : ∀ b, ¬d.Record p.1 b) : printNode d p = ([], []) := by
  unfold printNode
  cases hread : d.blockRead p.1.ext with
  | none => rfl
  | some b =>
    have hsigned : ¬b.signed = true := fun hb => h b ⟨hread, hb⟩
    dsimp only
    rw [blockType_of_not_signed hsigned]

theorem printNode_pbr {p : Spot × Nat} (h : d.Record p.1 b) (hb : testBlockType b = some .dosPbr) :
    printNode d p = ([⟨1, 0, d.lba, b 0x15, false⟩], []) := by
  unfold printNode
  rw [h.1]
  dsimp only
  rw [hb]

theorem printNode_mbr {p : Spot × Nat} (h : d.Record p.1 b) (hb : testBlockType b = some .dosMbr) :
    printNode d p = ((printTable p.1.ext p.2 b.table).1,
      b.extendeds.map fun pt => (p.1.follow pt, numBehind p.1.ext p.2 b.table)) := by
  unfold printNode
  rw [h.1]
  dsimp only
  rw [hb]
  rfl

theorem print_end (h : ∀ b, ¬d.Record s b) : (printPartitionExtended d s k).Returns lines ↔ lines = [] := by
  unfold printPartitionExtended
  rw [walk_returns, printNode_end h]
  constructor
  · rintro ⟨outs, houts, rfl⟩
    cases houts
    rfl
  · rintro rfl
    exact ⟨[], List.Forall₂.nil, rfl⟩

theorem print_pbr (h : d.Record s b) (hb : testBlockType b = some .dosPbr) :
    (printPartitionExtended d s k).Returns lines ↔ lines = [⟨1, 0, d.lba, b 0x15, false⟩] := by
  unfold printPartitionExtended
  rw [walk_returns, printNode_pbr h hb]
  constructor
  · rintro ⟨outs, houts, rfl⟩
    cases houts
    rfl
  · rintro rfl
    exact ⟨[], List.Forall₂.nil, rfl⟩

theorem print_mbr (h : d.Record s b) (hb : testBlockType b = some .dosMbr) :
    (printPartitionExtended d s k).Returns lines ↔ ∃ outs,
      List.Forall₂ (fun pt o => (printPartitionExtended d (s.follow pt) (numBehind s.ext k b.table)).Returns o)
        b.extendeds outs ∧ lines = (printTable s.ext k b.table).1 ++ outs.flatten := by
  unfold printPartitionExtended
  rw [walk_returns, printNode_mbr h hb]
  unfold Outputs
  simp only [forall₂_map_left_iff]

theorem mem_outputs {f : DosPartition → Comp (List Line)} {pts : List DosPartition} {outs : List (List Line)}
    (h : List.Forall₂ (fun pt o => (f pt).Returns o) pts outs) {l : Line} (hl : l ∈ outs.flatten) :
    ∃ pt ∈ pts, ∃ o, (f pt).Returns o ∧ l ∈ o := by
  induction h with
  | nil => cases hl
  | @cons pt o pts outs ho _ ih =>
    rw [flatten_cons, mem_append] at hl
    rcases hl with hl | hl
    · exact ⟨pt, mem_cons_self, o, ho, hl⟩
    · obtain ⟨pt', hpt', o', ho', hl⟩ := ih hl
      exact ⟨pt', mem_cons_of_mem _ hpt', o', ho', hl⟩

theorem outputs_mem {f : DosPartition → Comp (List Line)} {pts : List DosPartition} {outs : List (List Line)}
    (h : List.Forall₂ (fun pt o => (f pt).Returns o) pts outs) {pt : DosPartition} (hpt : pt ∈ pts) :
    ∃ o, (f pt).Returns o ∧ o ⊆ outs.flatten := by
  induction h with
  | nil => cases hpt
  | @cons pt' o pts outs ho _ ih =>
    rw [flatten_cons]
    rcases mem_cons.mp hpt with rfl | hpt
    · exact ⟨o, ho, subset_append_left _ _⟩
    · obtain ⟨o', ho', hsub⟩ := ih hpt
      exact ⟨o', ho', List.Subset.trans hsub (subset_append_right _ _)⟩

theorem finds_end (h : ∀ b, ¬d.Record s b) : ¬d.Finds (s, k) whichPart start size := by
  rintro ⟨info, hret, -⟩
  have hround : lookupRound d whichPart (s, k) = .inr (some none) := by
    unfold lookupRound
    cases hread : d.blockRead s.ext with
    | none => rfl
    | some b => exact if_neg fun hb => h b ⟨hread, hb⟩
  cases hret.unique (Comp.loop_done (Comp.returns_pure_iff.mpr hround.symm))

theorem finds_ge {p : Spot × Nat} (h : d.Finds p whichPart start size) : (p.2 : Int) ≤ whichPart := by
  obtain ⟨info, hret, -⟩ := h
  refine Comp.loop_returns (Q := fun r => r = some (some info) → (p.2 : Int) ≤ whichPart)
    (fun t : Spot × Nat => p.2 ≤ t.2) ?_ ?_ (le_refl p.2) hret rfl
  · intro t t' hle hround
    rw [Comp.returns_pure_iff] at hround
    unfold lookupRound at hround
    split at hround
    · cases hround
    next b _ =>
      split at hround
      · split at hround
        · cases hround
        next n hn =>
          split at hround
          · cases hround
            have hbehind := findInTable_behind hn
            have hge := numBehind_ge t.1.ext t.2 b.table
            exact hle.trans (hge.trans (le_of_eq hbehind.symm))
          · cases hround
      · cases hround
  · rintro t r hle hround rfl
    rw [Comp.returns_pure_iff] at hround
    unfold lookupRound at hround
    split at hround
    · cases hround
    next b _ =>
      split at hround
      · split at hround
        next e he =>
          obtain ⟨hmem, -, hnum⟩ := findInTable_hit.mp he
          have hlo := (numbered_bounds hmem).1
          omega
        · split at hround
          · cases hround
          · cases hround
      · cases hround

theorem finds_record (h : d.Record s b) : d.Finds (s, k) whichPart start size ↔
    (∃ e ∈ numbered s.ext k b.table, e.2.ValidBoot ∧ (e.1 : Int) = whichPart ∧
      start = s.ext + e.2.start4 ∧ size = e.2.size4) ∨
    ∃ pt, b.extendeds.head? = some pt ∧
      d.Finds (s.follow pt, numBehind s.ext k b.table) whichPart start size := by
  have hround : lookupRound d whichPart (s, k) = (findInTable s.ext whichPart k b.table).elim
        (fun hit => .inr ((fillInfo d s.ext hit).map some))
        (fun partNum => b.extendeds.head?.elim (.inr (some none)) fun pt => .inl (s.follow pt, partNum)) := by
    unfold lookupRound Block.extendeds
    rw [h.1, List.head?_filter]
    refine (if_pos h.2).trans ?_
    cases findInTable s.ext whichPart k b.table with
    | inl hit => rfl
    | inr partNum => cases b.table.find? fun pt => isExtended pt.sysInd <;> rfl
  constructor
  · rintro ⟨info, hret, rfl, rfl⟩
    rcases findInTable_cases s.ext whichPart k b.table with
      ⟨e, he, hboot, hnum, hfind⟩ | ⟨hno, hfind⟩
    · rw [hfind] at hround
      obtain ⟨info', hinfo, hstart, hsize⟩ := fillInfo_fits d s.ext e
      rw [Sum.elim_inl, hinfo] at hround
      cases hret.unique (Comp.loop_done (Comp.returns_pure_iff.mpr hround.symm))
      exact .inl ⟨e, he, hboot, hnum, hstart, hsize⟩
    · rw [hfind, Sum.elim_inr] at hround
      cases hhead : b.extendeds.head? with
      | none =>
        rw [hhead] at hround
        cases hret.unique (Comp.loop_done (Comp.returns_pure_iff.mpr hround.symm))
      | some pt =>
        rw [hhead] at hround
        refine .inr ⟨pt, rfl, info, ?_, rfl, rfl⟩
        obtain ⟨r, hr⟩ : ∃ r, (getPartitionInfoExtended d (s.follow pt) (numBehind s.ext k b.table)
            whichPart).Returns r :=
          Comp.loop_rest (Comp.returns_pure_iff.mpr hround.symm) ⟨_, hret⟩
        rwa [hret.unique (Comp.loop_again (Comp.returns_pure_iff.mpr hround.symm) hr)]
  · rintro (⟨e, he, hboot, hnum, rfl, rfl⟩ | ⟨pt, hhead, hfinds⟩)
    · rw [findInTable_hit.mpr ⟨he, hboot, hnum⟩] at hround
      obtain ⟨info, hinfo, hstart, hsize⟩ := fillInfo_fits d s.ext e
      rw [Sum.elim_inl, hinfo] at hround
      exact ⟨info, Comp.loop_done (Comp.returns_pure_iff.mpr hround.symm), hstart, hsize⟩
    · have hge := finds_ge hfinds
      rw [findInTable_outside (.inr hge), Sum.elim_inr, hhead] at hround
      obtain ⟨info, hret, hinfo⟩ := hfinds
      exact ⟨info, Comp.loop_again (Comp.returns_pure_iff.mpr hround.symm) hret, hinfo⟩

variable {out : List Line}

/-- No record at `s` or behind it is a boot record or holds a partition. -/
def BlockDev.Silent (d : BlockDev) (s : Spot) : Prop :=
  ∀ t b, d.Reach s t → d.Record t b → testBlockType b ≠ some .dosPbr ∧ ∀ pt ∈ b.table, ¬pt.Plain

/-- The record is no boot record, its partitions have valid boot indicators, and what its extended entries
but the first lead to holds no partitions. -/
def BlockDev.RegularAt (d : BlockDev) (t : Spot) (b : Block) : Prop :=
  testBlockType b ≠ some .dosPbr ∧ (∀ pt ∈ b.table, pt.Plain → pt.ValidBoot) ∧
    ∀ pt ∈ b.extendeds.tail, d.Silent (t.follow pt)

def BlockDev.Regular (d : BlockDev) (s : Spot) : Prop := ∀ t b, d.Reach s t → d.Record t b → d.RegularAt t b

/-- No extended entry at `s` or behind it leads back to sector 0. -/
def BlockDev.NoReturn (d : BlockDev) (s : Spot) : Prop := ∀ t u, d.Reach s t → d.Link t u → u.ext ≠ 0

/-- The lookup from a state on finds exactly these lines, whose numbers differ. -/
structure BlockDev.Agrees (d : BlockDev) (p : Spot × Nat) (lines : List Line) : Prop where
  distinct : (lines.map Line.num).Nodup
  found : ∀ whichPart start size, d.Finds p whichPart start size ↔
    ∃ l ∈ lines, l.extd = false ∧ (l.num : Int) = whichPart ∧ l.start = start ∧ l.size = size

theorem BlockDev.NoReturn.link (h : d.NoReturn s) (hu : d.Link s u) : d.NoReturn u :=
  fun t v ht hv => h t v (reach_link hu ht) hv

theorem link_of_mem (h : d.Record s b) {pt : DosPartition} (hpt : pt ∈ b.extendeds) : d.Link s (s.follow pt) :=
  ⟨b, h, pt, hpt, rfl⟩

theorem printTable_nil {ext : UInt32} {num : Nat} {tbl : List DosPartition} (hext : ext ≠ 0) :
    (printTable ext num tbl).1 = [] ↔ ∀ pt ∈ tbl, ¬pt.Plain := by
  constructor
  · intro h pt hpt hplain
    obtain ⟨n, hn⟩ := exists_numbered ext num hpt hplain
    have hline := (mem_printTable.mpr ⟨_, hn, rfl⟩).1
    rw [h] at hline
    cases hline
  · intro h
    induction tbl generalizing num with
    | nil => rfl
    | cons pt rest ih =>
      have hplain := h pt mem_cons_self
      rw [printTable, if_neg fun hlisted => hplain ⟨hlisted.1, hlisted.2.resolve_left hext⟩]
      exact ih fun q hq => h q (mem_cons_of_mem _ hq)

theorem printTable_plain {ext : UInt32} {num : Nat} {tbl : List DosPartition} (hext : ext ≠ 0) {l : Line}
    (h : l ∈ (printTable ext num tbl).1) : l.extd = false := by
  induction tbl generalizing num with
  | nil => cases h
  | cons pt rest ih =>
    rw [printTable] at h
    split at h
    next hlisted =>
      rcases mem_cons.mp h with rfl | h
      · exact hlisted.2.resolve_left hext
      · exact ih h
    · exact ih h

theorem reach_record (P : Spot → Block → Prop) (h : d.Record s b) :
    (∀ t b', d.Reach s t → d.Record t b' → P t b') ↔
      P s b ∧ ∀ pt ∈ b.extendeds, ∀ t b', d.Reach (s.follow pt) t → d.Record t b' → P t b' := by
  constructor
  · exact fun hs => ⟨hs s b Relation.ReflTransGen.refl h,
      fun pt hpt t b' ht hb' => hs t b' (reach_link (link_of_mem h hpt) ht) hb'⟩
  · rintro ⟨hhere, hbelow⟩ t b' ht hb'
    rcases reach_cases ht with rfl | ⟨u, hu, hut⟩
    · rwa [← h.unique hb']
    · obtain ⟨pt, hpt, rfl⟩ := (link_iff h).mp hu
      exact hbelow pt hpt t b' hut hb'

theorem silent_record (h : d.Record s b) : d.Silent s ↔
    (testBlockType b ≠ some .dosPbr ∧ ∀ pt ∈ b.table, ¬pt.Plain) ∧ ∀ pt ∈ b.extendeds, d.Silent (s.follow pt) :=
  reach_record (fun _ b => testBlockType b ≠ some .dosPbr ∧ ∀ pt ∈ b.table, ¬pt.Plain) h

theorem regular_record (h : d.Record s b) :
    d.Regular s ↔ d.RegularAt s b ∧ ∀ pt ∈ b.extendeds, d.Regular (s.follow pt) :=
  reach_record d.RegularAt h

theorem BlockDev.Silent.regular (h : d.Silent s) : d.Regular s := by
  intro t b ht hb
  obtain ⟨hpbr, hplain⟩ := h t b ht hb
  refine ⟨hpbr, fun pt hpt hp => absurd hp (hplain pt hpt), fun pt hpt => ?_⟩
  have hmem : pt ∈ b.extendeds := mem_of_mem_tail hpt
  intro u b' hu hb'
  exact h u b' (Relation.ReflTransGen.trans (Relation.ReflTransGen.tail ht (link_of_mem hb hmem)) hu) hb'

theorem reach_end (h : ∀ b, ¬d.Record s b) (ht : d.Reach s t) : t = s := by
  rcases reach_cases ht with heq | ⟨u, ⟨b, hb, -⟩, -⟩
  · exact heq
  · exact absurd hb (h b)

theorem print_nil_iff (hacc : d.EndsAt s) (hno : d.NoReturn s) (hext : s.ext ≠ 0) :
    (printPartitionExtended d s k).Returns [] ↔ d.Silent s := by
  induction hacc generalizing k with
  | intro s _ ih =>
    by_cases hrec : ∃ b, d.Record s b
    · obtain ⟨b, hb⟩ := hrec
      rw [silent_record hb]
      rcases blockType_of_signed hb.2 with htype | htype
      · rw [print_pbr hb htype]
        exact ⟨nofun, fun h => absurd htype h.1.1⟩
      · have hbelow : ∀ pt ∈ b.extendeds, (printPartitionExtended d (s.follow pt)
            (numBehind s.ext k b.table)).Returns [] ↔ d.Silent (s.follow pt) := fun pt hpt =>
          have hlink := link_of_mem hb hpt
          ih _ hlink (hno.link hlink) (hno s _ Relation.ReflTransGen.refl hlink)
        rw [print_mbr hb htype]
        constructor
        · rintro ⟨outs, houts, hnil⟩
          obtain ⟨htable, hflat⟩ := append_eq_nil_iff.mp hnil.symm
          refine ⟨⟨fun h => ?_, (printTable_nil hext).mp htable⟩, fun pt hpt => ?_⟩
          · cases htype.symm.trans h
          · obtain ⟨o, ho, hsub⟩ := outputs_mem houts hpt
            rw [hflat] at hsub
            rw [eq_nil_of_subset_nil hsub] at ho
            exact (hbelow pt hpt).mp ho
        · rintro ⟨⟨-, hplain⟩, hsilent⟩
          refine ⟨b.extendeds.map fun _ => [], ?_, ?_⟩
          · rw [forall₂_map_right_iff, forall₂_same]
            exact fun pt hpt => (hbelow pt hpt).mpr (hsilent pt hpt)
          · rw [(printTable_nil hext).mpr hplain]
            simp
    · have hend : ∀ b, ¬d.Record s b := fun b hb => hrec ⟨b, hb⟩
      refine iff_of_true ((print_end hend).mpr rfl) fun t b ht hb => ?_
      rw [reach_end hend ht] at hb
      exact absurd hb (hend b)

theorem print_plain (hacc : d.EndsAt s) (hno : d.NoReturn s) (hext : s.ext ≠ 0)
    (h : (printPartitionExtended d s k).Returns lines) : ∀ l ∈ lines, l.extd = false := by
  induction hacc generalizing k lines with
  | intro s _ ih =>
    intro l hl
    by_cases hrec : ∃ b, d.Record s b
    · obtain ⟨b, hb⟩ := hrec
      rcases blockType_of_signed hb.2 with htype | htype
      · rw [(print_pbr hb htype).mp h] at hl
        rcases mem_singleton.mp hl with rfl
        rfl
      · obtain ⟨outs, houts, rfl⟩ := (print_mbr hb htype).mp h
        rcases mem_append.mp hl with hl | hl
        · exact printTable_plain hext hl
        · obtain ⟨pt, hpt, o, ho, hl⟩ := mem_outputs houts hl
          have hlink := link_of_mem hb hpt
          exact ih _ hlink (hno.link hlink) (hno s _ Relation.ReflTransGen.refl hlink) ho l hl
    · rw [(print_end fun b hb => hrec ⟨b, hb⟩).mp h] at hl
      cases hl

theorem print_no_pbr (hacc : d.EndsAt s) (h : (printPartitionExtended d s k).Returns lines)
    (hone : ∀ l ∈ lines, l.num ≠ 1) : ∀ t b, d.Reach s t → d.Record t b → testBlockType b ≠ some .dosPbr := by
  induction hacc generalizing k lines with
  | intro s _ ih =>
    intro t b' ht hb' hpbr
    rcases reach_cases ht with rfl | ⟨u, hu, hut⟩
    · exact hone _ ((print_pbr hb' hpbr).mp h ▸ mem_singleton_self _) rfl
    · obtain ⟨b, hb, pt, hpt, rfl⟩ := hu
      rcases blockType_of_signed hb.2 with htype | htype
      · exact hone _ ((print_pbr hb htype).mp h ▸ mem_singleton_self _) rfl
      · obtain ⟨outs, houts, rfl⟩ := (print_mbr hb htype).mp h
        obtain ⟨o, ho, hsub⟩ := outputs_mem houts hpt
        exact ih _ (link_of_mem hb hpt) ho (fun l hl => hone l (mem_append_right _ (hsub hl))) t b' hut hb' hpbr

theorem finds_listed (hacc : d.EndsAt s) (h : (printPartitionExtended d s k).Returns lines)
    (hmbr : ∀ t b, d.Reach s t → d.Record t b → testBlockType b ≠ some .dosPbr)
    (hfinds : d.Finds (s, k) whichPart start size) :
    ∃ l ∈ lines, l.extd = false ∧ (l.num : Int) = whichPart ∧ l.start = start ∧ l.size = size := by
  induction hacc generalizing k lines with
  | intro s _ ih =>
    by_cases hrec : ∃ b, d.Record s b
    · obtain ⟨b, hb⟩ := hrec
      have htype := (blockType_of_signed hb.2).resolve_left (hmbr s b Relation.ReflTransGen.refl hb)
      obtain ⟨outs, houts, rfl⟩ := (print_mbr hb htype).mp h
      rcases (finds_record hb).mp hfinds with ⟨e, he, -, hnum, rfl, rfl⟩ | ⟨pt, hhead, hfinds⟩
      · obtain ⟨hl, hext⟩ := mem_printTable.mpr ⟨e, he, rfl⟩
        exact ⟨_, mem_append_left _ hl, hext, hnum, rfl, rfl⟩
      · have hpt : pt ∈ b.extendeds := mem_of_mem_head? hhead
        obtain ⟨o, ho, hsub⟩ := outputs_mem houts hpt
        have hlink := link_of_mem hb hpt
        obtain ⟨l, hl, hline⟩ := ih _ hlink ho (fun t b' ht hb' => hmbr t b' (reach_link hlink ht) hb') hfinds
        exact ⟨l, mem_append_right _ (hsub hl), hline⟩
    · exact absurd hfinds (finds_end fun b hb => hrec ⟨b, hb⟩)

end UBoot.Part
