import UBoot.PartDosWalk

namespace UBoot.Part

open List Loops

variable {d : BlockDev} {s t u : Spot} {b b' : Block} {k : Nat} {whichPart : Int} {start size : UInt32}
  {lines out : List Line}
variable {pt : DosPartition}

theorem outputs_first {pts : List DosPartition} {outs : List (List Line)} {n : Nat}
    (h : List.Forall₂ (fun pt o => (printPartitionExtended d (s.follow pt) n).Returns o) pts outs)
    (hrest : ∀ pt ∈ pts.tail, (printPartitionExtended d (s.follow pt) n).Returns []) :
    (pts = [] ∧ outs.flatten = []) ∨
      ∃ pt o, pts.head? = some pt ∧ (printPartitionExtended d (s.follow pt) n).Returns o ∧ outs.flatten = o := by
  cases h with
  | nil => exact .inl ⟨rfl, rfl⟩
  | @cons pt o pts outs ho houts =>
    refine .inr ⟨pt, o, rfl, ho, ?_⟩
    have hnone : outs.flatten = [] := by
      refine eq_nil_iff_forall_not_mem.mpr fun l hl => ?_
      obtain ⟨pt', hpt', o', ho', hl⟩ := mem_outputs houts hl
      rw [ho'.unique (hrest pt' hpt')] at hl
      cases hl
    rw [flatten_cons, hnone, append_nil]

theorem regular_agrees (hacc : d.EndsAt s) (hno : d.NoReturn s) (hreg : d.Regular s)
    (h : (printPartitionExtended d s k).Returns lines) :
    d.Agrees (s, k) lines ∧ ∀ l ∈ lines, k ≤ l.num := by
  induction hacc generalizing k lines with
  | intro s hacc ih =>
    by_cases hrec : ∃ b, d.Record s b
    · obtain ⟨b, hb⟩ := hrec
      obtain ⟨⟨hpbr, hboot, hside⟩, hbelow⟩ := (regular_record hb).mp hreg
      have htype := (blockType_of_signed hb.2).resolve_left hpbr
      obtain ⟨outs, houts, rfl⟩ := (print_mbr hb htype).mp h
      have hlink : ∀ pt ∈ b.extendeds, d.Link s (s.follow pt) := fun pt hpt => link_of_mem hb hpt
      have hrest : ∀ pt ∈ b.extendeds.tail,
          (printPartitionExtended d (s.follow pt) (numBehind s.ext k b.table)).Returns [] := by
        intro pt hpt
        have hl := hlink pt (mem_of_mem_tail hpt)
        exact (print_nil_iff (hacc _ hl) (hno.link hl) (hno s _ Relation.ReflTransGen.refl hl)).mpr (hside pt hpt)
      have hchild : (∀ l ∈ outs.flatten, numBehind s.ext k b.table ≤ l.num) ∧ (outs.flatten.map Line.num).Nodup ∧
          ∀ whichPart start size, (∃ pt, b.extendeds.head? = some pt ∧
            d.Finds (s.follow pt, numBehind s.ext k b.table) whichPart start size) ↔
            ∃ l ∈ outs.flatten, l.extd = false ∧ (l.num : Int) = whichPart ∧ l.start = start ∧ l.size = size := by
        rcases outputs_first houts hrest with ⟨hnone, hflat⟩ | ⟨pt, o, hhead, ho, hflat⟩
        · rw [hflat, hnone]
          exact ⟨fun l hl => (by cases hl), nodup_nil, fun _ _ _ =>
            ⟨fun ⟨_, h, _⟩ => (by cases h), fun ⟨_, h, _⟩ => (by cases h)⟩⟩
        · have hpt : pt ∈ b.extendeds := mem_of_mem_head? hhead
          obtain ⟨hagrees, hge⟩ := ih _ (hlink pt hpt) (hno.link (hlink pt hpt)) (hbelow pt hpt) ho
          rw [hflat, hhead]
          refine ⟨hge, hagrees.distinct, fun whichPart start size => ?_⟩
          rw [← hagrees.found]
          exact ⟨fun ⟨pt', heq, hf⟩ => (by cases heq; exact hf), fun hf => ⟨pt, rfl, hf⟩⟩
      obtain ⟨hge, hdistinct, hfound⟩ := hchild
      refine ⟨⟨?_, fun whichPart start size => ?_⟩, fun l hl => ?_⟩
      · rw [map_append, nodup_append]
        refine ⟨printTable_distinct, hdistinct, fun x hx y hy heq => ?_⟩
        obtain ⟨l, hl, rfl⟩ := mem_map.mp hx
        obtain ⟨l', hl', rfl⟩ := mem_map.mp hy
        have hlt := (printTable_bounds hl).2
        have hle := hge l' hl'
        omega
      · rw [finds_record hb, hfound]
        simp only [mem_append, or_and_right, exists_or]
        refine or_congr ?_ Iff.rfl
        constructor
        · rintro ⟨e, he, -, hnum, rfl, rfl⟩
          obtain ⟨hl, hext⟩ := mem_printTable.mpr ⟨e, he, rfl⟩
          exact ⟨_, hl, hext, hnum, rfl, rfl⟩
        · rintro ⟨l, hl, hext, hnum, rfl, rfl⟩
          obtain ⟨e, he, rfl⟩ := mem_printTable.mp ⟨hl, hext⟩
          obtain ⟨hmem, hplain⟩ := numbered_entry he
          exact ⟨e, he, hboot e.2 hmem hplain, hnum, rfl, rfl⟩
      · rcases mem_append.mp hl with hl | hl
        · exact (printTable_bounds hl).1
        · exact (numBehind_ge _ _ _).trans (hge l hl)
    · have hend : ∀ b, ¬d.Record s b := fun b hb => hrec ⟨b, hb⟩
      rw [(print_end hend).mp h]
      refine ⟨⟨nodup_nil, fun _ _ _ => ?_⟩, fun l hl => (by cases hl)⟩
      exact ⟨fun hf => absurd hf (finds_end hend), fun ⟨_, hl, _⟩ => (by cases hl)⟩

theorem agrees_behind (hb : d.Record s b) (hacc : d.EndsAt s) (hno : d.NoReturn s)
    (hone : 1 < numBehind s.ext k b.table) {outs : List (List Line)}
    (houts : List.Forall₂ (fun pt o => (printPartitionExtended d (s.follow pt) (numBehind s.ext k b.table)).Returns o)
      b.extendeds outs)
    (h : d.Agrees (s, k) ((printTable s.ext k b.table).1 ++ outs.flatten)) :
    (∀ pt, b.extendeds.head? = some pt → ∃ o,
      (printPartitionExtended d (s.follow pt) (numBehind s.ext k b.table)).Returns o ∧
      d.Agrees (s.follow pt, numBehind s.ext k b.table) o) ∧
    ∀ pt ∈ b.extendeds.tail, (printPartitionExtended d (s.follow pt) (numBehind s.ext k b.table)).Returns [] := by
  have hdistinct := h.distinct
  rw [map_append, nodup_append] at hdistinct
  obtain ⟨-, hbelow, hdisjoint⟩ := hdistinct
  have hplain : ∀ l ∈ outs.flatten, l.extd = false := by
    intro l hl
    obtain ⟨pt, hpt, o, ho, hl⟩ := mem_outputs houts hl
    have hlink := link_of_mem hb hpt
    exact print_plain (hacc.inv hlink) (hno.link hlink) (hno s _ Relation.ReflTransGen.refl hlink) ho l hl
  -- a line behind the record has a number that the table does not have, so the lookup goes on to it
  have hfirst : ∀ l ∈ outs.flatten, ∃ pt, b.extendeds.head? = some pt ∧
      d.Finds (s.follow pt, numBehind s.ext k b.table) l.num l.start l.size := by
    intro l hl
    have hfinds := (h.found l.num l.start l.size).mpr ⟨l, mem_append_right _ hl, hplain l hl, rfl, rfl, rfl⟩
    rcases (finds_record hb).mp hfinds with ⟨e, he, -, hnum, -, -⟩ | hbehind
    · have hline := (mem_printTable.mpr ⟨e, he, rfl⟩).1
      have heq : e.1 = l.num := Int.ofNat.inj hnum
      exact absurd heq (hdisjoint _ (mem_map_of_mem hline) _ (mem_map_of_mem hl))
    · exact hbehind
  cases hext : b.extendeds with
  | nil => exact ⟨fun pt hpt => (by cases hpt), fun pt hpt => (by cases hpt)⟩
  | cons pt rest =>
    rw [hext] at houts
    cases houts with
    | @cons _ o _ outs ho houts =>
      rw [flatten_cons] at hbelow hfirst hplain
      rw [map_append, nodup_append] at hbelow
      obtain ⟨hfirstDistinct, -, hapart⟩ := hbelow
      have hfinds : ∀ l ∈ o ++ outs.flatten,
          d.Finds (s.follow pt, numBehind s.ext k b.table) l.num l.start l.size := by
        intro l hl
        obtain ⟨pt', heq, hf⟩ := hfirst l hl
        rw [hext] at heq
        cases heq
        exact hf
      have hlink : d.Link s (s.follow pt) := link_of_mem hb (by rw [hext]; exact mem_cons_self)
      have hmbr := print_no_pbr (hacc.inv hlink) ho fun l hl heq => by
        have hge := finds_ge (hfinds l (mem_append_left _ hl))
        omega
      refine ⟨fun pt' hpt' => ?_, fun pt' hpt' => ?_⟩
      · cases hpt'
        refine ⟨o, ho, hfirstDistinct, fun whichPart start size => ⟨finds_listed (hacc.inv hlink) ho hmbr, ?_⟩⟩
        rintro ⟨l, hl, -, rfl, rfl, rfl⟩
        exact hfinds l (mem_append_left _ hl)
      · obtain ⟨o', ho', hsub⟩ := outputs_mem houts hpt'
        have hnil : o' = [] := by
          refine eq_nil_iff_forall_not_mem.mpr fun l hl => ?_
          have hl := hsub hl
          obtain ⟨l', hl', -, hnum, -⟩ := finds_listed (hacc.inv hlink) ho hmbr
            (hfinds l (mem_append_right _ hl))
          exact hapart _ (mem_map_of_mem hl') _ (mem_map_of_mem hl) (Int.ofNat.inj hnum)
        rwa [hnil] at ho'

theorem agrees_regular (hacc : d.EndsAt s) (hno : d.NoReturn s)
    (h : (printPartitionExtended d s k).Returns lines) (hagrees : d.Agrees (s, k) lines)
    (hpbr : ∀ b, d.Record s b → testBlockType b ≠ some .dosPbr)
    (hone : ∀ b, d.Record s b → 1 < numBehind s.ext k b.table) : d.Regular s := by
  induction hacc generalizing k lines with
  | intro s hacc ih =>
    by_cases hrec : ∃ b, d.Record s b
    · obtain ⟨b, hb⟩ := hrec
      have htype := (blockType_of_signed hb.2).resolve_left (hpbr b hb)
      obtain ⟨outs, houts, rfl⟩ := (print_mbr hb htype).mp h
      obtain ⟨hfirst, hrest⟩ := agrees_behind hb (Acc.intro s hacc) hno (hone b hb) houts hagrees
      have hside : ∀ pt ∈ b.extendeds.tail, d.Silent (s.follow pt) := by
        intro pt hpt
        have hl := link_of_mem hb (mem_of_mem_tail hpt)
        exact (print_nil_iff (hacc _ hl) (hno.link hl) (hno s _ Relation.ReflTransGen.refl hl)).mp (hrest pt hpt)
      refine (regular_record hb).mpr ⟨⟨hpbr b hb, fun pt hpt hplain => ?_, hside⟩, fun pt hpt => ?_⟩
      · obtain ⟨n, hn⟩ := exists_numbered s.ext k hpt hplain
        obtain ⟨hline, hext⟩ := mem_printTable.mpr ⟨_, hn, rfl⟩
        have hfinds := (hagrees.found n _ _).mpr ⟨_, mem_append_left _ hline, hext, rfl, rfl, rfl⟩
        rcases (finds_record hb).mp hfinds with ⟨e, he, hboot, hnum, -, -⟩ | ⟨pt', -, hbehind⟩
        · obtain ⟨n', pt'⟩ := e
          obtain rfl : n' = n := Int.ofNat.inj hnum
          rwa [← numbered_unique he hn]
        · have hlt := (numbered_bounds hn).2
          have hge := finds_ge hbehind
          omega
      · have hl := link_of_mem hb hpt
        cases hext : b.extendeds with
        | nil =>
          rw [hext] at hpt
          cases hpt
        | cons head rest =>
          rw [hext] at hpt hfirst hside
          rcases mem_cons.mp hpt with rfl | hpt
          · obtain ⟨o, ho, hbehind⟩ := hfirst pt rfl
            have hlarge := hone b hb
            refine ih _ hl (hno.link hl) ho hbehind (fun b' hb' hpbr' => ?_) fun b' hb' => ?_
            · rw [(print_pbr hb' hpbr').mp ho] at hbehind
              have hf := (hbehind.found 1 0 d.lba).mpr ⟨_, mem_singleton_self _, rfl, rfl, rfl, rfl⟩
              have hge := finds_ge hf
              omega
            · exact lt_of_lt_of_le hlarge (numBehind_ge _ _ _)
          · exact (hside pt hpt).regular
    · intro t b ht hb
      have hend : ∀ b, ¬d.Record s b := fun b hb => hrec ⟨b, hb⟩
      rw [reach_end hend ht] at hb
      exact absurd hb (hend b)

/-- The first extended entry of the record at `s` leads to `t`. -/
def BlockDev.FirstLink (d : BlockDev) (s t : Spot) : Prop :=
  ∃ b, d.Record s b ∧ ∃ pt, b.extendeds.head? = some pt ∧ t = s.follow pt

/-- Along the first extended entries no partition has a valid boot indicator. -/
def BlockDev.Hidden (d : BlockDev) (s : Spot) : Prop :=
  ∀ t b, Relation.ReflTransGen d.FirstLink s t → d.Record t b → ∀ pt ∈ b.table, pt.Plain → ¬pt.ValidBoot

theorem hidden_record (h : d.Record s b) : d.Hidden s ↔ (∀ pt ∈ b.table, pt.Plain → ¬pt.ValidBoot) ∧
      ∀ pt, b.extendeds.head? = some pt → d.Hidden (s.follow pt) := by
  constructor
  · exact fun hs => ⟨hs s b Relation.ReflTransGen.refl h, fun pt hpt t b' ht hb' =>
      hs t b' (Relation.ReflTransGen.head ⟨b, h, pt, hpt, rfl⟩ ht) hb'⟩
  · rintro ⟨hhere, hbelow⟩ t b' ht hb'
    rcases Relation.ReflTransGen.cases_head ht with rfl | ⟨u, ⟨b₁, hb₁, pt, hpt, rfl⟩, hut⟩
    · rwa [← h.unique hb']
    · rw [← h.unique hb₁] at hpt
      exact hbelow pt hpt t b' hut hb'

theorem hidden_iff (hacc : d.EndsAt s) :
    d.Hidden s ↔ ∀ whichPart start size, ¬d.Finds (s, k) whichPart start size := by
  induction hacc generalizing k with
  | intro s _ ih =>
    by_cases hrec : ∃ b, d.Record s b
    · obtain ⟨b, hb⟩ := hrec
      have hbelow : ∀ pt, b.extendeds.head? = some pt → (d.Hidden (s.follow pt) ↔
          ∀ whichPart start size, ¬d.Finds (s.follow pt, numBehind s.ext k b.table) whichPart start size) :=
        fun pt hpt => ih _ (link_of_mem hb (mem_of_mem_head? hpt))
      rw [hidden_record hb]
      constructor
      · rintro ⟨hhere, hrest⟩ whichPart start size hf
        rcases (finds_record hb).mp hf with ⟨e, he, hboot, -⟩ | ⟨pt, hpt, hf⟩
        · obtain ⟨hmem, hplain⟩ := numbered_entry he
          exact hhere e.2 hmem hplain hboot
        · exact (hbelow pt hpt).mp (hrest pt hpt) whichPart start size hf
      · refine fun hnone => ⟨fun pt hpt hplain hboot => ?_, fun pt hpt => (hbelow pt hpt).mpr fun _ _ _ hf => ?_⟩
        · obtain ⟨n, hn⟩ := exists_numbered s.ext k hpt hplain
          exact hnone _ _ _ ((finds_record hb).mpr (.inl ⟨_, hn, hboot, rfl, rfl, rfl⟩))
        · exact hnone _ _ _ ((finds_record hb).mpr (.inr ⟨pt, hpt, hf⟩))
    · have hend : ∀ b, ¬d.Record s b := fun b hb => hrec ⟨b, hb⟩
      refine iff_of_true (fun t b ht hb => ?_) fun _ _ _ => finds_end hend
      rcases Relation.ReflTransGen.cases_head ht with rfl | ⟨u, ⟨b₁, hb₁, -⟩, -⟩
      · exact absurd hb (hend b)
      · exact absurd hb₁ (hend b₁)

def root : Spot := ⟨0, 0⟩

/-- The only valid partition that the lookup meets is the first one of sector 0, and it is the whole disk. -/
structure BlockDev.WholeDisk (d : BlockDev) (b : Block) : Prop where
  plain : (b.entry 0).Plain
  validBoot : (b.entry 0).ValidBoot
  start : (b.entry 0).start4 = 0
  size : (b.entry 0).size4 = d.lba
  others : ∀ i, i ≠ 0 → (b.entry i).Plain → ¬(b.entry i).ValidBoot
  behind : ∀ pt, b.extendeds.head? = some pt → d.Hidden (root.follow pt)

def Block.later (b : Block) : List DosPartition := [b.entry 1, b.entry 2, b.entry 3]

theorem table_eq (b : Block) : b.table = b.entry 0 :: b.later := rfl

theorem mem_later : pt ∈ b.later ↔ ∃ i, i ≠ 0 ∧ pt = b.entry i := by
  have hfin : ∀ i : Fin 4, i ≠ 0 ↔ i = 1 ∨ i = 2 ∨ i = 3 := by decide
  simp only [Block.later, mem_cons, not_mem_nil, or_false, hfin, or_and_right, exists_or, exists_eq_left]

theorem numbered_first {rest : List DosPartition} {e : Nat × DosPartition}
    (h : e ∈ numbered 0 1 (pt :: rest)) : e = (1, pt) ∧ pt.Plain ∨ e ∈ numbered 0 2 rest := by
  rw [numbered] at h
  have hnext : nextNum 0 pt 1 = 2 := if_pos (.inl rfl)
  rw [hnext] at h
  split at h
  next hplain =>
    rcases mem_cons.mp h with h | h
    · exact .inl ⟨h, hplain⟩
    · exact .inr h
  · exact .inr h

theorem numbered_later {rest : List DosPartition} {e : Nat × DosPartition}
    (h : e ∈ numbered 0 2 rest) : e ∈ numbered 0 1 (pt :: rest) := by
  rw [numbered]
  have hnext : nextNum 0 pt 1 = 2 := if_pos (.inl rfl)
  rw [hnext]
  split
  · exact mem_cons_of_mem _ h
  · exact h

theorem numBehind_root (b : Block) : numBehind 0 1 b.table = 5 := numBehind_mbr rfl

theorem pbr_agrees_iff (hacc : d.EndsAt root) (hb : d.Record root b) {l : Line} (hnum : l.num = 1)
    (hstart : l.start = 0) (hsize : l.size = d.lba) (hext : l.extd = false) :
    d.Agrees (root, 1) [l] ↔ d.WholeDisk b := by
  have hline : ∀ whichPart start size, (∃ l' ∈ [l], l'.extd = false ∧ (l'.num : Int) = whichPart ∧
      l'.start = start ∧ l'.size = size) ↔ whichPart = 1 ∧ start = 0 ∧ size = d.lba := by
    intro whichPart start size
    simp only [mem_singleton, exists_eq_left, hext, hnum, hstart, hsize, true_and]
    exact ⟨fun h => ⟨h.1.symm, h.2.1.symm, h.2.2.symm⟩, fun h => ⟨h.1.symm, h.2.1.symm, h.2.2.symm⟩⟩
  have hrec : ∀ whichPart start size, d.Finds (root, 1) whichPart start size ↔ _ :=
    fun _ _ _ => finds_record hb
  have hbehind : numBehind root.ext 1 b.table = 5 := numBehind_root b
  have hhidden : ∀ pt, b.extendeds.head? = some pt → (d.Hidden (root.follow pt) ↔
      ∀ whichPart start size, ¬d.Finds (root.follow pt, 5) whichPart start size) :=
    fun pt hpt => hidden_iff (hacc.inv (link_of_mem hb (mem_of_mem_head? hpt)))
  rw [hbehind] at hrec
  constructor
  · intro h
    have hfound := fun whichPart start size => (h.found whichPart start size).trans (hline whichPart start size)
    have hlater : ∀ e ∈ numbered 0 2 b.later, ¬e.2.ValidBoot := by
      intro e he hboot
      have hone := ((hfound _ _ _).mp ((hrec _ _ _).mpr (.inl ⟨e, numbered_later he, hboot, rfl, rfl, rfl⟩))).1
      have hlo := (numbered_bounds he).1
      omega
    obtain ⟨e, he, hboot, heq, hs, hz⟩ : ∃ e ∈ numbered 0 1 b.table, e.2.ValidBoot ∧ (e.1 : Int) = 1 ∧
        0 = (0 : UInt32) + e.2.start4 ∧ d.lba = e.2.size4 := by
      rcases (hrec _ _ _).mp ((hfound 1 0 d.lba).mpr ⟨rfl, rfl, rfl⟩) with htable | ⟨pt, -, hf⟩
      · exact htable
      · have hge := finds_ge hf
        omega
    rw [table_eq] at he
    rcases numbered_first he with ⟨rfl, hplain⟩ | he
    · refine ⟨hplain, hboot, ?_, hz.symm, fun i hi hp hv => ?_, fun pt hpt => (hhidden pt hpt).mpr fun _ _ _ hf => ?_⟩
      · rw [UInt32.zero_add] at hs
        exact hs.symm
      · obtain ⟨n, hn⟩ := exists_numbered 0 2 (mem_later.mpr ⟨i, hi, rfl⟩) hp
        exact hlater _ hn hv
      · have hone := ((hfound _ _ _).mp ((hrec _ _ _).mpr (.inr ⟨pt, hpt, hf⟩))).1
        have hge := finds_ge hf
        omega
    · exact absurd hboot (hlater e he)
  · intro hw
    refine ⟨nodup_cons.mpr ⟨not_mem_nil, nodup_nil⟩, fun whichPart start size => ?_⟩
    rw [hline, hrec]
    constructor
    · rintro (⟨e, he, hboot, rfl, rfl, rfl⟩ | ⟨pt, hpt, hf⟩)
      · change e ∈ numbered 0 1 b.table at he
        rw [table_eq] at he
        rcases numbered_first he with ⟨rfl, -⟩ | he
        · refine ⟨rfl, ?_, hw.size⟩
          change 0 + (b.entry 0).start4 = 0
          rw [hw.start, UInt32.zero_add]
        · obtain ⟨hmem, hplain⟩ := numbered_entry he
          obtain ⟨i, hi, heq⟩ := mem_later.mp hmem
          rw [heq] at hplain hboot
          exact absurd hboot (hw.others i hi hplain)
      · exact absurd hf ((hhidden pt hpt).mp (hw.behind pt hpt) _ _ _)
    · rintro ⟨rfl, rfl, rfl⟩
      refine .inl ⟨(1, b.entry 0), ?_, hw.validBoot, rfl, ?_, hw.size.symm⟩
      · change _ ∈ numbered 0 1 b.table
        rw [table_eq, numbered, if_pos hw.plain]
        exact mem_cons_self
      · change 0 = 0 + (b.entry 0).start4
        rw [hw.start, UInt32.zero_add]

/-- The records form a finite chain that does not come back to sector 0. -/
structure BlockDev.FiniteChain (d : BlockDev) : Prop where
  ends : d.EndsAt root
  noReturn : d.NoReturn root

/-- `get_partition_info_dos` finds exactly the partitions that `print_part_dos` lists, and the numbers that
are listed differ. -/
def BlockDev.LookupIsListing (d : BlockDev) : Prop :=
  ∃ lines, (printPartDos d).Returns lines ∧ (lines.map Line.num).Nodup ∧ ∀ part start size,
    (∃ info, (getPartitionInfoDos d part).Returns (some (some info)) ∧ info.start = start ∧ info.size = size) ↔
      ∃ l ∈ lines, l.extd = false ∧ (l.num : Int) = part ∧ l.start = start ∧ l.size = size

theorem print_ends (hacc : d.EndsAt s) : (printPartitionExtended d s k).Ends := by
  induction hacc generalizing k with
  | intro s _ ih =>
    by_cases hrec : ∃ b, d.Record s b
    · obtain ⟨b, hb⟩ := hrec
      rcases blockType_of_signed hb.2 with htype | htype
      · exact ⟨_, (print_pbr hb htype).mpr rfl⟩
      · obtain ⟨outs, houts⟩ : ∃ outs, Outputs (fun t => (printNode d t).1) (fun t => (printNode d t).2)
            (b.extendeds.map fun pt => (s.follow pt, numBehind s.ext k b.table)) outs := by
          refine Outputs.exists_of_ends fun t ht => ?_
          obtain ⟨pt, hpt, rfl⟩ := mem_map.mp ht
          exact ih _ (link_of_mem hb hpt)
        unfold Outputs at houts
        simp only [forall₂_map_left_iff] at houts
        exact ⟨_, (print_mbr hb htype).mpr ⟨outs, houts, rfl⟩⟩
    · exact ⟨[], (print_end fun b hb => hrec ⟨b, hb⟩).mpr rfl⟩

theorem lookupIsListing_iff (h : (printPartDos d).Returns lines) :
    d.LookupIsListing ↔ d.Agrees (root, 1) lines := by
  constructor
  · rintro ⟨lines', hret, hdistinct, hfound⟩
    rw [h.unique hret]
    exact ⟨hdistinct, hfound⟩
  · exact fun hagrees => ⟨lines, h, hagrees.distinct, hagrees.found⟩

/-- The lookup is the listing exactly where all records are regular, or sector 0 is a boot record that holds
the whole disk as its only partition. -/
theorem get_partition_info_dos_iff (d : BlockDev) (h : d.FiniteChain) :
    d.LookupIsListing ↔ ∀ b, d.Record root b →
      if testBlockType b = some .dosPbr then d.WholeDisk b else d.Regular root := by
  obtain ⟨lines, hlines⟩ := print_ends (k := 1) h.ends
  rw [lookupIsListing_iff hlines]
  constructor
  · intro hagrees b hb
    split
    next htype =>
      rw [(print_pbr hb htype).mp hlines] at hagrees
      exact (pbr_agrees_iff h.ends hb rfl rfl rfl rfl).mp hagrees
    next htype =>
      refine agrees_regular h.ends h.noReturn hlines hagrees (fun b' hb' => ?_) fun b' _ => ?_
      · rwa [← hb.unique hb']
      · change 1 < numBehind 0 1 b'.table
        rw [numBehind_root]
        decide
  · intro hcond
    by_cases hrec : ∃ b, d.Record root b ∧ testBlockType b = some .dosPbr
    · obtain ⟨b, hb, htype⟩ := hrec
      have hwhole := hcond b hb
      rw [if_pos htype] at hwhole
      rw [(print_pbr hb htype).mp hlines]
      exact (pbr_agrees_iff h.ends hb rfl rfl rfl rfl).mpr hwhole
    · have hreg : d.Regular root := by
        by_cases hany : ∃ b, d.Record root b
        · obtain ⟨b, hb⟩ := hany
          have hregular := hcond b hb
          rwa [if_neg fun htype => hrec ⟨b, hb, htype⟩] at hregular
        · intro t b ht hb
          rw [reach_end (fun b hb => hany ⟨b, hb⟩) ht] at hb
          exact absurd ⟨b, hb⟩ hany
      exact (regular_agrees h.ends h.noReturn hreg hlines).1

def blockOf (bytes : List (Nat × UInt8)) : Block := fun i => (bytes.lookup i.val).getD 0

def mbrBlock : Block :=
  blockOf [(0x1be, 0x80), (0x1c2, 0x83), (0x1c6, 1), (0x1ca, 9), (0x1d2, 5), (0x1d6, 10), (0x1fe, 0x55), (0x1ff, 0xaa)]

def ebrBlock : Block := blockOf [(0x1c2, 0x83), (0x1c6, 1), (0x1ca, 8), (0x1fe, 0x55), (0x1ff, 0xaa)]

def twoRecords : BlockDev where
  ifType := .ide
  dev := 0
  lba := 20
  blockRead s := if s = 0 then some mbrBlock else if s = 10 then some ebrBlock else none
  beyond s hs := by
    have hzero : s ≠ 0 := by
      rintro rfl
      exact absurd hs (by decide)
    have hten : s ≠ 10 := by
      rintro rfl
      exact absurd hs (by decide)
    rw [if_neg hzero, if_neg hten]

theorem twoRecords_mbr : twoRecords.Record root mbrBlock := ⟨rfl, by decide⟩

theorem twoRecords_ebr : twoRecords.Record ⟨10, 10⟩ ebrBlock := ⟨rfl, by decide⟩

theorem twoRecords_link (h : twoRecords.Link root t) : t = ⟨10, 10⟩ := by
  obtain ⟨pt, hpt, rfl⟩ := (link_iff twoRecords_mbr).mp h
  have hext : mbrBlock.extendeds = [⟨0, 5, 10, 0⟩] := by decide
  rw [hext, mem_singleton] at hpt
  rw [hpt]
  rfl

theorem twoRecords_last : ¬twoRecords.Link ⟨10, 10⟩ t := by
  intro h
  obtain ⟨pt, hpt, rfl⟩ := (link_iff twoRecords_ebr).mp h
  have hext : ebrBlock.extendeds = [] := by decide
  rw [hext] at hpt
  cases hpt

theorem twoRecords_reach (h : twoRecords.Reach root t) : t = root ∨ t = ⟨10, 10⟩ := by
  rcases reach_cases h with rfl | ⟨u, hu, hut⟩
  · exact .inl rfl
  · rw [twoRecords_link hu] at hut
    rcases reach_cases hut with rfl | ⟨v, hv, -⟩
    · exact .inr rfl
    · exact absurd hv twoRecords_last

theorem get_partition_info_dos_two_records : twoRecords.LookupIsListing := by
  refine (get_partition_info_dos_iff twoRecords ⟨?_, fun t u ht hu => ?_⟩).mpr fun b hb => ?_
  · refine Acc.intro _ fun t ht => Acc.intro _ fun u hu => ?_
    rw [twoRecords_link ht] at hu
    exact absurd hu twoRecords_last
  · rcases twoRecords_reach ht with rfl | rfl
    · rw [twoRecords_link hu]
      decide
    · exact absurd hu twoRecords_last
  · rw [hb.unique twoRecords_mbr, if_neg (by decide)]
    intro t b' ht hb'
    rcases twoRecords_reach ht with rfl | rfl
    · rw [hb'.unique twoRecords_mbr]
      exact ⟨by decide, by decide, fun pt hpt => absurd hpt (by decide +revert)⟩
    · rw [hb'.unique twoRecords_ebr]
      exact ⟨by decide, by decide, fun pt hpt => absurd hpt (by decide +revert)⟩

def oddBootBlock : Block := blockOf [(0x1be, 1), (0x1c2, 0x83), (0x1c6, 1), (0x1ca, 9), (0x1fe, 0x55), (0x1ff, 0xaa)]

def oddBoot : BlockDev where
  ifType := .ide
  dev := 0
  lba := 20
  blockRead s := if s = 0 then some oddBootBlock else none
  beyond s hs := by
    refine if_neg ?_
    rintro rfl
    exact absurd hs (by decide)

/-- A partition with another boot indicator than 0 and 0x80 is listed, but not found. -/
theorem odd_boot_indicator_listed_not_found : ¬∀ d : BlockDev, d.FiniteChain → d.LookupIsListing := by
  intro h
  have hrec : oddBoot.Record root oddBootBlock := ⟨rfl, by decide⟩
  have hno : ∀ t, ¬oddBoot.Link root t := by
    intro t ht
    obtain ⟨pt, hpt, rfl⟩ := (link_iff hrec).mp ht
    have hext : oddBootBlock.extendeds = [] := by decide
    rw [hext] at hpt
    cases hpt
  have hreach : ∀ t, oddBoot.Reach root t → t = root := by
    intro t ht
    rcases reach_cases ht with rfl | ⟨u, hu, -⟩
    · rfl
    · exact absurd hu (hno u)
  have hchain : oddBoot.FiniteChain :=
    ⟨Acc.intro _ fun t ht => absurd ht (hno t), fun t u ht hu => absurd (hreach t ht ▸ hu) (hno u)⟩
  obtain ⟨lines, hlines⟩ := print_ends (k := 1) hchain.ends
  have hagrees := (lookupIsListing_iff hlines).mp (h oddBoot hchain)
  have hregular := agrees_regular hchain.ends hchain.noReturn hlines hagrees
    (fun b hb => by rw [hb.unique hrec]; decide) (fun b _ => by rw [show root.ext = 0 from rfl, numBehind_root]; decide)
  have hboot := (hregular root oddBootBlock Relation.ReflTransGen.refl hrec).2.1 ⟨1, 0x83, 1, 9⟩ (by decide) (by decide)
  exact absurd hboot (by decide)

end UBoot.Part
