import UBoot.PartAmiga
import UBoot.PartDosExact

namespace UBoot.Part

open Loops

variable {d : BlockDev}

/-- An extended entry of a record that is no boot record leads from `s` to `t`. -/
def BlockDev.MbrLink (d : BlockDev) (s t : Spot) : Prop :=
  ∃ b, d.Record s b ∧ testBlockType b = some .dosMbr ∧ ∃ pt ∈ b.extendeds, t = s.follow pt

theorem mem_printNode {s t : Spot} {k n : Nat} : (t, n) ∈ (printNode d (s, k)).2 ↔
    ∃ b, d.Record s b ∧ testBlockType b = some .dosMbr ∧ n = numBehind s.ext k b.table ∧
      ∃ pt ∈ b.extendeds, t = s.follow pt := by
  by_cases hrec : ∃ b, d.Record s b
  · obtain ⟨b, hb⟩ := hrec
    rcases blockType_of_signed hb.2 with htype | htype
    · rw [printNode_pbr (p := (s, k)) hb htype]
      refine ⟨nofun, fun ⟨b', hb', htype', _⟩ => ?_⟩
      rw [← hb.unique hb', htype] at htype'
      cases htype'
    · rw [printNode_mbr (p := (s, k)) hb htype, List.mem_map]
      constructor
      · rintro ⟨pt, hpt, heq⟩
        cases heq
        exact ⟨b, hb, htype, rfl, pt, hpt, rfl⟩
      · rintro ⟨b', hb', -, rfl, pt, hpt, rfl⟩
        rw [← hb.unique hb'] at hpt ⊢
        exact ⟨pt, hpt, rfl⟩
  · rw [printNode_end (p := (s, k)) fun b hb => hrec ⟨b, hb⟩]
    exact ⟨nofun, fun ⟨b, hb, _⟩ => absurd ⟨b, hb⟩ hrec⟩

theorem printPartDos_ends : (printPartDos d).Ends ↔ Acc (fun t s => d.MbrLink s t) root := by
  have hspot : ∀ (q : Spot × Nat), Acc (Follows fun t => (printNode d t).2) q →
      Acc (fun t s => d.MbrLink s t) q.1 := by
    intro q h
    induction h with
    | intro q _ ih =>
      refine Acc.intro _ fun t ht => ?_
      obtain ⟨b, hb, htype, hpt⟩ := ht
      exact ih (t, numBehind q.1.ext q.2 b.table) (mem_printNode.mpr ⟨b, hb, htype, rfl, hpt⟩)
  have hstate : ∀ s, Acc (fun t s => d.MbrLink s t) s → ∀ k,
      Acc (Follows fun t => (printNode d t).2) (s, k) := by
    intro s h
    induction h with
    | intro s _ ih =>
      refine fun k => Acc.intro _ fun q hq => ?_
      obtain ⟨b, hb, htype, -, hpt⟩ := mem_printNode.mp hq
      exact ih q.1 ⟨b, hb, htype, hpt⟩ q.2
  exact walk_ends.trans ⟨hspot _, fun h => hstate _ h 1⟩

theorem lookupRound_again {part : Int} {q r : Spot × Nat} : lookupRound d part q = .inl r ↔
    ∃ b, d.Record q.1 b ∧ findInTable q.1.ext part q.2 b.table = .inr r.2 ∧
      ∃ pt, b.extendeds.head? = some pt ∧ r.1 = q.1.follow pt := by
  unfold lookupRound BlockDev.Record Block.extendeds
  cases hread : d.blockRead q.1.ext with
  | none => exact ⟨nofun, fun ⟨_, h, _⟩ => (by cases h.1)⟩
  | some b =>
    dsimp only
    rw [← List.head?_filter]
    by_cases hsigned : b.signed = true
    · rw [if_pos hsigned]
      constructor
      · intro h
        split at h
        · cases h
        next n hn =>
          split at h
          next pt hpt =>
            cases h
            exact ⟨b, ⟨rfl, hsigned⟩, hn, pt, hpt, rfl⟩
          · cases h
      · rintro ⟨b', ⟨hb', -⟩, hn, pt, hpt, hr⟩
        cases hb'
        rw [hn]
        rw [hpt]
        dsimp only
        rw [← hr]
    · rw [if_neg hsigned]
      refine ⟨nofun, fun ⟨b', ⟨hb', hs⟩, _⟩ => ?_⟩
      cases hb'
      exact absurd hs hsigned

theorem getPartitionInfoDos_ends :
    (∀ part, (getPartitionInfoDos d part).Ends) ↔ Acc (fun t s => d.FirstLink s t) root := by
  constructor
  · intro h
    -- part 0 is in no table, so its lookup goes through all of the records
    have hspot : ∀ q : Spot × Nat, Acc (fun r q => lookupRound d 0 q = .inl r) q → 1 ≤ q.2 →
        Acc (fun t s => d.FirstLink s t) q.1 := by
      intro q hq
      induction hq with
      | intro q _ ih =>
        intro hk
        refine Acc.intro _ fun t ht => ?_
        obtain ⟨b, hb, pt, hpt, rfl⟩ := ht
        have hround : lookupRound d 0 q = .inl (q.1.follow pt, numBehind q.1.ext q.2 b.table) :=
          lookupRound_again.mpr ⟨b, hb, findInTable_outside (.inl (by omega)), pt, hpt, rfl⟩
        exact ih _ hround (hk.trans (numBehind_ge _ _ _))
    exact hspot (root, 1) (loop_ends_iff.mp (h 0)) (le_refl 1)
  · intro h part
    have hstate : ∀ s, Acc (fun t s => d.FirstLink s t) s → ∀ k,
        Acc (fun r q => lookupRound d part q = .inl r) (s, k) := by
      intro s hs
      induction hs with
      | intro s _ ih =>
        refine fun k => Acc.intro _ fun r hr => ?_
        obtain ⟨b, hb, -, pt, hpt, heq⟩ := lookupRound_again.mp hr
        exact ih r.1 ⟨b, hb, pt, hpt, heq⟩ r.2
    exact loop_ends_iff.mpr (hstate root h 1)

theorem getPartitionInfoDos_safe {part : Int} :
    (getPartitionInfoDos d part).Safe ↔ (getPartitionInfoDos d part).Ends := by
  refine ⟨fun ⟨a, ha⟩ => ⟨some a, ha⟩, fun ⟨r, hr⟩ => ?_⟩
  cases r with
  | some a => exact ⟨a, hr⟩
  | none =>
    refine absurd (rfl : (none : Option (Option DiskPartition)) = none) ?_
    refine Comp.loop_returns (Q := fun r => r ≠ none) (fun _ => True) (fun _ _ _ _ => trivial) ?_ trivial hr
    intro q r _ hround hnone
    rw [Comp.returns_pure_iff, hnone] at hround
    unfold lookupRound at hround
    split at hround
    · cases hround
    · split at hround
      · split at hround
        next e _ =>
          obtain ⟨info, hinfo, -⟩ := fillInfo_fits d q.1.ext e
          rw [hinfo] at hround
          cases hround
        · split at hround
          · cases hround
          · cases hround
      · cases hround

variable {o : ByteOrder} {limit : Int} {b p : Block} {x y : UInt32}

theorem sumLongs_some {n : Nat} : (∃ sum, sumLongs o b n = some sum) ↔ n ≤ 128 := by
  induction n with
  | zero => exact iff_of_true ⟨0, rfl⟩ (Nat.zero_le _)
  | succ n ih =>
    rw [sumLongs]
    constructor
    · rintro ⟨sum, h⟩
      obtain ⟨_, -, h⟩ := Option.bind_eq_some_iff.mp h
      split at h
      next hlt => exact hlt
      · cases h
    · intro h
      obtain ⟨sum, hsum⟩ := ih.mpr (by omega)
      rw [hsum, Option.bind_some, dif_pos (by omega)]
      exact ⟨_, rfl⟩

theorem sumBlock_some : (∃ bad, sumBlock o b = some bad) ↔ (b.summedLongs o).toNat ≤ 128 := by
  unfold sumBlock
  rw [← sumLongs_some (o := o) (b := b)]
  simp only [Option.map_eq_some_iff]
  exact ⟨fun ⟨_, sum, h, _⟩ => ⟨sum, h⟩, fun ⟨sum, h⟩ => ⟨_, sum, h, rfl⟩⟩

def BlockDev.Marked (d : BlockDev) (o : ByteOrder) (id x : UInt32) (b : Block) : Prop :=
  d.blockRead x = some b ∧ b.long o 0 = id

/-- Before a block with the identifier whose sum would leave the block the scan comes to one whose sum is zero. -/
def BlockDev.WordsFit (d : BlockDev) (o : ByteOrder) (id : UInt32) (limit : Int) : Prop :=
  ∀ i < limit.toNat, ∀ b, d.Marked o id (UInt32.ofNat i) b → 128 < (b.summedLongs o).toNat →
    ∃ j < i, ∃ b', d.Marked o id (UInt32.ofNat j) b' ∧ sumBlock o b' = some false

theorem findBlock_some {id : UInt32} {a n : Nat} :
    (∃ r, findBlock o d id ((List.range' a n).map UInt32.ofNat) = some r) ↔
      ∀ i, a ≤ i → i < a + n → ∀ b, d.Marked o id (UInt32.ofNat i) b → 128 < (b.summedLongs o).toNat →
        ∃ j, a ≤ j ∧ j < i ∧ ∃ b', d.Marked o id (UInt32.ofNat j) b' ∧ sumBlock o b' = some false := by
  induction n generalizing a with
  | zero => exact iff_of_true ⟨none, rfl⟩ fun i hlo hhi => by omega
  | succ n ih =>
    rw [List.range'_succ, List.map_cons, findBlock]
    -- what the first block neither ends nor breaks is as it is for the rest
    have hrest (hfit : ∀ b, d.Marked o id (UInt32.ofNat a) b →
        ¬128 < (b.summedLongs o).toNat ∧ sumBlock o b ≠ some false) :
        (∃ r, findBlock o d id ((List.range' (a + 1) n).map UInt32.ofNat) = some r) ↔
          ∀ i, a ≤ i → i < a + (n + 1) → ∀ b, d.Marked o id (UInt32.ofNat i) b → 128 < (b.summedLongs o).toNat →
            ∃ j, a ≤ j ∧ j < i ∧ ∃ b', d.Marked o id (UInt32.ofNat j) b' ∧ sumBlock o b' = some false := by
      rw [ih]
      constructor
      · intro h i hlo hhi b hb hlong
        rcases eq_or_lt_of_le hlo with rfl | hlt
        · exact absurd hlong (hfit b hb).1
        · obtain ⟨j, hj, hji, hvalid⟩ := h i hlt (by omega) b hb hlong
          exact ⟨j, by omega, hji, hvalid⟩
      · intro h i hlo hhi b hb hlong
        obtain ⟨j, hj, hji, b', hb', hsum⟩ := h i (by omega) (by omega) b hb hlong
        rcases eq_or_lt_of_le hj with rfl | hlt
        · exact absurd hsum (hfit b' hb').2
        · exact ⟨j, hlt, hji, b', hb', hsum⟩
    cases hread : d.blockRead (UInt32.ofNat a) with
    | none => exact hrest fun b hb => by cases hread.symm.trans hb.1
    | some b =>
      dsimp only
      by_cases hid : b.long o 0 = id
      · rw [if_pos hid]
        cases hsum : sumBlock o b with
        | none =>
          have hlong : 128 < (b.summedLongs o).toNat := by
            by_contra hle
            obtain ⟨bad, hbad⟩ := sumBlock_some.mpr (Nat.le_of_not_lt hle)
            cases hsum.symm.trans hbad
          refine ⟨fun ⟨r, hr⟩ => (by cases hr), fun h => ?_⟩
          obtain ⟨j, hj, hja, -⟩ := h a (le_refl a) (by omega) b ⟨hread, hid⟩ hlong
          omega
        | some bad =>
          have hfits := sumBlock_some.mp ⟨bad, hsum⟩
          cases bad with
          | true =>
            refine hrest fun b' hb' => ?_
            cases hread.symm.trans hb'.1
            exact ⟨by omega, fun h => (by cases hsum.symm.trans h)⟩
          | false =>
            refine iff_of_true ⟨some b, rfl⟩ fun i hlo hhi b' hb' hlong => ?_
            rcases eq_or_lt_of_le hlo with rfl | hlt
            · cases hread.symm.trans hb'.1
              omega
            · exact ⟨a, le_refl a, hlt, b, ⟨hread, hid⟩, hsum⟩
      · rw [if_neg hid]
        refine hrest fun b' hb' => ?_
        cases hread.symm.trans hb'.1
        exact absurd hb'.2 hid

theorem findBlock_scanned {id : UInt32} :
    (∃ r, findBlock o d id (scanned limit) = some r) ↔ d.WordsFit o id limit := by
  unfold scanned
  rw [List.range_eq_range', findBlock_some]
  unfold BlockDev.WordsFit
  constructor
  · intro h i hi b hb hlong
    obtain ⟨j, -, hji, hvalid⟩ := h i (Nat.zero_le i) (by omega) b hb hlong
    exact ⟨j, hji, hvalid⟩
  · intro h i _ hi b hb hlong
    obtain ⟨j, hji, hvalid⟩ := h i (by omega) b hb hlong
    exact ⟨j, Nat.zero_le j, hji, hvalid⟩

def BlockDev.PartBlock (d : BlockDev) (o : ByteOrder) (x : UInt32) (p : Block) : Prop :=
  x ≠ 0xFFFFFFFF ∧ d.Marked o amigaIdPart x p

def BlockDev.PartLink (d : BlockDev) (o : ByteOrder) (x y : UInt32) : Prop :=
  ∃ p, d.PartBlock o x p ∧ y = p.next o

/-- The list of partition blocks from `x` on has an end. -/
def BlockDev.ListEnds (d : BlockDev) (o : ByteOrder) (x : UInt32) : Prop :=
  Acc (fun y x => d.PartLink o x y) x

def BlockDev.Listed (d : BlockDev) (o : ByteOrder) : UInt32 → UInt32 → Prop := Relation.ReflTransGen (d.PartLink o)

theorem BlockDev.PartBlock.unique {q : Block} (h : d.PartBlock o x p) (h' : d.PartBlock o x q) : p = q :=
  Option.some.inj (h.2.1.symm.trans h'.2.1)

theorem listed_link (h : d.PartBlock o x p) (hy : d.Listed o (p.next o) y) : d.Listed o x y :=
  Relation.ReflTransGen.head ⟨p, h, rfl⟩ hy

theorem listed_cases (h : d.Listed o x y) : y = x ∨ ∃ p, d.PartBlock o x p ∧ d.Listed o (p.next o) y := by
  rcases Relation.ReflTransGen.cases_head h with heq | ⟨_, ⟨p, hp, rfl⟩, hy⟩
  · exact .inl heq.symm
  · exact .inr ⟨p, hp, hy⟩

theorem listed_record (P : Block → Prop) (h : d.PartBlock o x p) :
    (∀ y q, d.Listed o x y → d.PartBlock o y q → P q) ↔
      P p ∧ ∀ y q, d.Listed o (p.next o) y → d.PartBlock o y q → P q := by
  constructor
  · exact fun hall => ⟨hall x p Relation.ReflTransGen.refl h, fun y q hy => hall y q (listed_link h hy)⟩
  · rintro ⟨hp, hrest⟩ y q hy hq
    rcases listed_cases hy with rfl | ⟨p', hp', hy⟩
    · rwa [← h.unique hq]
    · rw [← h.unique hp'] at hy
      exact hrest y q hy hq

theorem listEnds_next (h : d.PartBlock o x p) : d.ListEnds o x ↔ d.ListEnds o (p.next o) := by
  constructor
  · exact fun hx => hx.inv ⟨p, h, rfl⟩
  · refine fun hp => Acc.intro x fun y hy => ?_
    obtain ⟨q, hq, rfl⟩ := hy
    rwa [← h.unique hq]

theorem driveName_length (p : Block) : p.driveName.length = (p 36).toNat := List.length_ofFn

theorem bstrPrint_fits (p : Block) : bstrPrint p = some p.driveName := by
  refine if_pos ?_
  have hlt := (p 36).toNat_lt
  rw [driveName_length]
  omega

theorem printRound_end {names : List (List UInt8)} (h : ∀ p, ¬d.PartBlock o x p) :
    printRound o d (names, x) = some (.inr names) := by
  unfold printRound
  by_cases hx : x = 0xFFFFFFFF
  · exact if_pos hx
  · rw [if_neg hx]
    cases hread : d.blockRead x with
    | none => rfl
    | some p => exact if_neg fun hid => h p ⟨hx, hread, hid⟩

theorem printRound_part {names : List (List UInt8)} (h : d.PartBlock o x p) :
    printRound o d (names, x) = (sumBlock o p).map fun bad =>
      if bad then .inl (names, x) else .inl (names ++ [p.driveName], p.next o) := by
  unfold printRound
  rw [if_neg h.1]
  rw [h.2.1]
  dsimp only
  rw [if_pos h.2.2, bstrPrint_fits]
  cases sumBlock o p with
  | none => rfl
  | some bad => cases bad <;> rfl

theorem print_list_iff {names : List (List UInt8)} : (∃ r, Finishes (printRound o d) (names, x) r) ↔
    d.ListEnds o x ∧ ∀ y p, d.Listed o x y → d.PartBlock o y p → sumBlock o p = some false := by
  constructor
  · rintro ⟨r, hr⟩
    generalize hs : (names, x) = s at hr
    induction hr generalizing names x with
    | done h =>
      have hend : ∀ p, ¬d.PartBlock o x p := by
        intro p hp
        rw [← hs, printRound_part hp] at h
        obtain ⟨bad, -, h⟩ := Option.map_eq_some_iff.mp h
        split at h
        · cases h
        · cases h
      refine ⟨Acc.intro x fun y ⟨p, hp, _⟩ => absurd hp (hend p), fun y p hy hp => ?_⟩
      rcases listed_cases hy with rfl | ⟨q, hq, -⟩
      · exact absurd hp (hend p)
      · exact absurd hq (hend q)
    | again h _ ih =>
      by_cases hpart : ∃ p, d.PartBlock o x p
      · obtain ⟨p, hp⟩ := hpart
        rw [← hs, printRound_part hp] at h
        obtain ⟨bad, hsum, h⟩ := Option.map_eq_some_iff.mp h
        cases bad with
        | true => exact ih (Sum.inl.inj h)
        | false =>
          rw [listEnds_next hp, listed_record (fun q => sumBlock o q = some false) hp]
          obtain ⟨hends, hsums⟩ := ih (Sum.inl.inj h)
          exact ⟨hends, hsum, hsums⟩
      · rw [← hs, printRound_end fun p hp => hpart ⟨p, hp⟩] at h
        cases h
  · rintro ⟨hends, hsums⟩
    induction hends generalizing names with
    | intro x _ ih =>
      by_cases hpart : ∃ p, d.PartBlock o x p
      · obtain ⟨p, hp⟩ := hpart
        obtain ⟨hsum, hrest⟩ := (listed_record (fun q => sumBlock o q = some false) hp).mp hsums
        obtain ⟨r, hr⟩ := ih _ ⟨p, hp, rfl⟩ hrest
        refine ⟨r, .again ?_ hr⟩
        rw [printRound_part hp, hsum]
        rfl
      · exact ⟨names, .done (printRound_end fun p hp => hpart ⟨p, hp⟩)⟩

theorem findRound_end {k : Int} (h : ∀ p, ¬d.PartBlock o x p) : findRound o d (k, x) = some (.inr none) := by
  unfold findRound
  by_cases hx : x = 0xFFFFFFFF
  · exact if_pos hx
  · rw [if_neg hx]
    cases hread : d.blockRead x with
    | none => rfl
    | some p => exact if_neg fun hid => h p ⟨hx, hread, hid⟩

theorem findRound_part {k : Int} (h : d.PartBlock o x p) (hsum : sumBlock o p = some false) :
    findRound o d (k, x) = some (if k = 0 then .inr (some p) else .inl (k - 1, p.next o)) := by
  unfold findRound
  rw [if_neg h.1]
  rw [h.2.1]
  dsimp only
  rw [if_pos h.2.2, hsum]
  rfl

theorem find_list (hends : d.ListEnds o x)
    (hsums : ∀ y p, d.Listed o x y → d.PartBlock o y p → sumBlock o p = some false) (k : Int) :
    ∃ r, Finishes (findRound o d) (k, x) r ∧ ∀ p, r = some p → ∃ y, d.Listed o x y ∧ d.PartBlock o y p := by
  induction hends generalizing k with
  | intro x _ ih =>
    by_cases hpart : ∃ p, d.PartBlock o x p
    · obtain ⟨p, hp⟩ := hpart
      obtain ⟨hsum, hrest⟩ := (listed_record (fun q => sumBlock o q = some false) hp).mp hsums
      have hround := findRound_part (k := k) hp hsum
      by_cases hk : k = 0
      · rw [if_pos hk] at hround
        refine ⟨some p, .done hround, fun q hq => ?_⟩
        cases hq
        exact ⟨x, Relation.ReflTransGen.refl, hp⟩
      · rw [if_neg hk] at hround
        obtain ⟨r, hr, hfound⟩ := ih _ ⟨p, hp, rfl⟩ hrest (k - 1)
        refine ⟨r, .again hround hr, fun q hq => ?_⟩
        obtain ⟨y, hy, hq⟩ := hfound q hq
        exact ⟨y, listed_link hp hy, hq⟩
    · refine ⟨none, .done (findRound_end fun p hp => hpart ⟨p, hp⟩), fun q hq => (by cases hq)⟩

theorem find_listed (hsums : ∀ y p, d.Listed o x y → d.PartBlock o y p → sumBlock o p = some false)
    (hy : d.Listed o x y) (hp : d.PartBlock o y p) :
    ∃ k : Nat, Finishes (findRound o d) ((k : Int), x) (some p) := by
  induction hy using Relation.ReflTransGen.head_induction_on with
  | refl => exact ⟨0, .done (findRound_part hp (hsums _ _ Relation.ReflTransGen.refl hp))⟩
  | head hlink _ ih =>
    obtain ⟨q, hq, rfl⟩ := hlink
    obtain ⟨hsum, hrest⟩ := (listed_record (fun q => sumBlock o q = some false) hq).mp hsums
    obtain ⟨k, hk⟩ := ih hrest
    refine ⟨k + 1, .again (t := ((k : Int), q.next o)) ?_ hk⟩
    rw [findRound_part hq hsum, if_neg (by omega), Int.natCast_succ, Int.add_sub_cancel]

end UBoot.Part
