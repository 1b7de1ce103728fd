import Mathlib.Data.Set.Basic
import UBoot.LmbFree
import UBoot.Runs

namespace UBoot

open Extents Slices Runs

inductive LmbCall where
  | reserve (base size : UInt32)
  | free (base size : UInt32)

def lmbStep (lmb : Lmb) : LmbCall → Option (Int × Lmb)
  | .reserve base size => lmbReserve lmb base size
  | .free base size => lmbFree lmb base size

def reservedBy (calls : List LmbCall) : Set Nat :=
  calls.foldl (fun s call => match call with
    | .reserve base size => s ∪ {a | (⟨base, size⟩ : LmbProperty).extent.Contains a}
    | .free base size => s \ {a | (⟨base, size⟩ : LmbProperty).extent.Contains a}) ∅

/-- A reserved range is apart from what is reserved, a freed one lies in one reserved before, and
neither wraps. -/
def LmbCall.Fair (past : List LmbCall) : LmbCall → Prop
  | .reserve base size => base.toNat + size.toNat ≤ 2 ^ 32 ∧
      ∀ a, (⟨base, size⟩ : LmbProperty).extent.Contains a → a ∉ reservedBy past
  | .free base size => ∃ base' size', .reserve base' size' ∈ past ∧
      base'.toNat + size'.toNat ≤ 2 ^ 32 ∧ base' ≤ base ∧ base.toNat + size.toNat ≤ base'.toNat + size'.toNat

/-- The call meets none of the cases that the code gets wrong: an empty range, a table emptied by
`lmb_free`, and a range up to the end of the address space whose end is taken for address 0. -/
def LmbSafe (lmb : Lmb) : LmbCall → Prop
  | .reserve base size => size ≠ 0 ∧ lmb.reserved.Ready base ∧
      ¬(((⟨base, size⟩ : LmbProperty).extent.Contains 0 ∨ Covers lmb.reserved.extents 0) ∧
        ((⟨base, size⟩ : LmbProperty).extent.Contains (2 ^ 32 - 1) ∨
          Covers lmb.reserved.extents (2 ^ 32 - 1)))
  | .free base size => lmb.reserved.EndsInside base size

variable {lmb : Lmb} {calls : List LmbCall} {base size : UInt32}

theorem reservedBy_reserve (past : List LmbCall) (base size : UInt32) (a : Nat) :
    a ∈ reservedBy (past ++ [.reserve base size]) ↔
      a ∈ reservedBy past ∨ (⟨base, size⟩ : LmbProperty).extent.Contains a := by
  rw [reservedBy, List.foldl_append]
  exact Iff.rfl

theorem reservedBy_free (past : List LmbCall) (base size : UInt32) (a : Nat) :
    a ∈ reservedBy (past ++ [.free base size]) ↔
      a ∈ reservedBy past ∧ ¬(⟨base, size⟩ : LmbProperty).extent.Contains a := by
  rw [reservedBy, List.foldl_append]
  exact Iff.rfl

theorem lmbIsReserved_iff (h : lmb.reserved.Sound) (a : UInt32) :
    lmbIsReserved lmb a ↔ Covers lmb.reserved.extents a.toNat := by
  have hentry : ∀ i, i < lmb.reserved.cnt → ((lmb.reserved.region i).base ≤ a ∧
        a ≤ (lmb.reserved.region i).base + (lmb.reserved.region i).size - 1 ↔
        (lmb.reserved.region i).extent.Contains a.toNat) := by
    intro i hi
    have hproper := h.ordered.proper _ (LmbRegion.mem_extents hi)
    have hmax := h.bounded _ (LmbRegion.mem_extents hi)
    simp only [LmbProperty.extent, Extent.Contains] at hproper hmax ⊢
    rw [UInt32.le_iff_toNat_le, UInt32.le_iff_toNat_le, UInt32.toNat_sub, UInt32.toNat_add, UInt32.toNat_one]
    omega
  unfold lmbIsReserved
  simp only [List.any_eq_true, Bool.and_eq_true, decide_eq_true_eq, List.mem_range]
  constructor
  · rintro ⟨i, hi, hin⟩
    exact ⟨_, LmbRegion.mem_extents hi, (hentry i hi).mp hin⟩
  · rintro ⟨e, he, hin⟩
    obtain ⟨p, hp, rfl⟩ := List.mem_map.mp he
    obtain ⟨i, _, hi, rfl⟩ := mem_slice.mp hp
    exact ⟨i, hi, (hentry i hi).mpr hin⟩

/-- The table is the one of `lmb_init` until the first range is reserved, and then it covers what
is reserved. -/
def LmbHolds (past : List LmbCall) (lmb : Lmb) : Prop :=
  past = [] ∧ lmb = lmbInit ∨ lmb.reserved.Sound ∧ ∀ a, Covers lmb.reserved.extents a ↔ a ∈ reservedBy past

theorem lmbReserve_holds {past : List LmbCall} {rc : Int} {lmb' : Lmb} (h : LmbHolds past lmb)
    (hsafe : LmbSafe lmb (.reserve base size)) (hfair : (LmbCall.reserve base size).Fair past)
    (hrc : 0 ≤ rc) (hcall : lmbReserve lmb base size = some (rc, lmb')) :
    LmbHolds (past ++ [.reserve base size]) lmb' := by
  obtain ⟨hsize, hready, hends⟩ := hsafe
  obtain ⟨hmax, hapart⟩ := hfair
  obtain ⟨⟨rc', rgn⟩, hadd, hres⟩ := Option.map_eq_some_iff.mp hcall
  obtain ⟨rfl, rfl⟩ := Prod.mk.inj hres
  have hpos : 0 < size.toNat := Nat.pos_of_ne_zero fun h0 => hsize (UInt32.toNat_inj.mp h0)
  right
  rcases h with ⟨rfl, rfl⟩ | ⟨hsound, hcov⟩
  · have honly : ¬((⟨base, size⟩ : LmbProperty).extent.Contains 0 ∧
        (⟨base, size⟩ : LmbProperty).extent.Contains (2 ^ 32 - 1)) := fun hboth =>
      hends ⟨.inl hboth.1, .inl hboth.2⟩
    obtain ⟨rgn', hfirst, hsound, hcov⟩ := LmbRegion.add_dummy
      (rfl : lmbInit.reserved.cnt = 1) rfl hpos hmax honly
    obtain ⟨_, rfl⟩ := Prod.mk.inj (Option.some.inj (hadd.symm.trans hfirst))
    refine ⟨hsound, fun a => ?_⟩
    rw [hcov, reservedBy_reserve]
    exact (or_iff_right fun hnil => hnil.elim).symm
  · have hfresh : lmb.reserved.Fresh (⟨base, size⟩ : LmbProperty).extent :=
      ⟨Nat.lt_add_of_pos_right hpos, hmax, fun a ha hc => hapart a ha ((hcov a).mp hc), hends⟩
    obtain ⟨rc', rgn', hadd', hres⟩ := LmbRegion.add_extends hsound hready hfresh
    obtain ⟨rfl, rfl⟩ := Prod.mk.inj (Option.some.inj (hadd.symm.trans hadd'))
    rcases hres with ⟨rfl, _⟩ | ⟨_, hext⟩
    · exact absurd hrc (by simp)
    · refine ⟨hext.sound, fun a => ?_⟩
      rw [hext.covers, hcov, reservedBy_reserve, or_comm]

theorem lmbFree_holds {past : List LmbCall} {rc : Int} {lmb' : Lmb} (h : LmbHolds past lmb)
    (hsafe : LmbSafe lmb (.free base size)) (hfair : (LmbCall.free base size).Fair past)
    (hrc : 0 ≤ rc) (hcall : lmbFree lmb base size = some (rc, lmb')) :
    LmbHolds (past ++ [.free base size]) lmb' := by
  obtain ⟨⟨rc', rgn⟩, hfree, hres⟩ := Option.map_eq_some_iff.mp hcall
  obtain ⟨rfl, rfl⟩ := Prod.mk.inj hres
  obtain ⟨base', size', hmem, _⟩ := hfair
  right
  rcases h with ⟨rfl, _⟩ | ⟨hsound, hcov⟩
  · cases hmem
  · obtain ⟨rc', rgn', hfree', hres⟩ := LmbRegion.free_lessens hsound hsafe
    obtain ⟨rfl, rfl⟩ := Prod.mk.inj (Option.some.inj (hfree.symm.trans hfree'))
    rcases hres with ⟨rfl, _⟩ | ⟨_, hless, _⟩
    · exact absurd hrc (by simp)
    · refine ⟨hless.sound, fun a => ?_⟩
      rw [hless.covers, hcov, reservedBy_free]

/-- As long as no call meets one of the cases of `LmbSafe`, the reserved addresses are those that
the calls have reserved and not freed. -/
theorem lmb_is_reserved_exactly {answers : List Int} (hrun : run lmbStep lmbInit calls = some (answers, lmb))
    (hanswers : ∀ rc ∈ answers, 0 ≤ rc)
    (hfair : ∀ past call rest, calls = past ++ call :: rest → call.Fair past)
    (hsafe : Meets lmbStep LmbSafe lmbInit calls) (hsome : calls ≠ []) (a : UInt32) :
    lmbIsReserved lmb a ↔ a.toNat ∈ reservedBy calls := by
  have hstep : ∀ past s call rc t, LmbHolds past s → LmbSafe s call → call.Fair past → 0 ≤ rc →
      lmbStep s call = some (rc, t) → LmbHolds (past ++ [call]) t := by
    intro past s call rc t h hs hf hrc hcall
    cases call with
    | reserve base size => exact lmbReserve_holds h hs hf hrc hcall
    | free base size => exact lmbFree_holds h hs hf hrc hcall
  have hend : LmbHolds ([] ++ calls) lmb := run_history hstep (.inl ⟨rfl, rfl⟩) hsafe hfair hanswers hrun
  rcases hend with ⟨hnil, _⟩ | ⟨hsound, hcov⟩
  · exact absurd hnil hsome
  · rw [lmbIsReserved_iff hsound]
    exact hcov a.toNat

/-- Three ranges that become one, and a hole in it. -/
theorem lmb_is_reserved_exactly_split : ∃ answers lmb,
    run lmbStep lmbInit [.reserve 0x1000 0x1000, .reserve 0x4000 0x1000, .reserve 0x2000 0x2000,
      .free 0x1800 0x100] = some (answers, lmb) ∧
    ∀ a, lmbIsReserved lmb a ↔ a.toNat ∈ reservedBy [.reserve 0x1000 0x1000,
      .reserve 0x4000 0x1000, .reserve 0x2000 0x2000, .free 0x1800 0x100] := by
  refine ⟨_, _, rfl, lmb_is_reserved_exactly rfl (by decide) ?_ ?_ (by simp)⟩
  · simp only [forall_split_cons]
    simp [LmbCall.Fair, reservedBy, LmbProperty.extent, Extent.Contains]
    refine ⟨by omega, by omega, 0x1000, 0x1000, .inl ⟨rfl, rfl⟩, ?_⟩
    decide
  · refine Meets.cons rfl ⟨by decide, by decide, by decide⟩ ?_
    refine Meets.cons rfl ⟨by decide, by decide, by decide⟩ ?_
    refine Meets.cons rfl ⟨by decide, by decide, by decide⟩ ?_
    exact Meets.cons rfl (.inl (by decide)) trivial

/-- The table that `lmb_free` has emptied takes no range above the one that was in it, and shows
that one again. -/
theorem reserve_on_emptied_table : ∃ lmb,
    run lmbStep lmbInit [.reserve 0x1000 0x1000, .free 0x1000 0x1000, .reserve 0x5000 0x1000] =
      some ([0, 0, 0], lmb) ∧
    (∀ past call rest, [.reserve 0x1000 0x1000, .free 0x1000 0x1000, .reserve 0x5000 0x1000] =
      past ++ call :: rest → LmbCall.Fair past call) ∧
    lmbIsReserved lmb 0x5000 = false ∧
    0x5000 ∈ reservedBy [.reserve 0x1000 0x1000, .free 0x1000 0x1000, .reserve 0x5000 0x1000] ∧
    lmbIsReserved lmb 0x1000 = true ∧
    0x1000 ∉ reservedBy [.reserve 0x1000 0x1000, .free 0x1000 0x1000, .reserve 0x5000 0x1000] := by
  refine ⟨_, rfl, ?_, by decide, ?_, by decide, ?_⟩
  · simp only [forall_split_cons]
    simp [LmbCall.Fair, reservedBy, LmbProperty.extent, Extent.Contains]
  · simp [reservedBy, LmbProperty.extent, Extent.Contains]
  · simp [reservedBy, LmbProperty.extent, Extent.Contains]

end UBoot
