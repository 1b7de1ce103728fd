import Mathlib.Algebra.GroupWithZero.Nat
import Mathlib.Logic.Function.Basic
import UBoot.Extents
import UBoot.Slices

namespace UBoot

structure LmbProperty where
  base : UInt32
  size : UInt32
deriving DecidableEq

/-- Behind the first `cnt` entries of the array is what earlier calls have left there. -/
structure LmbRegion where
  cnt : Nat
  region : Nat → LmbProperty

structure Lmb where
  memory : LmbRegion
  reserved : LmbRegion

def maxLmbRegions : Nat := 8

def lmbAddrsOverlap (base1 size1 base2 size2 : UInt32) : Bool :=
  base1 < base2 + size2 && base2 < base1 + size1

def lmbAddrsAdjacent (base1 size1 base2 size2 : UInt32) : Int :=
  if base2 = base1 + size1 then 1 else if base1 = base2 + size2 then -1 else 0

def lmbInit : Lmb :=
  let dummy : LmbRegion := ⟨1, fun _ => ⟨0, 0⟩⟩
  ⟨dummy, dummy⟩

namespace LmbRegion

def regionsAdjacent (rgn : LmbRegion) (r1 r2 : Nat) : Bool :=
  lmbAddrsAdjacent (rgn.region r1).base (rgn.region r1).size (rgn.region r2).base
    (rgn.region r2).size ≠ 0

def set (rgn : LmbRegion) (i : Nat) (p : LmbProperty) : LmbRegion :=
  { rgn with region := Function.update rgn.region i p }

/-- `lmb_remove_region`. In an empty table `cnt - 1` is the largest `unsigned long`, and the
loop leaves the array. -/
def remove (rgn : LmbRegion) (r : Nat) : Option LmbRegion :=
  if rgn.cnt = 0 then none
  else
    let region := (List.range' r (rgn.cnt - 1 - r)).foldl
      (fun region i => Function.update region i (region (i + 1))) rgn.region
    some ⟨rgn.cnt - 1, region⟩

/-- `lmb_coalesce_regions` -/
def coalesce (rgn : LmbRegion) (r1 r2 : Nat) : Option LmbRegion :=
  let p := rgn.region r1
  (rgn.set r1 ⟨p.base, p.size + (rgn.region r2).size⟩).remove r2

/-- The loop of `lmb_add_region` that makes room from the last entry down. -/
def shiftUp (base size : UInt32) : Nat → (Nat → LmbProperty) → Nat → LmbProperty
  | 0, region => region
  | i + 1, region =>
    if base < (region i).base then shiftUp base size i (Function.update region (i + 1) (region i))
    else Function.update region (i + 1) ⟨base, size⟩

def insert (rgn : LmbRegion) (base size : UInt32) : LmbRegion :=
  let region := shiftUp base size rgn.cnt rgn.region
  let region := if base < (region 0).base then Function.update region 0 ⟨base, size⟩ else region
  ⟨rgn.cnt + 1, region⟩

/-- Where the first loop of `lmb_add_region` ends before the table does. -/
def findNear (rgn : LmbRegion) (base size : UInt32) : Option Nat :=
  (List.range rgn.cnt).find? fun i =>
    rgn.region i = ⟨base, size⟩ ∨ lmbAddrsAdjacent base size (rgn.region i).base (rgn.region i).size ≠ 0

/-- `lmb_add_region` -/
def add (rgn : LmbRegion) (base size : UInt32) : Option (Int × LmbRegion) :=
  if rgn.cnt = 1 ∧ (rgn.region 0).size = 0 then some (0, rgn.set 0 ⟨base, size⟩)
  else
    match rgn.findNear base size with
    | some i =>
      let p := rgn.region i
      if p = ⟨base, size⟩ then some (0, rgn)
      else
        let grown : LmbProperty :=
          if 0 < lmbAddrsAdjacent base size p.base p.size then ⟨p.base - size, p.size + size⟩
          else ⟨p.base, p.size + size⟩
        let rgn := rgn.set i grown
        if i + 1 < rgn.cnt ∧ rgn.regionsAdjacent i (i + 1) then
          (rgn.coalesce i (i + 1)).map fun rgn => (2, rgn)
        else some (1, rgn)
    | none =>
      -- the index is `cnt`, which is below the unsigned `cnt - 1` of an empty table
      if rgn.cnt = 0 ∧ rgn.regionsAdjacent 0 1 then
        (rgn.coalesce 0 1).map fun rgn => (1, rgn)
      else if maxLmbRegions ≤ rgn.cnt then some (-1, rgn)
      else some (0, rgn.insert base size)

/-- `lmb_free` on the table of the reserved regions. -/
def free (rgn : LmbRegion) (base size : UInt32) : Option (Int × LmbRegion) :=
  let fin := base + size
  let found := (List.range rgn.cnt).find? fun i =>
    (rgn.region i).base ≤ base ∧ fin ≤ (rgn.region i).base + (rgn.region i).size
  match found with
  | none => some (-1, rgn)
  | some i =>
    let p := rgn.region i
    let rgnend := p.base + p.size
    if p.base = base ∧ rgnend = fin then (rgn.remove i).map fun rgn => (0, rgn)
    else if p.base = base then some (0, rgn.set i ⟨fin, p.size - size⟩)
    else if rgnend = fin then some (0, rgn.set i ⟨p.base, p.size - size⟩)
    else (rgn.set i ⟨p.base, base - p.base⟩).add fin (rgnend - fin)

/-- `lmb_overlaps_region` -/
def overlaps (rgn : LmbRegion) (base size : UInt32) : Option Nat :=
  (List.range rgn.cnt).find? fun i =>
    lmbAddrsOverlap base size (rgn.region i).base (rgn.region i).size

end LmbRegion

def lmbReserve (lmb : Lmb) (base size : UInt32) : Option (Int × Lmb) :=
  (lmb.reserved.add base size).map fun r => (r.1, { lmb with reserved := r.2 })

def lmbFree (lmb : Lmb) (base size : UInt32) : Option (Int × Lmb) :=
  (lmb.reserved.free base size).map fun r => (r.1, { lmb with reserved := r.2 })

def lmbAllocAnywhere : UInt32 := 0

def lmbAlignDown (addr size : UInt32) : UInt32 := addr &&& ~~~(size - 1)

def lmbAlignUp (addr size : UInt32) : UInt32 := (addr + (size - 1)) &&& ~~~(size - 1)

/-- The inner loop of `__lmb_alloc_base`, below `base` in the memory region that starts at
`lmbbase`. The inner `none` goes on with the next region of memory. -/
def lmbAllocIn (lmb : Lmb) (size align lmbbase : UInt32) : Nat → UInt32 → Option (Option (UInt32 × Lmb))
  | 0, _ => none
  | fuel + 1, base =>
    if base ≠ 0 ∧ lmbbase ≤ base then
      match lmb.reserved.overlaps base size with
      | none =>
        (lmb.reserved.add base (lmbAlignUp size align)).map fun r =>
          some (if r.1 < 0 then 0 else base, { lmb with reserved := r.2 })
      | some j =>
        let resBase := (lmb.reserved.region j).base
        if resBase < size then some none
        else lmbAllocIn lmb size align lmbbase fuel (lmbAlignDown (resBase - size) align)
    else some none

/-- Where the search starts in a region of memory, if it looks there at all. -/
def lmbAllocTop (p : LmbProperty) (size align maxAddr : UInt32) : Option UInt32 :=
  if p.size < size then none
  else if maxAddr = lmbAllocAnywhere then some (lmbAlignDown (p.base + p.size - size) align)
  else if p.base < maxAddr then some (lmbAlignDown (min (p.base + p.size) maxAddr - size) align)
  else none

/-- `__lmb_alloc_base` from the region of memory below the given index down. The address falls in
each round of the inner loop, so that it takes no more rounds than the first one. -/
def lmbAllocFrom (lmb : Lmb) (size align maxAddr : UInt32) : Nat → Option (UInt32 × Lmb)
  | 0 => some (0, lmb)
  | i + 1 =>
    let p := lmb.memory.region i
    match lmbAllocTop p size align maxAddr with
    | none => lmbAllocFrom lmb size align maxAddr i
    | some base => do
      match ← lmbAllocIn lmb size align p.base (base.toNat + 1) base with
      | none => lmbAllocFrom lmb size align maxAddr i
      | some r => pure r

def lmbAllocBase (lmb : Lmb) (size align maxAddr : UInt32) : Option (UInt32 × Lmb) :=
  lmbAllocFrom lmb size align maxAddr lmb.memory.cnt

def lmbIsReserved (lmb : Lmb) (addr : UInt32) : Bool :=
  (List.range lmb.reserved.cnt).any fun i =>
    let p := lmb.reserved.region i
    p.base ≤ addr && addr ≤ p.base + p.size - 1

open Extents Slices

def LmbProperty.extent (p : LmbProperty) : Extent := ⟨p.base.toNat, p.base.toNat + p.size.toNat⟩

namespace LmbRegion

variable {rgn : LmbRegion} {base size : UInt32} {p : LmbProperty} {i : Nat} {a : Nat}

def extents (rgn : LmbRegion) : List Extent := (slice rgn.region 0 rgn.cnt).map LmbProperty.extent

def before (rgn : LmbRegion) (i : Nat) : List Extent := (slice rgn.region 0 i).map LmbProperty.extent

def after (rgn : LmbRegion) (i : Nat) : List Extent :=
  (slice rgn.region i rgn.cnt).map LmbProperty.extent

/-- A table of ranges of the address space that are not empty, in order and apart. Not both ends
of the address space are in it, whose sums the code cannot tell apart. -/
structure Sound (rgn : LmbRegion) : Prop where
  few : rgn.cnt ≤ maxLmbRegions
  ordered : Ordered rgn.extents
  bounded : ∀ e ∈ rgn.extents, e.hi ≤ 2 ^ 32
  oneEnd : ¬(Covers rgn.extents 0 ∧ Covers rgn.extents (2 ^ 32 - 1))

@[simp] theorem set_cnt : (rgn.set i p).cnt = rgn.cnt := rfl

@[simp] theorem set_region_self : (rgn.set i p).region i = p := by
  exact Function.update_self _ _ _

theorem set_region_of_ne {j : Nat} (h : j ≠ i) : (rgn.set i p).region j = rgn.region j := by
  exact Function.update_of_ne h _ _

theorem extents_split (h : i < rgn.cnt) :
    rgn.extents = rgn.before i ++ (rgn.region i).extent :: rgn.after (i + 1) := by
  rw [extents, slice_split (Nat.zero_le i) h, List.map_append, List.map_cons]
  rfl

theorem set_extents (h : i < rgn.cnt) (p : LmbProperty) :
    (rgn.set i p).extents = rgn.before i ++ p.extent :: rgn.after (i + 1) := by
  rw [extents, set, slice_update (Nat.zero_le i) h, List.map_append, List.map_cons]
  rfl

theorem shiftDown_eq (r k : Nat) (region : Nat → LmbProperty) :
    (List.range' r k).foldl (fun region i => Function.update region i (region (i + 1))) region =
      fun j => if r ≤ j ∧ j < r + k then region (j + 1) else region j := by
  induction k generalizing r region with
  | zero =>
    funext j
    rw [if_neg (by omega)]
    rfl
  | succ k ih =>
    rw [List.range'_succ, List.foldl_cons, ih]
    funext j
    by_cases hj : j = r
    · subst j
      have hout : ¬(r + 1 ≤ r ∧ r < r + 1 + k) := by omega
      have hin : r ≤ r ∧ r < r + (k + 1) := by omega
      rw [if_neg hout, if_pos hin, Function.update_self]
    · by_cases h : r + 1 ≤ j ∧ j < r + 1 + k
      · rw [if_pos h, if_pos (by omega), Function.update_of_ne (by omega)]
      · rw [if_neg h, if_neg (by omega), Function.update_of_ne hj]

theorem remove_extents (h : i < rgn.cnt) : ∃ rgn', rgn.remove i = some rgn' ∧
    rgn'.cnt = rgn.cnt - 1 ∧ rgn'.extents = rgn.before i ++ rgn.after (i + 1) := by
  refine ⟨_, if_neg (by omega), rfl, ?_⟩
  rw [extents]
  rw [shiftDown_eq, ← slice_append (Nat.zero_le i) (by omega : i ≤ rgn.cnt - 1), List.map_append]
  congr 2
  · apply slice_congr
    intro j _ hj
    exact if_neg (by omega)
  · have hcnt : rgn.cnt = rgn.cnt - 1 + 1 := by omega
    rw [hcnt]
    apply slice_succ
    intro j hj hlt
    exact if_pos (by omega)

theorem coalesce_extents (h : i + 1 < rgn.cnt) (hp : p =
    ⟨(rgn.region i).base, (rgn.region i).size + (rgn.region (i + 1)).size⟩) : ∃ rgn', rgn.coalesce i (i + 1) = some rgn' ∧
    rgn'.cnt = rgn.cnt - 1 ∧ rgn'.extents = rgn.before i ++ p.extent :: rgn.after (i + 2) := by
  subst p
  obtain ⟨p, hp⟩ : ∃ p : LmbProperty, p =
    ⟨(rgn.region i).base, (rgn.region i).size + (rgn.region (i + 1)).size⟩ := ⟨_, rfl⟩
  have hset : (i + 1) < (rgn.set i p).cnt := h
  obtain ⟨rgn', hr, hcnt, hext⟩ := remove_extents hset
  rw [coalesce, ← hp]
  refine ⟨rgn', hr, hcnt, ?_⟩
  rw [hext]
  have hbefore : (rgn.set i p).before (i + 1) = rgn.before i ++ [p.extent] := by
    rw [before, set, slice_update (Nat.zero_le i) (by omega), slice_empty le_rfl, List.map_append]
    rfl
  have hafter : (rgn.set i p).after (i + 1 + 1) = rgn.after (i + 2) := by
    unfold after
    congr 1
    apply slice_congr
    intro j hj _
    exact Function.update_of_ne (by omega) _ _
  rw [hbefore, hafter, List.append_assoc]
  rfl

theorem shiftUp_eq (base size : UInt32) (n : Nat) (region : Nat → LmbProperty) :
    ∃ k, k ≤ n ∧ (∀ j, k ≤ j → j < n → base < (region j).base) ∧ (k ≠ 0 → (region (k - 1)).base ≤ base) ∧
      ∀ j, shiftUp base size n region j =
        if k < j ∧ j ≤ n then region (j - 1)
        else if j = k ∧ k ≠ 0 then ⟨base, size⟩ else region j := by
  induction n generalizing region with
  | zero =>
    refine ⟨0, le_refl 0, by omega, by omega, fun j => ?_⟩
    rw [if_neg (by omega), if_neg (by omega)]
    rfl
  | succ n ih =>
    unfold shiftUp
    split
    next hlt =>
      obtain ⟨k, hk, habove, hbelow, hall⟩ := ih (Function.update region (n + 1) (region n))
      refine ⟨k, by omega, fun j hkj hj => ?_, fun hk0 => ?_, fun j => ?_⟩
      · rcases Nat.lt_succ_iff_lt_or_eq.mp hj with hj | rfl
        · have := habove j hkj hj
          rwa [Function.update_of_ne (by omega)] at this
        · exact hlt
      · have := hbelow hk0
        rwa [Function.update_of_ne (by omega)] at this
      · rw [hall j]
        by_cases hj : j = n + 1
        · subst j
          have hin : k < n + 1 ∧ n + 1 ≤ n + 1 := by omega
          rw [if_neg (by omega), if_neg (by omega), if_pos hin, Function.update_self, Nat.add_sub_cancel]
        · by_cases hin : k < j ∧ j ≤ n
          · rw [if_pos hin, if_pos (by omega), Function.update_of_ne (by omega)]
          · rw [if_neg hin, if_neg (c := k < j ∧ j ≤ n + 1) (by omega), Function.update_of_ne hj]
    next hge =>
      refine ⟨n + 1, le_refl _, by omega, fun _ => UInt32.not_lt.mp hge, fun j => ?_⟩
      rw [if_neg (by omega)]
      by_cases hj : j = n + 1
      · subst j
        rw [if_pos ⟨rfl, by omega⟩, Function.update_self]
      · rw [if_neg (c := j = n + 1 ∧ n + 1 ≠ 0) (by omega), Function.update_of_ne hj]

theorem insert_extents (base size : UInt32)
    (hsorted : ∀ j k, j ≤ k → k < rgn.cnt → (rgn.region j).base ≤ (rgn.region k).base)
    (hempty : rgn.cnt = 0 → base < (rgn.region 0).base) :
    ∃ k, k ≤ rgn.cnt ∧ (∀ j, j < k → (rgn.region j).base ≤ base) ∧
      (∀ j, k ≤ j → j < rgn.cnt → base < (rgn.region j).base) ∧
      (rgn.insert base size).extents =
        rgn.before k ++ (⟨base, size⟩ : LmbProperty).extent :: rgn.after k := by
  obtain ⟨k, hk, habove, hbelow, hall⟩ := shiftUp_eq base size rgn.cnt rgn.region
  have hlow : ∀ j, j < k → (rgn.region j).base ≤ base := fun j hj =>
    UInt32.le_trans (hsorted j (k - 1) (by omega) (by omega)) (hbelow (by omega))
  refine ⟨k, hk, hlow, habove, ?_⟩
  obtain ⟨region, hregion⟩ : ∃ region, region = (rgn.insert base size).region := ⟨_, rfl⟩
  have hnew : ∀ j, j ≤ rgn.cnt → region j =
      if j < k then rgn.region j else if j = k then ⟨base, size⟩ else rgn.region (j - 1) := by
    intro j hj
    rw [hregion, insert]
    dsimp only
    by_cases hk0 : k = 0
    · -- all entries have moved, and the first one is set at last
      subst k
      have hfirst : base < (shiftUp base size rgn.cnt rgn.region 0).base := by
        rw [hall 0, if_neg (by omega), if_neg (by omega)]
        rcases Nat.eq_zero_or_pos rgn.cnt with h0 | h0
        · exact hempty h0
        · exact habove 0 (le_refl 0) h0
      rw [if_pos hfirst]
      by_cases hj0 : j = 0
      · subst j
        simp
      · rw [Function.update_of_ne hj0, hall j, if_pos (by omega), if_neg (by omega), if_neg hj0]
    · have hfirst : ¬base < (shiftUp base size rgn.cnt rgn.region 0).base := by
        rw [hall 0, if_neg (by omega), if_neg (by omega)]
        exact UInt32.not_lt.mpr (hlow 0 (by omega))
      rw [if_neg hfirst, hall j]
      rcases lt_trichotomy j k with hjk | rfl | hjk
      · rw [if_neg (by omega), if_neg (by omega), if_pos hjk]
      · rw [if_neg (by omega), if_pos ⟨rfl, hk0⟩, if_neg (by omega), if_pos rfl]
      · rw [if_pos ⟨hjk, hj⟩, if_neg (by omega), if_neg (by omega)]
  have hcnt : (rgn.insert base size).cnt = rgn.cnt + 1 := rfl
  rw [extents, ← hregion, hcnt, slice_split (Nat.zero_le k) (by omega), List.map_append, List.map_cons,
    hnew k hk, if_neg (by omega), if_pos rfl]
  congr 1
  · apply congrArg
    apply slice_congr
    intro j _ hj
    rw [hnew j (by omega), if_pos hj]
  · congr 1
    apply congrArg
    symm
    apply slice_succ
    intro j hj hlt
    rw [hnew (j + 1) (by omega), if_neg (by omega), if_neg (by omega), Nat.add_sub_cancel]

end LmbRegion

end UBoot
