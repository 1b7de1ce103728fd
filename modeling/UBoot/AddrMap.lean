import Mathlib.Data.List.Basic
import Mathlib.Data.List.Range

namespace UBoot.AddrMap

/-- The width of `phys_addr_t` and `phys_size_t`. -/
inductive PhysWidth where
  | bits32
  | bits64

def PhysWidth.values : PhysWidth → Nat
  | .bits32 => 4294967296
  | .bits64 => 18446744073709551616

/-- An element of `address_map`. -/
structure Entry where
  paddr : Nat
  size : Nat
  vaddr : Nat

/-- The memory from `address_map` on, by index. -/
abbrev Map := Int → Entry

/-- The arguments of `addrmap_set_entry`. -/
structure SetEntry (w : PhysWidth) where
  vaddr : Nat
  paddr : Nat
  size : Nat
  idx : Int
  vaddr_lt : vaddr < 4294967296
  paddr_lt : paddr < w.values
  size_lt : size < w.values

/-- The address is in the range from `base` on; the last address of the range is a sum in 64 bits. -/
def inRange (size base addr : Nat) : Bool :=
  size != 0 && decide (base ≤ addr ∧ addr ≤ (size + base - 1) % 18446744073709551616)

variable (w : PhysWidth) (n : Nat)

/-- The first entry whose range the address is in; `n` is `CONFIG_SYS_NUM_ADDR_MAP`. -/
def lookup (size base : Nat → Nat) (addr : Nat) : Option Nat :=
  (List.range n).find? fun i => inRange (size i) (base i) addr

def addrmapVirtToPhys (map : Map) (vaddr : Nat) : Nat :=
  match lookup n (fun i => (map i).size) (fun i => (map i).vaddr) vaddr with
  | some i => (vaddr - (map i).vaddr + (map i).paddr) % w.values
  | none => w.values - 1

def addrmapPhysToVirt (map : Map) (paddr : Nat) : Nat :=
  match lookup n (fun i => (map i).size) (fun i => (map i).paddr) paddr with
  | some i => (paddr - (map i).paddr + (map i).vaddr) % 4294967296
  | none => 4294967295

/-- The index that `addrmap_set_entry` writes at. -/
def writtenAt (c : SetEntry w) : Option Int := if (n : Int) < c.idx then none else some c.idx

def addrmapSetEntry (map : Map) (c : SetEntry w) : Map :=
  match writtenAt w n c with
  | none => map
  | some idx => fun i => if i = idx then ⟨c.paddr, c.size, c.vaddr⟩ else map i

def afterCalls (calls : List (SetEntry w)) : Map := calls.foldl (addrmapSetEntry w n) fun _ => ⟨0, 0, 0⟩

/-- The entry of `i` takes `vaddr` to `paddr`. -/
def Entry.Takes (e : Entry) (vaddr paddr : Nat) : Prop :=
  ∃ k, k < e.size ∧ vaddr = e.vaddr + k ∧ paddr = e.paddr + k

def Takes (map : Map) (vaddr paddr : Nat) : Prop := ∃ i : Nat, i < n ∧ (map i).Takes vaddr paddr

/-- The entries that are not empty are ranges of both address spaces, and no two of them meet in either. -/
structure Disjoint (map : Map) : Prop where
  virt_fits : ∀ i : Nat, i < n → (map i).size ≠ 0 → (map i).vaddr + (map i).size ≤ 4294967296
  phys_fits : ∀ i : Nat, i < n → (map i).size ≠ 0 → (map i).paddr + (map i).size ≤ w.values
  virt : ∀ i j : Nat, i < n → j < n → i ≠ j → (map i).size ≠ 0 → (map j).size ≠ 0 →
    (map i).vaddr + (map i).size ≤ (map j).vaddr ∨ (map j).vaddr + (map j).size ≤ (map i).vaddr
  phys : ∀ i j : Nat, i < n → j < n → i ≠ j → (map i).size ≠ 0 → (map j).size ≠ 0 →
    (map i).paddr + (map i).size ≤ (map j).paddr ∨ (map j).paddr + (map j).size ≤ (map i).paddr

/-- The lookups are inverse on the addresses that are mapped, and all ones mean that an address is not. -/
structure Translates (map : Map) : Prop where
  back : ∀ vaddr, vaddr < 4294967296 → (∃ paddr, Takes n map vaddr paddr) →
    addrmapPhysToVirt n map (addrmapVirtToPhys w n map vaddr) = vaddr
  forth : ∀ paddr, paddr < w.values → (∃ vaddr, Takes n map vaddr paddr) →
    addrmapVirtToPhys w n map (addrmapPhysToVirt n map paddr) = paddr
  virt_ones : ∀ vaddr, vaddr < 4294967296 →
    (addrmapVirtToPhys w n map vaddr = w.values - 1 ↔ ¬∃ paddr, Takes n map vaddr paddr)
  phys_ones : ∀ paddr, paddr < w.values →
    (addrmapPhysToVirt n map paddr = 4294967295 ↔ ¬∃ vaddr, Takes n map vaddr paddr)

/-- No entry reaches the last address of an address space. -/
def BelowTop (map : Map) : Prop :=
  ∀ i : Nat, i < n → (map i).size ≠ 0 →
    (map i).vaddr + (map i).size < 4294967296 ∧ (map i).paddr + (map i).size < w.values

/-- Each index that is written at is inside the table, and disjoint entries translate consistently. -/
structure Consistent (calls : List (SetEntry w)) : Prop where
  inside : ∀ c ∈ calls, ∀ i, writtenAt w n c = some i → 0 ≤ i ∧ i < n
  translates : Disjoint w n (afterCalls w n calls) → Translates w n (afterCalls w n calls)

section Lookups

variable {w : PhysWidth} {n : Nat} {map : Map} {vaddr paddr : Nat}

theorem values_le (w : PhysWidth) : w.values ≤ 18446744073709551616 := by
  cases w <;> simp [PhysWidth.values]

theorem inRange_iff {size base addr : Nat} (hfits : size ≠ 0 → base + size ≤ 18446744073709551616) :
    inRange size base addr = true ↔ base ≤ addr ∧ addr < base + size := by
  unfold inRange
  by_cases hsize : size = 0
  · simp [hsize]
  · have hle := hfits hsize
    rw [Nat.mod_eq_of_lt (by omega)]
    simp only [Bool.and_eq_true, bne_iff_ne, ne_eq, decide_eq_true_eq]
    omega

section Ranges

variable {size base : Nat → Nat} {addr i : Nat}
variable (hfits : ∀ i, i < n → size i ≠ 0 → base i + size i ≤ 18446744073709551616)

include hfits

theorem lookup_some (hi : i < n) (haddr : base i ≤ addr ∧ addr < base i + size i)
    (hapart : ∀ j, j < n → i ≠ j → size i ≠ 0 → size j ≠ 0 →
      base i + size i ≤ base j ∨ base j + size j ≤ base i) : lookup n size base addr = some i := by
  unfold lookup
  rw [List.find?_range_eq_some]
  refine ⟨(inRange_iff (hfits i hi)).mpr haddr, List.mem_range.mpr hi, fun j hj => ?_⟩
  have hjn : j < n := by omega
  rw [Bool.not_eq_true', Bool.eq_false_iff]
  intro hin
  have haddr' := (inRange_iff (hfits j hjn)).mp hin
  rcases hapart j hjn (by omega) (by omega) (by omega) with hd | hd <;> omega

theorem lookup_none (hout : ∀ i, i < n → ¬(base i ≤ addr ∧ addr < base i + size i)) :
    lookup n size base addr = none := by
  unfold lookup
  rw [List.find?_eq_none]
  intro i hi hin
  have hlt := List.mem_range.mp hi
  exact hout i hlt ((inRange_iff (hfits i hlt)).mp hin)

end Ranges

theorem Disjoint.virt_wide (h : Disjoint w n map) (i : Nat) (hi : i < n) (hsize : (map i).size ≠ 0) :
    (map i).vaddr + (map i).size ≤ 18446744073709551616 := by
  have hfits := h.virt_fits i hi hsize
  omega

theorem Disjoint.phys_wide (h : Disjoint w n map) (i : Nat) (hi : i < n) (hsize : (map i).size ≠ 0) :
    (map i).paddr + (map i).size ≤ 18446744073709551616 :=
  (h.phys_fits i hi hsize).trans (values_le w)

theorem Disjoint.virt_to_phys (h : Disjoint w n map) (ht : Takes n map vaddr paddr) :
    addrmapVirtToPhys w n map vaddr = paddr := by
  obtain ⟨i, hi, k, hk, hv, hp⟩ := ht
  have hfits := h.phys_fits i hi (by omega)
  have hfound : lookup n (fun i => (map i).size) (fun i => (map i).vaddr) vaddr = some i :=
    lookup_some h.virt_wide hi (by omega) fun j hj => h.virt i j hi hj
  unfold addrmapVirtToPhys
  rw [hfound]
  dsimp only
  rw [Nat.mod_eq_of_lt (by omega)]
  omega

theorem Disjoint.phys_to_virt (h : Disjoint w n map) (ht : Takes n map vaddr paddr) :
    addrmapPhysToVirt n map paddr = vaddr := by
  obtain ⟨i, hi, k, hk, hv, hp⟩ := ht
  have hfits := h.virt_fits i hi (by omega)
  have hfound : lookup n (fun i => (map i).size) (fun i => (map i).paddr) paddr = some i :=
    lookup_some h.phys_wide hi (by omega) fun j hj => h.phys i j hi hj
  unfold addrmapPhysToVirt
  rw [hfound]
  dsimp only
  rw [Nat.mod_eq_of_lt (by omega)]
  omega

theorem Disjoint.virt_unmapped (h : Disjoint w n map) (hout : ¬∃ paddr, Takes n map vaddr paddr) :
    addrmapVirtToPhys w n map vaddr = w.values - 1 := by
  have hnone : lookup n (fun i => (map i).size) (fun i => (map i).vaddr) vaddr = none :=
    lookup_none h.virt_wide fun i hi hin => hout ⟨(map i).paddr + (vaddr - (map i).vaddr), i, hi,
      vaddr - (map i).vaddr, by omega, by omega, rfl⟩
  unfold addrmapVirtToPhys
  rw [hnone]

theorem Disjoint.phys_unmapped (h : Disjoint w n map) (hout : ¬∃ vaddr, Takes n map vaddr paddr) :
    addrmapPhysToVirt n map paddr = 4294967295 := by
  have hnone : lookup n (fun i => (map i).size) (fun i => (map i).paddr) paddr = none :=
    lookup_none h.phys_wide fun i hi hin => hout ⟨(map i).vaddr + (paddr - (map i).paddr), i, hi,
      paddr - (map i).paddr, by omega, rfl, by omega⟩
  unfold addrmapPhysToVirt
  rw [hnone]

theorem Disjoint.translates_iff (h : Disjoint w n map) : Translates w n map ↔ BelowTop w n map := by
  constructor
  · intro ht i hi hsize
    have hvirt := h.virt_fits i hi hsize
    have hphys := h.phys_fits i hi hsize
    have hlast : Takes n map ((map i).vaddr + ((map i).size - 1)) ((map i).paddr + ((map i).size - 1)) :=
      ⟨i, hi, _, by omega, rfl, rfl⟩
    have hpaddr : (map i).paddr + ((map i).size - 1) ≠ w.values - 1 := by
      intro heq
      exact (ht.virt_ones _ (by omega)).mp ((h.virt_to_phys hlast).trans heq) ⟨_, hlast⟩
    have hvaddr : (map i).vaddr + ((map i).size - 1) ≠ 4294967295 := by
      intro heq
      exact (ht.phys_ones _ (by omega)).mp ((h.phys_to_virt hlast).trans heq) ⟨_, hlast⟩
    omega
  · intro htop
    have hinside : ∀ {vaddr paddr}, Takes n map vaddr paddr → vaddr < 4294967295 ∧ paddr < w.values - 1 := by
      rintro vaddr paddr ⟨i, hi, k, hk, hv, hp⟩
      obtain ⟨hvirt, hphys⟩ := htop i hi (by omega)
      omega
    constructor
    · rintro vaddr - ⟨paddr, ht⟩
      rw [h.virt_to_phys ht, h.phys_to_virt ht]
    · rintro paddr - ⟨vaddr, ht⟩
      rw [h.phys_to_virt ht, h.virt_to_phys ht]
    · intro vaddr _
      refine ⟨?_, h.virt_unmapped⟩
      rintro hones ⟨paddr, ht⟩
      rw [h.virt_to_phys ht] at hones
      have hlt := (hinside ht).2
      omega
    · intro paddr _
      refine ⟨?_, h.phys_unmapped⟩
      rintro hones ⟨vaddr, ht⟩
      rw [h.phys_to_virt ht] at hones
      have hlt := (hinside ht).1
      omega

theorem writtenAt_inside (c : SetEntry w) :
    (∀ i, writtenAt w n c = some i → 0 ≤ i ∧ i < n) ↔ 0 ≤ c.idx ∧ c.idx ≠ n := by
  unfold writtenAt
  split
  next hbeyond =>
    simp only [reduceCtorEq, false_implies, implies_true, true_iff]
    omega
  next hle =>
    simp only [Option.some.injEq, forall_eq']
    omega

end Lookups

/-- The table is used consistently by exactly the sequences of calls with no negative index and none just
behind the table, provided that no entry of a disjoint table reaches the top of an address space. -/
theorem address_map_consistent_iff (w : PhysWidth) (n : Nat) (calls : List (SetEntry w)) :
    Consistent w n calls ↔ (∀ c ∈ calls, 0 ≤ c.idx ∧ c.idx ≠ n) ∧
      (Disjoint w n (afterCalls w n calls) → BelowTop w n (afterCalls w n calls)) := by
  constructor
  · rintro ⟨hinside, htranslates⟩
    exact ⟨fun c hc => (writtenAt_inside c).mp (hinside c hc), fun h => h.translates_iff.mp (htranslates h)⟩
  · rintro ⟨hindex, htop⟩
    exact ⟨fun c hc => (writtenAt_inside c).mpr (hindex c hc), fun h => h.translates_iff.mpr (htop h)⟩

/-- The index just behind a table of 16 entries passes the test. -/
theorem index_behind_the_table : ¬∀ (w : PhysWidth) (n : Nat) (calls : List (SetEntry w)), Consistent w n calls := by
  intro h
  have hconsistent := h .bits32 16 [⟨0, 0, 4096, 16, by decide, by decide, by decide⟩]
  have hindex := ((address_map_consistent_iff ..).mp hconsistent).1
  simp at hindex

end UBoot.AddrMap
