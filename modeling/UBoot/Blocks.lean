import Mathlib.Data.List.Basic
import Mathlib.Data.List.Nodup

namespace Blocks

open List

structure Heap where
  next : Nat
  live : List Nat

/-- The live blocks are all different, and none is given out again while it is live. -/
structure Heap.Tidy (h : Heap) : Prop where
  nodup : h.live.Nodup
  below : ∀ b ∈ h.live, b < h.next

def Heap.malloc (h : Heap) (ok : Bool) : Option Nat × Heap :=
  if ok then (some h.next, ⟨h.next + 1, h.next :: h.live⟩) else (none, h)

def Heap.free (h : Heap) (b : Nat) : Option Heap :=
  if b ∈ h.live then some { h with live := h.live.erase b } else none

/-- Without a block that is grown it is `malloc`. Where it fails the block stays. -/
def Heap.realloc (h : Heap) (ok : Bool) : Option Nat → Option (Option Nat × Heap)
  | none => some (h.malloc ok)
  | some b =>
    if b ∈ h.live then
      some (if ok then (some h.next, ⟨h.next + 1, h.next :: h.live.erase b⟩) else (none, h))
    else none

variable {h : Heap} {b c : Nat}

theorem Heap.Tidy.fresh (ht : h.Tidy) : h.next ∉ h.live := fun hm => Nat.lt_irrefl _ (ht.below _ hm)

theorem Heap.Tidy.erase (ht : h.Tidy) (b : Nat) : ({ h with live := h.live.erase b } : Heap).Tidy :=
  ⟨ht.nodup.erase b, fun c hc => ht.below c (mem_of_mem_erase hc)⟩

theorem Heap.Tidy.grow (ht : h.Tidy) : (⟨h.next + 1, h.next :: h.live⟩ : Heap).Tidy := by
  refine ⟨nodup_cons.mpr ⟨ht.fresh, ht.nodup⟩, fun c hc => ?_⟩
  rcases mem_cons.mp hc with rfl | hc
  · exact Nat.lt_succ_self _
  · exact Nat.lt_succ_of_lt (ht.below c hc)

theorem Heap.Tidy.malloc (ht : h.Tidy) :
    ∃ b h', h.malloc true = (some b, h') ∧ h'.Tidy ∧ b ∉ h.live ∧ ∀ c, c ∈ h'.live ↔ c = b ∨ c ∈ h.live :=
  ⟨h.next, _, rfl, ht.grow, ht.fresh, fun _ => mem_cons⟩

theorem Heap.malloc_fails (h : Heap) : h.malloc false = (none, h) := rfl

theorem Heap.Tidy.free (ht : h.Tidy) (hb : b ∈ h.live) :
    ∃ h', h.free b = some h' ∧ h'.Tidy ∧ ∀ c, c ∈ h'.live ↔ c ≠ b ∧ c ∈ h.live :=
  ⟨_, if_pos hb, ht.erase b, fun _ => ht.nodup.mem_erase_iff⟩

theorem Heap.Tidy.release {P : Nat → Prop} (ht : h.Tidy) (hfresh : ¬P b) (hlive : ∀ c, c ∈ h.live ↔ c = b ∨ P c) :
    ∃ h', h.free b = some h' ∧ h'.Tidy ∧ ∀ c, c ∈ h'.live ↔ P c := by
  obtain ⟨h', hfree, ht', hleft⟩ := ht.free ((hlive b).mpr (.inl rfl))
  refine ⟨h', hfree, ht', fun c => ?_⟩
  rw [hleft, hlive]
  constructor
  · rintro ⟨hc, hc'⟩
    exact hc'.resolve_left hc
  · intro hc
    refine ⟨?_, .inr hc⟩
    rintro rfl
    exact hfresh hc

theorem Heap.Tidy.realloc {p : Option Nat} (ht : h.Tidy) (hp : ∀ b, p = some b → b ∈ h.live) :
    ∃ b h', h.realloc true p = some (some b, h') ∧ h'.Tidy ∧ b ∉ h.live ∧
      ∀ c, c ∈ h'.live ↔ c = b ∨ c ∈ h.live ∧ p ≠ some c := by
  cases p with
  | none =>
    obtain ⟨b, h', hm, ht', hfresh, hlive⟩ := ht.malloc
    refine ⟨b, h', congrArg some hm, ht', hfresh, fun c => ?_⟩
    simp [hlive]
  | some b =>
    have hb := hp b rfl
    refine ⟨h.next, ⟨h.next + 1, h.next :: h.live.erase b⟩, if_pos hb, (ht.erase b).grow, ht.fresh, fun c => ?_⟩
    have hne : c ≠ b ↔ some b ≠ some c := by simp [eq_comm]
    rw [mem_cons, ht.nodup.mem_erase_iff, hne, and_comm]

theorem Heap.realloc_fails {p : Option Nat} (hp : ∀ b, p = some b → b ∈ h.live) :
    h.realloc false p = some (none, h) := by
  cases p with
  | none => rfl
  | some b => exact if_pos (hp b rfl)

/-- Live blocks, all different, and other blocks that are live too and none of them. -/
structure Heap.Owns (h : Heap) (own : List Nat) (rest : Nat → Prop) : Prop where
  tidy : h.Tidy
  nodup : own.Nodup
  live : ∀ b ∈ own, b ∈ h.live
  apart : ∀ b, rest b → b ∈ h.live ∧ b ∉ own

section
variable {own own' : List Nat} {rest : Nat → Prop}

theorem Heap.Owns.perm (ho : h.Owns own rest) (hp : own.Perm own') : h.Owns own' rest :=
  ⟨ho.tidy, hp.nodup_iff.mp ho.nodup, fun b hb => ho.live b (hp.mem_iff.mpr hb),
    fun b hb => ⟨(ho.apart b hb).1, fun hm => (ho.apart b hb).2 (hp.mem_iff.mpr hm)⟩⟩

theorem Heap.Owns.malloc (ho : h.Owns own rest) :
    ∃ b h', h.malloc true = (some b, h') ∧ h'.Owns (b :: own) rest ∧ b ∉ h.live := by
  obtain ⟨b, h', hmalloc, htidy, hfresh, hlive⟩ := ho.tidy.malloc
  refine ⟨b, h', hmalloc, ⟨htidy, ?_, ?_, ?_⟩, hfresh⟩
  · exact nodup_cons.mpr ⟨fun hm => hfresh (ho.live b hm), ho.nodup⟩
  · intro c hc
    rcases mem_cons.mp hc with heq | hm
    · exact (hlive c).mpr (.inl heq)
    · exact (hlive c).mpr (.inr (ho.live c hm))
  · intro c hc
    obtain ⟨hold, hout⟩ := ho.apart c hc
    refine ⟨(hlive c).mpr (.inr hold), fun hm => ?_⟩
    rcases mem_cons.mp hm with rfl | hm
    · exact hfresh hold
    · exact hout hm

theorem Heap.Owns.malloc_toList (ho : h.Owns own rest) (ok : Bool) :
    ∃ p h', h.malloc ok = (p, h') ∧ h'.Owns (p.toList ++ own) rest ∧ (p = none ↔ ok = false) := by
  cases ok with
  | false => exact ⟨none, h, rfl, ho, iff_of_true rfl rfl⟩
  | true =>
    obtain ⟨b, h', hmalloc, ho', -⟩ := ho.malloc
    exact ⟨some b, h', hmalloc, ho', iff_of_false (fun heq => (nomatch heq)) (fun heq => (nomatch heq))⟩

theorem Heap.Owns.free (ho : h.Owns (b :: own) rest) : ∃ h', h.free b = some h' ∧ h'.Owns own rest ∧ b ∉ h'.live := by
  obtain ⟨hb, hnodup⟩ := nodup_cons.mp ho.nodup
  obtain ⟨h', hfree, htidy, hlive⟩ := ho.tidy.free (ho.live b mem_cons_self)
  refine ⟨h', hfree, ⟨htidy, hnodup, ?_, ?_⟩, fun hm => ((hlive b).mp hm).1 rfl⟩
  · intro c hc
    refine (hlive c).mpr ⟨?_, ho.live c (mem_cons_of_mem b hc)⟩
    rintro rfl
    exact hb hc
  · intro c hc
    obtain ⟨hold, hout⟩ := ho.apart c hc
    refine ⟨(hlive c).mpr ⟨?_, hold⟩, fun hm => hout (mem_cons_of_mem b hm)⟩
    rintro rfl
    exact hout mem_cons_self

end

end Blocks
