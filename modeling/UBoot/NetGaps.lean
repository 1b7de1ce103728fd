import UBoot.Extents
import UBoot.NetSteps

namespace UBoot

open Extents List

abbrev Piece := Nat × Nat

/-- The bytes from `a` to `n` cut into pieces that are not empty, each but the last up to a multiple
of eight. -/
def CutFrom (a n : Nat) : List Piece → Prop
  | [] => a = n
  | p :: ps => p.1 = a ∧ a < p.2 ∧ (ps ≠ [] → 8 ∣ p.2) ∧ CutFrom p.2 n ps

variable {a n j : Nat} {cut past : List Piece} {p q : Piece}

theorem CutFrom.le (h : CutFrom a n cut) : a ≤ n := by
  induction cut generalizing a with
  | nil => exact le_of_eq h
  | cons p ps ih =>
    obtain ⟨-, hlt, -, hrest⟩ := h
    have := ih hrest
    omega

theorem CutFrom.bounds (h : CutFrom a n cut) (ha : 8 ∣ a) (hp : p ∈ cut) :
    a ≤ p.1 ∧ p.1 < p.2 ∧ p.2 ≤ n ∧ 8 ∣ p.1 ∧ (p.2 ≠ n → 8 ∣ p.2) := by
  induction cut generalizing a with
  | nil => cases hp
  | cons q ps ih =>
    obtain ⟨rfl, hlt, h8, hrest⟩ := h
    rcases mem_cons.mp hp with rfl | hp
    · refine ⟨le_refl _, hlt, hrest.le, ha, fun hn => h8 fun hnil => hn ?_⟩
      subst hnil
      exact hrest
    · obtain ⟨hlo, hbounds⟩ := ih hrest (h8 (ne_nil_of_mem hp)) hp
      exact ⟨by omega, hbounds⟩

theorem CutFrom.disjoint (h : CutFrom a n cut) (ha : 8 ∣ a) (hp : p ∈ cut) (hq : q ∈ cut) :
    p = q ∨ p.2 ≤ q.1 ∨ q.2 ≤ p.1 := by
  induction cut generalizing a with
  | nil => cases hp
  | cons r ps ih =>
    obtain ⟨rfl, hlt, h8, hrest⟩ := h
    rcases mem_cons.mp hp with rfl | hp' <;> rcases mem_cons.mp hq with rfl | hq'
    · exact .inl rfl
    · exact .inr (.inl (hrest.bounds (h8 (ne_nil_of_mem hq')) hq').1)
    · exact .inr (.inr (hrest.bounds (h8 (ne_nil_of_mem hp')) hp').1)
    · exact ih hrest (h8 (ne_nil_of_mem hp')) hp' hq'

theorem CutFrom.covers (h : CutFrom a n cut) (hlo : a ≤ j) (hhi : j < n) : ∃ p ∈ cut, p.1 ≤ j ∧ j < p.2 := by
  induction cut generalizing a with
  | nil =>
    have : a = n := h
    omega
  | cons p ps ih =>
    obtain ⟨rfl, -, -, hrest⟩ := h
    by_cases hj : j < p.2
    · exact ⟨p, mem_cons_self, hlo, hj⟩
    · obtain ⟨q, hq, hj'⟩ := ih hrest (by omega)
      exact ⟨q, mem_cons_of_mem p hq, hj'⟩

/-- Byte `j` is in a piece that has come. -/
def Came (past : List Piece) (j : Nat) : Prop := ∃ p ∈ past, p.1 ≤ j ∧ j < p.2

instance (past : List Piece) (j : Nat) : Decidable (Came past j) :=
  inferInstanceAs (Decidable (∃ p ∈ past, p.1 ≤ j ∧ j < p.2))

theorem came_append : Came (past ++ [p]) j ↔ Came past j ∨ (p.1 ≤ j ∧ j < p.2) := by
  simp only [Came, mem_append, mem_singleton]
  constructor
  · rintro ⟨q, hq | rfl, hj⟩
    · exact .inl ⟨q, hq, hj⟩
    · exact .inr hj
  · rintro (⟨q, hq, hj⟩ | hj)
    · exact ⟨q, .inl hq, hj⟩
    · exact ⟨p, .inr rfl, hj⟩

/-- How far the packet is known to go: the first hole is open up to the last piece. -/
def knownEnd (n : Nat) (past : List Piece) : Nat := if Came past (n - 1) then n else 0xffff

/-- The pieces that have come are some of a cut. -/
structure Arrived (n : Nat) (cut past : List Piece) : Prop where
  isCut : CutFrom 0 n cut
  pos : 0 < n
  le : n ≤ ipMaxudp
  mem : ∀ p ∈ past, p ∈ cut

theorem Arrived.append (h : Arrived n cut past) (hp : p ∈ cut) : Arrived n cut (past ++ [p]) where
  isCut := h.isCut
  pos := h.pos
  le := h.le
  mem q hq := by
    rcases mem_append.mp hq with hq | hq
    · exact h.mem q hq
    · rw [mem_singleton.mp hq]
      exact hp

theorem Arrived.bounds (h : Arrived n cut past) (hp : p ∈ cut) :
    p.1 < p.2 ∧ p.2 ≤ n ∧ 8 ∣ p.1 ∧ (p.2 ≠ n → 8 ∣ p.2) :=
  (h.isCut.bounds ⟨0, rfl⟩ hp).2

theorem Arrived.came_lt (h : Arrived n cut past) (hr : Came past j) : j < n := by
  obtain ⟨p, hp, hj⟩ := hr
  have := h.bounds (h.mem p hp)
  omega

theorem Arrived.missing (h : Arrived n cut past) (hp : p ∈ cut) (hnew : p ∉ past) (hlo : p.1 ≤ j)
    (hhi : j < p.2) : ¬Came past j := by
  rintro ⟨q, hq, hj⟩
  rcases h.isCut.disjoint ⟨0, rfl⟩ hp (h.mem q hq) with rfl | hd | hd
  · exact hnew hq
  · omega
  · omega

theorem Arrived.boundary (h : Arrived n cut past) (hj : Came past j)
    (hprev : 0 < j → ¬Came past (j - 1)) : 8 ∣ j := by
  obtain ⟨p, hp, hlo, hhi⟩ := hj
  have hb := h.bounds (h.mem p hp)
  by_cases he : p.1 = j
  · rw [← he]
    exact hb.2.2.1
  · exact absurd ⟨p, hp, by omega, by omega⟩ (hprev (by omega))

theorem Arrived.all_iff (h : Arrived n cut past) : (∀ p ∈ cut, p ∈ past) ↔ ∀ j < n, Came past j := by
  constructor
  · intro hall j hj
    obtain ⟨p, hp, hj⟩ := h.isCut.covers (Nat.zero_le j) hj
    exact ⟨p, hall p hp, hj⟩
  · intro hall p hp
    by_contra hnew
    have hb := h.bounds hp
    exact h.missing hp hnew le_rfl hb.1 (hall p.1 (by omega))

/-- The bytes of a hole. -/
def Hole.extent (h : Hole) : Extent := ⟨8 * h.1, h.2⟩

/-- The holes are what is missing, with something received between any two. -/
structure Gaps (n : Nat) (past : List Piece) (hs : List Hole) : Prop where
  cover : ∀ j, Covers (hs.map Hole.extent) j ↔ j < knownEnd n past ∧ ¬Came past j
  apart : hs.Pairwise fun a b => a.2 < 8 * b.1

variable {k l : Nat} {hs pre post : List Hole}

theorem covers_holes : Covers ((pre ++ (k, l) :: post).map Hole.extent) j ↔
    (8 * k ≤ j ∧ j < l) ∨ Covers ((pre ++ post).map Hole.extent) j := by
  rw [map_append, map_cons, covers_split, ← map_append]
  rfl

theorem covers_hole_mem {b : Hole} (hb : b ∈ hs) (hlo : 8 * b.1 ≤ j) (hhi : j < b.2) :
    Covers (hs.map Hole.extent) j :=
  ⟨b.extent, mem_map_of_mem hb, hlo, hhi⟩

theorem covers_holes_iff : Covers (hs.map Hole.extent) j ↔ ∃ b ∈ hs, 8 * b.1 ≤ j ∧ j < b.2 := by
  constructor
  · rintro ⟨e, he, hj⟩
    obtain ⟨b, hb, rfl⟩ := mem_map.mp he
    exact ⟨b, hb, hj⟩
  · rintro ⟨b, hb, hj⟩
    exact covers_hole_mem hb hj.1 hj.2

theorem Gaps.sides (h : Gaps n past (pre ++ (k, l) :: post)) :
    (∀ b ∈ pre, b.2 < 8 * k) ∧ ∀ b ∈ post, l < 8 * b.1 := by
  obtain ⟨-, hpost, hcross⟩ := pairwise_append.mp h.apart
  exact ⟨fun b hb => hcross b hb (k, l) mem_cons_self, (pairwise_cons.mp hpost).1⟩

theorem Gaps.after (h : Gaps n past (pre ++ (k, l) :: post)) (hkl : 8 * k < l) :
    l ≤ knownEnd n past ∧ (l < knownEnd n past → Came past l) ∧
      ¬Came past (l - 1) ∧ ∀ b ∈ post, l < 8 * b.1 := by
  have hlast := (h.cover (l - 1)).mp (covers_holes.mpr (.inl (by omega)))
  obtain ⟨hpre, hpost⟩ := h.sides
  refine ⟨by omega, fun hlt => ?_, hlast.2, hpost⟩
  by_contra hno
  rcases covers_holes.mp ((h.cover l).mpr ⟨hlt, hno⟩) with hin | hin
  · omega
  · obtain ⟨b, hb, hlo, hhi⟩ := covers_holes_iff.mp hin
    rcases mem_append.mp hb with hb | hb
    · have := hpre b hb
      omega
    · have := hpost b hb
      omega

end UBoot
