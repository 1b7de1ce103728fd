import Mathlib.Data.List.Basic

namespace Extents

open List

/-- The places from `lo` on, up to `hi`. -/
structure Extent where
  lo : Nat
  hi : Nat

def Extent.Contains (e : Extent) (a : Nat) : Prop := e.lo ≤ a ∧ a < e.hi

def Covers (es : List Extent) (a : Nat) : Prop := ∃ e ∈ es, e.Contains a

instance (e : Extent) (a : Nat) : Decidable (e.Contains a) := inferInstanceAs (Decidable (_ ∧ _))

instance (es : List Extent) (a : Nat) : Decidable (Covers es a) :=
  inferInstanceAs (Decidable (∃ e ∈ es, e.Contains a))

/-- Ranges that are not empty, each behind those before it. -/
structure Ordered (es : List Extent) : Prop where
  sorted : es.Pairwise fun e f => e.hi ≤ f.lo
  proper : ∀ e ∈ es, e.lo < e.hi

variable {es pre post : List Extent} {e f : Extent} {a : Nat}

@[simp] theorem covers_nil : ¬Covers [] a := by
  rintro ⟨e, he, _⟩
  cases he

theorem covers_append : Covers (pre ++ post) a ↔ Covers pre a ∨ Covers post a := by
  unfold Covers
  constructor
  · rintro ⟨e, he, ha⟩
    exact (mem_append.mp he).imp (fun h => ⟨e, h, ha⟩) fun h => ⟨e, h, ha⟩
  · rintro (⟨e, he, ha⟩ | ⟨e, he, ha⟩)
    · exact ⟨e, mem_append_left _ he, ha⟩
    · exact ⟨e, mem_append_right _ he, ha⟩

theorem covers_cons : Covers (e :: es) a ↔ e.Contains a ∨ Covers es a := by
  unfold Covers
  constructor
  · rintro ⟨f, hf, ha⟩
    rcases mem_cons.mp hf with rfl | hf
    · exact .inl ha
    · exact .inr ⟨f, hf, ha⟩
  · rintro (ha | ⟨f, hf, ha⟩)
    · exact ⟨e, mem_cons_self, ha⟩
    · exact ⟨f, mem_cons_of_mem _ hf, ha⟩

theorem covers_split : Covers (pre ++ e :: post) a ↔ e.Contains a ∨ Covers (pre ++ post) a := by
  rw [covers_append, covers_cons, covers_append]
  exact or_left_comm

theorem Ordered.nil : Ordered [] := ⟨List.Pairwise.nil, fun _ h => absurd h not_mem_nil⟩

theorem ordered_split : Ordered (pre ++ e :: post) ↔
    Ordered (pre ++ post) ∧ e.lo < e.hi ∧ (∀ f ∈ pre, f.hi ≤ e.lo) ∧ ∀ f ∈ post, e.hi ≤ f.lo := by
  constructor
  · rintro ⟨hs, hp⟩
    obtain ⟨hpre, hpost, hcross⟩ := pairwise_append.mp hs
    obtain ⟨he, hpost⟩ := pairwise_cons.mp hpost
    refine ⟨⟨pairwise_append.mpr ⟨hpre, hpost, fun f hf g hg =>
      hcross f hf g (mem_cons_of_mem e hg)⟩, fun f hf => ?_⟩, hp e (by simp), fun f hf =>
        hcross f hf e mem_cons_self, he⟩
    apply hp
    rw [mem_append, mem_cons]
    exact (mem_append.mp hf).imp_right .inr
  · rintro ⟨⟨hs, hp⟩, he, hbefore, hafter⟩
    obtain ⟨hpre, hpost, hcross⟩ := pairwise_append.mp hs
    refine ⟨pairwise_append.mpr ⟨hpre, pairwise_cons.mpr ⟨hafter, hpost⟩, fun f hf g hg => ?_⟩,
      fun f hf => ?_⟩
    · rcases mem_cons.mp hg with rfl | hg
      · exact hbefore f hf
      · exact hcross f hf g hg
    · rw [mem_append, mem_cons] at hf
      rcases hf with hf | rfl | hf
      · exact hp f (mem_append_left _ hf)
      · exact he
      · exact hp f (mem_append_right _ hf)

theorem Ordered.apart (h : Ordered (pre ++ e :: post)) (ha : e.Contains a) : ¬Covers (pre ++ post) a := by
  obtain ⟨_, _, hbefore, hafter⟩ := ordered_split.mp h
  rintro ⟨f, hf, hfa⟩
  unfold Extent.Contains at ha hfa
  rcases mem_append.mp hf with hf | hf
  · have := hbefore f hf
    omega
  · have := hafter f hf
    omega

theorem Ordered.shrink (h : Ordered (pre ++ e :: post)) (hlo : e.lo ≤ f.lo) (hhi : f.hi ≤ e.hi)
    (hf : f.lo < f.hi) : Ordered (pre ++ f :: post) := by
  obtain ⟨hrest, _, hbefore, hafter⟩ := ordered_split.mp h
  exact ordered_split.mpr ⟨hrest, hf, fun g hg => Nat.le_trans (hbefore g hg) hlo,
    fun g hg => Nat.le_trans hhi (hafter g hg)⟩

theorem Ordered.grow (h : Ordered (pre ++ e :: post)) (hlo : f.lo ≤ e.lo) (hhi : e.hi ≤ f.hi)
    (hfree : ∀ a, f.Contains a → ¬e.Contains a → ¬Covers (pre ++ post) a) : Ordered (pre ++ f :: post) := by
  obtain ⟨hrest, he, hbefore, hafter⟩ := ordered_split.mp h
  refine ordered_split.mpr ⟨hrest, by omega, fun g hg => ?_, fun g hg => ?_⟩
  · have hg' := hbefore g hg
    have hproper := hrest.proper g (mem_append_left _ hg)
    by_contra hlt
    have hplace : f.Contains (g.hi - 1) ∧ ¬e.Contains (g.hi - 1) ∧ g.Contains (g.hi - 1) := by
      unfold Extent.Contains
      omega
    exact hfree _ hplace.1 hplace.2.1 ⟨g, mem_append_left _ hg, hplace.2.2⟩
  · have hg' := hafter g hg
    have hproper := hrest.proper g (mem_append_right _ hg)
    by_contra hlt
    have hplace : f.Contains g.lo ∧ ¬e.Contains g.lo ∧ g.Contains g.lo := by
      unfold Extent.Contains
      omega
    exact hfree _ hplace.1 hplace.2.1 ⟨g, mem_append_right _ hg, hplace.2.2⟩

theorem Ordered.join (h : Ordered (pre ++ e :: f :: post)) (htouch : f.lo = e.hi) :
    Ordered (pre ++ ⟨e.lo, f.hi⟩ :: post) := by
  obtain ⟨hrest, he, hbefore, hafter⟩ := ordered_split.mp h
  obtain ⟨hrest, hf, _, hbehind⟩ := ordered_split.mp hrest
  have hlt : e.lo < f.hi := by omega
  exact ordered_split.mpr ⟨hrest, hlt, hbefore, hbehind⟩

theorem covers_join (htouch : f.lo = e.hi) (he : e.lo ≤ e.hi) (hf : f.lo ≤ f.hi) :
    Covers (pre ++ ⟨e.lo, f.hi⟩ :: post) a ↔ Covers (pre ++ e :: f :: post) a := by
  have hjoin : (⟨e.lo, f.hi⟩ : Extent).Contains a ↔ e.Contains a ∨ f.Contains a := by
    simp only [Extent.Contains]
    omega
  rw [covers_split, covers_split, covers_split, hjoin, or_assoc]

theorem Ordered.insert (h : Ordered (pre ++ post)) (he : e.lo < e.hi) (hpre : ∀ f ∈ pre, f.lo ≤ e.lo)
    (hpost : ∀ f ∈ post, e.lo ≤ f.lo) (hfree : ∀ a, e.Contains a → ¬Covers (pre ++ post) a) :
    Ordered (pre ++ e :: post) := by
  refine ordered_split.mpr ⟨h, he, fun f hf => ?_, fun f hf => ?_⟩
  · have hlo := hpre f hf
    by_contra hlt
    have hplace : e.Contains e.lo ∧ f.Contains e.lo := by
      unfold Extent.Contains
      omega
    exact hfree _ hplace.1 ⟨f, mem_append_left _ hf, hplace.2⟩
  · have hlo := hpost f hf
    have hproper := h.proper f (mem_append_right _ hf)
    by_contra hlt
    have hplace : e.Contains f.lo ∧ f.Contains f.lo := by
      unfold Extent.Contains
      omega
    exact hfree _ hplace.1 ⟨f, mem_append_right _ hf, hplace.2⟩

/-- The ranges go from `lo` to `hi`, each from where the one before it ends. -/
def Tiles : Nat → Nat → List Extent → Prop
  | lo, hi, [] => lo = hi
  | lo, hi, e :: es => e.lo = lo ∧ lo < e.hi ∧ Tiles e.hi hi es

variable {k lo mid hi : Nat}

theorem Tiles.le (h : Tiles lo hi es) : lo ≤ hi := by
  induction es generalizing lo with
  | nil => exact Nat.le_of_eq h
  | cons e es ih =>
    have hrest := ih h.2.2
    have hpos := h.2.1
    omega

theorem tiles_append : Tiles lo hi (pre ++ post) ↔ ∃ mid, Tiles lo mid pre ∧ Tiles mid hi post := by
  induction pre generalizing lo with
  | nil => exact ⟨fun h => ⟨lo, rfl, h⟩, fun ⟨mid, hmid, h⟩ => by cases hmid; exact h⟩
  | cons e pre ih =>
    constructor
    · rintro ⟨hlo, hpos, h⟩
      obtain ⟨mid, hpre, hpost⟩ := ih.mp h
      exact ⟨mid, ⟨hlo, hpos, hpre⟩, hpost⟩
    · rintro ⟨mid, ⟨hlo, hpos, hpre⟩, hpost⟩
      exact ⟨hlo, hpos, ih.mpr ⟨mid, hpre, hpost⟩⟩

theorem Tiles.append (h : Tiles lo mid pre) (hpost : Tiles mid hi post) : Tiles lo hi (pre ++ post) :=
  tiles_append.mpr ⟨mid, h, hpost⟩

theorem Tiles.split (h : Tiles lo hi (pre ++ e :: post)) :
    Tiles lo e.lo pre ∧ e.lo < e.hi ∧ Tiles e.hi hi post := by
  obtain ⟨mid, hpre, hlo, hpos, hpost⟩ := tiles_append.mp h
  subst hlo
  exact ⟨hpre, hpos, hpost⟩

theorem Tiles.covers_iff (h : Tiles lo hi es) : Covers es a ↔ lo ≤ a ∧ a < hi := by
  induction es generalizing lo with
  | nil =>
    have hends : lo = hi := h
    refine ⟨fun hc => absurd hc covers_nil, fun hb => ?_⟩
    omega
  | cons e es ih =>
    obtain ⟨rfl, hpos, hrest⟩ := h
    have hle := hrest.le
    rw [covers_cons, ih hrest]
    unfold Extent.Contains
    omega

theorem Tiles.bounds (h : Tiles lo hi es) (he : e ∈ es) : lo ≤ e.lo ∧ e.lo < e.hi ∧ e.hi ≤ hi := by
  obtain ⟨pre, post, rfl⟩ := append_of_mem he
  obtain ⟨hpre, hpos, hpost⟩ := h.split
  exact ⟨hpre.le, hpos, hpost.le⟩

theorem Tiles.ordered (h : Tiles lo hi es) : Ordered es := by
  refine ⟨?_, fun e he => (h.bounds he).2.1⟩
  induction es generalizing lo with
  | nil => exact List.Pairwise.nil
  | cons e es ih => exact pairwise_cons.mpr ⟨fun f hf => (h.2.2.bounds hf).1, ih h.2.2⟩

theorem Tiles.drop (h : Tiles lo hi es) (he : es[k]? = some e) : Tiles e.lo hi (es.drop k) := by
  obtain ⟨hk, rfl⟩ := List.getElem?_eq_some_iff.mp he
  rw [← take_append_drop k es, drop_eq_getElem_cons hk] at h
  obtain ⟨_, hpos, hpost⟩ := h.split
  rw [drop_eq_getElem_cons hk]
  exact ⟨rfl, hpos, hpost⟩

theorem Tiles.take (h : Tiles lo hi es) (he : es[k]? = some e) : Tiles lo e.hi (es.take (k + 1)) := by
  obtain ⟨hk, rfl⟩ := List.getElem?_eq_some_iff.mp he
  rw [← take_append_drop k es, drop_eq_getElem_cons hk] at h
  obtain ⟨hpre, hpos, _⟩ := h.split
  rw [take_succ_eq_append_getElem hk]
  exact hpre.append ⟨rfl, hpos, rfl⟩

end Extents
