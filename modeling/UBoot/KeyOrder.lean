import Mathlib.Data.List.MinMax
import Mathlib.Data.List.Sort

namespace KeyOrder

open List

variable {α β : Type} [LinearOrder β] {key : α → β}

def Ordered (key : α → β) (l : List α) : Prop := l.Pairwise fun x y => key x ≤ key y

def place (key : α → β) (a : α) (l : List α) : List α := l.orderedInsert (fun x y => key x ≤ key y) a

def atKey (key : α → β) (k : β) (l : List α) : List α := l.filter fun x => key x = k

theorem mem_place {a x : α} {l : List α} : x ∈ place key a l ↔ x = a ∨ x ∈ l := mem_orderedInsert _

theorem length_place (a : α) (l : List α) : (place key a l).length = l.length + 1 :=
  orderedInsert_length _ l a

theorem perm_place (a : α) (l : List α) : (place key a l).Perm (a :: l) := perm_orderedInsert _ a l

theorem place_nil (a : α) : place key a [] = [a] := rfl

theorem place_cons_of_le {a x : α} (l : List α) (h : key a ≤ key x) : place key a (x :: l) = a :: x :: l :=
  orderedInsert_cons_of_le _ l h

theorem place_cons_of_lt {a x : α} (l : List α) (h : key x < key a) :
    place key a (x :: l) = x :: place key a l :=
  orderedInsert_of_not_le _ l (not_le.mpr h)

theorem Ordered.place {a : α} {l : List α} (h : Ordered key l) : Ordered key (place key a l) := by
  have : Std.Total fun x y : α => key x ≤ key y := ⟨fun x y => le_total (key x) (key y)⟩
  have : IsTrans α fun x y : α => key x ≤ key y := ⟨fun _ _ _ hxy hyz => hxy.trans hyz⟩
  exact List.Pairwise.orderedInsert a l h

theorem atKey_place {a : α} {l : List α} (h : Ordered key l) (k : β) :
    atKey key k (place key a l) = if key a = k then a :: atKey key k l else atKey key k l := by
  induction l with
  | nil => by_cases hk : key a = k <;> simp [atKey, place_nil, hk]
  | cons x l ih =>
    obtain ⟨_, hl⟩ := pairwise_cons.mp h
    rcases le_or_gt (key a) (key x) with hle | hlt
    · rw [place_cons_of_le l hle]
      by_cases hk : key a = k <;> simp [atKey, hk]
    · rw [place_cons_of_lt l hlt]
      have hrest := ih hl
      unfold atKey at hrest ⊢
      by_cases hx : key x = k
      · have hak : key a ≠ k := fun hak => by
          rw [hx, hak] at hlt
          exact lt_irrefl k hlt
        rw [if_neg hak] at hrest
        simp [hx, hak, hrest]
      · by_cases hak : key a = k <;> simp [hx, hak, hrest]

theorem mem_atKey {x : α} {l : List α} : x ∈ atKey key (key x) l ↔ x ∈ l := by simp [atKey]

theorem mem_iff_of_atKey {l m : List α} (h : ∀ k, atKey key k l = atKey key k m) (x : α) : x ∈ l ↔ x ∈ m := by
  rw [← @mem_atKey α β _ key, h, mem_atKey]

theorem eq_of_atKey {l m : List α} (hl : Ordered key l) (hm : Ordered key m)
    (h : ∀ k, atKey key k l = atKey key k m) : l = m := by
  have hmem := mem_iff_of_atKey h
  induction l generalizing m with
  | nil =>
    cases m with
    | nil => rfl
    | cons y m => cases (hmem y).mpr mem_cons_self
  | cons x l ih =>
    cases m with
    | nil => cases (hmem x).mp mem_cons_self
    | cons y m =>
      obtain ⟨hx, hl'⟩ := pairwise_cons.mp hl
      obtain ⟨hy, hm'⟩ := pairwise_cons.mp hm
      have hyx : key y ≤ key x := by
        rcases mem_cons.mp ((hmem x).mp mem_cons_self) with rfl | hmx
        · exact le_rfl
        · exact hy x hmx
      have hxy : key x ≤ key y := by
        rcases mem_cons.mp ((hmem y).mpr mem_cons_self) with rfl | hly
        · exact le_rfl
        · exact hx y hly
      have hkey : key x = key y := le_antisymm hxy hyx
      have hhead := h (key y)
      simp only [atKey, filter_cons, hkey, decide_true, if_true] at hhead
      obtain ⟨rfl, htail⟩ := List.cons.inj hhead
      have hrest : ∀ k, atKey key k l = atKey key k m := by
        intro k
        by_cases hk : key x = k
        · rw [← hk]
          exact htail
        · simpa [atKey, hk] using h k
      exact congrArg (List.cons x) (ih hl' hm' hrest (mem_iff_of_atKey hrest))

variable {β : Type} {key : α → β} {p : α → Bool} {l m : List α} {a x : α}

/-- No two entries that meet `p` have the same key. -/
def Apart (key : α → β) (p : α → Bool) (l : List α) : Prop :=
  l.Pairwise fun x y => p x = true → p y = true → key x ≠ key y

theorem Apart.perm (h : Apart key p l) (hp : l.Perm m) : Apart key p m :=
  (hp.pairwise_iff fun hxy hy hx e => hxy hx hy e.symm).mp h

theorem Apart.mono {q : α → Bool} (h : Apart key p l) (hq : ∀ x ∈ l, q x = true → p x = true) :
    Apart key q l :=
  h.imp_of_mem fun hx hy hxy hqx hqy => hxy (hq _ hx hqx) (hq _ hy hqy)

theorem Apart.eq (h : Apart key p l) (ha : a ∈ l) (hx : x ∈ l) (hpa : p a = true)
    (hpx : p x = true) (hk : key a = key x) : a = x := by
  by_contra hne
  have hall := List.Pairwise.forall_of_forall_of_flip
    (R := fun x y => p x = true → p y = true → x ≠ y → key x ≠ key y) (l := l) (by simp)
    (h.imp fun hxy hx hy _ => hxy hx hy) (h.imp fun hxy hy hx _ e => hxy hx hy e.symm)
  exact hall ha hx hpa hpx hne hk

variable [LinearOrder β]

def newest (key : α → β) (p : α → Bool) (l : List α) : Option α := (l.filter p).argmax key

theorem newest_mem (h : newest key p l = some x) : x ∈ l ∧ p x = true :=
  mem_filter.mp (argmax_mem (Option.mem_def.mpr h))

theorem le_newest (h : newest key p l = some x) (ha : a ∈ l) (hp : p a = true) : key a ≤ key x :=
  le_of_mem_argmax (mem_filter.mpr ⟨ha, hp⟩) (Option.mem_def.mpr h)

theorem newest_eq_none : newest key p l = none ↔ ∀ x ∈ l, p x = false := by
  simp [newest, filter_eq_nil_iff]

theorem newest_perm (h : Apart key p l) (hp : l.Perm m) : newest key p l = newest key p m := by
  cases hl : newest key p l with
  | none =>
    symm
    apply newest_eq_none.mpr
    intro x hx
    exact newest_eq_none.mp hl x (hp.mem_iff.mpr hx)
  | some x =>
    obtain ⟨hx, hpx⟩ := newest_mem hl
    cases hm : newest key p m with
    | none =>
      rw [newest_eq_none.mp hm x (hp.mem_iff.mp hx)] at hpx
      cases hpx
    | some y =>
      obtain ⟨hy, hpy⟩ := newest_mem hm
      have hxy := le_newest hm (hp.mem_iff.mp hx) hpx
      have hyx := le_newest hl (hp.mem_iff.mpr hy) hpy
      exact congrArg some (h.eq hx (hp.mem_iff.mpr hy) hpx hpy (le_antisymm hxy hyx))

theorem newest_cons_of_not (h : p a = false) : newest key p (a :: l) = newest key p l := by
  simp [newest, h]

theorem newest_cons (h : p a = true) (hlt : ∀ x ∈ l, p x = true → key a < key x) :
    newest key p (a :: l) = (newest key p l).or (some a) := by
  have hfilter : (a :: l).filter p = a :: l.filter p := by simp [h]
  rw [newest, hfilter, argmax_cons]
  cases hl : (l.filter p).argmax key with
  | none =>
    have hnew : newest key p l = none := hl
    rw [hnew]
    rfl
  | some x =>
    have hnew : newest key p l = some x := hl
    obtain ⟨hx, hpx⟩ := newest_mem hnew
    simp [hnew, hlt x hx hpx]

theorem newest_concat (h : p a = true) : newest key p (l ++ [a]) =
      if (newest key p l).all (fun x => key x < key a) then some a else newest key p l := by
  have hfilter : (l ++ [a]).filter p = l.filter p ++ [a] := by simp [h]
  rw [newest, hfilter, argmax_concat]
  unfold newest
  cases (l.filter p).argmax key with
  | none => rfl
  | some x => simp

theorem newest_concat_of_not (h : p a = false) : newest key p (l ++ [a]) = newest key p l := by
  simp [newest, h]

/-- One step of a search that keeps the last entry not below the one it has. -/
def keep (key : α → β) (p : α → Bool) (s : Option α) (a : α) : Option α :=
  if p a = true ∧ s.all (fun x => key x ≤ key a) = true then some a else s

theorem foldl_keep (h : Apart key p l) : l.foldl (keep key p) none = newest key p l := by
  induction l using List.reverseRecOn with
  | nil => rfl
  | append_singleton l a ih =>
    obtain ⟨hinit, _, hcross⟩ := pairwise_append.mp h
    rw [foldl_append, foldl_cons, foldl_nil, ih hinit]
    unfold keep
    by_cases hp : p a = true
    · rw [newest_concat hp]
      cases hn : newest key p l with
      | none => simp [hp]
      | some x =>
        obtain ⟨hx, hpx⟩ := newest_mem hn
        have hne := hcross x hx a (mem_singleton_self a) hpx hp
        simp [hp, lt_iff_le_and_ne, hne]
    · rw [newest_concat_of_not (by simpa using hp), if_neg fun h => hp h.1]

end KeyOrder
