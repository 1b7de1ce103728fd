import Mathlib.Data.List.Basic
import Mathlib.Data.List.Range

namespace GoodSpace

open List

variable {good : Nat → Bool} {a b c : Nat}

/-- The good addresses from `a` up to `b`. -/
def goods (good : Nat → Bool) (a b : Nat) : List Nat := (List.range' a (b - a)).filter good

theorem mem_goods {x : Nat} : x ∈ goods good a b ↔ a ≤ x ∧ x < b ∧ good x = true := by
  simp only [goods, mem_filter, mem_range'_1]
  constructor
  · rintro ⟨⟨h₁, h₂⟩, hg⟩
    exact ⟨h₁, by omega, hg⟩
  · rintro ⟨h₁, h₂, hg⟩
    exact ⟨⟨h₁, by omega⟩, hg⟩

theorem goods_append (hab : a ≤ b) (hbc : b ≤ c) : goods good a c = goods good a b ++ goods good b c := by
  have hsum : c - a = (b - a) + (c - b) := by omega
  have hmid : a + (b - a) = b := by omega
  unfold goods
  rw [hsum, ← List.range'_append_1, filter_append, hmid]

theorem goods_all (h : ∀ x, a ≤ x → x < b → good x = true) : goods good a b = List.range' a (b - a) := by
  unfold goods
  rw [filter_eq_self]
  intro x hx
  rw [mem_range'_1] at hx
  exact h x hx.1 (by omega)

theorem goods_none (h : ∀ x, a ≤ x → x < b → good x = false) : goods good a b = [] := by
  unfold goods
  rw [filter_eq_nil_iff]
  intro x hx
  rw [mem_range'_1] at hx
  simp [h x hx.1 (by omega)]

theorem goods_empty (h : b ≤ a) : goods good a b = [] := by
  simp [goods, show b - a = 0 by omega]

theorem goods_length_le (good : Nat → Bool) (a b : Nat) : (goods good a b).length ≤ b - a := by
  unfold goods
  exact (length_filter_le _ _).trans (by rw [length_range'])

theorem good_of_full (h : b - a ≤ (goods good a b).length) {x : Nat} (h₁ : a ≤ x) (h₂ : x < b) :
    good x = true := by
  have hfull : (goods good a b).length = (List.range' a (b - a)).length := by
    have := goods_length_le good a b
    rw [length_range']
    omega
  exact length_filter_eq_length_iff.mp hfull x (mem_range'_1.mpr ⟨h₁, by omega⟩)

end GoodSpace
