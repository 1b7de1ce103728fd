import Mathlib.Data.List.Basic

namespace CommonPrefix

variable {α : Type} [DecidableEq α] {p q t : List α} {xs : List (List α)}

def matched : List α → List α → Nat
  | a :: p, b :: t => if a = b then matched p t + 1 else 0
  | _, _ => 0

def common : List (List α) → List α
  | [] => []
  | x :: xs => xs.foldl (fun p t => p.take (matched p t)) x

theorem matched_le (p t : List α) : matched p t ≤ p.length := by
  induction p generalizing t with
  | nil => simp [matched]
  | cons a p ih =>
    cases t with
    | nil => simp [matched]
    | cons b t =>
      rw [matched]
      split
      · simpa using ih t
      · exact Nat.zero_le _

theorem prefix_take_matched : q <+: p.take (matched p t) ↔ q <+: p ∧ q <+: t := by
  induction p generalizing q t with
  | nil => simp +contextual [matched]
  | cons a p ih =>
    cases t with
    | nil => simp +contextual [matched]
    | cons b t =>
      cases q with
      | nil => simp
      | cons c q =>
        by_cases hab : a = b
        · subst b
          simp [matched, List.cons_prefix_cons, ih]
          tauto
        · simp only [matched, hab, if_false, List.take_zero, List.prefix_nil, reduceCtorEq, List.cons_prefix_cons,
            false_iff]
          rintro ⟨⟨rfl, -⟩, rfl, -⟩
          exact hab rfl

theorem prefix_foldl (x : List α) :
    q <+: xs.foldl (fun p t => p.take (matched p t)) x ↔ q <+: x ∧ ∀ y ∈ xs, q <+: y := by
  induction xs generalizing x with
  | nil => simp
  | cons y xs ih => simp [ih, prefix_take_matched, and_assoc]

theorem prefix_common (hxs : xs ≠ []) : q <+: common xs ↔ ∀ x ∈ xs, q <+: x := by
  cases xs with
  | nil => exact absurd rfl hxs
  | cons x xs => simp [common, prefix_foldl]

end CommonPrefix
