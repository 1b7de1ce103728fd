import Mathlib.Data.List.Basic
import Mathlib.Data.List.Nodup
import Mathlib.Logic.Function.Basic

namespace Scatter

open List

variable {ι α : Type*} [DecidableEq ι]
variable {ps : List ι}

def scatter : List ι → List α → (ι → α) → ι → α
  | p :: ps, v :: vs, m => scatter ps vs (Function.update m p v)
  | [], _, m => m
  | _, [], m => m

@[simp] theorem scatter_nil (vs : List α) (m : ι → α) : scatter [] vs m = m := by
  unfold scatter
  rfl

@[simp] theorem scatter_no_values (ps : List ι) (m : ι → α) : scatter ps [] m = m := by
  cases ps <;> rfl

@[simp] theorem scatter_cons (p : ι) (ps : List ι) (v : α) (vs : List α) (m : ι → α) :
    scatter (p :: ps) (v :: vs) m = scatter ps vs (Function.update m p v) := rfl

theorem scatter_outside {p : ι} (h : p ∉ ps) (vs : List α) (m : ι → α) : scatter ps vs m p = m p := by
  induction ps generalizing vs m with
  | nil => simp
  | cons q qs ih =>
    cases vs with
    | nil => simp
    | cons v vs =>
      rw [mem_cons, not_or] at h
      obtain ⟨hne, hqs⟩ := h
      rw [scatter_cons, ih hqs, Function.update_of_ne hne]

theorem scatter_append (ps qs : List ι) (vs : List α) (m : ι → α) : scatter (ps ++ qs) vs m =
      scatter qs (vs.drop ps.length) (scatter ps (vs.take ps.length) m) := by
  induction ps generalizing vs m with
  | nil => simp
  | cons p ps ih =>
    cases vs with
    | nil => simp
    | cons v vs => simpa using ih vs (Function.update m p v)

theorem scatter_take (ps : List ι) (vs : List α) (m : ι → α) :
    scatter (ps.take vs.length) vs m = scatter ps vs m := by
  induction ps generalizing vs m with
  | nil => simp
  | cons p ps ih =>
    cases vs with
    | nil => simp
    | cons v vs => simpa using ih vs (Function.update m p v)

theorem map_scatter {vs : List α} (hn : ps.Nodup) (hl : vs.length = ps.length)
    (m : ι → α) : ps.map (scatter ps vs m) = vs := by
  induction ps generalizing vs m with
  | nil => exact (length_eq_zero_iff.mp hl).symm
  | cons p ps ih =>
    obtain ⟨hp, hps⟩ := nodup_cons.mp hn
    cases vs with
    | nil => cases hl
    | cons v vs =>
      rw [map_cons, scatter_cons, scatter_outside hp, Function.update_self, ih hps (Nat.succ.inj hl)]

theorem map_take_scatter {vs : List α} (hn : ps.Nodup) (hl : vs.length ≤ ps.length)
    (m : ι → α) : (ps.take vs.length).map (scatter ps vs m) = vs := by
  rw [← scatter_take]
  apply map_scatter (hn.sublist (take_sublist _ _))
  rw [length_take]
  omega

end Scatter

namespace UndoLog

variable {ι α : Type} [DecidableEq ι] {ws : List (ι × α)} {m m' : ι → α} {x : ι}

def writes : List (ι × α) → (ι → α) → ι → α
  | [], m => m
  | w :: ws, m => writes ws (Function.update m w.1 w.2)

def displaced : List (ι × α) → (ι → α) → List α
  | [], _ => []
  | w :: ws, m => m w.1 :: displaced ws (Function.update m w.1 w.2)

def undo : List ι → List α → (ι → α) → ι → α
  | p :: ps, v :: vs, m => Function.update (undo ps vs m) p v
  | _, _, m => m

theorem displaced_length (ws : List (ι × α)) : (displaced ws m).length = ws.length := by
  induction ws generalizing m with
  | nil => rfl
  | cons w ws ih => exact congrArg (· + 1) ih

theorem writes_outside (h : x ∉ ws.map Prod.fst) : writes ws m x = m x := by
  induction ws generalizing m with
  | nil => rfl
  | cons w ws ih =>
    rw [List.map_cons, List.mem_cons, not_or] at h
    rw [writes, ih h.2, Function.update_of_ne h.1]

theorem undo_apply : undo (ws.map Prod.fst) (displaced ws m) m' x = if x ∈ ws.map Prod.fst then m x else m' x := by
  induction ws generalizing m with
  | nil => rfl
  | cons w ws ih =>
    rw [List.map_cons, displaced, undo]
    by_cases hx : x = w.1
    · rw [hx, Function.update_self, if_pos List.mem_cons_self]
    · rw [Function.update_of_ne hx, ih, Function.update_of_ne hx]
      simp only [List.mem_cons, hx, false_or]

theorem undo_outside {ps : List ι} {vs : List α} (h : x ∉ ps) : undo ps vs m x = m x := by
  induction ps generalizing vs with
  | nil => rfl
  | cons p ps ih =>
    rw [List.mem_cons, not_or] at h
    cases vs with
    | nil => rfl
    | cons v vs => rw [undo, Function.update_of_ne h.1, ih h.2]

end UndoLog
