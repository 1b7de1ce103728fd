import Mathlib.Algebra.GroupWithZero.Nat
import UBoot.Cells
import UBoot.EnvLookup

namespace UBoot

open Cells List

/-- The loop that moves the rest of the list over a deleted entry. Returns the
area and the last value of `env`. -/
def shiftFuel : Nat → List UInt8 → Nat → Nat → Option (List UInt8 × Nat)
  | 0, _, _, _ => none
  | fuel + 1, d, env, nxt => do
    let c ← d[nxt]?
    let d ← store d env c
    if c = 0 then do
      let c' ← d[nxt + 1]?
      if c' = 0 then pure (d, env) else shiftFuel fuel d (env + 1) (nxt + 1)
    else shiftFuel fuel d (env + 1) (nxt + 1)

/-- "Delete any existing definition" of `_do_setenv`. -/
def deleteOld (d : List UInt8) (old : OldDef) : Option (List UInt8) := do
  let c ← d[old.nxt + 1]?
  let (d, env) ←
    if c = 0 then
      if 0 < old.env then pure (d, old.env - 1)
      else do
        let d ← store d old.env 0
        pure (d, old.env)
    else shiftFuel d.length d old.env (old.nxt + 1)
  store d (env + 1) 0

theorem shiftFuel_length {fuel env nxt i : Nat} {d e : List UInt8}
    (h : shiftFuel fuel d env nxt = some (e, i)) : e.length = d.length := by
  induction fuel generalizing d env nxt with
  | zero => simp [shiftFuel] at h
  | succ fuel ih =>
    obtain ⟨c, _, h⟩ := Option.bind_eq_some_iff.mp h
    obtain ⟨d₁, h₁, h⟩ := Option.bind_eq_some_iff.mp h
    split at h
    · obtain ⟨c', _, h⟩ := Option.bind_eq_some_iff.mp h
      split at h
      · cases h
        exact store_length h₁
      · exact (ih h).trans (store_length h₁)
    · exact (ih h).trans (store_length h₁)

theorem deleteOld_length {d e : List UInt8} {old : OldDef} (h : deleteOld d old = some e) :
    e.length = d.length := by
  obtain ⟨c, _, h⟩ := Option.bind_eq_some_iff.mp h
  split at h
  · split at h
    · exact store_length h
    · obtain ⟨d₁, h₁, h⟩ := Option.bind_eq_some_iff.mp h
      exact (store_length h).trans (store_length h₁)
  · obtain ⟨⟨d₁, i⟩, h₁, h⟩ := Option.bind_eq_some_iff.mp h
    exact (store_length h).trans (shiftFuel_length h₁)

theorem shiftFuel_tight {p q body : List UInt8} (rest : List UInt8) (hq : q ≠ []) (ht : Tight body)
    {fuel : Nat} (hf : body.length ≤ fuel) :
    ∃ q', q'.length = q.length ∧ shiftFuel fuel (p ++ q ++ body ++ 0 :: rest) p.length (p ++ q).length =
        some (p ++ body ++ q' ++ 0 :: rest, p.length + body.length - 1) := by
  induction body generalizing p q fuel with
  | nil => exact ht.elim
  | cons c body ih =>
    obtain ⟨fuel, rfl⟩ := Nat.exists_eq_add_one_of_ne_zero
      (Nat.ne_of_gt (Nat.lt_of_lt_of_le (Nat.zero_lt_succ _) hf))
    obtain ⟨y, q, rfl⟩ := exists_cons_of_ne_nil hq
    have hread : (p ++ y :: q ++ c :: body ++ 0 :: rest)[(p ++ y :: q).length]? = some c := by
      simp
    have hstore : store (p ++ y :: q ++ c :: body ++ 0 :: rest) p.length c =
        some (p ++ [c] ++ (q ++ [c]) ++ body ++ 0 :: rest) := by
      simpa using store_at (p := p) (q := q ++ c :: (body ++ 0 :: rest)) (y := y) c
    have hlen : (p ++ [c] ++ (q ++ [c])).length = (p ++ y :: q).length + 1 := by simp; omega
    cases body with
    | nil =>
      have hc : c = 0 := ht
      subst hc
      refine ⟨q ++ [0], by simp, ?_⟩
      have hnext : (p ++ [0] ++ (q ++ [0]) ++ [] ++ 0 :: rest)[(p ++ y :: q).length + 1]? = some 0 := by
        rw [← hlen]
        simp
      simp only [shiftFuel, hread, hstore, hnext, Option.bind_eq_bind, Option.bind_some, if_true]
      simp
    | cons c' body =>
      have hnext : (p ++ [c] ++ (q ++ [c]) ++ c' :: body ++ 0 :: rest)[(p ++ y :: q).length + 1]? =
          some c' := by
        rw [← hlen]
        simp
      obtain ⟨q', hq', hrun⟩ := ih (p := p ++ [c]) (q := q ++ [c]) (by simp) ht.2 (by simpa using hf)
      refine ⟨q', by simpa using hq', ?_⟩
      rw [hlen] at hrun
      simp only [shiftFuel, hread, hstore, hnext, Option.bind_eq_bind, Option.bind_some]
      have hgoal : shiftFuel fuel (p ++ [c] ++ (q ++ [c]) ++ c' :: body ++ 0 :: rest)
          (p.length + 1) ((p ++ y :: q).length + 1) =
          some (p ++ c :: c' :: body ++ q' ++ 0 :: rest, p.length + (c :: c' :: body).length - 1) := by
        simp only [length_append, length_singleton] at hrun ⊢
        rw [hrun]
        simp only [append_assoc, singleton_append, length_cons, Option.some.injEq,
          Prod.mk.injEq, true_and]
        omega
      by_cases hc : c = 0
      · simp only [hc, if_true, ht.1 hc, if_false]
        simpa [hc] using hgoal
      · simp only [hc, if_false]
        exact hgoal

theorem getElem?_after_line (as bs : List Entry) (e : Entry) (rest : List UInt8) :
    ∃ c, (lines (as ++ e :: bs) ++ 0 :: rest)[(lines as).length + e.body.length + 1]? = some c ∧
      (c = 0 ↔ bs = []) := by
  have hnext : (lines as).length + e.body.length + 1 = (lines (as ++ [e])).length := by
    simp [Entry.line, add_assoc]
  have h := getElem?_lines (as ++ [e]) bs rest
  rw [append_assoc, singleton_append, ← hnext] at h
  exact h

theorem deleteOld_last (as : List Entry) (e : Entry) (rest : List UInt8) (v : Nat) :
    ∃ rest', deleteOld (lines (as ++ [e]) ++ 0 :: rest)
        ⟨v, (lines as).length, (lines as).length + e.body.length⟩ =
        some (lines as ++ 0 :: rest') ∧
      rest'.length = rest.length + e.line.length ∧ (as = [] → rest'.head? = some 0) := by
  obtain ⟨c, hc, hz⟩ := getElem?_after_line as [] e rest
  have h0 : c = 0 := hz.mpr rfl
  obtain ⟨b, t, hl, _⟩ := e.line_cons
  have htext : lines (as ++ [e]) ++ 0 :: rest = lines as ++ b :: (t ++ 0 :: rest) := by
    simp [hl]
  rw [htext] at hc ⊢
  by_cases hpos : 0 < (lines as).length
  · refine ⟨t ++ 0 :: rest, ?_, by simp [hl]; omega, fun h => by simp [h] at hpos⟩
    have hback : (lines as).length - 1 + 1 = (lines as).length := by omega
    simp only [deleteOld, hc, h0, hpos, if_true, Option.bind_eq_bind, Option.bind_some,
      Option.pure_def, hback, store_at]
  · have hnil : lines as = [] := length_eq_zero_iff.mp (by omega)
    have ht : t ≠ [] := by
      have := e.line_length
      rintro rfl
      simp [hl] at this
    obtain ⟨b', t, rfl⟩ := exists_cons_of_ne_nil ht
    refine ⟨0 :: (t ++ 0 :: rest), ?_, by simp [hl]; omega, fun _ => rfl⟩
    rw [hnil] at hc ⊢
    simp only [length_nil, nil_append] at hc ⊢
    simp only [deleteOld, hc, h0, if_true, Nat.lt_irrefl, if_false, Option.bind_eq_bind,
      Option.bind_some, Option.pure_def]
    simp [store]

theorem deleteOld_inner (as bs : List Entry) (e f : Entry) (rest : List UInt8) (v : Nat) :
    ∃ rest', deleteOld (lines (as ++ e :: f :: bs) ++ 0 :: rest)
        ⟨v, (lines as).length, (lines as).length + e.body.length⟩ =
        some (lines (as ++ f :: bs) ++ 0 :: rest') ∧
      rest'.length = rest.length + e.line.length := by
  obtain ⟨c, hc, hz⟩ := getElem?_after_line as (f :: bs) e rest
  have h0 : c ≠ 0 := fun h => by simpa using hz.mp h
  have htext : lines (as ++ e :: f :: bs) ++ 0 :: rest =
      lines as ++ e.line ++ lines (f :: bs) ++ 0 :: rest := by simp
  have hq : e.line ≠ [] := by
    obtain ⟨b, t, hl, _⟩ := e.line_cons
    simp [hl]
  have hnext : (lines as).length + e.body.length + 1 = (lines as ++ e.line).length := by
    simp [Entry.line, add_assoc]
  have ht := tight_lines f bs
  have hpos := ht.length_pos
  obtain ⟨q, hl, hrun⟩ := shiftFuel_tight (p := lines as) rest hq ht
    (show (lines (f :: bs)).length ≤ (lines (as ++ e :: f :: bs) ++ 0 :: rest).length by simp; omega)
  rw [← htext, ← hnext] at hrun
  have hne : q ≠ [] := fun h => by simp [h, Entry.line_length] at hl
  obtain ⟨y, q, rfl⟩ := exists_cons_of_ne_nil hne
  refine ⟨q ++ 0 :: rest, ?_, by simp at hl ⊢; omega⟩
  have hback : (lines as).length + (lines (f :: bs)).length - 1 + 1 =
      (lines as ++ lines (f :: bs)).length := by simp only [length_append]; omega
  simp only [deleteOld, hc, h0, if_false, Option.bind_eq_bind, Option.bind_some, hrun, hback]
  rw [append_assoc, cons_append, store_at]
  simp

theorem deleteOld_spec (as bs : List Entry) (e : Entry) (rest : List UInt8) (v : Nat) :
    ∃ rest', deleteOld (lines (as ++ e :: bs) ++ 0 :: rest)
        ⟨v, (lines as).length, (lines as).length + e.body.length⟩ =
        some (lines (as ++ bs) ++ 0 :: rest') ∧
      rest'.length = rest.length + e.line.length ∧ (as ++ bs = [] → rest'.head? = some 0) := by
  cases bs with
  | nil =>
    rw [append_nil]
    exact deleteOld_last as e rest v
  | cons f bs =>
    obtain ⟨rest', hrun, hl⟩ := deleteOld_inner as bs e f rest v
    exact ⟨rest', hrun, hl, fun h => by simp at h⟩

@[grind =] def doubleNul : List UInt8 → Nat → Option Nat
  | c :: c' :: cs, i => if c = 0 ∧ c' = 0 then some i else doubleNul (c' :: cs) (i + 1)
  | _, _ => none

def appendAt (d : List UInt8) : Option Nat := do
  let env ← doubleNul d 0
  pure (if 0 < env then env + 1 else env)

/-- `len`: the text of the definition and the two NULs behind it. -/
def defLen (name : CString) (vals : List CString) : Nat :=
  name.bytes.length + 2 + (vals.map fun v => v.bytes.length + 1).sum

/-- The value loop: `sep` is `=` for the first argument and a blank for the others. -/
def writeValues : List UInt8 → Nat → UInt8 → List CString → Option (List UInt8 × Nat)
  | d, env, _, [] => some (d, env)
  | d, env, sep, v :: vs => do
    let d ← store d env sep
    let d ← storeAll d (env + 1) (v.bytes ++ [0])
    writeValues d (env + 1 + v.bytes.length) blank vs

def writeDef (d : List UInt8) (env : Nat) (name : CString) (vals : List CString) : Option (List UInt8) := do
  let d ← storeAll d env (name.bytes ++ [0])
  let (d, env) ← writeValues d (env + name.bytes.length) equalsSign vals
  store d (env + 1) 0

theorem writeValues_length {d e : List UInt8} {env i : Nat} {sep : UInt8} {vals : List CString}
    (h : writeValues d env sep vals = some (e, i)) : e.length = d.length := by
  induction vals generalizing d env sep with
  | nil =>
    cases h
    rfl
  | cons v vs ih =>
    obtain ⟨d₁, h₁, h⟩ := Option.bind_eq_some_iff.mp h
    obtain ⟨d₂, h₂, h⟩ := Option.bind_eq_some_iff.mp h
    exact ((ih h).trans (storeAll_length h₂)).trans (store_length h₁)

theorem writeDef_length {d e : List UInt8} {env : Nat} {name : CString} {vals : List CString}
    (h : writeDef d env name vals = some e) : e.length = d.length := by
  obtain ⟨d₁, h₁, h⟩ := Option.bind_eq_some_iff.mp h
  obtain ⟨⟨d₂, i⟩, h₂, h⟩ := Option.bind_eq_some_iff.mp h
  exact ((store_length h).trans (writeValues_length h₂)).trans (storeAll_length h₁)

/-- The values as `getenv` shows them: joined by single blanks. -/
def joined : List CString → List UInt8
  | [] => []
  | [v] => v.bytes
  | v :: vs => v.bytes ++ blank :: joined vs

theorem joined_cons_cons (v w : CString) (vs : List CString) :
    joined (v :: w :: vs) = v.bytes ++ blank :: joined (w :: vs) := rfl

theorem doubleNul_tight {body rest : List UInt8} (ht : Tight body) (i : Nat) :
    doubleNul (body ++ 0 :: rest) i = some (i + body.length - 1) := by
  induction body generalizing i with
  | nil => exact ht.elim
  | cons c body ih =>
    cases body with
    | nil =>
      have hc : c = 0 := ht
      simp [doubleNul, hc]
    | cons c' body =>
      have hne : ¬(c = 0 ∧ c' = 0) := fun h => ht.1 h.1 h.2
      have hrec := ih ht.2 (i + 1)
      simp only [cons_append, doubleNul, hne, if_false, length_cons] at hrec ⊢
      rw [hrec]
      congr 1
      omega

theorem appendAt_holds {d : List UInt8} {es : List Entry} (h : Holds d es) :
    appendAt d = some (lines es).length := by
  obtain ⟨rest, rfl, hnil⟩ := h.text
  cases es with
  | nil =>
    obtain ⟨t, rfl⟩ := List.head?_eq_some_iff.mp (hnil rfl)
    simp [appendAt, doubleNul]
  | cons e es =>
    have ht := tight_lines e es
    have hlen : 2 ≤ (lines (e :: es)).length := by
      have := e.line_length
      simp only [lines_cons, length_append]
      omega
    simp only [appendAt, doubleNul_tight ht, Option.bind_eq_bind, Option.bind_some, Option.pure_def]
    rw [if_pos (by omega)]
    congr 1
    omega

/-- The bytes that the value loop leaves, up to its last NUL. -/
def valueText (sep : UInt8) : List CString → List UInt8
  | [] => []
  | v :: vs => sep :: (v.bytes ++ valueText blank vs)

theorem valueText_length (sep : UInt8) (vals : List CString) :
    (valueText sep vals).length = (vals.map fun v => v.bytes.length + 1).sum := by
  induction vals generalizing sep with
  | nil => rfl
  | cons v vs ih =>
    simp only [valueText, length_cons, length_append, ih, map_cons, sum_cons]
    omega

theorem valueText_joined (sep : UInt8) (v : CString) (vs : List CString) :
    valueText sep (v :: vs) = sep :: joined (v :: vs) := by
  induction vs generalizing sep v with
  | nil => simp [valueText, joined]
  | cons w vs ih =>
    have hrec := ih blank w
    rw [valueText, hrec, joined_cons_cons]

theorem writeValues_at (p r : List UInt8) (sep : UInt8) (vals : List CString)
    (hr : (valueText sep vals).length ≤ r.length) :
    writeValues (p ++ 0 :: r) p.length sep vals =
      some (p ++ valueText sep vals ++ 0 :: r.drop (valueText sep vals).length,
        p.length + (valueText sep vals).length) := by
  induction vals generalizing p r sep with
  | nil => simp [writeValues, valueText]
  | cons v vs ih =>
    simp only [valueText, length_cons, length_append] at hr
    obtain ⟨ys, q, hsplit, hys⟩ : ∃ ys q, r = ys ++ q ∧ ys.length = (v.bytes ++ [0]).length :=
      ⟨r.take (v.bytes.length + 1), r.drop (v.bytes.length + 1), by simp, by simp; omega⟩
    have hstore : store (p ++ 0 :: r) p.length sep = some (p ++ [sep] ++ ys ++ q) := by
      simpa [hsplit] using store_at (p := p) (q := r) (y := (0 : UInt8)) sep
    have hall := storeAll_at (p := p ++ [sep]) (q := q) hys
    have hp : (p ++ [sep]).length = p.length + 1 := by simp
    have hv : p.length + 1 + v.bytes.length = (p ++ [sep] ++ v.bytes).length := by simp; omega
    have hq : (valueText blank vs).length ≤ q.length := by
      simp only [hsplit, length_append, length_singleton] at hr hys
      omega
    have hrec := ih (p ++ [sep] ++ v.bytes) q blank hq
    have htext : p ++ [sep] ++ (v.bytes ++ [0]) ++ q = p ++ [sep] ++ v.bytes ++ 0 :: q := by simp
    rw [hp, htext] at hall
    simp only [writeValues, hstore, hall, hv, hrec, Option.bind_eq_bind, Option.bind_some]
    have hdrop : r.drop (v.bytes.length + 1) = q := by
      rw [hsplit, drop_left' (by simpa using hys)]
    simp only [valueText, append_assoc, cons_append, nil_append,
      length_cons, length_append, Option.some.injEq, Prod.mk.injEq]
    constructor
    · rw [show v.bytes.length + (valueText blank vs).length + 1 =
        (v.bytes.length + 1) + (valueText blank vs).length by omega, ← drop_drop, hdrop]
    · omega

theorem writeDef_at (p r : List UInt8) (name : CString) (vals : List CString)
    (hr : defLen name vals ≤ r.length) :
    writeDef (p ++ r) p.length name vals = some (p ++ (name.bytes ++ valueText equalsSign vals ++ [0]) ++
        0 :: r.drop (defLen name vals)) := by
  have hlen := valueText_length equalsSign vals
  simp only [defLen, ← hlen] at hr
  obtain ⟨ys, q, hsplit, hys⟩ : ∃ ys q, r = ys ++ q ∧ ys.length = (name.bytes ++ [0]).length :=
    ⟨r.take (name.bytes.length + 1), r.drop (name.bytes.length + 1), by simp, by simp; omega⟩
  have hall := storeAll_at (p := p) (q := q) hys
  rw [← append_assoc p, append_assoc _ [0] q, append_assoc p ys q] at hall
  have hq : (valueText equalsSign vals).length + 1 ≤ q.length := by
    simp only [hsplit, length_append, length_singleton] at hr hys
    omega
  have hval := writeValues_at (p ++ name.bytes) q equalsSign vals (by omega)
  have hdrop : r.drop (name.bytes.length + 1) = q := by
    rw [hsplit, drop_left' (by simpa using hys)]
  obtain ⟨y, t, ht⟩ := exists_cons_of_ne_nil
    (show q.drop (valueText equalsSign vals).length ≠ [] by
      rw [← length_pos_iff, length_drop]; omega)
  have htail : r.drop (defLen name vals) = t := by
    rw [defLen, ← hlen, show name.bytes.length + 2 + (valueText equalsSign vals).length =
      (name.bytes.length + 1) + (valueText equalsSign vals).length + 1 by omega,
      ← drop_drop, ← drop_drop, hdrop, ht]
    rfl
  have hlast := store_at (p := p ++ name.bytes ++ valueText equalsSign vals ++ [0]) (q := t)
    (y := y) (0 : UInt8)
  rw [hsplit] at htail ⊢
  simp only [writeDef, hall, Option.bind_eq_bind, Option.bind_some]
  rw [← length_append, singleton_append, hval]
  simp only [Option.bind_some, ht, htail]
  simpa [add_assoc] using hlast

end UBoot
