import Mathlib.Data.List.Basic

namespace CursorText

open List

variable {α : Type}

/-- The cursor is in front of a character of the text, or behind the last one. -/
structure Text (α : Type) where
  text : List α
  cursor : Nat
  inside : cursor ≤ text.length

namespace Text

def whole (text : List α) : Text α := ⟨text, text.length, Nat.le_refl _⟩

def insert (t : Text α) (x : α) : Text α :=
  ⟨t.text.insertIdx t.cursor x, t.cursor + 1, by
    rw [length_insertIdx_of_le_length t.inside]
    exact Nat.succ_le_succ t.inside⟩

def overwrite (t : Text α) (x : α) : Text α :=
  if h : t.cursor < t.text.length then
    ⟨t.text.set t.cursor x, t.cursor + 1, by rw [length_set]; exact h⟩
  else t.insert x

def typed (insert : Bool) (t : Text α) (x : α) : Text α := if insert then t.insert x else t.overwrite x

def right (t : Text α) : Text α :=
  ⟨t.text, min (t.cursor + 1) t.text.length, Nat.min_le_right _ _⟩

def left (t : Text α) : Text α :=
  ⟨t.text, t.cursor - 1, Nat.le_trans (Nat.sub_le _ _) t.inside⟩

def home (t : Text α) : Text α := ⟨t.text, 0, Nat.zero_le _⟩

def toEnd (t : Text α) : Text α := whole t.text

def delete (t : Text α) : Text α :=
  ⟨t.text.eraseIdx t.cursor, t.cursor, by
    have h := t.inside
    rw [length_eraseIdx]
    split_ifs <;> omega⟩

def backspace (t : Text α) : Text α := if t.cursor = 0 then t else t.left.delete

def kill (t : Text α) : Text α :=
  ⟨t.text.take t.cursor, t.cursor, Nat.le_of_eq (length_take_of_le t.inside).symm⟩

theorem split (t : Text α) : ∃ a b, t.text = a ++ b ∧ a.length = t.cursor :=
  ⟨t.text.take t.cursor, t.text.drop t.cursor, (take_append_drop _ _).symm,
    length_take_of_le t.inside⟩

theorem split_at (t : Text α) (h : t.cursor < t.text.length) :
    ∃ a x b, t.text = a ++ x :: b ∧ a.length = t.cursor :=
  ⟨t.text.take t.cursor, t.text[t.cursor], t.text.drop (t.cursor + 1),
    (take_append_drop _ _).symm.trans (congrArg _ (drop_eq_getElem_cons h)),
    length_take_of_le t.inside⟩

theorem insert_text {t : Text α} {a b : List α} (h : t.text = a ++ b) (ha : a.length = t.cursor)
    (x : α) : (t.insert x).text = a ++ x :: b := by
  show t.text.insertIdx t.cursor x = a ++ x :: b
  rw [h, ← ha]
  clear h ha
  induction a with
  | nil => rfl
  | cons y a ih => exact congrArg (List.cons y) ih

theorem length_insert (t : Text α) (x : α) : (t.insert x).text.length = t.text.length + 1 :=
  length_insertIdx_of_le_length t.inside x

theorem overwrite_text {t : Text α} {a b : List α} {y : α} (h : t.text = a ++ y :: b)
    (ha : a.length = t.cursor) (x : α) :
    (t.overwrite x).text = a ++ x :: b ∧ (t.overwrite x).cursor = t.cursor + 1 := by
  have hlt : t.cursor < t.text.length := by
    rw [h, length_append, length_cons]
    omega
  unfold overwrite
  rw [dif_pos hlt]
  refine ⟨?_, rfl⟩
  dsimp only
  rw [h, ← ha, set_append_right _ _ (Nat.le_refl _), Nat.sub_self, set_cons_zero]

theorem overwrite_end {t : Text α} (h : t.cursor = t.text.length) (x : α) :
    t.overwrite x = t.insert x := dif_neg (by omega)

theorem length_overwrite {t : Text α} (h : t.cursor < t.text.length) (x : α) :
    (t.overwrite x).text.length = t.text.length := by
  unfold overwrite
  rw [dif_pos h]
  exact length_set

theorem typed_inserts {insert : Bool} {t : Text α} (h : insert ∨ t.cursor = t.text.length) (x : α) :
    t.typed insert x = t.insert x := by
  unfold typed
  split
  · rfl
  next hover => exact overwrite_end (h.resolve_left hover) x

theorem typed_replaces {insert : Bool} {t : Text α} (h : ¬(insert ∨ t.cursor = t.text.length)) (x : α) :
    t.typed insert x = t.overwrite x := if_neg (not_or.mp h).1

theorem delete_text {t : Text α} {a b : List α} {x : α} (h : t.text = a ++ x :: b)
    (ha : a.length = t.cursor) : t.delete.text = a ++ b := by
  show t.text.eraseIdx t.cursor = a ++ b
  rw [h, ← ha, eraseIdx_append_of_length_le (Nat.le_refl _), Nat.sub_self]
  rfl

theorem length_delete {t : Text α} (h : t.cursor < t.text.length) :
    t.delete.text.length = t.text.length - 1 := length_eraseIdx_of_lt h

theorem delete_end {t : Text α} (h : t.cursor = t.text.length) : t.delete = t := by
  unfold delete
  congr
  exact eraseIdx_of_length_le (Nat.le_of_eq h.symm)

theorem kill_end {t : Text α} (h : t.cursor = t.text.length) : t.kill = t := by
  unfold kill
  congr
  exact take_of_length_le (Nat.le_of_eq h.symm)

end Text

end CursorText
