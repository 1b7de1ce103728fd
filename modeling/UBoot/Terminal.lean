import Mathlib.Logic.Basic

namespace Terminal

variable {α : Type*}

/-- The text by rows and columns, the cursor, and whether the last key was drawn in the last column. -/
structure State (α : Type*) where
  text : Nat → Nat → α
  col : Nat
  row : Nat
  wrapped : Bool

inductive Key (α : Type*) where
  | carriageReturn | lineFeed | tab | backspace
  | char (v : α)

variable (cols rows : Nat) (empty space : α)

def State.put (t : State α) (row col : Nat) (v : α) : State α :=
  { t with text := fun r c => if r = row ∧ c = col then v else t.text r c }

@[simp] theorem State.put_col (t : State α) (r c : Nat) (v : α) : (t.put r c v).col = t.col := rfl
@[simp] theorem State.put_row (t : State α) (r c : Nat) (v : α) : (t.put r c v).row = t.row := rfl

def State.nextLine (t : State α) : State α :=
  if t.row + 1 < rows then { t with col := 0, row := t.row + 1 }
  else { t with col := 0, text := fun r c => if r + 1 < rows then t.text (r + 1) c else empty }

def State.previous (t : State α) : Option (Nat × Nat) :=
  if t.col ≠ 0 then some (t.row, t.col - 1) else if t.row ≠ 0 then some (t.row - 1, cols - 1) else none

def State.step (t : State α) : Key α → State α
  | .carriageReturn => { t with col := 0, wrapped := false }
  | .lineFeed => { if t.wrapped then t else t.nextLine rows empty with wrapped := false }
  | .tab =>
    let stop := (t.col / 8 + 1) * 8
    { if stop < cols then { t with col := stop } else t.nextLine rows empty with wrapped := false }
  | .backspace =>
    match t.previous cols with
    | some (row, col) => { t.put row col space with row := row, col := col, wrapped := false }
    | none => { t with wrapped := false }
  | .char v =>
    let t := t.put t.row t.col v
    if t.col + 1 < cols then { t with col := t.col + 1, wrapped := false }
    else { t.nextLine rows empty with wrapped := true }

/-- The terminal after some keys. -/
def State.run (t : State α) (keys : List (Key α)) : State α := keys.foldl (State.step cols rows empty space) t

end Terminal
