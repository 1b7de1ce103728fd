import Mathlib.Data.List.Basic
import Mathlib.Data.List.GetD
import Mathlib.Data.List.Range

namespace FlashCells

open List

variable {bs : List UInt8}

abbrev Flash := Nat → UInt8

/-- `n` bytes from `a` on replaced by those of `g`. -/
def patch (m : Flash) (a n : Nat) (g : Flash) : Flash :=
  fun x => if a ≤ x ∧ x < a + n then g x else m x

def erase (m : Flash) (a n : Nat) : Flash := patch m a n fun _ => 0xff

def program (m : Flash) (a : Nat) (bs : List UInt8) : Flash :=
  patch m a bs.length fun x => m x &&& bs.getD (x - a) 0xff

def store (m : Flash) (a : Nat) (bs : List UInt8) : Flash :=
  patch m a bs.length fun x => bs.getD (x - a) 0xff

def read (m : Flash) (a n : Nat) : List UInt8 := (List.range n).map fun i => m (a + i)

def Blank (m : Flash) (a n : Nat) : Prop := ∀ i, i < n → m (a + i) = 0xff

variable {g : Flash}

theorem patch_outside {m : Flash} {a n x : Nat} (h : x < a ∨ a + n ≤ x) : patch m a n g x = m x := by
  have hx : ¬(a ≤ x ∧ x < a + n) := by omega
  simp [patch, hx]

theorem erase_outside {m : Flash} {a n x : Nat} (h : x < a ∨ a + n ≤ x) : erase m a n x = m x :=
  patch_outside h

theorem program_outside {m : Flash} {a x : Nat} (h : x < a ∨ a + bs.length ≤ x) : program m a bs x = m x :=
  patch_outside h

theorem store_outside {m : Flash} {a x : Nat} (h : x < a ∨ a + bs.length ≤ x) : store m a bs x = m x :=
  patch_outside h

theorem patch_inside {m : Flash} {a n x : Nat} (h : a ≤ x) (hx : x < a + n) :
    patch m a n g x = g x := if_pos ⟨h, hx⟩

theorem patch_append (m g : Flash) (a j k : Nat) :
    patch (patch m a j g) (a + j) k g = patch m a (j + k) g := by
  funext x
  simp only [patch]
  split
  next h => rw [if_pos (by omega)]
  next h =>
    split
    next h' => rw [if_pos (by omega)]
    next h' => rw [if_neg (by omega)]

theorem erase_blank (m : Flash) (a n : Nat) : Blank (erase m a n) a n := by
  intro i hi
  have hx : a ≤ a + i ∧ a + i < a + n := by omega
  simp [erase, patch, hx]

theorem Blank.congr {m m' : Flash} {a n : Nat} (h : Blank m a n)
    (he : ∀ i, i < n → m' (a + i) = m (a + i)) : Blank m' a n :=
  fun i hi => (he i hi).trans (h i hi)

theorem Blank.mono {m : Flash} {a n k : Nat} (h : Blank m a n) (hk : k ≤ n) : Blank m a k :=
  fun i hi => h i (by omega)

@[simp] theorem read_length (m : Flash) (a n : Nat) : (read m a n).length = n := by simp [read]

theorem read_congr {m m' : Flash} {a b n : Nat} (h : ∀ i, i < n → m (a + i) = m' (b + i)) :
    read m a n = read m' b n := by
  unfold read
  exact map_congr_left fun i hi => h i (mem_range.mp hi)

theorem read_append (m : Flash) (a j k : Nat) : read m a (j + k) = read m a j ++ read m (a + j) k := by
  simp [read, range_add, Nat.add_assoc]

theorem take_drop_read (m : Flash) {c a b total : Nat} (h : a + b ≤ total) :
    ((read m c total).drop a).take b = read m (c + a) b := by
  obtain ⟨rest, rfl⟩ : ∃ rest, total = a + (b + rest) := ⟨total - a - b, by omega⟩
  rw [read_append, read_append, drop_left' (read_length m c a), take_left' (read_length m _ b)]

theorem getD_read {m : Flash} {a n i : Nat} (h : i < n) (d : UInt8) : (read m a n).getD i d = m (a + i) := by
  simp [read, List.getD, h]

theorem patch_congr {m g' : Flash} {a n : Nat} (h : ∀ x, a ≤ x → x < a + n → g x = g' x) :
    patch m a n g = patch m a n g' := by
  funext x
  simp only [patch]
  split
  next hx => exact h x hx.1 hx.2
  · rfl

theorem store_read (m f : Flash) (a b n : Nat) :
    store m a (read f b n) = patch m a n fun x => f (b + (x - a)) := by
  unfold store
  rw [read_length]
  apply patch_congr
  intro x hx hlt
  exact getD_read (by omega) _

theorem patch_split {m g g₁ g₂ : Flash} {a j k : Nat} (hfirst : ∀ x, a ≤ x → x < a + j → g x = g₁ x)
    (hnext : ∀ x, a + j ≤ x → x < a + j + k → g x = g₂ x) :
    patch m a (j + k) g = patch (patch m a j g₁) (a + j) k g₂ := by
  rw [← patch_append, patch_congr hfirst, patch_congr hnext]

theorem program_append (m : Flash) (a : Nat) (bs cs : List UInt8) :
    program m a (bs ++ cs) = program (program m a bs) (a + bs.length) cs := by
  unfold program
  rw [length_append]
  refine patch_split (fun x h₁ h₂ => ?_) fun x h₁ h₂ => ?_
  · rw [getD_append _ _ _ _ (by omega)]
  · rw [patch_outside (.inr h₁), getD_append_right _ _ _ _ (by omega), Nat.sub_sub]

theorem read_patch (m g : Flash) (a n : Nat) : read (patch m a n g) a n = read g a n := by
  apply read_congr
  intro i hi
  exact patch_inside (by omega) (by omega)

theorem read_store_outside {m : Flash} {a b k : Nat} (h : b + k ≤ a ∨ a + bs.length ≤ b) :
    read (store m a bs) b k = read m b k :=
  read_congr fun i hi => store_outside (by omega)

theorem read_store (m : Flash) (a : Nat) (bs : List UInt8) : read (store m a bs) a bs.length = bs := by
  apply ext_getElem (read_length _ _ _)
  intro i hi hb
  simp [read, store, patch, List.getD, hb]

theorem store_append (m : Flash) (a : Nat) (bs cs : List UInt8) :
    store m a (bs ++ cs) = store (store m a bs) (a + bs.length) cs := by
  unfold store
  rw [length_append]
  refine patch_split (fun x h₁ h₂ => ?_) fun x h₁ h₂ => ?_
  · rw [getD_append _ _ _ _ (by omega)]
  · rw [getD_append_right _ _ _ _ (by omega), Nat.sub_sub]

theorem read_eq_append {m : Flash} {a : Nat} {cs : List UInt8} : read m a (bs ++ cs).length = bs ++ cs ↔
      read m a bs.length = bs ∧ read m (a + bs.length) cs.length = cs := by
  rw [length_append, read_append]
  constructor
  · exact fun h => append_inj h (read_length _ _ _)
  · rintro ⟨hb, hc⟩
    rw [hb, hc]

theorem read_pages (m : Flash) (size k : Nat) :
    (List.range k).flatMap (fun i => read m (i * size) size) = read m 0 (k * size) := by
  induction k with
  | zero => simp [read]
  | succ k ih =>
    rw [range_succ, flatMap_append, ih, flatMap_singleton, Nat.succ_mul, read_append,
      Nat.zero_add]

theorem program_read {m f : Flash} {a b n x : Nat} (ha : a ≤ x) (hx : x < a + n) :
    program m a (read f b n) x = m x &&& f (b + (x - a)) := by
  have hlen : x < a + (read f b n).length := by
    rw [read_length]
    exact hx
  rw [program, patch_inside ha hlen, getD_read (by omega)]

theorem program_blank {m : Flash} {a : Nat} (h : Blank m a bs.length) : program m a bs = store m a bs := by
  apply patch_congr
  intro x hx hlt
  have hm := h (x - a) (by omega)
  rw [Nat.add_sub_cancel' hx] at hm
  rw [hm]
  exact UInt8.neg_one_and

theorem read_program {m : Flash} {a : Nat} (h : Blank m a bs.length) :
    read (program m a bs) a bs.length = bs := by
  rw [program_blank h, read_store]

end FlashCells
