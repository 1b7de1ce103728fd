import Mathlib.Data.Int.Basic
import Mathlib.Tactic.Ring
import Mathlib.Tactic.Linarith

namespace Blit

variable {α : Type*} [Inhabited α]

def put (mem : Int → α) (a : Int) (bytes : List α) : Int → α :=
  fun x => if a ≤ x ∧ x < a + bytes.length then bytes.getD (x - a).toNat default else mem x

/-- `n` pixels of `k` bytes side by side. -/
def putRow (k : Nat) (px : Nat → List α) (fb : Int) : Nat → (Int → α) → Int → α
  | 0, mem => mem
  | n + 1, mem => put (putRow k px fb n mem) (fb + k * n) (px n)

/-- Rows of `n` pixels, each `line` bytes in front of the one before. -/
def putRows (k : Nat) (px : Nat → Nat → List α) (fb line : Int) (n : Nat) : Nat → (Int → α) → Int → α
  | 0, mem => mem
  | i + 1, mem => putRow k (px i) (fb - i * line) n (putRows k px fb line n i mem)

/-- The `w` by `h` pixels from column `x` and row `y` on show these pixels, and everything else is as it was. The
bytes of the raster are counted from its start, `adr` gives their addresses. -/
structure Shows {A : Type*} (adr : Nat → A) (k line x y w h : Nat) (px : Nat → Nat → List α) (mem mem' : A → α) :
    Prop where
  inside : ∀ r < h, ∀ c < w, ∀ t < k, mem' (adr ((y + r) * line + (x + c) * k + t)) = (px r c).getD t default
  outside : ∀ a, (∀ r < h, ∀ c < w, ∀ t < k, a ≠ adr ((y + r) * line + (x + c) * k + t)) → mem' a = mem a

variable {k : Nat} {mem : Int → α} {a x fb line : Int} {bytes : List α} {px : Nat → List α} {n : Nat}

theorem put_inside {t : Nat} (ht : t < bytes.length) : put mem a bytes (a + t) = bytes.getD t default := by
  unfold put
  rw [if_pos (by omega)]
  congr 1
  omega

theorem put_outside (h : x < a ∨ a + bytes.length ≤ x) : put mem a bytes x = mem x := if_neg (by omega)

theorem putRow_outside (hpx : ∀ j < n, (px j).length = k) (h : x < fb ∨ fb + k * n ≤ x) :
    putRow k px fb n mem x = mem x := by
  induction n with
  | zero => rfl
  | succ n ih =>
    have hsum : (k : Int) * (n + 1 : Nat) = k * n + k := by push_cast; ring
    rw [hsum] at h
    have hlen := hpx n (by omega)
    rw [putRow, put_outside, ih (fun j hj => hpx j (by omega)) (by omega)]
    rw [hlen]
    have hnn : (0 : Int) ≤ k * n := by positivity
    omega

theorem putRow_inside (hpx : ∀ j < n, (px j).length = k) {j t : Nat} (hj : j < n) (ht : t < k) :
    putRow k px fb n mem (fb + k * j + t) = (px j).getD t default := by
  induction n with
  | zero => omega
  | succ n ih =>
    have hlen := hpx n (by omega)
    rw [putRow]
    by_cases hlast : j = n
    · subst hlast
      exact put_inside (by omega)
    · have hbelow : (k : Int) * (j + 1 : Nat) ≤ k * n := by
        exact_mod_cast Nat.mul_le_mul_left k (by omega : j + 1 ≤ n)
      have hsum : (k : Int) * (j + 1 : Nat) = k * j + k := by push_cast; ring
      rw [put_outside (.inl (by omega)), ih (fun i hi => hpx i (by omega)) (by omega)]

variable {pxs : Nat → Nat → List α} {m : Nat}

theorem putRows_outside (hpx : ∀ i < m, ∀ j < n, (pxs i j).length = k)
    (h : ∀ i < m, x < fb - i * line ∨ fb - i * line + k * n ≤ x) : putRows k pxs fb line n m mem x = mem x := by
  induction m with
  | zero => rfl
  | succ m ih =>
    rw [putRows, putRow_outside (hpx m (by omega)) (h m (by omega)),
      ih (fun i hi => hpx i (by omega)) fun i hi => h i (by omega)]

theorem putRows_inside (hpx : ∀ i < m, ∀ j < n, (pxs i j).length = k) (hline : k * n ≤ line) {i j t : Nat}
    (hi : i < m) (hj : j < n) (ht : t < k) :
    putRows k pxs fb line n m mem (fb - i * line + k * j + t) = (pxs i j).getD t default := by
  induction m with
  | zero => omega
  | succ m ih =>
    rw [putRows]
    by_cases hlast : i = m
    · subst hlast
      exact putRow_inside (hpx i (by omega)) hj ht
    · have hrow : (k : Int) * j + k ≤ k * n := by
        have : (k : Int) * (j + 1 : Nat) ≤ k * n := by exact_mod_cast Nat.mul_le_mul_left k (by omega : j + 1 ≤ n)
        push_cast at this
        linarith [mul_one (k : Int), mul_add (k : Int) j 1]
      have hup : (i + 1 : Int) * line ≤ m * line := by
        refine mul_le_mul_of_nonneg_right (by exact_mod_cast (by omega : i + 1 ≤ m)) ?_
        exact le_trans (by positivity) hline
      have hsplit : (i + 1 : Int) * line = i * line + line := by ring
      have hnn : (0 : Int) ≤ k * j := by positivity
      rw [putRow_outside (hpx m (by omega)) (.inr (by omega)), ih (fun i hi => hpx i (by omega)) (by omega)]

theorem putRows_first (hpx : ∀ i < m, ∀ j < n, (pxs i j).length = k) (hline : k * n ≤ line) (hm : 0 < m) (hn : 0 < n)
    (hk : 0 < k) : putRows k pxs fb line n m mem fb = (pxs 0 0).getD 0 default := by
  have hfirst : putRows k pxs fb line n m mem (fb - (0 : Nat) * line + k * (0 : Nat) + (0 : Nat)) =
      (pxs 0 0).getD 0 default := putRows_inside hpx hline hm hn hk
  simpa using hfirst

theorem mul_add_inj {a a' q q' : Nat} (hq : q < n) (hq' : q' < n) (h : a * n + q = a' * n + q') :
    a = a' ∧ q = q' := by
  have hdiv := congrArg (· / n) h
  have hmod := congrArg (· % n) h
  simp only [Nat.mul_add_mod_self_right, Nat.mod_eq_of_lt hq, Nat.mod_eq_of_lt hq'] at hmod
  rw [mul_comm a, mul_comm a'] at hdiv
  simp only [Nat.mul_add_div (by omega : 0 < n), Nat.div_eq_of_lt hq, Nat.div_eq_of_lt hq', add_zero] at hdiv
  exact ⟨hdiv, hmod⟩

theorem cell_inj {len x y r r' c c' t t' : Nat} (hc : (x + c + 1) * k ≤ len) (hc' : (x + c' + 1) * k ≤ len)
    (ht : t < k) (ht' : t' < k) (h : (y + r) * len + (x + c) * k + t = (y + r') * len + (x + c') * k + t') :
    r = r' ∧ c = c' ∧ t = t' := by
  rw [add_mul, one_mul] at hc hc'
  rw [add_assoc, add_assoc ((y + r') * len)] at h
  obtain ⟨hrow, hin⟩ := mul_add_inj (by omega) (by omega) h
  obtain ⟨hcol, hbyte⟩ := mul_add_inj ht ht' hin
  exact ⟨by omega, by omega, hbyte⟩

theorem cell_lt {len x y r c t : Nat} (hr : y + r < n) (hc : (x + c + 1) * k ≤ len) (ht : t < k) :
    (y + r) * len + (x + c) * k + t < n * len := by
  have hrow := Nat.mul_le_mul_right len (show y + r + 1 ≤ n from hr)
  rw [add_mul _ 1, one_mul] at hrow hc
  omega

section Adr

variable {A : Type*} {adr : Nat → A} {len x y w h : Nat} {px px' : Nat → Nat → List α} {m m' m'' m₁ : A → α}

theorem Shows.congr (hpx : ∀ r < h, ∀ c < w, px r c = px' r c) (hs : Shows adr k len x y w h px m m') :
    Shows adr k len x y w h px' m m' where
  inside := fun r hr c hc t ht => by rw [← hpx r hr c hc, hs.inside r hr c hc t ht]
  outside := hs.outside

theorem Shows.pixel_unique {r c : Nat} (hs : Shows adr k len x y w h px m m')
    (hs' : Shows adr k len x y w h px' m₁ m') (hr : r < h) (hc : c < w) (hlen : (px r c).length = k)
    (hlen' : (px' r c).length = k) : px r c = px' r c := by
  refine List.ext_getElem (hlen.trans hlen'.symm) fun t ht ht' => ?_
  have h₁ := hs.inside r hr c hc t (by omega)
  have h₂ := hs'.inside r hr c hc t (by omega)
  rw [List.getD_eq_getElem?_getD, List.getElem?_eq_getElem ht] at h₁
  rw [List.getD_eq_getElem?_getD, List.getElem?_eq_getElem ht'] at h₂
  exact h₁.symm.trans h₂

end Adr

theorem putRows_shows {len x y w h : Nat} (hpx : ∀ i < h, ∀ j < w, (pxs i j).length = k) (hline : k * w ≤ len)
    (hh : 0 < h) : Shows (Nat.cast : Nat → Int) k len x y w h (fun r c => pxs (h - 1 - r) c) mem
      (putRows k pxs (((y + h - 1) * len + x * k : Nat) : Int) len w h mem) := by
  have hplace : ∀ r < h, ∀ c t : Nat, (((y + r) * len + (x + c) * k + t : Nat) : Int) =
      (((y + h - 1) * len + x * k : Nat) : Int) - ((h - 1 - r : Nat) : Int) * len + k * c + t := by
    intro r hr c t
    obtain ⟨d, rfl⟩ : ∃ d, h = r + 1 + d := ⟨h - 1 - r, by omega⟩
    rw [show y + (r + 1 + d) - 1 = y + r + d from by omega, show r + 1 + d - 1 - r = d from by omega]
    push_cast
    ring
  constructor
  · intro r hr c hc t ht
    rw [hplace r hr c t]
    exact putRows_inside hpx (by exact_mod_cast hline) (by omega) hc ht
  · intro a ha
    refine putRows_outside hpx fun i hi => ?_
    by_contra hno
    obtain ⟨hlo, hhi⟩ := not_or.mp hno
    rw [not_lt] at hlo
    rw [not_le] at hhi
    obtain ⟨d, hd⟩ := Int.eq_ofNat_of_zero_le (sub_nonneg.mpr hlo)
    have hdlt : d < k * w := by
      have : (d : Int) < (k : Int) * w := by omega
      exact_mod_cast this
    have hk : 0 < k := by
      rcases Nat.eq_zero_or_pos k with h0 | h0
      · rw [h0, zero_mul] at hdlt
        omega
      · exact h0
    have hc : d / k < w := Nat.div_lt_of_lt_mul hdlt
    refine ha (h - 1 - i) (by omega) (d / k) hc (d % k) (Nat.mod_lt d hk) ?_
    rw [hplace (h - 1 - i) (by omega), show h - 1 - (h - 1 - i) = i from by omega]
    have hdiv : ((k * (d / k) + d % k : Nat) : Int) = d := by exact_mod_cast Nat.div_add_mod d k
    rw [Nat.cast_add, Nat.cast_mul] at hdiv
    omega

section Writes

variable {A β : Type*}

/-- A memory after some writes: what was written has a value that was written there, everything else is as it was. -/
structure Writes (W : A → β → Prop) (mem mem' : A → β) : Prop where
  kept : ∀ a, (∀ v, ¬W a v) → mem' a = mem a
  written : ∀ a v, W a v → W a (mem' a)

variable {W W' : A → β → Prop} {m m' m'' : A → β}

theorem Writes.none (h : ∀ a v, ¬W a v) : Writes W m m := ⟨fun _ _ => rfl, fun a v hv => absurd hv (h a v)⟩

theorem Writes.trans (hm : Writes W m m') (hm' : Writes W' m' m'') :
    Writes (fun a v => W a v ∨ W' a v) m m'' where
  kept := fun a ha => by
    rw [hm'.kept a fun v hv => ha v (.inr hv), hm.kept a fun v hv => ha v (.inl hv)]
  written := fun a v hv => by
    by_cases hlast : ∃ u, W' a u
    · obtain ⟨u, hu⟩ := hlast
      exact .inr (hm'.written a u hu)
    · rw [hm'.kept a fun u hu => hlast ⟨u, hu⟩]
      exact .inl (hm.written a v (hv.resolve_right fun hu => hlast ⟨v, hu⟩))

theorem Writes.congr (hW : ∀ a v, W a v ↔ W' a v) (hm : Writes W m m') : Writes W' m m' where
  kept := fun a ha => hm.kept a fun v hv => ha v ((hW a v).mp hv)
  written := fun a v hv => (hW a _).mp (hm.written a v ((hW a v).mpr hv))

theorem Writes.rounds {V : Nat → A → β → Prop} {p : Nat → A → β}
    (h : ∀ i < n, Writes (V i) (p i) (p (i + 1))) : Writes (fun a v => ∃ i < n, V i a v) (p 0) (p n) := by
  induction n with
  | zero =>
    refine Writes.none ?_
    rintro a v ⟨i, hi, -⟩
    omega
  | succ n ih =>
    refine Writes.congr (fun a v => ?_) ((ih fun i hi => h i (by omega)).trans (h n (by omega)))
    constructor
    · rintro (⟨i, hi, hv⟩ | hv)
      · exact ⟨i, by omega, hv⟩
      · exact ⟨n, by omega, hv⟩
    · rintro ⟨i, hi, hv⟩
      by_cases hlast : i = n
      · subst hlast
        exact .inr hv
      · exact .inl ⟨i, by omega, hv⟩

theorem Writes.only {a : A} {v : β} (hm : Writes W m m') (hv : W a v) (hone : ∀ u, W a u → u = v) : m' a = v :=
  hone _ (hm.written a v hv)

theorem Writes.changed {a : A} (hm : Writes W m m') (h : m' a ≠ m a) : W a (m' a) := by
  by_cases hw : ∃ v, W a v
  · obtain ⟨v, hv⟩ := hw
    exact hm.written a v hv
  · exact absurd (hm.kept a fun v hv => hw ⟨v, hv⟩) h

end Writes

end Blit
