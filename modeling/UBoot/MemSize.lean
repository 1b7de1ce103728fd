import Mathlib.Algebra.Order.Group.Nat
import UBoot.Cells
import UBoot.Scatter

namespace UBoot.MemSize

open UndoLog

abbrev Ram := Nat → UInt32

/-- `*(base + cnt)` -/
def load (r : Nat) (m : Ram) (cnt : Nat) : UInt32 := m (cnt % 2 ^ r)

def store (r : Nat) (m : Ram) (cnt : Nat) (v : UInt32) : Ram := Function.update m (cnt % 2 ^ r) v

def mark (cnt : Nat) : UInt32 := ~~~UInt32.ofNat cnt

/-- The first loop: `i`, `save` and the memory behind it. -/
def probeLoop (r : Nat) : Nat → Nat → Nat → List UInt32 → Ram → Option (Nat × List UInt32 × Ram)
  | 0, _, _, _, _ => none
  | fuel + 1, cnt, i, save, m =>
    if cnt = 0 then some (i, save, m)
    else do
      let save ← Cells.store save i (load r m cnt)
      probeLoop r fuel (cnt / 2) (i + 1) save (store r m cnt (mark cnt))

/-- `save[--i]` -/
def pull (save : List UInt32) : Nat → Option UInt32
  | 0 => none
  | i + 1 => save[i]?

/-- The loops that restore the data before the function is left. -/
def restoreLoop (r longs : Nat) (save : List UInt32) : Nat → Nat → Nat → Ram → Option Ram
  | 0, _, _, _ => none
  | fuel + 1, cnt, i, m =>
    if cnt < longs then do
      let v ← pull save i
      restoreLoop r longs save fuel (cnt * 2) (i - 1) (store r m cnt v)
    else some m

/-- The last loop, up to what is returned. -/
def checkLoop (r maxsize : Nat) (save : List UInt32) : Nat → Nat → Nat → Ram → Option (Nat × Ram)
  | 0, _, _, _ => none
  | fuel + 1, cnt, i, m =>
    if cnt < maxsize / 4 then do
      let v ← pull save i
      let restored := store r m cnt v
      if load r m cnt ≠ mark cnt then do
        let m ← restoreLoop r (maxsize / 4) save fuel (cnt * 2) (i - 1) restored
        pure (cnt * 4, m)
      else checkLoop r maxsize save fuel (cnt * 2) (i - 1) restored
    else some (maxsize, m)

/-- `get_ram_size`: the size and the memory it leaves. `save` has room for 32 longs, and no loop takes as many rounds. -/
def getRamSize (r : Nat) (m : Ram) (maxsize : Nat) : Option (Nat × Ram) := do
  let (i, save, m) ← probeLoop r 33 (maxsize / 4 / 2) 0 (List.replicate 32 0) m
  let save ← Cells.store save i (load r m 0)
  let m := store r m 0 0
  if load r m 0 ≠ 0 then do
    let v ← save[i]?
    let m ← restoreLoop r (maxsize / 4) save 33 1 i (store r m 0 v)
    pure (0, m)
  else checkLoop r maxsize save 33 1 i m

def probes (r : Nat) : Nat → List (Nat × UInt32)
  | 0 => []
  | k + 1 => (2 ^ k % 2 ^ r, mark (2 ^ k)) :: probes r k

variable {r k e : Nat} {m m' : Ram} {save : List UInt32}

theorem probes_length (r k : Nat) : (probes r k).length = k := by
  induction k with
  | zero => rfl
  | succ k ih => exact congrArg (· + 1) ih

theorem mem_probes {x : Nat} : x ∈ (probes r k).map Prod.fst ↔ ∃ e, e < k ∧ x = 2 ^ e % 2 ^ r := by
  induction k with
  | zero => simp [probes]
  | succ k ih =>
    rw [probes, List.map_cons, List.mem_cons, ih]
    constructor
    · rintro (rfl | ⟨e, he, rfl⟩)
      · exact ⟨k, Nat.lt_succ_self k, rfl⟩
      · exact ⟨e, by omega, rfl⟩
    · rintro ⟨e, he, rfl⟩
      rcases Nat.lt_succ_iff_lt_or_eq.mp he with he | rfl
      · exact .inr ⟨e, he, rfl⟩
      · exact .inl rfl

theorem place_of_lt (h : e < r) : 2 ^ e % 2 ^ r = 2 ^ e :=
  Nat.mod_eq_of_lt (Nat.pow_lt_pow_right (by omega) h)

theorem place_of_ge (h : r ≤ e) : 2 ^ e % 2 ^ r = 0 := Nat.mod_eq_zero_of_dvd (Nat.pow_dvd_pow 2 h)

theorem zero_probed : 0 ∈ (probes r k).map Prod.fst ↔ r < k := by
  rw [mem_probes]
  constructor
  · rintro ⟨e, he, h0⟩
    by_contra hge
    have hpos := Nat.two_pow_pos e
    rw [place_of_lt (by omega)] at h0
    omega
  · exact fun h => ⟨r, h, (place_of_ge le_rfl).symm⟩

theorem writes_probes (he : e < k) (hr : e < r) : writes (probes r k) m (2 ^ e) = mark (2 ^ e) := by
  induction k generalizing m with
  | zero => omega
  | succ k ih =>
    rw [probes, writes]
    by_cases hlast : e = k
    · subst e
      have hout : 2 ^ k ∉ (probes r k).map Prod.fst := by
        rw [mem_probes]
        rintro ⟨j, hj, heq⟩
        have hlt : 2 ^ j < 2 ^ k := Nat.pow_lt_pow_right (by omega) hj
        have hle := Nat.mod_le (2 ^ j) (2 ^ r)
        omega
      rw [writes_outside hout, place_of_lt hr, Function.update_self]
    · exact ih (by omega)

theorem not_restored {x : Nat} (hx : x = 2 ^ e % 2 ^ r) (he : e ≤ r) : x ∉ (probes r e).map Prod.fst := by
  rw [mem_probes]
  rintro ⟨j, hj, heq⟩
  rw [place_of_lt (by omega : j < r)] at heq
  have hpos := Nat.two_pow_pos j
  rcases Nat.lt_or_eq_of_le he with hlt | rfl
  · rw [place_of_lt hlt] at hx
    have hpow : 2 ^ j < 2 ^ e := Nat.pow_lt_pow_right (by omega) hj
    omega
  · rw [place_of_ge le_rfl] at hx
    omega

theorem mark_ne_zero {cnt : Nat} (h : cnt < 2 ^ 32 - 1) : mark cnt ≠ 0 := by
  intro hzero
  have hbits : UInt32.ofNat cnt = ~~~(0 : UInt32) := by rw [← hzero, mark, UInt32.not_not]
  have hnat := congrArg UInt32.toNat hbits
  have hones : (~~~(0 : UInt32)).toNat = 2 ^ 32 - 1 := by decide
  rw [UInt32.toNat_ofNat', Nat.mod_eq_of_lt (by omega), hones] at hnat
  omega

theorem half_pow (k : Nat) : 2 ^ (k + 1) / 2 = 2 ^ k := by
  rw [pow_succ, Nat.mul_div_cancel _ (by omega)]

theorem probeLoop_eq {fuel i : Nat} (hk : k < fuel) : probeLoop r fuel (2 ^ k / 2) i save m =
    (Cells.storeAll save i (displaced (probes r k) m)).map fun save => (i + k, save, writes (probes r k) m) := by
  induction k generalizing fuel i save m with
  | zero =>
    obtain ⟨fuel, rfl⟩ : ∃ n, fuel = n + 1 := ⟨fuel - 1, by omega⟩
    rfl
  | succ k ih =>
    obtain ⟨fuel, rfl⟩ : ∃ n, fuel = n + 1 := ⟨fuel - 1, by omega⟩
    have hpos := Nat.two_pow_pos k
    rw [half_pow, probeLoop, if_neg (by omega), probes, displaced, writes, Cells.storeAll]
    unfold load
    cases hstore : Cells.store save i (m (2 ^ k % 2 ^ r)) with
    | none => rfl
    | some save' =>
      have hcount : i + 1 + k = i + (k + 1) := by omega
      rw [Option.bind_eq_bind, Option.bind_some, Option.bind_eq_bind, Option.bind_some, ih (by omega), hcount]
      rfl

/-- What the loops that restore the data start from: the values saved, last the first long, and the memory. -/
structure Probed (r k : Nat) (m m' : Ram) (save : List UInt32) : Prop where
  values : ∃ rest, save = displaced (probes r k) m ++ rest
  marks : ∀ e, e < k → e < r → m' (2 ^ e) = mark (2 ^ e)
  first : m' 0 = 0

/-- The memory when the offsets below `2 ^ e` have been restored. -/
def restored (r k : Nat) (m m' : Ram) (e : Nat) : Ram :=
  undo ((probes r e).map Prod.fst) ((displaced (probes r k) m).drop (k - e)) m'

theorem restored_zero : restored r k m m' 0 = m' := by
  unfold restored
  rw [probes, List.map_nil, undo]
  intros
  contradiction

theorem Probed.pull (h : Probed r k m m' save) (he : e < k) :
    ∃ v, pull save (k - e) = some v ∧ store r (restored r k m m' e) (2 ^ e) v = restored r k m m' (e + 1) := by
  obtain ⟨rest, hsave⟩ := h.values
  have hlen : (displaced (probes r k) m).length = k := (displaced_length _).trans (probes_length r k)
  obtain ⟨i, hi⟩ : ∃ i, k - e = i + 1 := ⟨k - e - 1, by omega⟩
  have hprev : k - (e + 1) = i := by omega
  have hin : i < (displaced (probes r k) m).length := by omega
  refine ⟨(displaced (probes r k) m)[i], ?_, ?_⟩
  · rw [hi, MemSize.pull, hsave, List.getElem?_append_left hin]
    exact List.getElem?_eq_getElem hin
  · unfold restored store
    rw [probes, List.map_cons, hprev, List.drop_eq_getElem_cons hin, undo, hi]

theorem Probed.restoreLoop (h : Probed r k m m' save) {n : Nat} (he : e ≤ k) (hf : k < e + n) :
    restoreLoop r (2 ^ k) save n (2 ^ e) (k - e) (restored r k m m' e) = some (restored r k m m' k) := by
  induction n generalizing e with
  | zero => omega
  | succ n ih =>
    rw [MemSize.restoreLoop]
    rcases Nat.lt_or_eq_of_le he with hlt | rfl
    · obtain ⟨v, hv, hstore⟩ := h.pull hlt
      have hpow : 2 ^ e < 2 ^ k := Nat.pow_lt_pow_right (by omega) hlt
      have hi : k - e - 1 = k - (e + 1) := by omega
      rw [if_pos hpow, hv, Option.bind_eq_bind, Option.bind_some, hstore, ← pow_succ, hi]
      exact ih (by omega) (by omega)
    · rw [if_neg (lt_irrefl _)]

theorem longs_eq (k : Nat) : 4 * 2 ^ k / 4 = 2 ^ k := Nat.mul_div_cancel_left _ (by omega)

theorem Probed.load (h : Probed r k m m' save) (he : e ≤ r) (hk : e < k) (hlong : 4 * 2 ^ k < 2 ^ 31) :
    load r (restored r k m m' e) (2 ^ e) = mark (2 ^ e) ↔ e < r := by
  have hplace : restored r k m m' e (2 ^ e % 2 ^ r) = m' (2 ^ e % 2 ^ r) := by
    unfold restored
    exact undo_outside (not_restored rfl he)
  unfold MemSize.load
  rw [hplace]
  constructor
  · intro hmark
    by_contra hge
    rw [place_of_ge (by omega), h.first] at hmark
    have hpow : 2 ^ e < 2 ^ k := Nat.pow_lt_pow_right (by omega) hk
    exact mark_ne_zero (by omega) hmark.symm
  · intro hlt
    rw [place_of_lt hlt]
    exact h.marks e hk hlt

theorem Probed.checkLoop (h : Probed r k m m' save) {n : Nat} (her : e ≤ r) (he : e ≤ k) (hf : k < e + n)
    (hlong : 4 * 2 ^ k < 2 ^ 31) :
    checkLoop r (4 * 2 ^ k) save n (2 ^ e) (k - e) (restored r k m m' e) =
      some (min (4 * 2 ^ r) (4 * 2 ^ k), restored r k m m' k) := by
  induction n generalizing e with
  | zero => omega
  | succ n ih =>
    rw [MemSize.checkLoop, longs_eq]
    rcases Nat.lt_or_eq_of_le he with hlt | rfl
    · obtain ⟨v, hv, hstore⟩ := h.pull hlt
      have hpow : 2 ^ e < 2 ^ k := Nat.pow_lt_pow_right (by omega) hlt
      have hi : k - e - 1 = k - (e + 1) := by omega
      rw [if_pos hpow, hv, Option.bind_eq_bind, Option.bind_some, hstore, ← pow_succ, hi]
      by_cases hin : e < r
      · rw [if_neg (not_not.mpr ((h.load her hlt hlong).mpr hin))]
        exact ih (by omega) (by omega) (by omega)
      · have hre : r = e := by omega
        subst hre
        rw [if_pos (fun hmark => hin ((h.load her hlt hlong).mp hmark)), h.restoreLoop (by omega) (by omega),
          min_eq_left (by omega), mul_comm 4]
        rfl
    · have hle : 2 ^ e ≤ 2 ^ r := Nat.pow_le_pow_right (by omega) her
      rw [if_neg (lt_irrefl _), min_eq_right (by omega)]

theorem restored_all : restored r k m (store r (writes (probes r k) m) 0 0) k =
    if r < k then m else Function.update m 0 0 := by
  have hzero : (0 : Nat) % 2 ^ r = 0 := Nat.zero_mod _
  funext x
  unfold restored store
  rw [Nat.sub_self, List.drop_zero, undo_apply, hzero]
  by_cases hx : x ∈ (probes r k).map Prod.fst
  · rw [if_pos hx]
    split
    · rfl
    next hge =>
      have hne : x ≠ 0 := by
        rintro rfl
        exact hge (zero_probed.mp hx)
      rw [Function.update_of_ne hne]
  · rw [if_neg hx]
    by_cases h0 : x = 0
    · subst x
      rw [Function.update_self, if_neg fun hlt => hx (zero_probed.mpr hlt), Function.update_self]
    · rw [Function.update_of_ne h0, writes_outside hx]
      split
      · rfl
      · rw [Function.update_of_ne h0]

theorem getRamSize_eq (r : Nat) (m : Ram) (hlong : 4 * 2 ^ k < 2 ^ 31) : getRamSize r m (4 * 2 ^ k) =
      some (min (4 * 2 ^ r) (4 * 2 ^ k), if r < k then m else Function.update m 0 0) := by
  have hk : k < 29 := by
    by_contra hge
    have hle : 2 ^ 29 ≤ 2 ^ k := Nat.pow_le_pow_right (by omega) (Nat.le_of_not_lt hge)
    omega
  have hlen : (displaced (probes r k) m).length = k := (displaced_length _).trans (probes_length r k)
  -- the displaced values fill the array up to the place for the first long
  have hfill : Cells.storeAll (List.replicate 32 0) 0 (displaced (probes r k) m) =
      some (displaced (probes r k) m ++ 0 :: List.replicate (31 - k) 0) := by
    rw [Cells.storeAll_eq_splice (by rw [List.length_replicate]; omega), Cells.splice, hlen, List.take_zero,
      List.nil_append, zero_add, List.drop_replicate, ← List.replicate_succ]
    congr 3
    omega
  have hlast := Cells.store_at (p := displaced (probes r k) m) (q := List.replicate (31 - k) 0) (y := 0)
    (load r (writes (probes r k) m) 0)
  rw [hlen] at hlast
  have hzero : (0 : Nat) % 2 ^ r = 0 := Nat.zero_mod _
  have hread : load r (store r (writes (probes r k) m) 0 0) 0 = 0 := by
    unfold load store
    rw [hzero, Function.update_self]
  have hprobed : Probed r k m (store r (writes (probes r k) m) 0 0)
      (displaced (probes r k) m ++ load r (writes (probes r k) m) 0 :: List.replicate (31 - k) 0) := by
    refine ⟨⟨_, rfl⟩, fun e he hr => ?_, hread⟩
    have hpos := Nat.two_pow_pos e
    unfold store
    rw [hzero, Function.update_of_ne (by omega), writes_probes he hr]
  have hcheck := hprobed.checkLoop (e := 0) (n := 33) (by omega) (by omega) (by omega) hlong
  rw [restored_zero, pow_zero, Nat.sub_zero] at hcheck
  rw [getRamSize, longs_eq, probeLoop_eq (by omega), hfill, Option.map_some, Option.bind_eq_bind, Option.bind_some]
  dsimp only
  rw [zero_add, hlast, Option.bind_eq_bind, Option.bind_some, if_neg (not_not.mpr hread), hcheck, restored_all]

/-- The size is always right, but the memory is as it was only if it is smaller than the window or begins with zero. -/
theorem get_ram_size_restores_iff (r k : Nat) (m : Ram) (hlong : 4 * 2 ^ k < 2 ^ 31) :
    getRamSize r m (4 * 2 ^ k) = some (min (4 * 2 ^ r) (4 * 2 ^ k), m) ↔ r < k ∨ m 0 = 0 := by
  rw [getRamSize_eq r m hlong, Option.some.injEq, Prod.mk.injEq]
  constructor
  · rintro ⟨-, hm⟩
    by_contra hno
    rw [not_or] at hno
    rw [if_neg hno.1] at hm
    have hfirst := congrFun hm 0
    rw [Function.update_self] at hfirst
    exact hno.2 hfirst.symm
  · intro h
    refine ⟨rfl, ?_⟩
    split
    · rfl
    next hge =>
      rw [← h.resolve_left hge]
      exact Function.update_eq_self 0 m

/-- A memory of one long behind a window of two. -/
theorem get_ram_size_restores_one : getRamSize 0 (fun _ => 7) (4 * 2 ^ 1) = some (min (4 * 2 ^ 0) (4 * 2 ^ 1), fun _ => 7) :=
  (get_ram_size_restores_iff 0 1 (fun _ => 7) (by decide)).mpr (.inl (by decide))

/-- Where the memory fills the window its first long is lost. -/
theorem first_long_lost : ¬∀ (r k : Nat) (m : Ram), 1 ≤ k → 4 * 2 ^ k < 2 ^ 31 → r ≤ k →
    getRamSize r m (4 * 2 ^ k) = some (min (4 * 2 ^ r) (4 * 2 ^ k), m) := by
  intro h
  have hm := h 1 1 (fun _ => 7) le_rfl (by decide) le_rfl
  have hfirst := congrArg (fun x => (x.map fun y => y.2 0)) hm
  revert hfirst
  decide

end UBoot.MemSize
