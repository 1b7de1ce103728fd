import Mathlib.Data.List.Basic

namespace UBoot.Update

open List

/-- A bank of `flash_info`: where its sectors start, and its size. -/
structure Bank where
  start : List Nat
  size : Nat

def Bank.base (b : Bank) : Nat := b.start.headD 0

def spans (stop : Nat) : List Nat → List (Nat × Nat)
  | [] => []
  | [s] => [(s, stop - 1)]
  | s :: t :: rest => (s, t - 1) :: spans stop (t :: rest)

def Bank.sectors (b : Bank) : List (Nat × Nat) := spans (b.base + b.size) b.start

/-- The sectors of a bank are in order, and inside it. -/
structure Bank.Whole (b : Bank) : Prop where
  sectors : b.start ≠ []
  ascending : b.start.Pairwise (· < ·)
  below : ∀ s ∈ b.start, s < b.base + b.size

/-- `flash_info`: banks that follow each other without a gap, and `missing` places without a bank. -/
structure Table where
  banks : List Bank
  missing : Nat
  whole : ∀ b ∈ banks, b.Whole
  contiguous : banks.IsChain fun a b => a.base + a.size = b.base
  addressable : ∀ b ∈ banks, b.base + b.size ≤ 4294967296

def Table.flashInfo (t : Table) : List Bank := t.banks ++ List.replicate t.missing ⟨[], 0⟩

/-- `info->protect` by bank and sector. -/
abbrev Protection := Nat → Nat → Bool

def setAt (p : Protection) (bank sect : Nat) (v : Bool) : Protection :=
  fun b i => if b = bank ∧ i = sect then v else p b i

/-- What succeeds: the allocation, changing the protection of each sector, the erase and the write. -/
structure Faults where
  calloc : Bool
  unprotect : Nat → Nat → Bool
  protect : Nat → Nat → Bool
  erase : Bool
  write : Bool

/-- The protection of the sectors, and `saved_prot_info`. -/
structure State where
  protect : Protection
  saved : Protection

variable (can : Nat → Nat → Bool) (prot : Bool)

/-- The loop over the sectors of a bank from the sector of index `i` on; `prot` is what they are set to. -/
def sectorLoop (bank addrFirst addrLast : Nat) : Nat → List Nat → State → Except State State
  | _, [], s => .ok s
  | i, start :: rest, s =>
    let saved := if !prot && decide (addrFirst ≤ start ∧ start ≤ addrLast) then
      setAt s.saved bank i (s.protect bank i) else s.saved
    if saved bank i then
      if can bank i then sectorLoop bank addrFirst addrLast (i + 1) rest ⟨setAt s.protect bank i prot, saved⟩
      else .error ⟨s.protect, saved⟩
    else sectorLoop bank addrFirst addrLast (i + 1) rest ⟨s.protect, saved⟩

/-- The loop over the banks, with whether it comes to its end; a missing bank ends the function. -/
def bankLoop : Nat → List Bank → Nat → Nat → State → Except State (State × Bool)
  | _, [], _, _, s => .ok (s, true)
  | bank, b :: banks, addrFirst, addrLast, s =>
    if b.start = [] then .ok (s, false)
    else do
      let addrLast := if b.base + b.size - 1 < addrLast then b.base + b.size - 1 else addrLast
      let addrFirst := if addrFirst < b.base then b.base else addrFirst
      let s ← sectorLoop can prot bank addrFirst addrLast 0 b.start s
      bankLoop (bank + 1) banks addrFirst addrLast s

/-- What a call leaves: its result, the protection, how often `saved_prot_info` was allocated and freed, and
the protection while sectors were erased and written. -/
structure Outcome where
  result : Nat
  protect : Protection
  allocated : Nat
  freed : Nat
  during : List Protection

def flashSectRoundb (t : Table) (addr : Nat) : Option Nat :=
  ((t.flashInfo.flatMap Bank.sectors).find? fun s => decide (addr ≤ s.2 ∧ s.1 ≤ addr)).map Prod.snd

def updateFlash (t : Table) (f : Faults) (p : Protection) (addrFirst size : Nat) : Outcome :=
  match flashSectRoundb t (addrFirst + size - 1) with
  | none => ⟨1, p, 0, 0, []⟩
  | some addrLast =>
    if addrLast ≤ addrFirst then ⟨1, p, 0, 0, []⟩
    else if !f.calloc then ⟨1, p, 0, 0, []⟩
    else
      match bankLoop f.unprotect false 0 t.flashInfo addrFirst addrLast ⟨p, fun _ _ => false⟩ with
      | .error s => ⟨1, s.protect, 1, 0, []⟩
      | .ok (s, _) =>
        if !f.erase then ⟨1, s.protect, 1, 0, [s.protect]⟩
        else if !f.write then ⟨1, s.protect, 1, 0, [s.protect, s.protect]⟩
        else
          match bankLoop f.protect true 0 t.flashInfo addrFirst addrLast s with
          | .error s' => ⟨1, s'.protect, 1, 0, [s.protect, s.protect]⟩
          | .ok (s', done) => ⟨0, s'.protect, 1, if done then 1 else 0, [s.protect, s.protect]⟩

/-- The sector of a bank that has an address of the range. -/
def Overlaps (t : Table) (addrFirst size bank i : Nat) : Prop :=
  ∃ b s, t.banks[bank]? = some b ∧ b.sectors[i]? = some s ∧ s.1 < addrFirst + size ∧ addrFirst ≤ s.2

/-- All sectors are protected as before, what was allocated is freed, and in between exactly the protected
sectors of the range were not protected. -/
structure Restores (t : Table) (f : Faults) (p : Protection) (addrFirst size : Nat) : Prop where
  protect : (updateFlash t f p addrFirst size).protect = p
  freed : (updateFlash t f p addrFirst size).freed = (updateFlash t f p addrFirst size).allocated
  during : ∀ d ∈ (updateFlash t f p addrFirst size).during, ∀ bank i,
    (Overlaps t addrFirst size bank i → d bank i = false) ∧
    (¬Overlaps t addrFirst size bank i → p bank i = true → d bank i = true)

/-- Nothing is begun, or nothing fails, no place is without a bank, and the protected sectors of the range
start inside it and are those of the first bank. -/
def Smooth (t : Table) (f : Faults) (p : Protection) (addrFirst size : Nat) : Prop :=
  (∀ addrLast, flashSectRoundb t (addrFirst + size - 1) = some addrLast →
    addrFirst < addrLast → f.calloc = false) ∨
  (t.missing = 0 ∧ f.erase = true ∧ f.write = true ∧ ∀ bank i, Overlaps t addrFirst size bank i → p bank i = true →
    bank = 0 ∧ f.unprotect bank i = true ∧ f.protect bank i = true ∧
    ∃ b s, t.banks[bank]? = some b ∧ b.start[i]? = some s ∧ addrFirst ≤ s)

/-- The range is not empty and inside the flash. -/
structure Request (t : Table) where
  addrFirst : Nat
  size : Nat
  pos : 0 < size
  first : ∃ b ∈ t.banks, b.base ≤ addrFirst
  last : ∃ b ∈ t.banks, addrFirst + size ≤ b.base + b.size

section Loops

variable {can : Nat → Nat → Bool} {bank addrFirst addrLast i k : Nat} {start : List Nat} {s : State}

def inRange (addrFirst addrLast : Nat) (start : Option Nat) : Bool :=
  match start with
  | some s => decide (addrFirst ≤ s ∧ s ≤ addrLast)
  | none => false

def State.unprotected (s : State) (bank addrFirst addrLast i : Nat) (start : List Nat) : State where
  protect b k := if b = bank ∧ i ≤ k ∧ inRange addrFirst addrLast start[k - i]? then false else s.protect b k
  saved b k := if b = bank ∧ i ≤ k ∧ inRange addrFirst addrLast start[k - i]? then s.protect b k else s.saved b k

def State.restored (s : State) (bank i : Nat) (start : List Nat) : State where
  protect b k := if b = bank ∧ i ≤ k ∧ k - i < start.length ∧ s.saved b k then true else s.protect b k
  saved := s.saved

theorem sectorLoop_idle {prot : Bool} (hsaved : ∀ k, i ≤ k → s.saved bank k = false)
    (hout : prot = true ∨ ∀ a ∈ start, ¬(addrFirst ≤ a ∧ a ≤ addrLast)) :
    sectorLoop can prot bank addrFirst addrLast i start s = .ok s := by
  induction start generalizing i with
  | nil => rfl
  | cons a start ih =>
    have hcond : (!prot && decide (addrFirst ≤ a ∧ a ≤ addrLast)) = false := by
      rcases hout with hprot | hout
      · simp [hprot]
      · simp only [Bool.and_eq_false_iff, decide_eq_false_iff_not]
        exact .inr (hout a mem_cons_self)
    unfold sectorLoop
    simp only [hcond, Bool.false_eq_true, if_false, hsaved i (Nat.le_refl i)]
    exact ih (fun k hk => hsaved k (by omega)) (hout.imp_right fun h x hx => h x (mem_cons_of_mem a hx))

theorem getElem?_behind (a : Nat) (start : List Nat) (h : i < k) :
    (a :: start)[k - i]? = start[k - (i + 1)]? := by
  obtain ⟨d, rfl⟩ : ∃ d, k = i + 1 + d := ⟨k - (i + 1), by omega⟩
  rw [show i + 1 + d - i = d + 1 by omega, show i + 1 + d - (i + 1) = d by omega]
  rfl

theorem setAt_same {p : Protection} {v : Bool} (h : p bank i = v) : setAt p bank i v = p := by
  funext b k
  unfold setAt
  split
  next hk => rw [hk.1, hk.2, h]
  · rfl

theorem unprotected_in {a : Nat} (ha : addrFirst ≤ a ∧ a ≤ addrLast) :
    (State.mk (setAt s.protect bank i false) (setAt s.saved bank i (s.protect bank i))).unprotected bank addrFirst
      addrLast (i + 1) start = s.unprotected bank addrFirst addrLast i (a :: start) := by
  have hhead : inRange addrFirst addrLast (some a) = true := by simp [inRange, ha]
  unfold State.unprotected setAt
  congr 1
  · funext b k
    rcases Nat.lt_trichotomy k i with hlt | rfl | hgt
    · simp [show ¬i ≤ k by omega, show ¬i + 1 ≤ k by omega, Nat.ne_of_lt hlt]
    · simp [hhead, show ¬k + 1 ≤ k by omega]
    · simp [getElem?_behind a start hgt, Nat.ne_of_gt hgt, show i ≤ k by omega, show i + 1 ≤ k by omega]
  · funext b k
    rcases Nat.lt_trichotomy k i with hlt | rfl | hgt
    · simp [show ¬i ≤ k by omega, show ¬i + 1 ≤ k by omega, Nat.ne_of_lt hlt]
    · by_cases hb : b = bank <;> simp [hb, hhead, show ¬k + 1 ≤ k by omega]
    · simp [getElem?_behind a start hgt, Nat.ne_of_gt hgt, show i ≤ k by omega, show i + 1 ≤ k by omega]

theorem unprotected_out {a : Nat} (ha : ¬(addrFirst ≤ a ∧ a ≤ addrLast)) :
    s.unprotected bank addrFirst addrLast (i + 1) start = s.unprotected bank addrFirst addrLast i (a :: start) := by
  have hhead : inRange addrFirst addrLast (some a) = false := by simpa [inRange] using ha
  unfold State.unprotected
  congr 1
  · funext b k
    rcases Nat.lt_trichotomy k i with hlt | rfl | hgt
    · simp [show ¬i ≤ k by omega, show ¬i + 1 ≤ k by omega]
    · simp [hhead, show ¬k + 1 ≤ k by omega]
    · simp [getElem?_behind a start hgt, show i ≤ k by omega, show i + 1 ≤ k by omega]
  · funext b k
    rcases Nat.lt_trichotomy k i with hlt | rfl | hgt
    · simp [show ¬i ≤ k by omega, show ¬i + 1 ≤ k by omega]
    · simp [hhead, show ¬k + 1 ≤ k by omega]
    · simp [getElem?_behind a start hgt, show i ≤ k by omega, show i + 1 ≤ k by omega]

/-- The sectors whose protection a bank's loop takes off. -/
def Taken (p : Protection) (bank addrFirst addrLast i : Nat) (start : List Nat) (k : Nat) : Prop :=
  i ≤ k ∧ inRange addrFirst addrLast start[k - i]? = true ∧ p bank k = true

theorem sectorLoop_unprotect (hsaved : ∀ k, i ≤ k → s.saved bank k = false) :
    ((∀ k, Taken s.protect bank addrFirst addrLast i start k → can bank k = true) →
      sectorLoop can false bank addrFirst addrLast i start s =
        .ok (s.unprotected bank addrFirst addrLast i start)) ∧
    ((∃ k, Taken s.protect bank addrFirst addrLast i start k ∧ can bank k = false) →
      ∃ s', sectorLoop can false bank addrFirst addrLast i start s = .error s') := by
  induction start generalizing i s with
  | nil =>
    refine ⟨fun _ => ?_, ?_⟩
    · simp [sectorLoop, State.unprotected, inRange]
    · rintro ⟨k, hk, -⟩
      simp [Taken, inRange] at hk
  | cons a start ih =>
    have hrest : ∀ {p : Protection} {k : Nat}, i < k → (Taken p bank addrFirst addrLast i (a :: start) k ↔
        Taken p bank addrFirst addrLast (i + 1) start k) := by
      intro p k hk
      unfold Taken
      rw [getElem?_behind a start hk]
      simp [show i ≤ k by omega, show i + 1 ≤ k by omega]
    have hbehind : ∀ {p : Protection} {k : Nat}, Taken p bank addrFirst addrLast (i + 1) start k → i < k :=
      fun h => h.1
    have hkept : ∀ {k : Nat} (v : Bool), i < k → setAt s.protect bank i v bank k = s.protect bank k := by
      intro k v hk
      simp [setAt, Nat.ne_of_gt hk]
    unfold sectorLoop
    by_cases ha : addrFirst ≤ a ∧ a ≤ addrLast
    · have hsaved' : ∀ v k, i + 1 ≤ k → setAt s.saved bank i v bank k = false := by
        intro v k hk
        rw [setAt, if_neg (by omega)]
        exact hsaved k (by omega)
      have hat : ∀ v, setAt s.saved bank i v bank i = v := fun v => by simp [setAt]
      -- the sectors behind this one are as before, whether it was protected or not
      have hnext := @ih (i + 1) ⟨setAt s.protect bank i false, setAt s.saved bank i (s.protect bank i)⟩ (hsaved' _)
      rw [unprotected_in ha] at hnext
      have htaken : ∀ {k}, Taken (setAt s.protect bank i false) bank addrFirst addrLast (i + 1) start k ↔
          i < k ∧ Taken s.protect bank addrFirst addrLast i (a :: start) k := by
        intro k
        refine ⟨fun h => ⟨h.1, (hrest h.1).mpr ⟨h.1, h.2.1, ?_⟩⟩, fun h => ?_⟩
        · rw [← hkept false h.1]
          exact h.2.2
        · obtain ⟨hle, hin, hp⟩ := (hrest h.1).mp h.2
          exact ⟨hle, hin, (hkept false h.1).trans hp⟩
      simp only [Bool.not_false, Bool.true_and, ha, and_self, decide_true, if_true, hat]
      cases hp : s.protect bank i with
      | false =>
        have hnot : ¬Taken s.protect bank addrFirst addrLast i (a :: start) i := fun h => by
          rw [h.2.2] at hp
          cases hp
        rw [setAt_same hp, hp] at hnext
        rw [setAt_same hp] at htaken
        simp only [Bool.false_eq_true, if_false]
        refine ⟨fun hcan => hnext.1 fun k hk => hcan k (htaken.mp hk).2, ?_⟩
        rintro ⟨k, hk, hfail⟩
        refine hnext.2 ⟨k, htaken.mpr ⟨Nat.lt_of_le_of_ne hk.1 fun h => ?_, hk⟩, hfail⟩
        subst h
        exact hnot hk
      | true =>
        have htop : Taken s.protect bank addrFirst addrLast i (a :: start) i :=
          ⟨Nat.le_refl i, by simp [inRange, ha], hp⟩
        rw [hp] at hnext
        cases hcan : can bank i with
        | false =>
          simp only [if_true, Bool.false_eq_true, if_false]
          refine ⟨fun hall => ?_, fun _ => ⟨_, rfl⟩⟩
          rw [hall i htop] at hcan
          cases hcan
        | true =>
          simp only [if_true]
          refine ⟨fun hall => hnext.1 fun k hk => hall k (htaken.mp hk).2, ?_⟩
          rintro ⟨k, hk, hfail⟩
          refine hnext.2 ⟨k, htaken.mpr ⟨Nat.lt_of_le_of_ne hk.1 fun h => ?_, hk⟩, hfail⟩
          rw [← h, hcan] at hfail
          cases hfail
    · have hnext := @ih (i + 1) s fun k hk => hsaved k (by omega)
      rw [unprotected_out ha] at hnext
      have hnot : ∀ {k}, Taken s.protect bank addrFirst addrLast i (a :: start) k → i < k := by
        intro k hk
        refine Nat.lt_of_le_of_ne hk.1 fun h => ?_
        have hin := hk.2.1
        rw [← h] at hin
        simp [inRange] at hin
        exact ha hin
      simp only [Bool.not_false, Bool.true_and, ha, decide_false, Bool.false_eq_true, if_false,
        hsaved i (Nat.le_refl i)]
      refine ⟨fun hcan => hnext.1 fun k hk => hcan k ((hrest (hbehind hk)).mpr hk), ?_⟩
      rintro ⟨k, hk, hfail⟩
      exact hnext.2 ⟨k, (hrest (hnot hk)).mp hk, hfail⟩

theorem restored_cons (a : Nat) :
    (State.mk (if s.saved bank i then setAt s.protect bank i true else s.protect) s.saved).restored bank (i + 1) start =
      s.restored bank i (a :: start) := by
  unfold State.restored setAt
  congr 1
  funext b k
  rcases Nat.lt_trichotomy k i with hlt | rfl | hgt
  · simp [show ¬i ≤ k by omega, show ¬i + 1 ≤ k by omega]
    split <;> simp [Nat.ne_of_lt hlt]
  · by_cases hb : b = bank
    · cases hs : s.saved bank k <;> simp [hb, hs, show ¬k + 1 ≤ k by omega]
    · simp [hb]
      split <;> simp [hb]
  · have hlen : k - i < (a :: start).length ↔ k - (i + 1) < start.length := by
      rw [length_cons]
      omega
    simp only [hlen, show i ≤ k by omega, show i + 1 ≤ k by omega]
    split
    · rfl
    · split <;> simp [Nat.ne_of_gt hgt]

theorem sectorLoop_protect :
    ((∀ k, i ≤ k → k - i < start.length → s.saved bank k = true → can bank k = true) →
      sectorLoop can true bank addrFirst addrLast i start s = .ok (s.restored bank i start)) ∧
    ((∃ k, i ≤ k ∧ k - i < start.length ∧ s.saved bank k = true ∧ can bank k = false) →
      ∃ s', sectorLoop can true bank addrFirst addrLast i start s = .error s') := by
  induction start generalizing i s with
  | nil =>
    refine ⟨fun _ => ?_, ?_⟩
    · simp [sectorLoop, State.restored]
    · rintro ⟨k, -, hk, -⟩
      simp at hk
  | cons a start ih =>
    have hnext := @ih (i + 1) ⟨if s.saved bank i then setAt s.protect bank i true else s.protect, s.saved⟩
    rw [restored_cons a] at hnext
    have hrest : ∀ {k}, i + 1 ≤ k → k - (i + 1) < start.length → k - i < (a :: start).length := by
      intro k hk hlt
      rw [length_cons]
      omega
    unfold sectorLoop
    simp only [Bool.not_true, Bool.false_and, Bool.false_eq_true, if_false]
    cases hs : s.saved bank i with
    | false =>
      simp only [hs, Bool.false_eq_true, if_false] at hnext ⊢
      refine ⟨fun hcan => hnext.1 fun k hk hlt => hcan k (by omega) (hrest hk hlt), ?_⟩
      rintro ⟨k, hk, hlt, hsaved, hfail⟩
      have hne : i ≠ k := fun h => by
        rw [← h, hs] at hsaved
        cases hsaved
      rw [length_cons] at hlt
      exact hnext.2 ⟨k, by omega, by omega, hsaved, hfail⟩
    | true =>
      simp only [hs, if_true] at hnext ⊢
      cases hcan : can bank i with
      | false =>
        simp only [Bool.false_eq_true, if_false]
        refine ⟨fun hall => ?_, fun _ => ⟨_, rfl⟩⟩
        rw [hall i (Nat.le_refl i) (by simp) hs] at hcan
        cases hcan
      | true =>
        simp only [if_true]
        refine ⟨fun hall => hnext.1 fun k hk hlt => hall k (by omega) (hrest hk hlt), ?_⟩
        rintro ⟨k, hk, hlt, hsaved, hfail⟩
        have hne : i ≠ k := fun h => by
          rw [← h, hcan] at hfail
          cases hfail
        rw [length_cons] at hlt
        exact hnext.2 ⟨k, by omega, by omega, hsaved, hfail⟩

end Loops

section Banks

variable {stop k : Nat} {start : List Nat} {b : Bank} {banks : List Bank}

theorem spans_start {x : Nat × Nat} (h : (spans stop start)[k]? = some x) : start[k]? = some x.1 := by
  fun_induction spans stop start generalizing k with
  | case1 => simp at h
  | case2 s =>
    cases k with
    | zero =>
      cases h
      rfl
    | succ k => simp at h
  | case3 s t rest ih =>
    cases k with
    | zero =>
      cases h
      rfl
    | succ k => exact ih h

theorem spans_mem {x : Nat × Nat} (h : x ∈ spans stop start) : x.1 ∈ start := by
  obtain ⟨j, hj⟩ := mem_iff_getElem?.mp h
  exact mem_of_getElem? (spans_start hj)

theorem spans_proper {s : Nat} (hsorted : start.Pairwise (· < ·)) (hbelow : ∀ s ∈ start, s < stop)
    (h : start[k]? = some s) : ∃ e, (spans stop start)[k]? = some (s, e) ∧ s ≤ e := by
  fun_induction spans stop start generalizing k with
  | case1 => simp at h
  | case2 a =>
    cases k with
    | zero =>
      cases h
      have hlt := hbelow s (by simp)
      exact ⟨_, rfl, by omega⟩
    | succ k => simp at h
  | case3 a t rest ih =>
    obtain ⟨hfirst, hrest⟩ := pairwise_cons.mp hsorted
    cases k with
    | zero =>
      cases h
      have hlt := hfirst t (by simp)
      exact ⟨_, rfl, by omega⟩
    | succ k => exact ih hrest (fun x hx => hbelow x (mem_cons_of_mem a hx)) h

theorem spans_before {x : Nat × Nat} {s : Nat} (hsorted : start.Pairwise (· < ·)) (hx : x ∈ spans stop start)
    (hs : s ∈ start) (hlt : x.1 < s) : x.2 < s := by
  fun_induction spans stop start with
  | case1 => cases hs
  | case2 a =>
    obtain rfl := mem_singleton.mp hx
    obtain rfl := mem_singleton.mp hs
    exact absurd hlt (Nat.lt_irrefl _)
  | case3 a t rest ih =>
    obtain ⟨hfirst, hrest⟩ := pairwise_cons.mp hsorted
    rcases mem_cons.mp hx with rfl | hlater
    · have hat := hfirst t (by simp)
      rcases mem_cons.mp hs with rfl | hs
      · exact absurd hlt (Nat.lt_irrefl _)
      rcases mem_cons.mp hs with rfl | hs
      · dsimp only
        omega
      · have hts := (pairwise_cons.mp hrest).1 s hs
        omega
    · rcases mem_cons.mp hs with rfl | hs
      · have hafter := hfirst x.1 (spans_mem hlater)
        omega
      · exact ih hrest hlater hs

theorem Bank.Whole.base_le (h : b.Whole) {s : Nat} (hs : s ∈ b.start) : b.base ≤ s := by
  have hsorted := h.ascending
  unfold Bank.base
  cases hstart : b.start with
  | nil => exact absurd hstart h.sectors
  | cons a start =>
    rw [hstart] at hs hsorted
    rcases mem_cons.mp hs with rfl | hs
    · exact Nat.le_refl _
    · exact Nat.le_of_lt ((pairwise_cons.mp hsorted).1 s hs)

theorem Bank.Whole.base_lt (h : b.Whole) : b.base < b.base + b.size := by
  apply h.below
  unfold Bank.base
  cases hstart : b.start with
  | nil => exact absurd hstart h.sectors
  | cons a start => simp

theorem behind_first (hwhole : ∀ b ∈ banks, b.Whole) (hchain : (b :: banks).IsChain fun a b => a.base + a.size = b.base) :
    ∀ c ∈ banks, b.base + b.size ≤ c.base := by
  induction banks generalizing b with
  | nil => exact fun c hc => absurd hc not_mem_nil
  | cons d banks ih =>
    obtain ⟨hnext, hrest⟩ := isChain_cons_cons.mp hchain
    intro c hc
    rcases mem_cons.mp hc with rfl | hc
    · exact Nat.le_of_eq hnext
    · have hlater := ih (fun x hx => hwhole x (mem_cons_of_mem d hx)) hrest c hc
      omega

variable {can : Nat → Nat → Bool} {prot : Bool} {bank addrFirst addrLast missing : Nat} {s : State}

theorem bankLoop_idle (hwhole : ∀ b ∈ banks, b.Whole) (hsaved : ∀ c, bank ≤ c → ∀ k, s.saved c k = false)
    (hout : prot = true ∨ ∀ b ∈ banks, addrLast < b.base) :
    bankLoop can prot bank (banks ++ List.replicate missing ⟨[], 0⟩) addrFirst addrLast s =
      .ok (s, decide (missing = 0)) := by
  induction banks generalizing bank addrFirst addrLast with
  | nil =>
    cases missing with
    | zero => rfl
    | succ missing => simp [replicate_succ, bankLoop]
  | cons b banks ih =>
    have hb := hwhole b mem_cons_self
    have hclip : (if b.base + b.size - 1 < addrLast then b.base + b.size - 1 else addrLast) ≤ addrLast := by
      split <;> omega
    rw [cons_append, bankLoop, if_neg hb.sectors]
    dsimp only
    rw [sectorLoop_idle (fun k _ => hsaved bank (Nat.le_refl bank) k) (hout.imp_right fun h a ha hin => ?_)]
    · refine ih (fun x hx => hwhole x (mem_cons_of_mem b hx)) (fun c hc => hsaved c (by omega))
        (hout.imp_right fun h x hx => ?_)
      have hlt := h x (mem_cons_of_mem b hx)
      omega
    · have hle := hb.base_le ha
      have hlt := h b mem_cons_self
      omega

theorem inRange_clip (hb : b.Whole) : inRange (if addrFirst < b.base then b.base else addrFirst)
    (if b.base + b.size - 1 < addrLast then b.base + b.size - 1 else addrLast) b.start[k]? =
      inRange addrFirst addrLast b.start[k]? := by
  unfold inRange
  cases hk : b.start[k]? with
  | none => rfl
  | some a =>
    have hmem := mem_of_getElem? hk
    have hle := hb.base_le hmem
    have hlt := hb.below a hmem
    rw [decide_eq_decide]
    split <;> split <;> omega

variable {f : Faults} {p : Protection}

def fresh (p : Protection) : State := ⟨p, fun _ _ => false⟩

theorem unprotected_clip (hb : b.Whole) :
    s.unprotected bank (if addrFirst < b.base then b.base else addrFirst)
      (if b.base + b.size - 1 < addrLast then b.base + b.size - 1 else addrLast) 0 b.start =
        s.unprotected bank addrFirst addrLast 0 b.start := by
  unfold State.unprotected
  simp only [Nat.sub_zero, inRange_clip hb]

theorem taken_clip (hb : b.Whole) : Taken p bank (if addrFirst < b.base then b.base else addrFirst)
      (if b.base + b.size - 1 < addrLast then b.base + b.size - 1 else addrLast) 0 b.start k ↔
        Taken p bank addrFirst addrLast 0 b.start k := by
  unfold Taken
  simp only [Nat.sub_zero, inRange_clip hb]

theorem bankLoop_unprotect (hwhole : ∀ c ∈ b :: banks, c.Whole)
    (hchain : (b :: banks).IsChain fun a b => a.base + a.size = b.base) :
    ((∀ k, Taken p 0 addrFirst addrLast 0 b.start k → can 0 k = true) →
      bankLoop can false 0 (b :: banks ++ List.replicate missing ⟨[], 0⟩) addrFirst addrLast (fresh p) =
        .ok ((fresh p).unprotected 0 addrFirst addrLast 0 b.start, decide (missing = 0))) ∧
    ((∃ k, Taken p 0 addrFirst addrLast 0 b.start k ∧ can 0 k = false) →
      ∃ s', bankLoop can false 0 (b :: banks ++ List.replicate missing ⟨[], 0⟩) addrFirst addrLast (fresh p) =
        .error s') := by
  have hb := hwhole b mem_cons_self
  have hbehind : ∀ c ∈ banks, c.Whole := fun c hc => hwhole c (mem_cons_of_mem b hc)
  have hloop := @sectorLoop_unprotect can 0 (if addrFirst < b.base then b.base else addrFirst)
    (if b.base + b.size - 1 < addrLast then b.base + b.size - 1 else addrLast) 0 b.start (fresh p) (fun _ _ => rfl)
  rw [unprotected_clip hb] at hloop
  rw [cons_append, bankLoop, if_neg hb.sectors]
  dsimp only
  constructor
  · intro hcan
    rw [hloop.1 fun k hk => hcan k ((taken_clip hb).mp hk)]
    refine bankLoop_idle hbehind (fun c hc k => ?_) (.inr fun c hc => ?_)
    · simp [State.unprotected, fresh, show c ≠ 0 by omega]
    · have hlater := behind_first hbehind hchain c hc
      have hpos := hb.base_lt
      split <;> omega
  · rintro ⟨k, hk, hfail⟩
    obtain ⟨s', hs'⟩ := hloop.2 ⟨k, (taken_clip hb).mpr hk, hfail⟩
    refine ⟨s', ?_⟩
    rw [hs']
    rfl

theorem inRange_lt (hin : inRange addrFirst addrLast start[k]? = true) : k < start.length := by
  by_contra hge
  rw [List.getElem?_eq_none (by omega)] at hin
  cases hin

theorem restored_unprotected :
    (((fresh p).unprotected 0 addrFirst addrLast 0 b.start).restored 0 0 b.start).protect = p := by
  funext c k
  unfold State.restored State.unprotected fresh
  simp only [Nat.sub_zero, Nat.zero_le, true_and]
  by_cases hin : inRange addrFirst addrLast b.start[k]? = true
  · have hlt := inRange_lt hin
    by_cases hc : c = 0
    · simp only [hc, hin, hlt, and_self, true_and, if_true]
      cases p 0 k <;> rfl
    · simp [hc]
  · simp [hin]

theorem bankLoop_protect (hwhole : ∀ c ∈ b :: banks, c.Whole) :
    ((∀ k, Taken p 0 addrFirst addrLast 0 b.start k → can 0 k = true) →
      ∃ s', bankLoop can true 0 (b :: banks ++ List.replicate missing ⟨[], 0⟩) addrFirst addrLast
          ((fresh p).unprotected 0 addrFirst addrLast 0 b.start) = .ok (s', decide (missing = 0)) ∧
        s'.protect = p) ∧
    ((∃ k, Taken p 0 addrFirst addrLast 0 b.start k ∧ can 0 k = false) →
      ∃ s', bankLoop can true 0 (b :: banks ++ List.replicate missing ⟨[], 0⟩) addrFirst addrLast
        ((fresh p).unprotected 0 addrFirst addrLast 0 b.start) = .error s') := by
  have hb := hwhole b mem_cons_self
  have hloop := @sectorLoop_protect can 0 (if addrFirst < b.base then b.base else addrFirst)
    (if b.base + b.size - 1 < addrLast then b.base + b.size - 1 else addrLast) 0 b.start
    ((fresh p).unprotected 0 addrFirst addrLast 0 b.start)
  have hsaved : ∀ {k}, ((fresh p).unprotected 0 addrFirst addrLast 0 b.start).saved 0 k = true ↔
      Taken p 0 addrFirst addrLast 0 b.start k := by
    intro k
    simp [State.unprotected, Taken, fresh]
  rw [cons_append, bankLoop, if_neg hb.sectors]
  dsimp only
  constructor
  · intro hcan
    rw [hloop.1 fun k _ _ hk => hcan k (hsaved.mp hk)]
    refine ⟨_, bankLoop_idle (fun c hc => hwhole c (mem_cons_of_mem b hc)) (fun c hc k => ?_) (.inl rfl),
      restored_unprotected⟩
    simp [State.restored, State.unprotected, fresh, show c ≠ 0 by omega]
  · rintro ⟨k, hk, hfail⟩
    obtain ⟨s', hs'⟩ := hloop.2 ⟨k, Nat.zero_le k, inRange_lt hk.2.1, hsaved.mpr hk, hfail⟩
    refine ⟨s', ?_⟩
    rw [hs']
    rfl

theorem start_before {t : Table} {last s e : Nat} (hbanks : t.banks = b :: banks)
    (hround : flashSectRoundb t last = some addrLast) (hs : b.sectors[k]? = some (s, e)) (hle : s ≤ addrLast) :
    s ≤ last := by
  obtain ⟨x, hfound, rfl⟩ := Option.map_eq_some_iff.mp hround
  have hcovers := List.find?_some hfound
  simp only [decide_eq_true_eq] at hcovers
  obtain ⟨c, hc, hx⟩ := mem_flatMap.mp (mem_of_find?_eq_some hfound)
  have hstart := mem_of_getElem? (spans_start hs)
  have hb := t.whole b (by simp [hbanks])
  by_contra hafter
  have hlt : x.1 < s := by omega
  rcases mem_append.mp hc with hc | hc
  · rw [hbanks] at hc
    rcases mem_cons.mp hc with rfl | hc
    · have hbefore := spans_before hb.ascending hx hstart hlt
      omega
    · have hchain := t.contiguous
      rw [hbanks] at hchain
      have hwhole : ∀ c ∈ banks, c.Whole := fun c hc => t.whole c (by simp [hbanks, hc])
      have hlater := behind_first hwhole hchain c hc
      have hbase := (hwhole c hc).base_le (spans_mem hx)
      have hbelow := hb.below s hstart
      omega
  · rw [eq_of_mem_replicate hc] at hx
    exact absurd hx not_mem_nil

end Banks

section Runs

variable {t : Table} {f : Faults} {p : Protection} {addrLast : Nat} {b : Bank} {banks : List Bank}

theorem Request.exists_first (r : Request t) : ∃ b banks, t.banks = b :: banks := by
  obtain ⟨b, hb, -⟩ := r.first
  exact exists_cons_of_ne_nil (ne_nil_of_mem hb)

theorem taken_iff (r : Request t) (hbanks : t.banks = b :: banks)
    (hround : flashSectRoundb t (r.addrFirst + r.size - 1) = some addrLast) {k : Nat} :
    Taken p 0 r.addrFirst addrLast 0 b.start k ↔
      Overlaps t r.addrFirst r.size 0 k ∧ p 0 k = true ∧ ∃ s, b.start[k]? = some s ∧ r.addrFirst ≤ s := by
  have hb := t.whole b (by simp [hbanks])
  have hpos := r.pos
  unfold Taken
  constructor
  · rintro ⟨-, hin, hp⟩
    rw [Nat.sub_zero] at hin
    have hlt := inRange_lt hin
    rw [List.getElem?_eq_getElem hlt] at hin
    simp only [inRange, decide_eq_true_eq] at hin
    obtain ⟨e, hsector, hproper⟩ := spans_proper hb.ascending hb.below (List.getElem?_eq_getElem hlt)
    have hbefore := start_before hbanks hround hsector hin.2
    exact ⟨⟨b, _, by simp [hbanks], hsector, by dsimp only; omega, by dsimp only; omega⟩, hp, _,
      List.getElem?_eq_getElem hlt, hin.1⟩
  · rintro ⟨⟨c, x, hc, hsector, hbefore, -⟩, hp, s, hs, hle⟩
    obtain rfl : b = c := by simpa [hbanks] using hc
    obtain rfl : s = x.1 := Option.some.inj (hs.symm.trans (spans_start hsector))
    obtain ⟨y, hfound, rfl⟩ := Option.map_eq_some_iff.mp hround
    have hcovers := List.find?_some hfound
    simp only [decide_eq_true_eq] at hcovers
    refine ⟨Nat.zero_le k, ?_, hp⟩
    rw [Nat.sub_zero, hs]
    simp only [inRange, decide_eq_true_eq]
    omega

theorem restores_idle {addrFirst size : Nat} (h : ∀ addrLast, flashSectRoundb t (addrFirst + size - 1) = some addrLast →
    addrFirst < addrLast → f.calloc = false) : Restores t f p addrFirst size := by
  have hidle : updateFlash t f p addrFirst size = ⟨1, p, 0, 0, []⟩ := by
    unfold updateFlash
    split
    · rfl
    next addrLast hround =>
      split
      · rfl
      next hlt =>
        rw [h addrLast hround (by omega)]
        rfl
  constructor <;> simp [hidle]

theorem not_freed {addrFirst size : Nat} {o : Outcome} (ho : updateFlash t f p addrFirst size = o) (hone : o.allocated = 1)
    (hnone : o.freed = 0) : ¬Restores t f p addrFirst size := by
  intro h
  have hfreed := h.freed
  rw [ho, hone, hnone] at hfreed
  cases hfreed

theorem restores_started (r : Request t) (hbanks : t.banks = b :: banks)
    (hround : flashSectRoundb t (r.addrFirst + r.size - 1) = some addrLast) (hlt : r.addrFirst < addrLast)
    (hcalloc : f.calloc = true) :
    Restores t f p r.addrFirst r.size ↔ t.missing = 0 ∧ f.erase = true ∧ f.write = true ∧
      (∀ k, Taken p 0 r.addrFirst addrLast 0 b.start k → f.unprotect 0 k = true ∧ f.protect 0 k = true) ∧
      ∀ bank i, Overlaps t r.addrFirst r.size bank i → p bank i = true →
        bank = 0 ∧ Taken p 0 r.addrFirst addrLast 0 b.start i := by
  have hwhole : ∀ c ∈ b :: banks, c.Whole := by
    rw [← hbanks]
    exact t.whole
  have hchain := t.contiguous
  rw [hbanks] at hchain
  have hout : updateFlash t f p r.addrFirst r.size = updateFlash t f p r.addrFirst r.size := rfl
  conv at hout =>
    rhs
    unfold updateFlash
    rw [hround]
    dsimp only
    rw [if_neg (by omega), hcalloc]
    simp only [Bool.not_true, Bool.false_eq_true, if_false]
    unfold Table.flashInfo
    rw [hbanks]
  have hfirst := @bankLoop_unprotect b banks f.unprotect r.addrFirst addrLast t.missing p hwhole hchain
  have hsecond := @bankLoop_protect b banks f.protect r.addrFirst addrLast t.missing p hwhole
  by_cases hunprotect : ∀ k, Taken p 0 r.addrFirst addrLast 0 b.start k → f.unprotect 0 k = true
  case neg =>
    simp only [not_forall, Bool.not_eq_true] at hunprotect
    obtain ⟨k, hk, hfail⟩ := hunprotect
    obtain ⟨s', hs'⟩ := hfirst.2 ⟨k, hk, hfail⟩
    unfold fresh at hs'
    rw [hs'] at hout
    refine ⟨fun h => absurd h (not_freed hout rfl rfl), ?_⟩
    rintro ⟨-, -, -, hcan, -⟩
    rw [(hcan k hk).1] at hfail
    cases hfail
  have hopen := hfirst.1 hunprotect
  unfold fresh at hopen
  rw [hopen] at hout
  cases herase : f.erase with
  | false =>
    rw [herase] at hout
    refine ⟨fun h => absurd h (not_freed hout rfl rfl), ?_⟩
    rintro ⟨-, herase, -⟩
    cases herase
  | true =>
  cases hwrite : f.write with
  | false =>
    rw [herase, hwrite] at hout
    refine ⟨fun h => absurd h (not_freed hout rfl rfl), ?_⟩
    rintro ⟨-, -, hwrite, -⟩
    cases hwrite
  | true =>
  rw [herase, hwrite] at hout
  simp only [Bool.not_true, Bool.false_eq_true, if_false] at hout
  by_cases hprotect : ∀ k, Taken p 0 r.addrFirst addrLast 0 b.start k → f.protect 0 k = true
  case neg =>
    simp only [not_forall, Bool.not_eq_true] at hprotect
    obtain ⟨k, hk, hfail⟩ := hprotect
    obtain ⟨s', hs'⟩ := hsecond.2 ⟨k, hk, hfail⟩
    unfold fresh at hs'
    rw [hs'] at hout
    refine ⟨fun h => absurd h (not_freed hout rfl rfl), ?_⟩
    rintro ⟨-, -, -, hcan, -⟩
    rw [(hcan k hk).2] at hfail
    cases hfail
  obtain ⟨s', hs', hback⟩ := hsecond.1 hprotect
  unfold fresh at hs'
  rw [hs'] at hout
  have hduring : ∀ bank i, (State.unprotected ⟨p, fun _ _ => false⟩ 0 r.addrFirst addrLast 0 b.start).protect bank i =
      if bank = 0 ∧ inRange r.addrFirst addrLast b.start[i]? then false else p bank i := by
    intro bank i
    simp [State.unprotected]
  constructor
  · intro h
    refine ⟨?_, rfl, rfl, fun k hk => ⟨hunprotect k hk, hprotect k hk⟩, ?_⟩
    · have hfreed := h.freed
      rw [hout] at hfreed
      by_contra hmissing
      simp [hmissing] at hfreed
    · intro bank i hoverlaps hp
      have hopened := (h.during _ (by rw [hout]; exact mem_cons_self) bank i).1 hoverlaps
      rw [hduring, hp] at hopened
      have hin : bank = 0 ∧ inRange r.addrFirst addrLast b.start[i]? = true := by
        by_contra hnot
        rw [if_neg hnot] at hopened
        cases hopened
      rw [hin.1] at hp
      exact ⟨hin.1, Nat.zero_le i, hin.2, hp⟩
  · rintro ⟨hmissing, -, -, -, hall⟩
    constructor
    · rw [hout]
      exact hback
    · rw [hout]
      simp [hmissing]
    · intro d hd bank i
      rw [hout] at hd
      have hd : d = (State.unprotected ⟨p, fun _ _ => false⟩ 0 r.addrFirst addrLast 0 b.start).protect := by
        simpa using hd
      rw [hd, hduring]
      refine ⟨fun hoverlaps => ?_, fun hapart hp => ?_⟩
      · cases hp : p bank i with
        | false => simp
        | true =>
          obtain ⟨hzero, -, hin, -⟩ := hall bank i hoverlaps hp
          exact if_pos ⟨hzero, hin⟩
      · rw [if_neg ?_]
        · exact hp
        · rintro ⟨rfl, hin⟩
          exact hapart ((taken_iff r hbanks hround).mp ⟨Nat.zero_le i, hin, hp⟩).1

/-- Automatic update puts the protection back exactly where nothing fails after the allocation, no bank is
missing, and the protected sectors of the range start inside it, in the first bank. -/
theorem update_flash_restores_iff (t : Table) (f : Faults) (p : Protection) (r : Request t) :
    Restores t f p r.addrFirst r.size ↔ Smooth t f p r.addrFirst r.size := by
  by_cases hidle : ∀ addrLast, flashSectRoundb t (r.addrFirst + r.size - 1) = some addrLast →
      r.addrFirst < addrLast → f.calloc = false
  · exact ⟨fun _ => .inl hidle, fun _ => restores_idle hidle⟩
  have hstarted := hidle
  simp only [not_forall, Bool.not_eq_false] at hstarted
  obtain ⟨addrLast, hround, hlt, hcalloc⟩ := hstarted
  obtain ⟨b, banks, hbanks⟩ := r.exists_first
  have hbank : ∀ {c}, t.banks[0]? = some c → c = b := by
    intro c hc
    rw [hbanks] at hc
    exact (Option.some.inj hc).symm
  rw [restores_started r hbanks hround hlt hcalloc, Smooth, or_iff_right hidle]
  refine and_congr_right' (and_congr_right' (and_congr_right' ⟨?_, fun h => ⟨?_, ?_⟩⟩))
  · rintro ⟨hcan, hall⟩ bank i hoverlaps hp
    obtain ⟨rfl, htaken⟩ := hall bank i hoverlaps hp
    obtain ⟨-, -, s, hs, hle⟩ := (taken_iff r hbanks hround).mp htaken
    exact ⟨rfl, (hcan i htaken).1, (hcan i htaken).2, b, s, by simp [hbanks], hs, hle⟩
  · intro k hk
    obtain ⟨hoverlaps, hp, -⟩ := (taken_iff r hbanks hround).mp hk
    obtain ⟨-, hunprotect, hprotect, -⟩ := h 0 k hoverlaps hp
    exact ⟨hunprotect, hprotect⟩
  · intro bank i hoverlaps hp
    obtain ⟨rfl, -, -, c, s, hc, hs, hle⟩ := h bank i hoverlaps hp
    rw [hbank hc] at hs
    exact ⟨rfl, (taken_iff r hbanks hround).mpr ⟨hoverlaps, hp, s, hs, hle⟩⟩

def pair : Bank := ⟨[4278190080, 4278255616], 131072⟩

theorem pair_whole : pair.Whole := ⟨by decide, by decide, by decide⟩

theorem pair_contiguous : [pair].IsChain fun a b => a.base + a.size = b.base := List.IsChain.singleton pair

def onePair : Table where
  banks := [pair]
  missing := 0
  whole := forall_mem_singleton.mpr pair_whole
  contiguous := pair_contiguous
  addressable := forall_mem_singleton.mpr (Nat.le_of_ble_eq_true rfl)

theorem page_pos : 0 < 512 := Nat.succ_pos 511

def request : Request onePair where
  addrFirst := 4278190080
  size := 512
  pos := page_pos
  first := ⟨pair, mem_singleton_self pair, Nat.le_refl _⟩
  last := ⟨pair, mem_singleton_self pair, Nat.le_of_ble_eq_true rfl⟩

def failedWrite : Faults := ⟨true, fun _ _ => true, fun _ _ => true, true, false⟩

/-- Where the write fails, the sector stays unprotected, and what was allocated is not freed. -/
theorem failed_write_leaves_unprotected :
    (updateFlash onePair failedWrite (fun _ _ => true) request.addrFirst request.size).result = 1 ∧
    (updateFlash onePair failedWrite (fun _ _ => true) request.addrFirst request.size).protect 0 0 = false ∧
    (updateFlash onePair failedWrite (fun _ _ => true) request.addrFirst request.size).allocated = 1 ∧
    (updateFlash onePair failedWrite (fun _ _ => true) request.addrFirst request.size).freed = 0 ∧
    ¬Restores onePair failedWrite (fun _ _ => true) request.addrFirst request.size := by
  refine ⟨by decide, by decide, by decide, by decide, fun h => ?_⟩
  have hfreed := h.freed
  revert hfreed
  decide

end Runs

end UBoot.Update
