import Mathlib.Algebra.Group.Nat.Defs
import Mathlib.Logic.Function.Basic
import UBoot.CString
import UBoot.Loops

namespace UBoot.Mtest

open Loops

variable {κ : Type}

/-- The memory behind the addresses: `low` and `high` are the bits of a cell that are stuck at 0 and at 1. -/
structure Memory (κ : Type) where
  cell : Nat → κ
  low : κ → BitVec 32
  high : κ → BitVec 32
  disjoint : ∀ c, low c &&& high c = 0

def Memory.readback (m : Memory κ) (c : κ) (stored : BitVec 32) : BitVec 32 := stored &&& ~~~m.low c ||| m.high c

variable [DecidableEq κ] (m : Memory κ) (ctrlc : Nat → Bool)

/-- The loop that writes, with so many words left. -/
def writing (incr : BitVec 32) : Nat → Nat → BitVec 32 → (κ → BitVec 32) → κ → BitVec 32
  | 0, _, _, contents => contents
  | n + 1, addr, val, contents =>
    writing incr n (addr + 4) (val + incr) (Function.update contents (m.cell addr) val)

/-- The loop that reads: how often `ctrlc` was asked and `errs` behind it, or none for a return. -/
def reading (incr : BitVec 32) (contents : κ → BitVec 32) : Nat → Nat → BitVec 32 → Nat → Nat → Option (Nat × Nat)
  | 0, _, _, asked, errs => some (asked, errs)
  | n + 1, addr, val, asked, errs =>
    if m.readback (m.cell addr) (contents (m.cell addr)) ≠ val then
      if ctrlc asked then none else reading incr contents n (addr + 4) (val + incr) (asked + 1) (errs + 1)
    else reading incr contents n (addr + 4) (val + incr) asked errs

/-- The variables of `do_mem_mtest`, the words stored and how often `ctrlc` was asked. `errs` is the number
that the counter stands for. -/
structure State (κ : Type) where
  contents : κ → BitVec 32
  pattern : BitVec 32
  incr : BitVec 32
  iterations : BitVec 32
  errs : Nat
  asked : Nat

/-- How many words there are from `start` up to `end`. -/
def words (start stop : Nat) : Nat := (stop - start + 3) / 4

def flip (pattern : BitVec 32) : BitVec 32 := if pattern &&& 0x80000000 ≠ 0 then -pattern else ~~~pattern

variable (start stop : Nat) (limit : BitVec 32)

def iteration (s : State κ) : State κ ⊕ Nat :=
  if ctrlc s.asked then .inr 1
  else if limit ≠ 0 ∧ limit.slt s.iterations then .inr (if s.errs % 2 ^ 32 ≠ 0 then 1 else 0)
  else
    let contents := writing m s.incr (words start stop) start s.pattern s.contents
    match reading m ctrlc s.incr contents (words start stop) start s.pattern (s.asked + 1) s.errs with
    | none => .inr 1
    | some (asked, errs) => .inl ⟨contents, flip s.pattern, -s.incr, s.iterations + 1, errs, asked⟩

def begin (pattern : BitVec 32) (contents : κ → BitVec 32) : State κ := ⟨contents, pattern, 1, 1, 0, 0⟩

/-- The `i`-th argument as a hexadecimal number. -/
def number (argv : List CString) (i dflt : Nat) : Nat := argv[i]?.elim dflt fun a => (simpleStrtoul a.bytes 16).1

/-- `do_mem_mtest`, with `CONFIG_SYS_MEMTEST_START` and `CONFIG_SYS_MEMTEST_END`. -/
def doMemMtest (memtestStart memtestEnd : Nat) (argv : List CString) (contents : κ → BitVec 32) : Comp Nat :=
  Comp.loop
    (fun s => Comp.pure (iteration m ctrlc (number argv 1 memtestStart) (number argv 2 memtestEnd)
      (BitVec.ofNat 32 (number argv 4 0)) s))
    (begin (BitVec.ofNat 32 (number argv 3 0)) contents)

/-- The state after so many complete iterations. -/
inductive After (s₀ : State κ) : Nat → State κ → Prop
  | start : After s₀ 0 s₀
  | next {k : Nat} {s s' : State κ} : After s₀ k s → iteration m ctrlc start stop limit s = .inl s' →
    After s₀ (k + 1) s'

variable {κ : Type} {m : Memory κ} {ctrlc : Nat → Bool} {start stop : Nat} {limit : BitVec 32}

/-- The word that an iteration writes at the `j`-th address. -/
def word (pattern incr : BitVec 32) (j : Nat) : BitVec 32 := pattern + incr * BitVec.ofNat 32 j

/-- A stuck bit of a cell that differs from the word written to it. -/
def Memory.Spoils (m : Memory κ) (c : κ) (v : BitVec 32) : Prop := m.low c &&& v ≠ 0 ∨ m.high c &&& ~~~v ≠ 0

def Memory.Shared (m : Memory κ) (start n : Nat) : Prop :=
  ∃ i j, i < j ∧ j < n ∧ m.cell (start + 4 * i) = m.cell (start + 4 * j)

def Memory.Stuck (m : Memory κ) (start n : Nat) : Prop :=
  ∃ j < n, m.low (m.cell (start + 4 * j)) ≠ 0 ∨ m.high (m.cell (start + 4 * j)) ≠ 0

theorem readback_eq_iff {c : κ} {v : BitVec 32} : m.readback c v = v ↔ ¬m.Spoils c v := by
  have hdis : ∀ i (hi : i < 32), ((m.low c)[i] && (m.high c)[i]) = false := by
    intro i hi
    have h := congrArg (fun x : BitVec 32 => x[i]) (m.disjoint c)
    simpa using h
  unfold Memory.readback Memory.Spoils
  rw [not_or, not_not, not_not]
  constructor
  · intro h
    have hbit : ∀ i (hi : i < 32), (v[i] && !(m.low c)[i] || (m.high c)[i]) = v[i] := by
      intro i hi
      have h := congrArg (fun x : BitVec 32 => x[i]) h
      simpa using h
    constructor
    · ext i hi
      have h1 := hbit i hi
      have h2 := hdis i hi
      simp only [BitVec.getElem_and]
      revert h1 h2
      cases v[i] <;> cases (m.low c)[i] <;> cases (m.high c)[i] <;> simp
    · ext i hi
      have h1 := hbit i hi
      simp only [BitVec.getElem_and, BitVec.getElem_not]
      revert h1
      cases v[i] <;> cases (m.low c)[i] <;> cases (m.high c)[i] <;> simp
  · rintro ⟨hlow, hhigh⟩
    ext i hi
    have h1 : ((m.low c)[i] && v[i]) = false := by simpa using congrArg (fun x : BitVec 32 => x[i]) hlow
    have h2 : ((m.high c)[i] && !v[i]) = false := by simpa using congrArg (fun x : BitVec 32 => x[i]) hhigh
    simp only [BitVec.getElem_or, BitVec.getElem_and, BitVec.getElem_not]
    revert h1 h2
    cases v[i] <;> cases (m.low c)[i] <;> cases (m.high c)[i] <;> simp

theorem spoils_complement {c : κ} {v : BitVec 32} :
    m.Spoils c v ∨ m.Spoils c (~~~v) ↔ m.low c ≠ 0 ∨ m.high c ≠ 0 := by
  have hsplit : ∀ x : BitVec 32, x ≠ 0 ↔ x &&& v ≠ 0 ∨ x &&& ~~~v ≠ 0 := by
    intro x
    constructor
    · intro h
      by_contra hno
      obtain ⟨h1, h2⟩ := not_or.mp hno
      rw [not_not] at h1 h2
      refine h ?_
      calc x = x &&& v ||| x &&& ~~~v := by ext i hi; simp; cases x[i] <;> cases v[i] <;> rfl
        _ = 0 := by rw [h1, h2]; rfl
    · rintro (h | h) rfl
      · exact h (by simp)
      · exact h (by simp)
  unfold Memory.Spoils
  rw [BitVec.not_not, hsplit (m.low c), hsplit (m.high c)]
  tauto

variable {pattern incr val : BitVec 32} {n addr : Nat} {contents : κ → BitVec 32}

theorem word_zero : word pattern incr 0 = pattern := by simp [word]

theorem word_succ (j : Nat) : word (val + incr) incr j = word val incr (j + 1) := by
  unfold word
  rw [BitVec.ofNat_add, BitVec.mul_add, BitVec.mul_one, BitVec.add_comm (incr * _) incr, BitVec.add_assoc]

theorem word_complement (j : Nat) : word (~~~pattern) (-incr) j = ~~~word pattern incr j := by
  unfold word
  rw [BitVec.neg_mul, ← BitVec.not_sub_eq_not_add, BitVec.sub_eq_add_neg, BitVec.neg_neg]

theorem word_injective (hincr : incr = 1 ∨ incr = -1) {i j : Nat} (hi : i < 2 ^ 32) (hj : j < 2 ^ 32)
    (h : word pattern incr i = word pattern incr j) : i = j := by
  unfold word at h
  have hprod := (BitVec.add_right_inj pattern).mp h
  have hofNat : BitVec.ofNat 32 i = BitVec.ofNat 32 j := by
    rcases hincr with rfl | rfl
    · simpa using hprod
    · rw [BitVec.neg_mul, BitVec.neg_mul] at hprod
      simpa using BitVec.neg_inj.mp hprod
  have hnat := congrArg BitVec.toNat hofNat
  rwa [BitVec.toNat_ofNat, BitVec.toNat_ofNat, Nat.mod_eq_of_lt hi, Nat.mod_eq_of_lt hj] at hnat

theorem reading_counts {asked errs asked' errs' : Nat}
    (h : reading m ctrlc incr contents n addr val asked errs = some (asked', errs')) :
    errs ≤ errs' ∧ errs' ≤ errs + n ∧ (errs < errs' ↔
      ∃ j < n, m.readback (m.cell (addr + 4 * j)) (contents (m.cell (addr + 4 * j))) ≠ word val incr j) := by
  induction n generalizing addr val asked errs with
  | zero =>
    cases h
    exact ⟨le_refl _, le_refl _, by simp⟩
  | succ n ih =>
    have hplace : ∀ j, addr + 4 * (j + 1) = addr + 4 + 4 * j := fun j => by omega
    have hsplit : (∃ j < n + 1, m.readback (m.cell (addr + 4 * j)) (contents (m.cell (addr + 4 * j))) ≠
          word val incr j) ↔
        m.readback (m.cell addr) (contents (m.cell addr)) ≠ val ∨
        ∃ j < n, m.readback (m.cell (addr + 4 + 4 * j)) (contents (m.cell (addr + 4 + 4 * j))) ≠
          word (val + incr) incr j := by
      simp only [word_succ]
      constructor
      · rintro ⟨j, hj, hne⟩
        cases j with
        | zero =>
          rw [word_zero] at hne
          exact .inl hne
        | succ j => exact .inr ⟨j, by omega, hplace j ▸ hne⟩
      · rintro (hne | ⟨j, hj, hne⟩)
        · refine ⟨0, by omega, ?_⟩
          rw [word_zero]
          exact hne
        · exact ⟨j + 1, by omega, (hplace j).symm ▸ hne⟩
    rw [reading] at h
    rw [hsplit]
    by_cases hfirst : m.readback (m.cell addr) (contents (m.cell addr)) ≠ val
    · rw [if_pos hfirst] at h
      split at h
      · cases h
      · obtain ⟨hle, hmax, -⟩ := ih h
        exact ⟨by omega, by omega, fun _ => .inl hfirst, fun _ => by omega⟩
    · rw [if_neg hfirst] at h
      obtain ⟨hle, hmax, hiff⟩ := ih h
      exact ⟨hle, by omega, hiff.trans ⟨.inr, fun hor => hor.resolve_left hfirst⟩⟩

variable [DecidableEq κ]

theorem writing_other {c : κ} (h : ∀ j < n, m.cell (addr + 4 * j) ≠ c) :
    writing m incr n addr val contents c = contents c := by
  induction n generalizing addr val contents with
  | zero => rfl
  | succ n ih =>
    have hfirst : c ≠ m.cell addr := fun heq => h 0 (by omega) heq.symm
    rw [writing, ih fun j hj => ?_, Function.update_of_ne hfirst]
    have hnext := h (j + 1) (by omega)
    rwa [show addr + 4 * (j + 1) = addr + 4 + 4 * j from by omega] at hnext

theorem writing_own {i : Nat} (hi : i < n) (h : ∀ j < n, j ≠ i → m.cell (addr + 4 * j) ≠ m.cell (addr + 4 * i)) :
    writing m incr n addr val contents (m.cell (addr + 4 * i)) = word val incr i := by
  induction n generalizing addr val contents i with
  | zero => omega
  | succ n ih =>
    have hplace : ∀ j, addr + 4 * (j + 1) = addr + 4 + 4 * j := fun j => by omega
    rw [writing]
    cases i with
    | zero =>
      rw [writing_other fun j hj => ?_, word_zero]
      · exact Function.update_self ..
      · have hnext := h (j + 1) (by omega) (by omega)
        rwa [hplace] at hnext
    | succ i =>
      rw [hplace, ih (by omega) fun j hj hne => ?_, word_succ]
      have hnext := h (j + 1) (by omega) (by omega)
      rwa [hplace, hplace] at hnext

theorem readback_fails (hincr : incr = 1 ∨ incr = -1) (hn : n ≤ 2 ^ 32) :
    (∃ j < n, m.readback (m.cell (addr + 4 * j)) (writing m incr n addr pattern contents (m.cell (addr + 4 * j))) ≠
      word pattern incr j) ↔
    m.Shared addr n ∨ ∃ j < n, m.Spoils (m.cell (addr + 4 * j)) (word pattern incr j) := by
  by_cases hshared : m.Shared addr n
  · refine ⟨fun _ => .inl hshared, fun _ => ?_⟩
    obtain ⟨i, j, hij, hj, hcell⟩ := hshared
    by_contra hno
    have hread : ∀ k < n, m.readback (m.cell (addr + 4 * k))
        (writing m incr n addr pattern contents (m.cell (addr + 4 * k))) = word pattern incr k :=
      fun k hk => not_not.mp fun hne => hno ⟨k, hk, hne⟩
    have hi := hread i (by omega)
    rw [hcell, hread j hj] at hi
    have heq := word_injective hincr (by omega) (by omega) hi
    omega
  · have hown : ∀ j < n, writing m incr n addr pattern contents (m.cell (addr + 4 * j)) = word pattern incr j := by
      intro j hj
      refine writing_own hj fun i hi hne hcell => hshared ?_
      rcases Nat.lt_or_gt_of_ne hne with hlt | hgt
      · exact ⟨i, j, hlt, hj, hcell⟩
      · exact ⟨j, i, hgt, hi, hcell.symm⟩
    constructor
    · rintro ⟨j, hj, hne⟩
      rw [hown j hj] at hne
      exact .inr ⟨j, hj, not_not.mp fun hno => hne (readback_eq_iff.mpr hno)⟩
    · rintro (h | ⟨j, hj, hspoils⟩)
      · exact absurd h hshared
      · refine ⟨j, hj, fun heq => ?_⟩
        rw [hown j hj] at heq
        exact readback_eq_iff.mp heq hspoils

variable {s s' s₀ s₁ s₂ : State κ} {k : Nat}

theorem iteration_next (h : iteration m ctrlc start stop limit s = .inl s') :
    s'.contents = writing m s.incr (words start stop) start s.pattern s.contents ∧ s'.pattern = flip s.pattern ∧
    s'.incr = -s.incr ∧ s'.iterations = s.iterations + 1 ∧ reading m ctrlc s.incr s'.contents (words start stop) start
      s.pattern (s.asked + 1) s.errs = some (s'.asked, s'.errs) := by
  unfold iteration at h
  split at h
  · cases h
  · split at h
    · cases h
    · dsimp only at h
      split at h
      · cases h
      next asked errs hread =>
        cases h
        exact ⟨rfl, rfl, rfl, rfl, hread⟩

/-- The command returns at the start of the iteration that is not begun, or in the one that `ctrlc` ends. -/
theorem doMemMtest_returns {memtestStart memtestEnd r : Nat} {argv : List CString} :
    (doMemMtest m ctrlc memtestStart memtestEnd argv contents).Returns r ↔
      ∃ k s, After m ctrlc (number argv 1 memtestStart) (number argv 2 memtestEnd) (BitVec.ofNat 32 (number argv 4 0))
          (begin (BitVec.ofNat 32 (number argv 3 0)) contents) k s ∧
        iteration m ctrlc (number argv 1 memtestStart) (number argv 2 memtestEnd)
          (BitVec.ofNat 32 (number argv 4 0)) s = .inr r := by
  unfold doMemMtest
  generalize number argv 1 memtestStart = start, number argv 2 memtestEnd = stop,
    BitVec.ofNat 32 (number argv 4 0) = limit
  constructor
  · intro h
    refine Comp.loop_returns (Q := fun r => ∃ k s, After m ctrlc start stop limit _ k s ∧
      iteration m ctrlc start stop limit s = .inr r) (fun s => ∃ k, After m ctrlc start stop limit _ k s)
      ?_ ?_ ⟨0, .start⟩ h
    · rintro s s' ⟨k, hk⟩ hstep
      exact ⟨k + 1, hk.next (Comp.returns_pure_iff.mp hstep).symm⟩
    · rintro s a ⟨k, hk⟩ hend
      exact ⟨k, s, hk, (Comp.returns_pure_iff.mp hend).symm⟩
  · rintro ⟨k, s, hk, hend⟩
    have hlast := returns_end hend
    clear hend
    induction hk with
    | start => exact hlast
    | next _ hstep ih => exact ih (returns_round hstep hlast)

theorem iteration_counts (h : iteration m ctrlc start stop limit s = .inl s')
    (hincr : s.incr = 1 ∨ s.incr = -1) (hn : words start stop ≤ 2 ^ 32) :
    s.errs ≤ s'.errs ∧ (s.errs < s'.errs ↔ m.Shared start (words start stop) ∨
      ∃ j < words start stop, m.Spoils (m.cell (start + 4 * j)) (word s.pattern s.incr j)) := by
  obtain ⟨hcontents, -, -, -, hread⟩ := iteration_next h
  rw [hcontents] at hread
  obtain ⟨hle, -, hiff⟩ := reading_counts hread
  exact ⟨hle, hiff.trans (readback_fails hincr hn)⟩

theorem After.increment (h : After m ctrlc start stop limit s₀ k s) (h₀ : s₀.incr = 1) :
    s.incr = 1 ∨ s.incr = -1 := by
  induction h with
  | start => exact .inl h₀
  | next _ hstep ih =>
    obtain ⟨-, -, hincr, -⟩ := iteration_next hstep
    rw [hincr]
    rcases ih with h | h
    · exact .inr (congrArg _ h)
    · rw [h]
      exact .inl rfl

theorem flip_eq (p : BitVec 32) : flip p = if p.msb then -p else ~~~p := by
  have hbit : (p &&& 0x80000000 ≠ 0) ↔ p.msb = true := by
    rw [show (0x80000000 : BitVec 32) = BitVec.twoPow 32 31 from rfl, BitVec.and_twoPow, BitVec.msb_eq_getLsbD_last]
    cases p.getLsbD 31 with
    | false => simp
    | true => simp
  unfold flip
  simp only [hbit]

theorem flip_positive {p : BitVec 32} (h : p.msb = false) : flip p = ~~~p := by
  rw [flip_eq, h]
  rfl

theorem flip_flip {p : BitVec 32} (h : p.msb = false) : flip (flip p) = p + 1 := by
  have hneg : (~~~p).msb = true := by simp [h]
  rw [flip_positive h, flip_eq, hneg, if_pos rfl, BitVec.neg_eq_not_add, BitVec.not_not]
  rfl

theorem msb_clear {p : BitVec 32} : p.msb = false ↔ p.toNat < 2 ^ 31 := by
  rw [BitVec.msb_eq_decide, decide_eq_false_iff_not, not_le]

theorem word_flip (h : pattern.msb = false) (j : Nat) : word (flip pattern) (-incr) j = ~~~word pattern incr j := by
  rw [flip_positive h, word_complement]

theorem After.first (h : After m ctrlc start stop limit s₀ (k + 1) s) :
    ∃ s₁, iteration m ctrlc start stop limit s₀ = .inl s₁ ∧ After m ctrlc start stop limit s₁ k s := by
  induction k generalizing s with
  | zero =>
    cases h with
    | next h hstep =>
      cases h
      exact ⟨s, hstep, .start⟩
  | succ k ih =>
    cases h with
    | next h hstep =>
      obtain ⟨s₁, hfirst, hrest⟩ := ih h
      exact ⟨s₁, hfirst, hrest.next hstep⟩

theorem After.pattern_counts {i : Nat} (h : After m ctrlc start stop limit s₀ (2 * i) s)
    (hroom : s₀.pattern.toNat + i < 2 ^ 31) : s.pattern.toNat = s₀.pattern.toNat + i := by
  induction i generalizing s₀ with
  | zero =>
    cases h
    rfl
  | succ i ih =>
    obtain ⟨s₁, hfirst, h⟩ := h.first
    obtain ⟨s₂, hsecond, h⟩ := h.first
    have hclear : s₀.pattern.msb = false := msb_clear.mpr (by omega)
    have hpattern : s₂.pattern = s₀.pattern + 1 := by
      rw [(iteration_next hsecond).2.1, (iteration_next hfirst).2.1, flip_flip hclear]
    have hnat : s₂.pattern.toNat = s₀.pattern.toNat + 1 := by
      rw [hpattern, BitVec.toNat_add]
      exact Nat.mod_eq_of_lt (by simp; omega)
    rw [ih h (by omega)]
    omega

theorem After.clear_even {i : Nat} (h : After m ctrlc start stop limit (begin pattern contents) (2 * i) s)
    (hroom : pattern.toNat + i < 2 ^ 31) : s.pattern.msb = false := by
  rw [msb_clear, h.pattern_counts hroom]
  exact hroom

theorem After.clear_odd {i : Nat} (h : After m ctrlc start stop limit (begin pattern contents) (2 * i + 1) s)
    (hset : 2 ^ 31 < pattern.toNat) (hroom : 2 ^ 32 - pattern.toNat + i < 2 ^ 31) : s.pattern.msb = false := by
  obtain ⟨s₁, hfirst, h⟩ := h.first
  have hmsb : pattern.msb = true := by
    rw [BitVec.msb_eq_decide]
    exact decide_eq_true (le_of_lt hset)
  have hpattern : s₁.pattern = -pattern := by
    rw [(iteration_next hfirst).2.1]
    change flip pattern = -pattern
    rw [flip_eq, hmsb, if_pos rfl]
  have hnat : s₁.pattern.toNat = 2 ^ 32 - pattern.toNat := by
    rw [hpattern, BitVec.toNat_neg]
    exact Nat.mod_eq_of_lt (by omega)
  rw [msb_clear, h.pattern_counts (by omega), hnat]
  exact hroom

/-- After two complete iterations `errs` has grown where two addresses have one cell or a stuck bit differs from
one of the two words written, which is every stuck bit where the first of the two patterns has bit 31 clear. -/
theorem two_iterations_find {s s₁ s₂ : State κ} (hn : words start stop ≤ 2 ^ 32)
    (h : After m ctrlc start stop limit (begin pattern contents) k s)
    (h₁ : iteration m ctrlc start stop limit s = .inl s₁) (h₂ : iteration m ctrlc start stop limit s₁ = .inl s₂) :
    (s.errs < s₂.errs ↔ m.Shared start (words start stop) ∨ ∃ j < words start stop,
      m.Spoils (m.cell (start + 4 * j)) (word s.pattern s.incr j) ∨
      m.Spoils (m.cell (start + 4 * j)) (word s₁.pattern s₁.incr j)) ∧
    (s.pattern.msb = false →
      (s.errs < s₂.errs ↔ m.Shared start (words start stop) ∨ m.Stuck start (words start stop))) ∧
    (∀ i, k = 2 * i → pattern.toNat + i < 2 ^ 31 → s.pattern.msb = false) ∧
    ∀ i, k = 2 * i + 1 → 2 ^ 31 < pattern.toNat → 2 ^ 32 - pattern.toNat + i < 2 ^ 31 → s.pattern.msb = false := by
  obtain ⟨hle₁, hgrown₁⟩ := iteration_counts h₁ (h.increment rfl) hn
  obtain ⟨hle₂, hgrown₂⟩ := iteration_counts h₂ ((h.next h₁).increment rfl) hn
  have hgrown : s.errs < s₂.errs ↔ s.errs < s₁.errs ∨ s₁.errs < s₂.errs := by omega
  have hpair : s.errs < s₂.errs ↔ m.Shared start (words start stop) ∨ ∃ j < words start stop,
      m.Spoils (m.cell (start + 4 * j)) (word s.pattern s.incr j) ∨
      m.Spoils (m.cell (start + 4 * j)) (word s₁.pattern s₁.incr j) := by
    rw [hgrown, hgrown₁, hgrown₂, ← or_or_distrib_left]
    simp only [and_or_left, exists_or]
  refine ⟨hpair, fun hclear => hpair.trans ?_, ?_, ?_⟩
  · obtain ⟨-, hpattern, hincr, -⟩ := iteration_next h₁
    unfold Memory.Stuck
    rw [hpattern, hincr]
    simp only [word_flip hclear, spoils_complement]
  · rintro i rfl hroom
    exact h.clear_even hroom
  · rintro i rfl hset hroom
    exact h.clear_odd hset hroom

def stuckWord : Memory Unit where
  cell _ := ()
  low _ := 0
  high _ := 1
  disjoint _ := rfl

theorem two_iterations_find_word : ∃ s₁ s₂ : State Unit,
    iteration stuckWord (fun _ => false) 0 4 0 (begin 0 fun _ => 0) = .inl s₁ ∧
    iteration stuckWord (fun _ => false) 0 4 0 s₁ = .inl s₂ ∧
    (0 < s₂.errs ↔ stuckWord.Shared 0 (words 0 4) ∨ stuckWord.Stuck 0 (words 0 4)) := by
  have hfirst : After stuckWord (fun _ => false) 0 4 0 (begin 0 fun _ => 0) 0 (begin 0 fun _ => 0) := .start
  exact ⟨_, _, rfl, rfl, (two_iterations_find (by decide) hfirst rfl rfl).2.1 rfl⟩

/-- The second and the third iteration from the pattern 0 both write bit 0 as 1. -/
theorem later_pair_misses : ∃ s s₁ s₂ : State Unit,
    After stuckWord (fun _ => false) 0 4 0 (begin 0 fun _ => 0) 1 s ∧
    iteration stuckWord (fun _ => false) 0 4 0 s = .inl s₁ ∧ iteration stuckWord (fun _ => false) 0 4 0 s₁ = .inl s₂ ∧
    stuckWord.Stuck 0 (words 0 4) ∧ ¬s.errs < s₂.errs :=
  ⟨_, _, _, After.start.next rfl, rfl, rfl, ⟨0, by decide, .inr (by decide)⟩, by decide⟩

end UBoot.Mtest
