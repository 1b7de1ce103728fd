import Mathlib.Algebra.GroupWithZero.Nat
import UBoot.EnvNand

namespace UBoot

open FlashCells List

/-- The place of one environment, and the blocks that `nand_block_isbad` reports, by address. -/
structure EnvPlace where
  envSize : Nat
  envRange : Nat
  erasesize : Nat
  isbad : Nat → Bool

structure EnvPlace.Fits (p : EnvPlace) : Prop where
  erasable : 0 < p.erasesize
  divides : p.erasesize ∣ p.envSize ∨ p.envSize ∣ p.erasesize
  wholeBlocks : p.erasesize ∣ p.envRange
  isUint32 : p.envRange < 2 ^ 32

/-- A call of `nand_write` or `nand_read` for `len` bytes. -/
structure EnvCall where
  ofs : Nat
  pos : Nat
deriving DecidableEq

/-- The memory that the calls change, which is the flash for `writeenv` and the buffer for `readenv`. -/
structure EnvRun where
  mem : Flash
  calls : List EnvCall

variable (p : EnvPlace)

def EnvPlace.len : Nat := min p.erasesize p.envSize

/-- The blocks from `offset` up to `end`, which is a word of the machine. -/
def EnvPlace.reach (offset : Nat) : List Nat :=
  blocks p.erasesize offset ((offset + p.envRange) % 2 ^ 32 - offset)

/-- The loop of `writeenv` and of `readenv`; `amount` is `amount_saved` or `amount_loaded`. -/
def envLoop {σ : Type} (op : Nat → Nat → σ → Bool × σ) : List Nat → Nat → σ → Int × σ
  | [], amount, s => (if amount ≠ p.envSize then 1 else 0, s)
  | a :: as, amount, s =>
    if amount < p.envSize then
      if p.isbad a then envLoop op as amount s
      else
        match op a amount s with
        | (false, s) => (1, s)
        | (true, s) => envLoop op as (amount + p.len) s
    else (if amount ≠ p.envSize then 1 else 0, s)

/-- One call. Where it returns a code other than 0 the bytes that it works on are left as `fault` has them. -/
def envCall (fault : Nat → Option Flash) (base : Nat → Nat → Nat) (act : Nat → Nat → Flash → Flash) (a pos : Nat)
    (s : EnvRun) : Bool × EnvRun :=
  match fault a with
  | some left => (false, ⟨patch s.mem (base a pos) p.len left, s.calls ++ [⟨a, pos⟩]⟩)
  | none => (true, ⟨act a pos s.mem, s.calls ++ [⟨a, pos⟩]⟩)

def writeCall (fault : Nat → Option Flash) (buf : Flash) : Nat → Nat → EnvRun → Bool × EnvRun :=
  envCall p fault (fun a _ => a) fun a pos m => program m a (read buf pos p.len)

def readCall (fault : Nat → Option Flash) (m : Flash) : Nat → Nat → EnvRun → Bool × EnvRun :=
  envCall p fault (fun _ pos => pos) fun a pos buf => store buf pos (read m a p.len)

/-- `writeenv` on the flash `m`. -/
def EnvPlace.writeenv (fault : Nat → Option Flash) (offset : Nat) (buf m : Flash) : Int × EnvRun :=
  envLoop p (writeCall p fault buf) (p.reach offset) 0 ⟨m, []⟩

/-- `readenv` into the memory `buf`. -/
def EnvPlace.readenv (fault : Nat → Option Flash) (offset : Nat) (m buf : Flash) : Int × EnvRun :=
  envLoop p (readCall p fault m) (p.reach offset) 0 ⟨buf, []⟩

def EnvPlace.need : Nat := p.envSize / p.len

def EnvPlace.taken (offset : Nat) : List Nat := ((p.reach offset).filter fun a => !p.isbad a).take p.need

def runCalls {σ : Type} (op : Nat → Nat → σ → Bool × σ) (len : Nat) : List Nat → Nat → σ → Bool × σ
  | [], _, s => (true, s)
  | a :: as, pos, s =>
    match op a pos s with
    | (false, s) => (false, s)
    | (true, s) => runCalls op len as (pos + len) s

/-- A range that holds too few good blocks, or whose end is no word of the machine. -/
def EnvPlace.TooFew (offset : Nat) : Prop :=
  ((blocks p.erasesize offset p.envRange).filter fun a => !p.isbad a).length < p.need ∨
    2 ^ 32 ≤ offset + p.envRange ∧ 0 < p.envSize

/-- A call on bytes of one good block of the range and of the environment's buffer. -/
structure EnvCall.Confined (p : EnvPlace) (offset : Nat) (c : EnvCall) : Prop where
  block : p.erasesize ∣ c.ofs
  good : p.isbad c.ofs = false
  inBlock : p.len ≤ p.erasesize
  lower : offset ≤ c.ofs
  upper : c.ofs + p.len ≤ offset + p.envRange
  buffer : c.pos + p.len ≤ p.envSize

variable {p} {fault fault' : Nat → Option Flash} {base : Nat → Nat → Nat} {act : Nat → Nat → Flash → Flash}
  {buf m : Flash} {offset amount pos n : Nat} {as : List Nat} {s : EnvRun}

theorem need_mul (hp : p.Fits) : p.need * p.len = p.envSize ∧ (0 < p.need → 0 < p.len) := by
  have hpos := hp.erasable
  unfold EnvPlace.need EnvPlace.len
  rcases hp.divides with hdvd | hdvd
  · rcases Nat.eq_zero_or_pos p.envSize with hzero | hsize
    · rw [hzero, Nat.min_zero]
      exact ⟨rfl, fun h => h⟩
    · rw [min_eq_left (Nat.le_of_dvd hsize hdvd)]
      exact ⟨Nat.div_mul_cancel hdvd, fun _ => hpos⟩
  · have hsize : 0 < p.envSize := Nat.pos_of_dvd_of_pos hdvd hpos
    rw [min_eq_right (Nat.le_of_dvd hpos hdvd)]
    exact ⟨Nat.div_mul_cancel (dvd_refl _), fun _ => hsize⟩

theorem envLoop_eq {σ : Type} (op : Nat → Nat → σ → Bool × σ) (as : List Nat) (s : σ) (hn : amount + n * p.len = p.envSize)
    (hlen : 0 < n → 0 < p.len) :
    ∃ rc : Int, envLoop p op as amount s =
        (rc, (runCalls op p.len ((as.filter fun a => !p.isbad a).take n) amount s).2) ∧ (rc = 0 ∨ rc = 1) ∧
      (rc = 1 ↔ ((as.filter fun a => !p.isbad a).take n).length < n ∨
        (runCalls op p.len ((as.filter fun a => !p.isbad a).take n) amount s).1 = false) := by
  induction as generalizing amount n s with
  | nil =>
    rw [filter_nil, take_nil]
    rcases Nat.eq_zero_or_pos n with rfl | hpos
    · rw [zero_mul, add_zero] at hn
      refine ⟨0, Prod.ext (if_neg (not_not.mpr hn)) rfl, .inl rfl, by simp [runCalls]⟩
    · have hmul := Nat.mul_pos hpos (hlen hpos)
      have hne : amount ≠ p.envSize := by omega
      exact ⟨1, Prod.ext (if_pos hne) rfl, .inr rfl, iff_of_true rfl (.inl hpos)⟩
  | cons a as ih =>
    cases n with
    | zero =>
      rw [zero_mul, add_zero] at hn
      have hdone : envLoop p op (a :: as) amount s = (0, s) := by
        unfold envLoop
        rw [if_neg (by omega), if_neg (not_not.mpr hn)]
      exact ⟨0, hdone, .inl rfl, by simp [runCalls]⟩
    | succ n =>
      have hpos := hlen (Nat.succ_pos n)
      rw [Nat.succ_mul] at hn
      unfold envLoop
      rw [if_pos (by omega)]
      by_cases hbad : p.isbad a
      · rw [if_pos hbad, filter_cons_of_neg (by simp [hbad])]
        exact ih s (by rw [Nat.succ_mul]; exact hn) hlen
      · have hcons : ((a :: as).filter fun a => !p.isbad a).take (n + 1) =
            a :: (as.filter fun a => !p.isbad a).take n := by
          rw [filter_cons_of_pos (by simp [hbad]), take_succ_cons]
        rw [if_neg hbad, hcons, runCalls]
        obtain ⟨ok, s', hop⟩ : ∃ ok s', op a amount s = (ok, s') := ⟨_, _, rfl⟩
        rw [hop]
        cases ok with
        | false => exact ⟨1, rfl, .inr rfl, iff_of_true rfl (.inr rfl)⟩
        | true =>
          obtain ⟨rc, hrun, hcases, hone⟩ := @ih (amount + p.len) n s' (by omega) fun _ => hpos
          refine ⟨rc, hrun, hcases, ?_⟩
          rw [hone, length_cons, Nat.succ_lt_succ_iff]

theorem runCalls_ok : (runCalls (envCall p fault base act) p.len as pos s).1 = true ↔ ∀ a ∈ as, fault a = none := by
  induction as generalizing pos s with
  | nil => exact iff_of_true rfl fun a ha => absurd ha not_mem_nil
  | cons a as ih =>
    rw [forall_mem_cons, runCalls, envCall]
    cases hfault : fault a with
    | some left => exact iff_of_false Bool.false_ne_true fun h => Option.some_ne_none left h.1
    | none => exact ih.trans (and_iff_right rfl).symm

theorem runCalls_calls {c : EnvCall} (hc : c ∈ (runCalls (envCall p fault base act) p.len as pos s).2.calls) :
    c ∈ s.calls ∨ ∃ j, as[j]? = some c.ofs ∧ c.pos = pos + j * p.len := by
  induction as generalizing pos s with
  | nil => exact .inl hc
  | cons a as ih =>
    have hfirst : c ∈ s.calls ++ [⟨a, pos⟩] → c ∈ s.calls ∨ ∃ j, (a :: as)[j]? = some c.ofs ∧ c.pos = pos + j * p.len := by
      intro h
      rcases mem_append.mp h with h | h
      · exact .inl h
      · rw [mem_singleton.mp h]
        exact .inr ⟨0, rfl, show pos = pos + 0 * p.len by omega⟩
    rw [runCalls, envCall] at hc
    cases hfault : fault a with
    | some left =>
      rw [hfault] at hc
      exact hfirst hc
    | none =>
      rw [hfault] at hc
      rcases ih hc with h | ⟨j, hj, hpos⟩
      · exact hfirst h
      · exact .inr ⟨j + 1, hj, by rw [hpos, Nat.succ_mul]; omega⟩

theorem runCalls_outside {x : Nat}
    (hframe : ∀ a pos m, x < base a pos ∨ base a pos + p.len ≤ x → act a pos m x = m x)
    (hx : ∀ j a, as[j]? = some a → x < base a (pos + j * p.len) ∨ base a (pos + j * p.len) + p.len ≤ x) :
    (runCalls (envCall p fault base act) p.len as pos s).2.mem x = s.mem x := by
  induction as generalizing pos s with
  | nil => rfl
  | cons a as ih =>
    have hfirst := hx 0 a rfl
    rw [zero_mul, add_zero] at hfirst
    rw [runCalls, envCall]
    cases hfault : fault a with
    | some left => exact patch_outside hfirst
    | none =>
      refine (ih fun j b hb => ?_).trans (hframe a pos s.mem hfirst)
      have hnext := hx (j + 1) b hb
      rw [Nat.succ_mul, add_comm (j * p.len), ← add_assoc] at hnext
      exact hnext

theorem runCalls_stores {P : Flash → Nat → Prop} {src : Nat → Nat → List UInt8}
    (hP : ∀ m m' x, (∀ i, i < p.len → m' (x + i) = m (x + i)) → P m x → P m' x)
    (hact : ∀ a pos m, P m (base a pos) → read (act a pos m) (base a pos) p.len = src a pos)
    (hframe : ∀ a pos m x, x < base a pos ∨ base a pos + p.len ≤ x → act a pos m x = m x)
    (hspaced : ∀ i j a b, i < j → as[i]? = some a → as[j]? = some b →
      base a (pos + i * p.len) + p.len ≤ base b (pos + j * p.len))
    (hready : ∀ j a, as[j]? = some a → P s.mem (base a (pos + j * p.len))) (hok : ∀ a ∈ as, fault a = none)
    {j a : Nat} (hj : as[j]? = some a) :
    read (runCalls (envCall p fault base act) p.len as pos s).2.mem (base a (pos + j * p.len)) p.len =
      src a (pos + j * p.len) := by
  induction as generalizing pos s j a with
  | nil => cases hj
  | cons b as ih =>
    obtain ⟨hb, hok⟩ := forall_mem_cons.mp hok
    have hshift : ∀ j, pos + (j + 1) * p.len = pos + p.len + j * p.len := by
      intro j
      rw [Nat.succ_mul]
      omega
    have hfirst : P s.mem (base b pos) := by
      have h := hready 0 b rfl
      rw [zero_mul, add_zero] at h
      exact h
    have hrun : runCalls (envCall p fault base act) p.len (b :: as) pos s =
        runCalls (envCall p fault base act) p.len as (pos + p.len) ⟨act b pos s.mem, s.calls ++ [⟨b, pos⟩]⟩ := by
      rw [runCalls, envCall, hb]
    -- what the later calls work on lies behind the first
    have hbehind : ∀ k c, as[k]? = some c → base b pos + p.len ≤ base c (pos + p.len + k * p.len) := by
      intro k c hc
      have h := hspaced 0 (k + 1) b c (Nat.succ_pos k) rfl hc
      rw [zero_mul, add_zero, hshift] at h
      exact h
    rw [hrun]
    cases j with
    | zero =>
      obtain rfl : b = a := Option.some.inj hj
      rw [zero_mul, add_zero, ← hact b pos s.mem hfirst]
      apply read_congr
      intro i hi
      refine runCalls_outside (fun a pos m => hframe a pos m _) fun k c hc => .inl ?_
      have h := hbehind k c hc
      omega
    | succ j =>
      rw [hshift]
      refine ih (fun i k a c hik ha hc => ?_) (fun k c hc => ?_) hok hj
      · have h := hspaced (i + 1) (k + 1) a c (Nat.succ_lt_succ hik) ha hc
        rw [hshift, hshift] at h
        exact h
      · have h := hready (k + 1) c hc
        rw [hshift] at h
        refine hP _ _ _ (fun i _ => hframe b pos s.mem _ (.inr ?_)) h
        have h := hbehind k c hc
        omega

theorem reach_wraps (hp : p.Fits) (hwrap : 2 ^ 32 ≤ offset + p.envRange) : p.reach offset = [] := by
  have hrange := hp.isUint32
  have hshort : (offset + p.envRange) % 2 ^ 32 - offset = 0 := by omega
  have hnone : (0 + p.erasesize - 1) / p.erasesize = 0 := Nat.div_eq_of_lt (by have := hp.erasable; omega)
  unfold EnvPlace.reach blocks
  rw [hshort, hnone]
  rfl

theorem reach_whole (hwrap : ¬2 ^ 32 ≤ offset + p.envRange) :
    p.reach offset = blocks p.erasesize offset p.envRange := by
  unfold EnvPlace.reach
  rw [Nat.mod_eq_of_lt (not_le.mp hwrap), Nat.add_sub_cancel_left]

theorem mem_taken (hp : p.Fits) {a : Nat} (ha : a ∈ p.taken offset) :
    p.isbad a = false ∧ ∃ k, a = offset + k * p.erasesize ∧ a + p.erasesize ≤ offset + p.envRange := by
  obtain ⟨hreach, hgood⟩ := mem_filter.mp (mem_of_mem_take ha)
  refine ⟨by simpa using hgood, ?_⟩
  by_cases hwrap : 2 ^ 32 ≤ offset + p.envRange
  · rw [reach_wraps hp hwrap] at hreach
    cases hreach
  · rw [reach_whole hwrap] at hreach
    obtain ⟨k, rfl, hk⟩ := (mem_blocks hp.erasable).mp hreach
    obtain ⟨n, hn⟩ := hp.wholeBlocks
    rw [hn, mul_comm p.erasesize n] at hk ⊢
    have hlast := Nat.mul_le_mul_right p.erasesize (Nat.lt_of_mul_lt_mul_right hk)
    rw [Nat.succ_mul] at hlast
    exact ⟨k, rfl, by omega⟩

theorem taken_spaced {i j a b : Nat} (hij : i < j) (ha : (p.taken offset)[i]? = some a)
    (hb : (p.taken offset)[j]? = some b) : a + p.len ≤ b := by
  have hspaced : (p.taken offset).Pairwise fun a b => a + p.erasesize ≤ b :=
    ((blocks_spaced _ _ _).filter _).sublist (take_sublist _ _)
  obtain ⟨hi, rfl⟩ := List.getElem?_eq_some_iff.mp ha
  obtain ⟨hj, rfl⟩ := List.getElem?_eq_some_iff.mp hb
  have hle : p.len ≤ p.erasesize := Nat.min_le_left _ _
  exact le_trans (Nat.add_le_add_left hle _) (pairwise_iff_getElem.mp hspaced i j hi hj hij)

theorem taken_place (hp : p.Fits) {j a : Nat} (hj : (p.taken offset)[j]? = some a) :
    j * p.len + p.len ≤ p.envSize := by
  obtain ⟨hlt, _⟩ := List.getElem?_eq_some_iff.mp hj
  have hle : (p.taken offset).length ≤ p.need := length_take_le _ _
  have hmul := Nat.mul_le_mul_right p.len (show j + 1 ≤ p.need by omega)
  rw [Nat.succ_mul, (need_mul hp).1] at hmul
  exact hmul

theorem taken_short (hp : p.Fits) : (p.taken offset).length < p.need ↔ p.TooFew offset := by
  have hneed : 0 < p.need ↔ 0 < p.envSize := by
    obtain ⟨hmul, hlen⟩ := need_mul hp
    constructor
    · intro h
      have := Nat.mul_pos h (hlen h)
      omega
    · intro h
      refine Nat.pos_of_ne_zero fun hzero => ?_
      rw [hzero, zero_mul] at hmul
      omega
  unfold EnvPlace.taken EnvPlace.TooFew
  rw [length_take]
  by_cases hwrap : 2 ^ 32 ≤ offset + p.envRange
  · rw [reach_wraps hp hwrap, filter_nil, length_nil, ← hneed]
    omega
  · rw [reach_whole hwrap]
    omega

/-- What is promised of a `writeenv` of `buf` on the flash `m` with the result `w`, and of a `readenv` after it into
`buf'` with the result `r`. -/
structure EnvPlace.RoundTrip (p : EnvPlace) (fault fault' : Nat → Option Flash) (offset : Nat) (buf m buf' : Flash)
    (w r : Int × EnvRun) : Prop where
  back : w.1 = 0 → (∀ a ∈ p.taken offset, fault' a = none) → r.1 = 0 ∧ ∀ i, i < p.envSize → r.2.mem i = buf i
  writes : ∀ c ∈ w.2.calls, c.Confined p offset
  reads : ∀ c ∈ r.2.calls, c.Confined p offset
  flash : ∀ x, (∀ a ∈ p.taken offset, x < a ∨ a + p.len ≤ x) → w.2.mem x = m x
  buffer : ∀ i, p.envSize ≤ i → r.2.mem i = buf' i
  writeCode : w.1 = 0 ∨ w.1 = 1
  readCode : r.1 = 0 ∨ r.1 = 1
  writeFails : w.1 = 1 ↔ p.TooFew offset ∨ ∃ a ∈ p.taken offset, fault a ≠ none
  readFails : r.1 = 1 ↔ p.TooFew offset ∨ ∃ a ∈ p.taken offset, fault' a ≠ none

theorem envLoop_taken (hp : p.Fits) (fault : Nat → Option Flash) (base : Nat → Nat → Nat)
    (act : Nat → Nat → Flash → Flash) (offset : Nat) (s : EnvRun) :
    ∃ rc : Int, envLoop p (envCall p fault base act) (p.reach offset) 0 s =
        (rc, (runCalls (envCall p fault base act) p.len (p.taken offset) 0 s).2) ∧ (rc = 0 ∨ rc = 1) ∧
      (rc = 1 ↔ p.TooFew offset ∨ ∃ a ∈ p.taken offset, fault a ≠ none) := by
  obtain ⟨hmul, hlen⟩ := need_mul hp
  obtain ⟨rc, hrun, hcases, hone⟩ := envLoop_eq (envCall p fault base act) (p.reach offset) s
    (show 0 + p.need * p.len = p.envSize by omega) hlen
  refine ⟨rc, hrun, hcases, hone.trans (or_congr (taken_short hp) ?_)⟩
  rw [← Bool.not_eq_true, runCalls_ok]
  simp only [not_forall, exists_prop]
  rfl

theorem runCalls_confined (hp : p.Fits) (hoffset : p.erasesize ∣ offset) {c : EnvCall}
    (hc : c ∈ (runCalls (envCall p fault base act) p.len (p.taken offset) 0 ⟨m, []⟩).2.calls) : c.Confined p offset := by
  rcases runCalls_calls hc with h | ⟨j, hj, hpos⟩
  · cases h
  · obtain ⟨hgood, k, hk, hupper⟩ := mem_taken hp (mem_iff_getElem?.mpr ⟨j, hj⟩)
    have hlen : p.len ≤ p.erasesize := Nat.min_le_left _ _
    refine ⟨?_, hgood, hlen, by omega, by omega, ?_⟩
    · rw [hk]
      exact Nat.dvd_add hoffset (dvd_mul_left _ _)
    · have hplace := taken_place hp hj
      omega

theorem program_frame (buf : Flash) (a pos : Nat) (m : Flash) {x : Nat} (hx : x < a ∨ a + p.len ≤ x) :
    program m a (read buf pos p.len) x = m x :=
  program_outside (by rw [read_length]; exact hx)

theorem store_frame (m : Flash) (a pos : Nat) (buf : Flash) {x : Nat} (hx : x < pos ∨ pos + p.len ≤ x) :
    store buf pos (read m a p.len) x = buf x :=
  store_outside (by rw [read_length]; exact hx)

/-- What `writeenv` stores on erased blocks comes back. -/
theorem writeenv_readenv_round_trip (hp : p.Fits) (hoffset : p.erasesize ∣ offset)
    (hblank : ∀ a ∈ p.taken offset, Blank m a p.len) (fault fault' : Nat → Option Flash) (buf buf' : Flash) :
    p.RoundTrip fault fault' offset buf m buf' (p.writeenv fault offset buf m)
      (p.readenv fault' offset (p.writeenv fault offset buf m).2.mem buf') := by
  obtain ⟨wrc, hwrite, hwcode, hwone⟩ := envLoop_taken hp fault (fun a _ => a)
    (fun a pos m => program m a (read buf pos p.len)) offset ⟨m, []⟩
  obtain ⟨w, hw⟩ : ∃ w, (runCalls (writeCall p fault buf) p.len (p.taken offset) 0 ⟨m, []⟩).2 = w := ⟨_, rfl⟩
  obtain ⟨rrc, hread, hrcode, hrone⟩ := envLoop_taken hp fault' (fun _ pos => pos)
    (fun a pos buf => store buf pos (read w.mem a p.len)) offset ⟨buf', []⟩
  obtain ⟨r, hr⟩ : ∃ r, (runCalls (readCall p fault' w.mem) p.len (p.taken offset) 0 ⟨buf', []⟩).2 = r := ⟨_, rfl⟩
  have hwriteenv : p.writeenv fault offset buf m = (wrc, w) := hw ▸ hwrite
  have hreadenv : p.readenv fault' offset w.mem buf' = (rrc, r) := hr ▸ hread
  rw [hwriteenv, hreadenv]
  refine ⟨?_, fun c hc => ?_, fun c hc => ?_, fun x hx => ?_, fun i hi => ?_, hwcode, hrcode, hwone, hrone⟩
  · intro hzero hgood
    have hnone : ¬(p.TooFew offset ∨ ∃ a ∈ p.taken offset, fault a ≠ none) := fun h => by
      rw [hwone.mpr h] at hzero
      cases hzero
    have hok : ∀ a ∈ p.taken offset, fault a = none :=
      fun a ha => of_not_not fun h => hnone (.inr ⟨a, ha, h⟩)
    have hfull : p.need ≤ (p.taken offset).length := not_lt.mp fun h => hnone (.inl ((taken_short hp).mp h))
    refine ⟨hrcode.resolve_right fun hone => ?_, fun i hi => ?_⟩
    · rcases hrone.mp hone with h | ⟨a, ha, h⟩
      · exact hnone (.inl h)
      · exact h (hgood a ha)
    · obtain ⟨hmul, hlen⟩ := need_mul hp
      have hpos : 0 < p.len := hlen (Nat.pos_of_ne_zero fun h => by rw [h, zero_mul] at hmul; omega)
      have hdiv : i / p.len < p.need := (Nat.div_lt_iff_lt_mul hpos).mpr (by omega)
      obtain ⟨a, ha⟩ : ∃ a, (p.taken offset)[i / p.len]? = some a :=
        ⟨_, List.getElem?_eq_getElem (show i / p.len < (p.taken offset).length by omega)⟩
      -- the chunk that holds byte `i`, as it was stored and as it is loaded
      have hstored : read w.mem a p.len = read buf (0 + i / p.len * p.len) p.len := by
        rw [← hw]
        exact runCalls_stores (s := ⟨m, []⟩) (P := fun m a => Blank m a p.len) (fun _ _ _ heq hb => hb.congr heq)
          (fun a pos m hb => by
            have h : read (program m a (read buf pos p.len)) a (read buf pos p.len).length = read buf pos p.len :=
              read_program (by rw [read_length]; exact hb)
            rw [read_length] at h
            exact h)
          (fun a pos m _ => program_frame buf a pos m) (fun _ _ _ _ hij hi hj => taken_spaced hij hi hj)
          (fun _ b hb => hblank b (mem_iff_getElem?.mpr ⟨_, hb⟩)) hok ha
      have hloaded : read r.mem (0 + i / p.len * p.len) p.len = read w.mem a p.len := by
        rw [← hr]
        exact runCalls_stores (P := fun _ _ => True) (fun _ _ _ _ _ => trivial)
          (fun a pos buf _ => by
            have h := read_store buf pos (read w.mem a p.len)
            rw [read_length] at h
            exact h)
          (fun a pos buf _ => store_frame w.mem a pos buf)
          (fun i j _ _ hij _ _ => by
            have h := Nat.mul_le_mul_right p.len hij
            rw [Nat.succ_mul] at h
            omega)
          (fun _ _ _ => trivial) hgood ha
      have hbyte : i = 0 + i / p.len * p.len + i % p.len := by
        rw [zero_add]
        exact (Nat.div_add_mod' i p.len).symm
      have hin := Nat.mod_lt i hpos
      calc r.mem i = (read r.mem (0 + i / p.len * p.len) p.len).getD (i % p.len) 0 := by
            rw [getD_read hin 0, ← hbyte]
        _ = (read buf (0 + i / p.len * p.len) p.len).getD (i % p.len) 0 := by rw [hloaded, hstored]
        _ = buf i := by rw [getD_read hin 0, ← hbyte]
  · rw [← hw] at hc
    exact runCalls_confined hp hoffset hc
  · rw [← hr] at hc
    exact runCalls_confined hp hoffset hc
  · rw [← hw]
    exact runCalls_outside (fun a pos m => program_frame buf a pos m) fun j a ha =>
      hx a (mem_iff_getElem?.mpr ⟨j, ha⟩)
  · rw [← hr]
    refine runCalls_outside (fun a pos buf => store_frame w.mem a pos buf) fun j a ha => .inr ?_
    have hplace := taken_place hp ha
    omega

/-- Flash that is not erased takes the bytes without an error, but keeps its zeros. -/
theorem written_over_zeros :
    (EnvPlace.writeenv ⟨4, 4, 4, fun _ => false⟩ (fun _ => none) 0 (fun _ => 1) fun _ => 0).1 = 0 ∧
      (EnvPlace.readenv ⟨4, 4, 4, fun _ => false⟩ (fun _ => none) 0
        (EnvPlace.writeenv ⟨4, 4, 4, fun _ => false⟩ (fun _ => none) 0 (fun _ => 1) fun _ => 0).2.mem
        fun _ => 0xff).2.mem 0 ≠ 1 := by
  decide

theorem writeenv_readenv_round_trip_block :
    EnvPlace.RoundTrip ⟨4, 8, 4, fun a => decide (a = 0)⟩ (fun _ => none) (fun _ => none) 0 (fun _ => 1) (fun _ => 0xff)
      (fun _ => 0) (EnvPlace.writeenv ⟨4, 8, 4, fun a => decide (a = 0)⟩ (fun _ => none) 0 (fun _ => 1) fun _ => 0xff)
      (EnvPlace.readenv ⟨4, 8, 4, fun a => decide (a = 0)⟩ (fun _ => none) 0
        (EnvPlace.writeenv ⟨4, 8, 4, fun a => decide (a = 0)⟩ (fun _ => none) 0 (fun _ => 1) fun _ => 0xff).2.mem
        fun _ => 0) :=
  writeenv_readenv_round_trip ⟨by decide, .inl (by decide), by decide, by decide⟩ (by decide) (fun _ _ _ _ => rfl)
    _ _ _ _

end UBoot
