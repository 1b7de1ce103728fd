import Mathlib.Algebra.GroupWithZero.Nat
import UBoot.CString
import UBoot.Cells
import UBoot.Ring

namespace UBoot.Autoboot

open Cells List RecentWindow

def maxDelayStopStr : Nat := 32

/-- An entry of `delaykey`. -/
structure DelayKey where
  str : Option CString
  retry : Bool

/-- `CONFIG_AUTOBOOT_DELAY_STR` and the three others. -/
structure AutobootStrs where
  delayStr : Option CString
  delayStr2 : Option CString
  stopStr : Option CString
  stopStr2 : Option CString

def delaykey (getenv : List UInt8 → Option CString) (config : AutobootStrs) : List DelayKey :=
  [⟨getenv (ascii ['b', 'o', 'o', 't', 'd', 'e', 'l', 'a', 'y', 'k', 'e', 'y']) <|> config.delayStr, true⟩,
    ⟨getenv (ascii ['b', 'o', 'o', 't', 'd', 'e', 'l', 'a', 'y', 'k', 'e', 'y', '2']) <|> config.delayStr2, true⟩,
    ⟨getenv (ascii ['b', 'o', 'o', 't', 's', 't', 'o', 'p', 'k', 'e', 'y']) <|> config.stopStr, false⟩,
    ⟨getenv (ascii ['b', 'o', 'o', 't', 's', 't', 'o', 'p', 'k', 'e', 'y', '2']) <|> config.stopStr2, false⟩]

/-- The characters of a key that count, as many as `len` says. -/
def DelayKey.key (k : DelayKey) : List UInt8 :=
  match k.str with
  | none => []
  | some s => s.bytes.take maxDelayStopStr

def DelayKey.len (k : DelayKey) : Nat :=
  match k.str with
  | none => 0
  | some s => if s.bytes.length > maxDelayStopStr then maxDelayStopStr else s.bytes.length

def presskeyMax (keys : List DelayKey) : Nat :=
  keys.foldl (fun presskeyMax k => if presskeyMax > k.len then presskeyMax else k.len) 0

/-- `presskey` and `presskey_len`. -/
structure Presskey where
  buf : List UInt8
  len : Nat

/-- `presskey [i] = presskey [i + 1]` in rounds with ascending `i`. -/
def shiftDown : Nat → Nat → List UInt8 → Option (List UInt8)
  | 0, _, buf => some buf
  | n + 1, i, buf => do
    let buf ← store buf i (← buf[i + 1]?)
    shiftDown n (i + 1) buf

/-- A character is there. The bound of the loop is a `u_int`. -/
def Presskey.getc (presskeyMax : Nat) (c : UInt8) (p : Presskey) : Option Presskey :=
  if p.len < presskeyMax then do
    some ⟨← store p.buf p.len c, p.len + 1⟩
  else do
    let i := (presskeyMax + (2 ^ 32 - 1)) % 2 ^ 32
    let buf ← shiftDown i 0 p.buf
    some ⟨← store buf i c, p.len⟩

/-- `tstc` says whether there is a character. -/
def Presskey.input (presskeyMax : Nat) (p : Presskey) : Option UInt8 → Option Presskey
  | some c => p.getc presskeyMax c
  | none => some p

/-- `memcmp` of the last characters with a key. -/
def Presskey.ends (p : Presskey) (k : DelayKey) : Option Bool :=
  if k.len > 0 ∧ p.len ≥ k.len then
    if p.len ≤ p.buf.length then some ((p.buf.drop (p.len - k.len)).take k.len == k.key) else none
  else some false

/-- The keys one after another. With `CONFIG_BOOT_RETRY_TIME` a key without `retry` sets `retry_time` to -1. -/
def Presskey.watch (p : Presskey) : List DelayKey → Option (Bool × Bool)
  | [] => some (false, false)
  | k :: keys => do
    let hit ← p.ends k
    let (abort, noRetry) ← p.watch keys
    some (hit || abort, (hit && !k.retry) || noRetry)

/-- What `abortboot` has come to: the rounds that it has not made are left. -/
structure Watched where
  abort : Bool
  noRetry : Bool
  left : List (Option UInt8)
  presskey : Presskey

/-- The loop. Each round has a character or none, and there are as many rounds as the time allows. -/
def abortbootLoop (keys : List DelayKey) : List (Option UInt8) → Presskey → Option Watched
  | [], p => some ⟨false, false, [], p⟩
  | input :: rounds, p => do
    let p ← p.input (presskeyMax keys) input
    let (abort, noRetry) ← p.watch keys
    if abort then some ⟨true, noRetry, rounds, p⟩ else abortbootLoop keys rounds p

/-- `abortboot` with `CONFIG_AUTOBOOT_KEYED`. -/
def abortboot (keys : List DelayKey) (presskey : List UInt8) (rounds : List (Option UInt8)) : Option Watched :=
  abortbootLoop keys rounds ⟨presskey, 0⟩

/-- The characters of some rounds. -/
def typed (rounds : List (Option UInt8)) : List UInt8 := rounds.filterMap id

def Stops (keys : List DelayKey) (past : List UInt8) : Prop := ∃ k ∈ keys, k.key ≠ [] ∧ k.key <:+ past

/-- The loop has ended after the first character that completes a key, or has made all of its rounds. -/
structure Watched.Exact (w : Watched) (keys : List DelayKey) (rounds : List (Option UInt8)) : Prop where
  stops : ∃ used, rounds = used ++ w.left ∧ (w.abort = true ↔ Stops keys (typed used)) ∧
    ∀ pre, pre <+: used → pre.length < used.length → ¬Stops keys (typed pre)
  goesOn : w.abort = false → w.left = []

variable {keys : List DelayKey} {k : DelayKey} {p : Presskey} {past : List UInt8} {rounds : List (Option UInt8)}

theorem DelayKey.key_length (k : DelayKey) : k.key.length = k.len := by
  unfold DelayKey.key DelayKey.len
  cases k.str with
  | none => rfl
  | some s =>
    dsimp only
    rw [length_take]
    split <;> omega

theorem DelayKey.len_le (k : DelayKey) : k.len ≤ maxDelayStopStr := by
  rw [← k.key_length]
  unfold DelayKey.key
  cases k.str with
  | none => exact Nat.zero_le _
  | some s => exact length_take_le _ _

theorem DelayKey.key_ne_nil : k.key ≠ [] ↔ 0 < k.len := by
  rw [← k.key_length, length_pos_iff]

theorem presskeyMax_foldl (m : Nat) :
    keys.foldl (fun presskeyMax k => if presskeyMax > k.len then presskeyMax else k.len) m =
      keys.foldl (fun m k => max m k.len) m := by
  induction keys generalizing m with
  | nil => rfl
  | cons k keys ih =>
    have hmax : (if m > k.len then m else k.len) = max m k.len := by
      split <;> omega
    rw [foldl_cons, foldl_cons, hmax, ih]

theorem le_foldl_max {m n : Nat} : n ≤ keys.foldl (fun m k => max m k.len) m ↔ n ≤ m ∨ ∃ k ∈ keys, n ≤ k.len := by
  induction keys generalizing m with
  | nil => simp
  | cons k keys ih =>
    have hmax : n ≤ max m k.len ↔ n ≤ m ∨ n ≤ k.len := by omega
    rw [foldl_cons, ih, exists_mem_cons_iff, ← or_assoc, hmax]

theorem le_presskeyMax {n : Nat} : n ≤ presskeyMax keys ↔ n = 0 ∨ ∃ k ∈ keys, n ≤ k.len := by
  rw [presskeyMax, presskeyMax_foldl, le_foldl_max, Nat.le_zero]

theorem presskeyMax_le (keys : List DelayKey) : presskeyMax keys ≤ maxDelayStopStr := by
  rcases le_presskeyMax.mp (le_refl (presskeyMax keys)) with h | ⟨k, _, h⟩
  · rw [h]
    exact Nat.zero_le _
  · exact h.trans k.len_le

theorem shiftDown_moves {w rest : List UInt8} {q : List UInt8} {a : UInt8} :
    ∃ x, shiftDown w.length q.length (q ++ a :: w ++ rest) = some (q ++ w ++ x :: rest) := by
  induction w generalizing q a with
  | nil => exact ⟨a, by simp [shiftDown]⟩
  | cons b w ih =>
    obtain ⟨x, hx⟩ := ih (q := q ++ [b]) (a := b)
    refine ⟨x, ?_⟩
    have hnext : (q ++ a :: b :: w ++ rest)[q.length + 1]? = some b := by simp
    have hput : store (q ++ a :: b :: w ++ rest) q.length b = some (q ++ [b] ++ b :: w ++ rest) := by
      have hat := store_at (p := q) (q := b :: w ++ rest) (y := a) b
      simpa using hat
    rw [length_cons, shiftDown, hnext]
    simp only [Option.bind_eq_bind, Option.bind_some, hput]
    rw [length_append, length_singleton] at hx
    rw [hx, append_assoc q, singleton_append]

theorem shiftDown_outside {n i : Nat} {buf : List UInt8} (hn : 0 < n) (h : buf.length ≤ i + n) :
    shiftDown n i buf = none := by
  induction n generalizing i buf with
  | zero => exact absurd hn (lt_irrefl 0)
  | succ n ih =>
    rw [shiftDown]
    by_cases hin : i + 1 < buf.length
    · rw [List.getElem?_eq_getElem hin]
      simp only [Option.bind_eq_bind, Option.bind_some, store, if_pos (Nat.lt_of_succ_lt hin)]
      apply ih
      · omega
      · rw [length_set]
        omega
    · rw [List.getElem?_eq_none (not_lt.mp hin)]
      rfl

/-- What the window holds behind some characters. -/
structure Presskey.Holds (p : Presskey) (max : Nat) (past : List UInt8) : Prop where
  size : p.buf.length = maxDelayStopStr
  window : p.buf.take p.len = recent max past
  len : p.len = min max past.length

theorem Presskey.Holds.fits (h : p.Holds (presskeyMax keys) past) : p.len ≤ p.buf.length := by
  rw [h.size, h.len]
  exact (Nat.min_le_left _ _).trans (presskeyMax_le keys)

theorem Presskey.Holds.getc (h : p.Holds (presskeyMax keys) past) (hmax : 0 < presskeyMax keys) (c : UInt8) :
    ∃ p', p.getc (presskeyMax keys) c = some p' ∧ p'.Holds (presskeyMax keys) (past ++ [c]) := by
  have hsize := h.size
  have hlen := h.len
  have hle := presskeyMax_le keys
  have hsplit := take_append_drop p.len p.buf
  rw [h.window] at hsplit
  unfold Presskey.getc
  by_cases hfull : p.len < presskeyMax keys
  · have hin : p.len < p.buf.length := by omega
    have hpast : past.length < presskeyMax keys := by omega
    rw [if_pos hfull, store, if_pos hin]
    refine ⟨_, rfl, by rw [length_set]; exact hsize, ?_, ?_⟩
    · dsimp only
      rw [recent_fill c hpast, ← h.window, take_add_one, take_set_of_le le_rfl,
        List.getElem?_set_self hin]
      rfl
    · dsimp only
      rw [length_append, length_singleton]
      omega
  · have hpast : presskeyMax keys ≤ past.length := by omega
    have hwin : (recent (presskeyMax keys) past).length = presskeyMax keys := by
      rw [recent_length]
      exact min_eq_left hpast
    obtain ⟨a, w, hw⟩ := exists_cons_of_length_pos (Nat.lt_of_lt_of_eq hmax hwin.symm)
    have hwlen : w.length = presskeyMax keys - 1 := by
      rw [← hwin, hw, length_cons, Nat.add_sub_cancel]
    have hlast : (presskeyMax keys + (2 ^ 32 - 1)) % 2 ^ 32 = w.length := by
      unfold maxDelayStopStr at hle
      omega
    obtain ⟨x, hx⟩ := @shiftDown_moves w (p.buf.drop p.len) [] a
    rw [hw] at hsplit
    rw [nil_append, nil_append, hsplit] at hx
    rw [if_neg hfull, hlast]
    rw [length_nil] at hx
    simp only [hx, Option.bind_eq_bind, Option.bind_some]
    rw [store_at]
    refine ⟨_, rfl, ?_, ?_, ?_⟩
    · have hold := congrArg List.length hsplit
      simp only [length_append, length_cons] at hold ⊢
      omega
    · dsimp only
      have hall : (w ++ [c]).length = p.len := by
        rw [length_append, length_singleton]
        omega
      rw [recent_shift c hmax hpast, hw, tail_cons, ← singleton_append, ← append_assoc,
        take_left' hall]
    · dsimp only
      rw [length_append, length_singleton]
      omega

theorem Presskey.Holds.ends (h : p.Holds (presskeyMax keys) past) (hk : k ∈ keys) :
    p.ends k = some (decide (k.key ≠ [] ∧ k.key <:+ past)) := by
  have hkey := k.key_length
  have hmax : k.key.length ≤ presskeyMax keys := by
    rw [hkey]
    exact le_presskeyMax.mpr (.inr ⟨k, hk, le_refl _⟩)
  have hsuffix : k.key <:+ recent (presskeyMax keys) past ↔ k.key <:+ past := suffix_recent_iff hmax
  rw [← h.window] at hsuffix
  have hlen : (p.buf.take p.len).length = p.len := length_take_of_le h.fits
  unfold Presskey.ends
  rw [if_pos h.fits]
  split
  next hin =>
    have hmatch : (p.buf.drop (p.len - k.len)).take k.len = k.key ↔ k.key <:+ p.buf.take p.len := by
      rw [suffix_iff_eq_drop, hlen, hkey, drop_take, Nat.sub_sub_self hin.2]
      exact eq_comm
    rw [Option.some.injEq, Bool.eq_iff_iff, beq_iff_eq, decide_eq_true_eq, hmatch, hsuffix]
    exact ⟨fun hs => ⟨DelayKey.key_ne_nil.mpr hin.1, hs⟩, fun hs => hs.2⟩
  next hout =>
    rw [Option.some.injEq, Bool.eq_iff_iff, decide_eq_true_eq]
    refine iff_of_false Bool.false_ne_true ?_
    rintro ⟨hne, hs⟩
    have hle := (hsuffix.mpr hs).length_le
    rw [hlen, hkey] at hle
    exact hout ⟨DelayKey.key_ne_nil.mp hne, hle⟩

theorem Presskey.Holds.watch (h : p.Holds (presskeyMax keys) past) {ks : List DelayKey}
    (hsome : ∀ k ∈ ks, k ∈ keys) : ∃ abort noRetry, p.watch ks = some (abort, noRetry) ∧
      (abort = true ↔ Stops ks past) := by
  induction ks with
  | nil => exact ⟨false, false, rfl, iff_of_false Bool.false_ne_true fun ⟨_, hk, _⟩ => not_mem_nil hk⟩
  | cons k ks ih =>
    obtain ⟨abort, noRetry, hrest, habort⟩ := ih fun k' hk' => hsome k' (mem_cons_of_mem k hk')
    have hfirst := h.ends (hsome k mem_cons_self)
    refine ⟨_, _, by rw [Presskey.watch, hfirst, hrest]; rfl, ?_⟩
    unfold Stops at habort ⊢
    rw [Bool.or_eq_true, decide_eq_true_eq, habort, exists_mem_cons_iff]

theorem not_stops_nil (keys : List DelayKey) : ¬Stops keys [] := by
  rintro ⟨k, _, hne, hs⟩
  exact hne (suffix_nil.mp hs)

theorem typed_append (used rounds : List (Option UInt8)) : typed (used ++ rounds) = typed used ++ typed rounds :=
  filterMap_append

theorem Presskey.Holds.input (h : p.Holds (presskeyMax keys) past) {input : Option UInt8}
    (hmax : 0 < presskeyMax keys ∨ input = none) :
    ∃ p', p.input (presskeyMax keys) input = some p' ∧ p'.Holds (presskeyMax keys) (past ++ typed [input]) := by
  cases input with
  | none => exact ⟨p, rfl, by rwa [show typed [none] = [] from rfl, append_nil]⟩
  | some c => exact h.getc (hmax.resolve_right (Option.some_ne_none c)) c

theorem abortbootLoop_exact {done : List (Option UInt8)} (h : p.Holds (presskeyMax keys) (typed done))
    (hno : ¬Stops keys (typed done)) (hmax : 0 < presskeyMax keys ∨ typed rounds = []) :
    ∃ w used, abortbootLoop keys rounds p = some w ∧ rounds = used ++ w.left ∧
      (w.abort = true ↔ Stops keys (typed (done ++ used))) ∧
      (∀ pre, pre <+: used → pre.length < used.length → ¬Stops keys (typed (done ++ pre))) ∧
      (w.abort = false → w.left = []) := by
  induction rounds generalizing p done with
  | nil =>
    refine ⟨_, [], rfl, rfl, iff_of_false Bool.false_ne_true ?_, fun pre _ hlt => absurd hlt (Nat.not_lt_zero _),
      fun _ => rfl⟩
    rwa [append_nil]
  | cons input rounds ih =>
    have hinput : 0 < presskeyMax keys ∨ input = none := by
      refine hmax.imp_right fun hnone => ?_
      cases input with
      | none => rfl
      | some c => cases hnone
    have hrest : 0 < presskeyMax keys ∨ typed rounds = [] :=
      hmax.imp_right fun hnone => (append_eq_nil_iff.mp ((typed_append [input] rounds).symm.trans hnone)).2
    obtain ⟨p', hp', hholds⟩ := h.input hinput
    rw [← typed_append] at hholds
    obtain ⟨abort, noRetry, hwatch, habort⟩ := hholds.watch fun _ hk => hk
    rw [abortbootLoop, hp']
    simp only [Option.bind_eq_bind, Option.bind_some, hwatch]
    cases abort with
    | true =>
      refine ⟨_, [input], rfl, rfl, iff_of_true rfl (habort.mp rfl), fun pre _ hlt => ?_, fun h => ?_⟩
      · obtain rfl : pre = [] := length_eq_zero_iff.mp (Nat.lt_one_iff.mp hlt)
        rwa [append_nil]
      · cases h
    | false =>
      have hstill : ¬Stops keys (typed (done ++ [input])) := fun hs => Bool.false_ne_true (habort.mpr hs)
      obtain ⟨w, used, hrun, hrounds, hw, hbefore, hleft⟩ := ih hholds hstill hrest
      refine ⟨w, input :: used, hrun, congrArg (List.cons input) hrounds, ?_, fun pre hpre hlt => ?_, hleft⟩
      · rwa [append_assoc] at hw
      · cases pre with
        | nil => rwa [append_nil]
        | cons first pre =>
          obtain ⟨rfl, hpre'⟩ := cons_prefix_cons.mp hpre
          have hnot := hbefore pre hpre' (Nat.lt_of_succ_lt_succ hlt)
          rwa [append_assoc] at hnot

theorem abortbootLoop_outside (hmax : presskeyMax keys = 0) (hsize : p.buf.length = maxDelayStopStr)
    (htyped : typed rounds ≠ []) (hlen : p.len = 0) : abortbootLoop keys rounds p = none := by
  induction rounds with
  | nil => exact absurd rfl htyped
  | cons input rounds ih =>
    cases input with
    | some c =>
      have hout : shiftDown (2 ^ 32 - 1) 0 p.buf = none := by
        apply shiftDown_outside
        · decide
        · rw [hsize]
          decide
      have hgetc : p.getc (presskeyMax keys) c = none := by
        rw [hmax, Presskey.getc, hlen, if_neg (lt_irrefl 0)]
        dsimp only
        rw [zero_add, Nat.mod_eq_of_lt (by decide), hout]
        rfl
      rw [abortbootLoop, Presskey.input, hgetc]
      rfl
    | none =>
      have hzero : ∀ k ∈ keys, k.len = 0 := fun k hk =>
        Nat.le_zero.mp (hmax ▸ le_presskeyMax.mpr (.inr ⟨k, hk, le_refl _⟩))
      have hwatch : ∀ ks : List DelayKey, (∀ k ∈ ks, k ∈ keys) → p.watch ks = some (false, false) := by
        intro ks hks
        induction ks with
        | nil => rfl
        | cons k ks ihk =>
          have hfirst : p.ends k = some false :=
            if_neg fun h => absurd h.1 (by rw [hzero k (hks k mem_cons_self)]; exact lt_irrefl 0)
          rw [Presskey.watch, hfirst, ihk fun k' hk' => hks k' (mem_cons_of_mem k hk')]
          rfl
      rw [abortbootLoop]
      simp only [Presskey.input, Option.bind_eq_bind, Option.bind_some, hwatch keys fun _ hk => hk]
      exact ih htyped

/-- `abortboot` stops exactly where a key has been typed, within its buffer, if and only if there is a key that is
not empty or nothing is typed. -/
theorem abortboot_exact_iff (getenv : List UInt8 → Option CString) (config : AutobootStrs) (presskey : List UInt8)
    (rounds : List (Option UInt8)) (hsize : presskey.length = maxDelayStopStr) :
    (∃ w, abortboot (delaykey getenv config) presskey rounds = some w ∧ w.Exact (delaykey getenv config) rounds) ↔
      (∃ k ∈ delaykey getenv config, k.key ≠ []) ∨ typed rounds = [] := by
  have hpos : 0 < presskeyMax (delaykey getenv config) ↔ ∃ k ∈ delaykey getenv config, k.key ≠ [] := by
    simp only [DelayKey.key_ne_nil]
    rw [← Nat.succ_le_iff, le_presskeyMax]
    exact or_iff_right (Nat.succ_ne_zero 0)
  rw [← hpos]
  constructor
  · rintro ⟨w, hrun, _⟩
    by_contra hno
    obtain ⟨hmax, htyped⟩ := not_or.mp hno
    have hout : abortboot (delaykey getenv config) presskey rounds = none :=
      abortbootLoop_outside (Nat.le_zero.mp (not_lt.mp hmax)) hsize htyped rfl
    rw [hout] at hrun
    cases hrun
  · intro hmax
    have hstart : Presskey.Holds ⟨presskey, 0⟩ (presskeyMax (delaykey getenv config)) (typed []) :=
      ⟨hsize, by rw [take_zero]; exact recent_nil.symm, (Nat.min_zero _).symm⟩
    obtain ⟨w, used, hrun, hrounds, habort, hbefore, hleft⟩ :=
      abortbootLoop_exact hstart (not_stops_nil _) hmax
    exact ⟨w, hrun, ⟨used, hrounds, habort, hbefore⟩, hleft⟩

def noStrs : AutobootStrs := ⟨none, none, none, none⟩

def blankStops : AutobootStrs := { noStrs with stopStr := some ⟨[32], by decide⟩ }

theorem abortboot_exact_blank :
    (∃ w, abortboot (delaykey (fun _ => none) blankStops) (List.replicate 32 7) [some 65, none, some 32] = some w ∧
        w.Exact (delaykey (fun _ => none) blankStops) [some 65, none, some 32]) ↔
      (∃ k ∈ delaykey (fun _ => none) blankStops, k.key ≠ []) ∨ typed [some 65, none, some 32] = [] :=
  abortboot_exact_iff (fun _ => none) blankStops (List.replicate 32 7) [some 65, none, some 32] (by decide)

/-- No key is set, and someone types a character. -/
theorem character_without_keys :
    ¬∃ w, abortboot (delaykey (fun _ => none) noStrs) (List.replicate 32 7) [some 65] = some w ∧
      w.Exact (delaykey (fun _ => none) noStrs) [some 65] := by
  have hout : abortboot (delaykey (fun _ => none) noStrs) (List.replicate 32 7) [some 65] = none :=
    abortbootLoop_outside rfl (by decide) (by decide) rfl
  rintro ⟨w, hrun, _⟩
  rw [hout] at hrun
  cases hrun

end UBoot.Autoboot
