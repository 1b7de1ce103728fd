import UBoot.Dnw

namespace UBoot.Dnw

open Loops

/-- The wait loop from these variables on ends with the size `f`, and its transfers fill `n` bytes from `a` on. -/
def Fills (f : Nat) (v : Vars) (a n : Nat) : Prop :=
  ∃ rest, (Comp.loop (fun s => Comp.pure (waitRound s)) (v, [])).Returns (f, rest) ∧ Tiles a rest n

variable {v : Vars} {a n f r : Nat} {log : List (Nat × Nat)}

theorem waitRound_done (h : v.totalDmaCount = v.downloadFileSize) :
    waitRound (v, log) = .inr (sub32 v.downloadFileSize 10, log) := by
  unfold waitRound
  rw [if_pos h]

theorem waitRound_transfer {request : Nat × Nat} (h : v.totalDmaCount ≠ v.downloadFileSize)
    (hdma : v.dma = some request) : waitRound (v, log) = .inl (isrDma2 v, log ++ [request]) := by
  unfold waitRound
  rw [if_neg h]
  simp only [hdma]

theorem waitRound_idle (h : v.totalDmaCount ≠ v.downloadFileSize) (hdma : v.dma = none) :
    waitRound (v, log) = .inl (v, log) := by
  unfold waitRound
  rw [if_neg h]
  simp only [hdma]

theorem waitRound_before (before : List (Nat × Nat)) : waitRound (v, before ++ log) =
      (waitRound (v, log)).map (fun s => (s.1, before ++ s.2)) (fun r => (r.1, before ++ r.2)) := by
  by_cases h : v.totalDmaCount = v.downloadFileSize
  · rw [waitRound_done h, waitRound_done h]
    rfl
  · cases hdma : v.dma with
    | none =>
      rw [waitRound_idle h hdma, waitRound_idle h hdma]
      rfl
    | some request =>
      rw [waitRound_transfer h hdma, waitRound_transfer h hdma, List.append_assoc]
      rfl

theorem loop_before (before : List (Nat × Nat)) {out : List (Nat × Nat)} :
    (Comp.loop (fun s => Comp.pure (waitRound s)) (v, before ++ log)).Returns (f, out) ↔
      ∃ rest, out = before ++ rest ∧ (Comp.loop (fun s => Comp.pure (waitRound s)) (v, log)).Returns (f, rest) := by
  constructor
  · intro h
    let P : Vars × List (Nat × Nat) → Prop := fun s => ∃ l, s.2 = before ++ l ∧
      ∀ r, (Comp.loop (fun s => Comp.pure (waitRound s)) (s.1, l)).Returns r →
        (Comp.loop (fun s => Comp.pure (waitRound s)) (v, log)).Returns r
    let Q : Nat × List (Nat × Nat) → Prop := fun r => ∃ rest, r.2 = before ++ rest ∧
      (Comp.loop (fun s => Comp.pure (waitRound s)) (v, log)).Returns (r.1, rest)
    refine Comp.loop_returns P (Q := Q) ?_ ?_ ⟨log, rfl, fun r hr => hr⟩ h
    · rintro ⟨w, l⟩ t ⟨l', hl, hback⟩ ht
      obtain rfl : l = before ++ l' := hl
      have ht := Comp.returns_pure_iff.mp ht
      rw [waitRound_before] at ht
      cases hround : waitRound (w, l') with
      | inr r => rw [hround] at ht; cases ht
      | inl s =>
        rw [hround] at ht
        cases ht
        exact ⟨s.2, rfl, fun r hr => hback r (loop_pure_returns.mpr (.inl ⟨s, hround, hr⟩))⟩
    · rintro ⟨w, l⟩ r ⟨l', hl, hback⟩ hr
      obtain rfl : l = before ++ l' := hl
      have hr := Comp.returns_pure_iff.mp hr
      rw [waitRound_before] at hr
      cases hround : waitRound (w, l') with
      | inl s => rw [hround] at hr; cases hr
      | inr r' =>
        rw [hround] at hr
        cases hr
        exact ⟨r'.2, rfl, hback _ (loop_pure_returns.mpr (.inr hround))⟩
  · rintro ⟨rest, rfl, h⟩
    let P : Vars × List (Nat × Nat) → Prop := fun s =>
      ∀ r, (Comp.loop (fun s => Comp.pure (waitRound s)) (s.1, before ++ s.2)).Returns r →
        (Comp.loop (fun s => Comp.pure (waitRound s)) (v, before ++ log)).Returns r
    let Q : Nat × List (Nat × Nat) → Prop := fun r =>
      (Comp.loop (fun s => Comp.pure (waitRound s)) (v, before ++ log)).Returns (r.1, before ++ r.2)
    refine Comp.loop_returns P (Q := Q) ?_ ?_ (fun r hr => hr) h
    · rintro ⟨w, l⟩ t hback ht r hr
      have ht := Comp.returns_pure_iff.mp ht
      refine hback r (loop_pure_returns.mpr (.inl ⟨_, ?_, hr⟩))
      rw [waitRound_before, ← ht]
      rfl
    · rintro ⟨w, l⟩ r hback hr
      have hr := Comp.returns_pure_iff.mp hr
      refine hback _ (loop_pure_returns.mpr (.inr ?_))
      rw [waitRound_before, ← hr]
      rfl

theorem fills_done (h : v.totalDmaCount = v.downloadFileSize) :
    Fills f v a n ↔ f = sub32 v.downloadFileSize 10 ∧ n = 0 := by
  constructor
  · rintro ⟨rest, hrest, htiles⟩
    rcases loop_pure_returns.mp hrest with ⟨t, ht, -⟩ | hdone
    · rw [waitRound_done h] at ht
      cases ht
    · rw [waitRound_done h] at hdone
      obtain ⟨hf, hlog⟩ := Prod.mk.inj (Sum.inr.inj hdone)
      rw [← hlog] at htiles
      exact ⟨hf.symm, htiles⟩
  · rintro ⟨hf, rfl⟩
    rw [hf]
    exact ⟨[], loop_pure_returns.mpr (.inr (waitRound_done h)), rfl⟩

theorem fills_transfer {request : Nat × Nat} (h : v.totalDmaCount ≠ v.downloadFileSize)
    (hdma : v.dma = some request) :
    Fills f v a n ↔
      request.1 = u32 a ∧ request.2 ≤ n ∧ Fills f (isrDma2 v) (a + request.2) (n - request.2) := by
  have hround : waitRound (v, []) = .inl (isrDma2 v, [request] ++ []) := waitRound_transfer h hdma
  constructor
  · rintro ⟨rest, hrest, htiles⟩
    rcases loop_pure_returns.mp hrest with ⟨t, ht, hgo⟩ | hdone
    · rw [hround] at ht
      cases ht
      obtain ⟨below, rfl, hbelow⟩ := (loop_before [request]).mp hgo
      obtain ⟨haddr, hle, hrest⟩ := htiles
      exact ⟨haddr, hle, below, hbelow, hrest⟩
    · rw [hround] at hdone
      cases hdone
  · rintro ⟨haddr, hle, below, hbelow, htiles⟩
    refine ⟨request :: below, loop_pure_returns.mpr (.inl ⟨_, hround, ?_⟩), haddr, hle, htiles⟩
    exact (loop_before [request]).mpr ⟨below, rfl, hbelow⟩

theorem not_fills_idle (h : v.totalDmaCount ≠ v.downloadFileSize) (hdma : v.dma = none) : ¬Fills f v a n := by
  rintro ⟨rest, hrest, -⟩
  have hstays : ∀ s : Vars × List (Nat × Nat), s = (v, []) →
      ∃ s', (Comp.pure (waitRound s)).Returns (.inl s') ∧ s' = (v, []) := by
    rintro _ rfl
    exact ⟨_, Comp.returns_pure_iff.mpr (waitRound_idle h hdma).symm, rfl⟩
  exact Comp.loop_for_ever (· = (v, [])) hstays rfl ⟨_, hrest⟩

theorem sub32_of_ten (h : 10 ≤ n) (hlt : n < 0x100000000) : sub32 n 10 = n - 10 := by
  unfold sub32 u32
  omega

theorem sub32_congr {b c e : Nat} (h : u32 b = u32 c) : sub32 b e = sub32 c e := by
  unfold sub32 u32 at *
  omega

theorem wrapped_iff {b size base : Nat} (hsize : 0 < size) :
    u32 (sub32 b base % size + base) = u32 b ↔ sub32 b base < size := by
  have hmod := Nat.mod_lt (sub32 b base) hsize
  have hle := Nat.mod_le (sub32 b base) size
  have hback : u32 (sub32 b base + base) = u32 b := by
    unfold sub32 u32
    omega
  constructor
  · intro h
    have heq : sub32 b base % size = sub32 b base := by
      unfold sub32 u32 at *
      omega
    omega
  · intro h
    rw [Nat.mod_eq_of_lt h, hback]

theorem room_eq {b size c : Nat} (hsize : size < 0x100000000) (hc : c < size) :
    u32 (sub32 (sub32 b (u32 (b + c))) 1 + size) % size = size - 1 - c := by
  have hroom : u32 (sub32 (sub32 b (u32 (b + c))) 1 + size) = size - 1 - c := by
    unfold sub32 u32
    omega
  rw [hroom]
  exact Nat.mod_eq_of_lt (by omega)

theorem room_full {b : Nat} : u32 (sub32 (sub32 b (u32 (b + 0x80000))) 1 + 0x80000) % 0x80000 = 0x7ffff := by
  unfold sub32 u32
  omega

variable {d : Download} {k : Nat}

/-- A transfer is under way whose end is the end of `k + 1` chunks of the file. -/
structure Download.At (d : Download) (k : Nat) (v : Vars) : Prop where
  file : v.downloadFileSize = d.fileSize
  read : v.dwUSBBufReadPtr = d.address
  base : v.dwUSBBufBase = d.bufBase
  size : v.dwUSBBufSize = d.bufSize
  counted : (if v.totalDmaCount = 0 then u32 (v.dwWillDMACnt + ep3PktSize)
    else u32 (v.totalDmaCount + v.dwWillDMACnt)) = 0x80000 * (k + 1) + 8
  behind : u32 (v.dwUSBBufWritePtr + v.dwWillDMACnt) = u32 (d.address + 0x80000 * (k + 1))

/-- The write pointer behind `k + 1` chunks. -/
def Download.writePtr (d : Download) (k : Nat) : Nat :=
  u32 (sub32 (d.address + 0x80000 * (k + 1)) d.bufBase % d.bufSize + d.bufBase)

/-- The bytes of the transfer behind `k + 1` chunks. -/
def Download.willDMACnt (d : Download) (k : Nat) : Nat :=
  if u32 (0x80000 * (k + 1) + 8 + 0x80000) < d.fileSize then 0x80000 else d.fileSize - (0x80000 * (k + 1) + 8)

def Download.emptyCnt (d : Download) (k : Nat) : Nat :=
  u32 (sub32 (sub32 d.address (d.writePtr k)) 1 + d.bufSize) % d.bufSize

theorem isrDma2_next (hat : d.At k v) (hmore : 0x80000 * (k + 1) + 8 < d.fileSize) : isrDma2 v = { v with
      totalDmaCount := 0x80000 * (k + 1) + 8
      dwUSBBufWritePtr := d.writePtr k
      dwWillDMACnt := d.willDMACnt k
      dma := if d.willDMACnt k ≤ d.emptyCnt k then some (d.writePtr k, d.willDMACnt k % 0x100000) else none } := by
  have hptr : u32 (sub32 (v.dwUSBBufWritePtr + v.dwWillDMACnt) d.bufBase % d.bufSize + d.bufBase) = d.writePtr k := by
    rw [sub32_congr hat.behind]
    rfl
  have hwill : (if u32 (0x80000 * (k + 1) + 8 + 0x80000) < d.fileSize then 0x80000
      else d.fileSize - (0x80000 * (k + 1) + 8)) = d.willDMACnt k := rfl
  have hempty : u32 (sub32 (sub32 d.address (d.writePtr k)) 1 + d.bufSize) % d.bufSize = d.emptyCnt k := rfl
  unfold isrDma2
  simp only [hat.counted, hptr, hat.file, hat.read, hat.size, hat.base, if_neg (not_le.mpr hmore), hwill, hempty]
  by_cases hroom : d.willDMACnt k ≤ d.emptyCnt k
  · rw [if_pos hroom, if_pos hroom]
    rfl
  · rw [if_neg hroom, if_neg hroom]

theorem willDMACnt_le : d.willDMACnt k ≤ 0x80000 := by
  unfold Download.willDMACnt u32
  split <;> omega

theorem fills_next (hat : d.At k v) (hmore : 0x80000 * (k + 1) + 8 < d.fileSize) :
    Fills f (isrDma2 v) a n ↔ d.willDMACnt k ≤ d.emptyCnt k ∧ d.writePtr k = u32 a ∧ d.willDMACnt k ≤ n ∧
      Fills f (isrDma2 (isrDma2 v)) (a + d.willDMACnt k) (n - d.willDMACnt k) := by
  have hnext := isrDma2_next hat hmore
  have hwait : (isrDma2 v).totalDmaCount ≠ (isrDma2 v).downloadFileSize := by
    rw [hnext]
    change 0x80000 * (k + 1) + 8 ≠ v.downloadFileSize
    rw [hat.file]
    omega
  have hcount : d.willDMACnt k % 0x100000 = d.willDMACnt k := by
    have hle := willDMACnt_le (d := d) (k := k)
    omega
  by_cases hroom : d.willDMACnt k ≤ d.emptyCnt k
  · have hdma : (isrDma2 v).dma = some (d.writePtr k, d.willDMACnt k) := by
      rw [hnext, if_pos hroom, hcount]
    rw [fills_transfer hwait hdma]
    exact ⟨fun h => ⟨hroom, h⟩, fun h => h.2⟩
  · have hdma : (isrDma2 v).dma = none := by rw [hnext, if_neg hroom]
    exact ⟨fun h => absurd h (not_fills_idle hwait hdma), fun h => absurd h.1 hroom⟩

theorem fills_last (hfile : v.downloadFileSize = d.fileSize)
    (hcounted : (if v.totalDmaCount = 0 then u32 (v.dwWillDMACnt + ep3PktSize)
      else u32 (v.totalDmaCount + v.dwWillDMACnt)) = d.fileSize) :
    Fills f (isrDma2 v) a n ↔ f = sub32 d.fileSize 10 ∧ n = 0 := by
  have htotal : (isrDma2 v).totalDmaCount = d.fileSize ∧ (isrDma2 v).downloadFileSize = d.fileSize := by
    unfold isrDma2
    simp only [hcounted, hfile, if_pos (le_refl d.fileSize), and_self]
  rw [fills_done (htotal.1.trans htotal.2.symm), htotal.2]

theorem at_next (hat : d.At k v) (hmore : 0x80000 * (k + 1) + 8 + 0x80000 < d.fileSize)
    (hwill : d.willDMACnt k = 0x80000) (hptr : d.writePtr k = u32 (d.address + 0x80000 * (k + 1))) :
    d.At (k + 1) (isrDma2 v) := by
  have hlt := d.fileSize_lt
  rw [isrDma2_next hat (by omega)]
  refine ⟨hat.file, hat.read, hat.base, hat.size, ?_, ?_⟩
  · change (if 0x80000 * (k + 1) + 8 = 0 then _ else u32 (0x80000 * (k + 1) + 8 + d.willDMACnt k)) = _
    rw [if_neg (by omega), hwill]
    unfold u32
    omega
  · change u32 (d.writePtr k + d.willDMACnt k) = _
    rw [hwill, hptr]
    unfold u32
    omega

theorem willDMACnt_last (h : d.fileSize ≤ 0x80000 * (k + 1) + 8 + 0x80000)
    (hlt : 0x80000 * (k + 1) + 8 + 0x80000 < 0x100000000) :
    d.willDMACnt k = d.fileSize - (0x80000 * (k + 1) + 8) := by
  unfold Download.willDMACnt u32
  rw [if_neg (by omega)]

theorem willDMACnt_more (h : 0x80000 * (k + 1) + 8 + 0x80000 < d.fileSize) : d.willDMACnt k = 0x80000 := by
  unfold Download.willDMACnt u32
  rw [if_pos (by omega)]

theorem emptyCnt_eq (hptr : d.writePtr k = u32 (d.address + 0x80000 * (k + 1)))
    (hroom : 0x80000 * (k + 1) < d.bufSize) : d.emptyCnt k = d.bufSize - 1 - 0x80000 * (k + 1) := by
  unfold Download.emptyCnt
  rw [hptr]
  exact room_eq d.size_lt hroom

theorem emptyCnt_full (hptr : d.writePtr 0 = u32 (d.address + 0x80000 * (0 + 1))) (hone : d.bufSize = 0x80000) :
    d.emptyCnt 0 = 0x7ffff := by
  unfold Download.emptyCnt
  rw [hptr, hone]
  exact room_full

/-- The chunks behind the first `k + 1` have room and stay in the buffer. -/
def Download.FitsBehind (d : Download) (k : Nat) : Prop :=
  d.fileSize - 8 < d.bufSize ∧ sub32 (d.address + 0x80000 * (k + 1)) d.bufBase +
      0x80000 * ((d.fileSize - 9) / 0x80000 - (k + 1)) < d.bufSize ∨
    k = 0 ∧ d.bufSize = 0x80000 ∧ d.fileSize - 8 < 0x100000 ∧
      sub32 (d.address + 0x80000 * (k + 1)) d.bufBase < 0x80000

theorem sub32_add {b c base : Nat} (h : sub32 b base + c < 0x100000000) : sub32 (b + c) base = sub32 b base + c := by
  unfold sub32 u32 at *
  omega

theorem offset_next (hin : sub32 (d.address + 0x80000 * (k + 1)) d.bufBase < d.bufSize) :
    sub32 (d.address + 0x80000 * (k + 1 + 1)) d.bufBase =
      sub32 (d.address + 0x80000 * (k + 1)) d.bufBase + 0x80000 := by
  have hsize := d.size_lt
  obtain ⟨q, hq⟩ := d.chunks
  have hmul : d.address + 0x80000 * (k + 1 + 1) = d.address + 0x80000 * (k + 1) + 0x80000 := by omega
  rw [hmul]
  exact sub32_add (by omega)

theorem fills_placed (hat : d.At k v) (hmore : 0x80000 * (k + 1) + 8 < d.fileSize)
    (hroom : 0 < k → 0x80000 * (k + 1) < d.bufSize) :
    Fills f (isrDma2 v) (d.address + 0x80000 * (k + 1)) n ↔
      sub32 (d.address + 0x80000 * (k + 1)) d.bufBase < d.bufSize ∧
        d.willDMACnt k ≤ (if 0x80000 * (k + 1) < d.bufSize then d.bufSize - 1 - 0x80000 * (k + 1) else 0x7ffff) ∧
        d.willDMACnt k ≤ n ∧ Fills f (isrDma2 (isrDma2 v)) (d.address + 0x80000 * (k + 1) + d.willDMACnt k)
          (n - d.willDMACnt k) := by
  have hpos := d.size_pos
  obtain ⟨q, hq⟩ := d.chunks
  have hempty : d.writePtr k = u32 (d.address + 0x80000 * (k + 1)) → d.emptyCnt k =
      if 0x80000 * (k + 1) < d.bufSize then d.bufSize - 1 - 0x80000 * (k + 1) else 0x7ffff := by
    intro hptr
    split
    next hfree => exact emptyCnt_eq hptr hfree
    next hfull =>
      obtain rfl : k = 0 := by omega
      exact emptyCnt_full hptr (by omega)
  rw [fills_next hat hmore]
  constructor
  · rintro ⟨hle, hptr, hn, hrest⟩
    rw [hempty hptr] at hle
    exact ⟨(wrapped_iff hpos).mp hptr, hle, hn, hrest⟩
  · rintro ⟨hin, hle, hn, hrest⟩
    have hptr := (wrapped_iff hpos).mpr hin
    rw [← hempty hptr] at hle
    exact ⟨hle, hptr, hn, hrest⟩

theorem fills_last_chunk (hat : d.At k v) (hmore : 0x80000 * (k + 1) + 8 < d.fileSize)
    (hwill : d.willDMACnt k = d.fileSize - (0x80000 * (k + 1) + 8)) :
    Fills f (isrDma2 (isrDma2 v)) a n ↔ f = sub32 d.fileSize 10 ∧ n = 0 := by
  have hlt := d.fileSize_lt
  apply fills_last
  · rw [isrDma2_next hat hmore]
    exact hat.file
  · rw [isrDma2_next hat hmore]
    change (if 0x80000 * (k + 1) + 8 = 0 then _ else u32 (0x80000 * (k + 1) + 8 + d.willDMACnt k)) = _
    rw [if_neg (by omega), hwill]
    unfold u32
    omega

theorem next_more (h : 0x80000 * (k + 1) + 8 + 0x80000 < n) : 0x80000 * (k + 1 + 1) + 8 < n := by
  have hmul : 0x80000 * (k + 1 + 1) = 0x80000 * (k + 1) + 0x80000 := Nat.mul_succ _ _
  rw [hmul, Nat.add_right_comm]
  exact h

theorem fills_behind (hat : d.At k v) (hmore : 0x80000 * (k + 1) + 8 < d.fileSize)
    (hroom : 0 < k → 0x80000 * (k + 1) < d.bufSize) (ha : a = d.address + 0x80000 * (k + 1))
    (hn : n = d.fileSize - 8 - 0x80000 * (k + 1)) : Fills (d.fileSize - 10) (isrDma2 v) a n ↔ d.FitsBehind k := by
  have hlt := d.fileSize_lt
  have hsize := d.size_lt
  obtain ⟨q, hq⟩ := d.chunks
  have hvalue : sub32 d.fileSize 10 = d.fileSize - 10 := sub32_of_ten (by omega) hlt
  induction hrest : (d.fileSize - 9) / 0x80000 - (k + 1) generalizing k v a n with
  | zero =>
    have hwill := willDMACnt_last (d := d) (k := k) (by omega) (by omega)
    rw [ha, hn, fills_placed hat hmore hroom, fills_last_chunk hat hmore hwill, hwill, hvalue]
    unfold Download.FitsBehind
    split <;> omega
  | succ rest ih =>
    have hlast : 0x80000 * (k + 1) + 8 + 0x80000 < d.fileSize := by omega
    have hwill := willDMACnt_more hlast
    rw [ha, hn, fills_placed hat hmore hroom, hwill]
    by_cases hin : sub32 (d.address + 0x80000 * (k + 1)) d.bufBase < d.bufSize
    · have hptr := (wrapped_iff d.size_pos).mpr hin
      by_cases hnext : 0x80000 * (k + 1 + 1) < d.bufSize
      · have hmore' : 0x80000 * (k + 1 + 1) + 8 < d.fileSize := next_more hlast
        have hbelow : Fills (d.fileSize - 10) (isrDma2 (isrDma2 v)) (d.address + 0x80000 * (k + 1) + 0x80000)
            (d.fileSize - 8 - 0x80000 * (k + 1) - 0x80000) ↔ d.FitsBehind (k + 1) :=
          ih (at_next hat hlast hwill hptr) hmore' (fun _ => hnext) (by omega) (by omega) (by omega)
        rw [hbelow, if_pos (by omega)]
        unfold Download.FitsBehind
        rw [offset_next hin]
        omega
      · constructor
        · rintro ⟨-, hle, -⟩
          split at hle <;> omega
        · unfold Download.FitsBehind
          omega
    · constructor
      · exact fun h => absurd h.1 hin
      · unfold Download.FitsBehind
        omega

theorem address_lt : d.address < 0x100000000 := by
  unfold Download.address
  split
  · exact d.address_lt
  · exact d.base_lt

theorem received_eq : d.received = ({ d.vars with
    downloadAddress := d.address
    downloadFileSize := d.fileSize
    dwUSBBufReadPtr := d.address
    dwUSBBufWritePtr := d.address }, (d.address, d.fifoCnt - 8)) := by
  unfold Download.received ep3Handler Download.address Download.vars
  cases d.downloadRun <;> rfl

theorem usbReceive_short (h : d.fileSize ≤ ep3PktSize) :
    usbReceive d.received.1 d.len = some { d.received.1 with
      dwUSBBufWritePtr := u32 (d.address + d.fileSize - 8)
      totalDmaCount := d.fileSize } := by
  rw [received_eq]
  unfold usbReceive
  rw [if_neg (not_lt.mpr d.accepted), if_neg (not_lt.mpr h)]

def Download.firstCnt (d : Download) : Nat :=
  if d.fileSize - ep3PktSize ≤ 0x80000 then d.fileSize - ep3PktSize else 0x80000 + 8 - ep3PktSize

def Download.started (d : Download) : Vars :=
  { d.received.1 with
    dwUSBBufWritePtr := u32 (d.address + ep3PktSize - 8)
    dwWillDMACnt := d.firstCnt
    totalDmaCount := 0
    dma := some (u32 (d.address + ep3PktSize - 8), d.firstCnt % 0x100000) }

theorem usbReceive_long (h : ep3PktSize < d.fileSize) : usbReceive d.received.1 d.len = some d.started := by
  unfold Download.started
  rw [received_eq]
  unfold usbReceive
  rw [if_neg (not_lt.mpr d.accepted), if_pos h]
  rfl

theorem started_file : d.started.downloadFileSize = d.fileSize := by
  unfold Download.started
  rw [received_eq]

theorem started_counted (h : 64 < d.fileSize) (hcnt : d.firstCnt = d.fileSize - 64) :
    (if d.started.totalDmaCount = 0 then u32 (d.started.dwWillDMACnt + ep3PktSize)
      else u32 (d.started.totalDmaCount + d.started.dwWillDMACnt)) = d.fileSize := by
  change u32 (d.firstCnt + 64) = d.fileSize
  rw [hcnt, Nat.sub_add_cancel (le_of_lt h)]
  exact Nat.mod_eq_of_lt d.fileSize_lt

theorem started_at (hcnt : d.firstCnt = 0x80000 - 56) : d.At 0 d.started := by
  refine ⟨started_file, ?_, ?_, ?_, ?_, ?_⟩
  · unfold Download.started
    rw [received_eq]
  · unfold Download.started
    rw [received_eq]
    rfl
  · unfold Download.started
    rw [received_eq]
    rfl
  · change u32 (d.firstCnt + 64) = _
    rw [hcnt]
    decide
  · change u32 (u32 (d.address + 64 - 8) + d.firstCnt) = _
    rw [hcnt]
    unfold u32
    omega

theorem complete_iff_fills (h : usbReceive d.received.1 d.len = some v) :
    d.Complete ↔ d.fifoCnt - 8 ≤ d.fileSize - 8 ∧
      Fills (d.fileSize - 10) v (d.address + (d.fifoCnt - 8)) (d.fileSize - 8 - (d.fifoCnt - 8)) := by
  have haddr : d.address = u32 d.address := (Nat.mod_eq_of_lt address_lt).symm
  have hpacket : d.received.2 = (d.address, d.fifoCnt - 8) := by rw [received_eq]
  have hrun : d.run = Comp.loop (fun s => Comp.pure (waitRound s)) (v, [d.received.2] ++ []) := by
    unfold Download.run
    rw [h, Option.elim_some, List.append_nil]
  unfold Download.Complete
  rw [hrun, hpacket]
  constructor
  · rintro ⟨log, hlog, htiles⟩
    obtain ⟨rest, rfl, hrest⟩ := (loop_before _).mp hlog
    obtain ⟨-, hle, hbelow⟩ := htiles
    exact ⟨hle, rest, hrest, hbelow⟩
  · rintro ⟨hle, rest, hrest, hbelow⟩
    exact ⟨_, (loop_before _).mpr ⟨rest, rfl, hrest⟩, haddr, hle, hbelow⟩

theorem sub32_small (h : 8 ≤ n) (hsmall : ¬10 ≤ n) : n - 10 ≠ sub32 n 10 := by
  have hcases : n = 8 ∨ n = 9 := by omega
  rcases hcases with rfl | rfl
  · decide
  · decide

theorem sub32_ten (h : 8 ≤ n) (hlt : n < 0x100000000) : n - 10 = sub32 n 10 ↔ 10 ≤ n := by
  by_cases hten : 10 ≤ n
  · exact ⟨fun _ => hten, fun _ => (sub32_of_ten hten hlt).symm⟩
  · exact ⟨fun heq => absurd heq (sub32_small h hten), fun hle => absurd hle hten⟩

theorem complete_short (h : d.fileSize ≤ ep3PktSize) : d.Complete ↔ 10 ≤ d.fileSize := by
  have hheader := d.header
  have hfifo : d.fifoCnt = d.fileSize := min_eq_right h
  rw [complete_iff_fills (usbReceive_short h), fills_done (by rw [received_eq]), hfifo, received_eq]
  rw [sub32_ten hheader d.fileSize_lt]
  omega

theorem complete_long (h : ep3PktSize < d.fileSize) :
    d.Complete ↔ Fills (d.fileSize - 10) (isrDma2 d.started) (d.address + 56 + d.firstCnt)
      (d.fileSize - 8 - 56 - d.firstCnt) := by
  have hfifo : d.fifoCnt = ep3PktSize := min_eq_left (le_of_lt h)
  have hpacket : ep3PktSize - 8 = 56 := rfl
  have hfirst : d.firstCnt ≤ 0x80000 ∧ d.firstCnt ≤ d.fileSize - 64 := by
    unfold Download.firstCnt ep3PktSize at *
    split <;> omega
  have hcount : d.firstCnt % 0x100000 = d.firstCnt := Nat.mod_eq_of_lt (by omega)
  have hdma : d.started.dma = some (u32 (d.address + ep3PktSize - 8), d.firstCnt) := by
    unfold Download.started
    rw [hcount]
  have hwait : d.started.totalDmaCount ≠ d.started.downloadFileSize := by
    have htotal : d.started.totalDmaCount = 0 := rfl
    rw [started_file, htotal]
    omega
  rw [complete_iff_fills (usbReceive_long h), fills_transfer hwait hdma, hfifo, hpacket]
  unfold ep3PktSize at *
  constructor
  · exact fun h => h.2.2.2
  · exact fun h => ⟨by omega, congrArg u32 (by omega), by omega, h⟩

/-- Exactly these downloads come to their end with the file in its place. -/
theorem usb_receive_complete_iff (d : Download) : d.Complete ↔ d.Fits := by
  have hlt := d.fileSize_lt
  unfold Download.Fits
  rcases lt_or_ge ep3PktSize d.fileSize with h | h
  · rw [complete_long h]
    unfold ep3PktSize at h
    by_cases hone : d.fileSize ≤ 0x80040
    · have hcnt : d.firstCnt = d.fileSize - 64 := if_pos (by unfold ep3PktSize; omega)
      rw [fills_last started_file (started_counted h hcnt), sub32_ten d.header hlt, hcnt]
      omega
    · have hcnt : d.firstCnt = 0x80000 - 56 := if_neg (by unfold ep3PktSize; omega)
      rw [fills_behind (started_at hcnt) (by omega) (by omega) (by omega) (by omega)]
      unfold Download.FitsBehind Download.offset
      constructor
      · rintro (⟨hsmall, hend⟩ | ⟨-, hsize, hsmall, hin⟩)
        · exact ⟨by omega, .inr (.inl ⟨hsmall, hend⟩)⟩
        · exact ⟨by omega, .inr (.inr ⟨hsize, hsmall, hin⟩)⟩
      · rintro ⟨-, hle | ⟨hsmall, hend⟩ | ⟨hsize, hsmall, hin⟩⟩
        · exact absurd hle hone
        · exact .inl ⟨hsmall, hend⟩
        · exact .inr ⟨rfl, hsize, hsmall, hin⟩
  · rw [complete_short h]
    unfold ep3PktSize at h
    omega

def belowBuffer : Download where
  bufBase := 0x32000000
  bufSize := 0x3d80000
  len := 0x3da0000
  downloadRun := true
  hostAddress := 0x30000000
  fileSize := 0xc000a
  base_lt := by decide
  size_pos := by decide
  size_lt := by decide
  chunks := ⟨123, by decide⟩
  address_lt := by decide
  header := by decide
  fileSize_lt := by decide
  accepted := by decide

/-- The second transfer goes elsewhere. -/
theorem below_buffer_incomplete : ¬belowBuffer.Complete := by
  have hcnt : belowBuffer.firstCnt = 0x80000 - 56 := by decide
  have hmoved : belowBuffer.writePtr 0 ≠ u32 (belowBuffer.address + 56 + belowBuffer.firstCnt) := by decide
  rw [complete_long (by decide), fills_next (started_at hcnt) (by decide)]
  exact fun h => hmoved h.2.1

end UBoot.Dnw
