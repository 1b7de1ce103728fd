import UBoot.Cells
import UBoot.Ring
import UBoot.Runs

namespace UBoot.Circbuf

open List

open RecentWindow (recent)

/-- `circbuf_t`. The pointers are offsets from `data`. -/
structure CircbufT where
  size : Nat
  totalsize : Nat
  top : Nat
  tail : Nat
  data : List UInt8
  end_ : Nat

/-- `buf_init`, with the block that `malloc` gives. -/
def bufInit (block : List UInt8) : CircbufT := ⟨0, block.length, 0, 0, block, block.length⟩

def CircbufT.step (b : CircbufT) (p : Nat) : Nat := if p + 1 = b.end_ then 0 else p + 1

/-- The loop of `buf_pop`: the bytes that it stores in `dest`, and `p`. -/
def popLoop (b : CircbufT) : Nat → Nat → Option (List UInt8 × Nat)
  | 0, p => some ([], p)
  | n + 1, p => do
    let c ← b.data[p]?
    let (dest, p) ← popLoop b n (b.step p)
    pure (c :: dest, p)

/-- `buf_pop`: what it returns and the bytes at `dest`. -/
def bufPop (b : CircbufT) (len : Nat) : Option ((Nat × List UInt8) × CircbufT) := do
  let len := if b.size < len then b.size else len
  let (dest, p) ← popLoop b len b.top
  pure ((len, dest), { b with top := p, size := b.size - len })

def pushLoop : CircbufT → Nat → List UInt8 → Option (CircbufT × Nat)
  | b, p, [] => some (b, p)
  | b, p, c :: src => do
    let data ← Cells.store b.data p c
    let b := { b with data := data }
    if b.size < b.totalsize then pushLoop { b with size := b.size + 1 } (b.step p) src
    else pushLoop { b with top := b.step b.top } (b.step p) src

def bufPush (b : CircbufT) (src : List UInt8) : Option ((Nat × List UInt8) × CircbufT) := do
  let (b, p) ← pushLoop b b.tail src
  pure ((src.length, []), { b with tail := p })

inductive Call where
  | push (src : List UInt8)
  | pop (len : Nat)

def CircbufT.call (b : CircbufT) : Call → Option ((Nat × List UInt8) × CircbufT)
  | .push src => bufPush b src
  | .pop len => bufPop b len

/-- The queue that the buffer stands for: it keeps the last `total` bytes. -/
def queueCall (total : Nat) (q : List UInt8) : Call → Option ((Nat × List UInt8) × List UInt8)
  | .push src => some ((src.length, []), recent total (q ++ src))
  | .pop len => some ((min len q.length, q.take len), q.drop len)

/-- The buffer holds the bytes of a queue, and its next byte goes behind them to `p`. -/
structure Holds (b : CircbufT) (p : Nat) (q : List UInt8) : Prop where
  ring : Ring.Holds b.totalsize b.data b.top q
  ends : b.end_ = b.totalsize
  size : b.size = q.length
  place : p = (b.top + q.length) % b.totalsize

variable {b : CircbufT} {p : Nat} {q : List UInt8}

theorem Holds.step_eq (h : Holds b p q) (x : Nat) : b.step x = Ring.next b.totalsize x := by
  unfold CircbufT.step Ring.next
  rw [h.ends]

theorem Holds.place_lt (h : Holds b p q) : p < b.totalsize := by
  have hstart := h.ring.start
  rw [h.place]
  exact Nat.mod_lt _ (by omega)

theorem Holds.push (c : UInt8) (src : List UInt8) (h : Holds b p q) :
    ∃ b' p', pushLoop b p (c :: src) = pushLoop b' p' src ∧ b'.totalsize = b.totalsize ∧
      Holds b' p' (recent b.totalsize (q ++ [c])) := by
  have hp := h.place_lt
  have hstart := h.ring.start
  have hstore : Cells.store b.data p c = some (b.data.set p c) := if_pos (by rw [h.ring.size]; exact hp)
  have hfits := h.ring.fits
  by_cases hroom : b.size < b.totalsize
  · refine ⟨{ b with data := b.data.set p c, size := b.size + 1 }, b.step p, ?_, rfl, ?_⟩
    · simp only [pushLoop, hstore, Option.bind_eq_bind, Option.bind_some, if_pos hroom]
      rfl
    · rw [h.size] at hroom
      have hring := h.ring.push (a := c) hroom
      rw [← h.place] at hring
      rw [RecentWindow.recent_fill c hroom, RecentWindow.recent_all hfits]
      refine ⟨hring, h.ends, by rw [length_append, ← h.size]; rfl, ?_⟩
      rw [h.step_eq, Ring.next_eq hp, h.place, Nat.mod_add_mod, length_append]
      rfl
  · rw [h.size] at hroom
    have hfull : q.length = b.totalsize := by omega
    refine ⟨{ b with data := b.data.set p c, top := b.step b.top }, b.step p, ?_, rfl, ?_⟩
    · simp only [pushLoop, hstore, Option.bind_eq_bind, Option.bind_some, h.size, if_neg hroom]
      rfl
    · have hring := h.ring.push_full (a := c) hfull
      rw [← h.place, ← h.step_eq] at hring
      rw [RecentWindow.recent_shift c (by omega) (by omega), RecentWindow.recent_all hfits]
      have hlen : (q.tail ++ [c]).length = b.totalsize := by
        rw [length_append, length_tail, length_singleton]
        omega
      refine ⟨hring, h.ends, by rw [hlen, ← hfull]; exact h.size, ?_⟩
      have hnext := Ring.next_add hstart (b.totalsize - 1)
      rw [Nat.sub_add_cancel (by omega)] at hnext
      rw [hlen, h.step_eq, h.step_eq, Nat.add_mod_right, Ring.next_eq hp, Nat.mod_eq_of_lt (Ring.next_lt hstart), h.place,
        Nat.mod_add_mod, hfull, Nat.add_right_comm, Nat.add_mod_right, ← Ring.next_eq hstart]

theorem Holds.pushLoop (src : List UInt8) (h : Holds b p q) :
    ∃ b' p', Circbuf.pushLoop b p src = some (b', p') ∧ b'.totalsize = b.totalsize ∧
      Holds b' p' (recent b.totalsize (q ++ src)) := by
  induction src generalizing b p q with
  | nil =>
    rw [append_nil, RecentWindow.recent_all h.ring.fits]
    exact ⟨b, p, rfl, rfl, h⟩
  | cons c src ih =>
    obtain ⟨b', p', heq, htotal, hb'⟩ := h.push c src
    obtain ⟨b'', p'', hrun, htotal', hb''⟩ := ih hb'
    refine ⟨b'', p'', heq.trans hrun, htotal'.trans htotal, ?_⟩
    rw [htotal, RecentWindow.recent_append, append_assoc] at hb''
    exact hb''

theorem popLoop_congr {b' : CircbufT} (hdata : b'.data = b.data) (hend : b'.end_ = b.end_) (n : Nat) :
    popLoop b' n p = popLoop b n p := by
  induction n generalizing p with
  | zero => rfl
  | succ n ih =>
    unfold popLoop CircbufT.step
    rw [hdata, hend, ih]

theorem Holds.popLoop {n : Nat} (h : Holds b p q) (hn : n ≤ q.length) :
    ∃ top', popLoop b n b.top = some (q.take n, top') ∧
      Holds { b with top := top', size := b.size - n } p (q.drop n) := by
  induction n generalizing b q with
  | zero => exact ⟨b.top, rfl, h⟩
  | succ n ih =>
    cases q with
    | nil => exact absurd hn (Nat.not_succ_le_zero n)
    | cons c q =>
      have hstart := h.ring.start
      have hsize := h.size
      rw [length_cons] at hn hsize
      have hrest : Holds { b with top := b.step b.top, size := b.size - 1 } p q := by
        refine ⟨?_, h.ends, by dsimp only; omega, ?_⟩
        · rw [h.step_eq]
          exact h.ring.pop
        · dsimp only
          rw [h.step_eq, Ring.next_add hstart]
          exact h.place
      obtain ⟨top', hpop, hend⟩ := ih hrest (Nat.le_of_succ_le_succ hn)
      have hloop : Circbuf.popLoop { b with top := b.step b.top, size := b.size - 1 } n (b.step b.top) =
          Circbuf.popLoop b n (b.step b.top) := popLoop_congr (by rfl) (by rfl) n
      replace hpop := hloop.symm.trans hpop
      refine ⟨top', ?_, ?_⟩
      · simp only [Circbuf.popLoop, h.ring.head, Option.bind_eq_bind, Option.bind_some, hpop]
        rfl
      · have hcount : b.size - 1 - n = b.size - (n + 1) := by omega
        rw [hcount] at hend
        exact hend

/-- The pointers stay inside of the buffer, whose bytes from `top` on are those of the queue. -/
structure Refines (total : Nat) (b : CircbufT) (q : List UInt8) : Prop where
  block : b.data.length = total
  ends : b.end_ = total
  top : b.top < total
  tail : b.tail < total
  size : b.size = q.length
  bytes : ∀ k, k < b.size → b.data[(b.top + k) % total]? = q[k]?

theorem Holds.refines (h : Holds b b.tail q) : Refines b.totalsize b q :=
  ⟨h.ring.size, h.ends, h.ring.start, h.place_lt, h.size, fun k hk => h.ring.cell k (h.size ▸ hk)⟩

theorem Holds.bufPush (h : Holds b b.tail q) (src : List UInt8) :
    ∃ b', Circbuf.bufPush b src = some ((src.length, []), b') ∧ b'.totalsize = b.totalsize ∧
      Holds b' b'.tail (recent b.totalsize (q ++ src)) := by
  obtain ⟨b', p', hrun, htotal, hb'⟩ := h.pushLoop src
  refine ⟨{ b' with tail := p' }, ?_, htotal, hb'.ring, hb'.ends, hb'.size, hb'.place⟩
  simp only [Circbuf.bufPush, hrun, Option.bind_eq_bind, Option.bind_some]
  rfl

theorem Holds.bufPop (h : Holds b b.tail q) (len : Nat) :
    ∃ b', Circbuf.bufPop b len = some ((min len q.length, q.take len), b') ∧ b'.totalsize = b.totalsize ∧
      Holds b' b'.tail (q.drop len) := by
  have hlen : (if b.size < len then b.size else len) = min len q.length := by
    rw [h.size]
    split <;> omega
  obtain ⟨top', hpop, hb'⟩ := h.popLoop (n := min len q.length) (by omega)
  have htake : q.take (min len q.length) = q.take len := by
    rw [← take_take, take_length]
  have hdrop : q.drop (min len q.length) = q.drop len := by
    rcases le_total len q.length with hle | hge
    · rw [min_eq_left hle]
    · rw [min_eq_right hge, drop_length, drop_eq_nil_of_le hge]
  rw [htake] at hpop
  rw [hdrop] at hb'
  refine ⟨{ b with top := top', size := b.size - min len q.length }, ?_, rfl, hb'⟩
  simp only [Circbuf.bufPop, hlen, hpop, Option.bind_eq_bind, Option.bind_some]
  rfl

/-- Whatever is pushed and popped, the calls answer as those of the queue, no access leaves the buffer and at
the end the buffer holds what is in the queue. -/
theorem circbuf_refines_queue (block : List UInt8) (hsize : 1 ≤ block.length) (calls : List Call) :
    ∃ answers b q, Runs.run CircbufT.call (bufInit block) calls = some (answers, b) ∧
      Runs.run (queueCall block.length) [] calls = some (answers, q) ∧ Refines block.length b q := by
  have hinit : Holds (bufInit block) (bufInit block).tail [] :=
    ⟨Ring.Holds.nil (by exact hsize) rfl, rfl, rfl, (Nat.zero_mod _).symm⟩
  have hstep : ∀ (b : CircbufT) (q : List UInt8) (c : Call),
      b.totalsize = block.length ∧ Holds b b.tail q → ∃ answer b' q', b.call c = some (answer, b') ∧
        queueCall block.length q c = some (answer, q') ∧ b'.totalsize = block.length ∧ Holds b' b'.tail q' := by
    rintro b q c ⟨htotal, hb⟩
    cases c with
    | push src =>
      obtain ⟨b', hpush, htotal', hb'⟩ := hb.bufPush src
      rw [htotal] at htotal' hb'
      exact ⟨_, b', _, hpush, rfl, htotal', hb'⟩
    | pop len =>
      obtain ⟨b', hpop, htotal', hb'⟩ := hb.bufPop len
      exact ⟨_, b', _, hpop, rfl, htotal'.trans htotal, hb'⟩
  obtain ⟨answers, b, q, hrun, hqueue, htotal, hb⟩ := Runs.run_refines hstep ⟨rfl, hinit⟩ calls
  exact ⟨answers, b, q, hrun, hqueue, htotal ▸ hb.refines⟩

theorem circbuf_refines_queue_two : ∃ answers b q,
    Runs.run CircbufT.call (bufInit [0, 0]) [.push [1, 2, 3], .pop 5] = some (answers, b) ∧
      Runs.run (queueCall 2) [] [.push [1, 2, 3], .pop 5] = some (answers, q) ∧ Refines 2 b q :=
  circbuf_refines_queue [0, 0] (by decide) [.push [1, 2, 3], .pop 5]

example : (Runs.run CircbufT.call (bufInit [0, 0]) [.push [1, 2, 3], .pop 5]).map Prod.fst =
    some [(3, []), (2, [2, 3])] := by decide

end UBoot.Circbuf
