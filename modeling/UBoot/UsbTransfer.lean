import Mathlib.Data.List.Basic
import UBoot.Loops

namespace UBoot.UsbTransfer

open List Loops

/-- What a call of `usb_bulk_msg` leaves: the status word of the device, and how many bytes were moved. -/
structure Answer (size : Nat) where
  status : Nat
  moved : Nat
  within : moved ≤ size

def Answer.stalled {size : Nat} (a : Answer size) : Bool := a.status &&& 0x2 != 0

def Answer.nakRec {size : Nat} (a : Answer size) : Bool := a.status &&& 0x10 != 0

/-- The result of `usb_bulk_msg` -/
def Answer.result {size : Nat} (a : Answer size) : Int := if a.status = 0 then 0 else -1

/-- The answer to each request, by its number and size. -/
abbrev Host := Nat → (size : Nat) → Answer size

/-- A request that was made: where it starts in `buf`, its size, and the answer. -/
structure Request where
  buf : Nat
  size : Nat
  answer : Answer size

/-- The offsets in `buf` that requests moved, in order. -/
def bytes (log : List Request) : List Nat := log.flatMap fun r => List.range' r.buf r.answer.moved

/-- The variables before a request: `length` is what is left behind the chunk. -/
structure Xfer where
  buf : Nat
  thisXfer : Nat
  length : Nat
  maxtry : Nat
  log : List Request

/-- The head of the outer loop. -/
def nextChunk (maxSize buf length : Nat) (log : List Request) : Xfer ⊕ (Int × List Request) :=
  if length = 0 then .inr (0, log)
  else
    let thisXfer := if length > maxSize then maxSize else length
    .inl ⟨buf, thisXfer, length - thisXfer, 10, log⟩

/-- What follows a request that is not the last one: the next of this chunk, or the next chunk. -/
def goOn (maxSize : Nat) (x : Xfer) (moved maxtry : Nat) (log : List Request) : Xfer ⊕ (Int × List Request) :=
  if x.thisXfer - moved = 0 then nextChunk maxSize (x.buf + moved) x.length log
  else .inl ⟨x.buf + moved, x.thisXfer - moved, x.length, maxtry, log⟩

/-- A round of the inner loop. -/
def request (host : Host) (maxSize : Nat) (x : Xfer) : Xfer ⊕ (Int × List Request) :=
  let a := host x.log.length x.thisXfer
  let log := x.log ++ [⟨x.buf, x.thisXfer, a⟩]
  if a.status ≠ 0 then
    if a.stalled then
      if x.thisXfer = a.moved then .inr (0, log) else .inr (a.result, log)
    else if a.nakRec then .inr (a.result, log)
    else if x.thisXfer = a.moved then .inr (0, log)
    else if x.maxtry = 0 then .inr (a.result, log)
    else goOn maxSize x a.moved (x.maxtry - 1) log
  else goOn maxSize x a.moved x.maxtry log

/-- The requests from a point on. -/
def follow (host : Host) (maxSize : Nat) : Xfer ⊕ (Int × List Request) → Comp (Int × List Request) :=
  Sum.elim (Comp.loop fun x => Comp.pure (request host maxSize x)) Comp.pure

/-- `us_one_transfer`: its result, and the requests it made. -/
def usOneTransfer (host : Host) (maxpacket length : Nat) : Comp (Int × List Request) :=
  follow host (maxpacket * 16) (nextChunk (maxpacket * 16) 0 length [])

variable {host : Host} {maxpacket length : Nat}
variable {maxSize : Nat}

/-- The states of a run. -/
inductive Reached (host : Host) (maxpacket length : Nat) : Xfer ⊕ (Int × List Request) → Prop
  | start : Reached host maxpacket length (nextChunk (maxpacket * 16) 0 length [])
  | request {x : Xfer} (h : Reached host maxpacket length (.inl x)) :
    Reached host maxpacket length (request host (maxpacket * 16) x)

def made : Xfer ⊕ (Int × List Request) → List Request := Sum.elim Xfer.log Prod.snd

/-- The bytes of `buf` in order, each once, where 0 is returned; no request outside `buf`; and an end where
each request makes progress or leaves a status. -/
structure Correct (host : Host) (maxpacket length : Nat) : Prop where
  complete : ∀ log, (usOneTransfer host maxpacket length).Returns (0, log) → bytes log = List.range' 0 length
  inside : ∀ s, Reached host maxpacket length s → ∀ r ∈ made s, r.buf + r.size ≤ length
  ends : (∀ s, Reached host maxpacket length s → ∀ r ∈ made s, 0 < r.answer.moved ∨ r.answer.status ≠ 0) →
    (usOneTransfer host maxpacket length).Ends

/-- A request that is taken as a success though it left a status. -/
def Request.dataOk (r : Request) : Prop :=
  r.answer.status ≠ 0 ∧ (r.answer.stalled = true ∨ r.answer.nakRec = false) ∧ r.size = r.answer.moved

/-- What holds in a run: what was moved, up to where, and that a success in spite of a status ends it. -/
def Inv (length : Nat) : Xfer ⊕ (Int × List Request) → Prop
  | .inl x => bytes x.log = List.range' 0 x.buf ∧ x.buf + x.thisXfer + x.length = length ∧
      (∀ r ∈ x.log, r.buf + r.size ≤ length) ∧ ∀ r ∈ x.log, ¬r.dataOk
  | .inr (result, log) => ∃ stop, bytes log = List.range' 0 stop ∧ (∀ r ∈ log, r.buf + r.size ≤ length) ∧
      (∀ r ∈ log, r.dataOk → result = 0 ∧ r.buf + r.size = stop) ∧
      (result = 0 → stop = length ∨ ∃ r ∈ log, r.dataOk ∧ r.buf + r.size = stop)

theorem bytes_append (log : List Request) (r : Request) {stop : Nat} (h : bytes log = List.range' 0 stop)
    (hr : r.buf = stop) : bytes (log ++ [r]) = List.range' 0 (stop + r.answer.moved) := by
  unfold bytes at h ⊢
  rw [flatMap_append, h, flatMap_singleton, hr]
  simpa using @List.range'_append_1 0 stop r.answer.moved

theorem nextChunk_inv {buf rest : Nat} {log : List Request} (hbytes : bytes log = List.range' 0 buf)
    (hrest : buf + rest = length) (hinside : ∀ r ∈ log, r.buf + r.size ≤ length) (hok : ∀ r ∈ log, ¬r.dataOk) :
    Inv length (nextChunk maxSize buf rest log) := by
  unfold nextChunk
  split
  next hzero =>
    exact ⟨buf, hbytes, hinside, fun r hr h => absurd h (hok r hr), fun _ => .inl (by omega)⟩
  · refine ⟨hbytes, ?_, hinside, hok⟩
    dsimp only
    split <;> omega

theorem goOn_inv {moved maxtry : Nat} {x : Xfer} {log : List Request} (hmoved : moved ≤ x.thisXfer)
    (hbytes : bytes log = List.range' 0 (x.buf + moved)) (hrest : x.buf + x.thisXfer + x.length = length)
    (hinside : ∀ r ∈ log, r.buf + r.size ≤ length) (hok : ∀ r ∈ log, ¬r.dataOk) :
    Inv length (goOn maxSize x moved maxtry log) := by
  unfold goOn
  split
  next hdone => exact nextChunk_inv hbytes (by omega) hinside hok
  · refine ⟨hbytes, ?_, hinside, hok⟩
    dsimp only
    omega

theorem request_inv {x : Xfer} (h : Inv length (.inl x)) : Inv length (request host (maxpacket * 16) x) := by
  obtain ⟨hbytes, hrest, hinside, hok⟩ := h
  have hlog := bytes_append x.log ⟨x.buf, x.thisXfer, host x.log.length x.thisXfer⟩ hbytes rfl
  have hwithin := (host x.log.length x.thisXfer).within
  unfold request
  dsimp only at hlog ⊢
  generalize host x.log.length x.thisXfer = a at hlog hwithin ⊢
  have hall : ∀ r ∈ x.log ++ [⟨x.buf, x.thisXfer, a⟩], r.buf + r.size ≤ length := by
    intro r hr
    rcases mem_append.mp hr with hr | hr
    · exact hinside r hr
    · obtain rfl := mem_singleton.mp hr
      dsimp only
      omega
  have honly : ∀ {r}, r ∈ x.log ++ [⟨x.buf, x.thisXfer, a⟩] → r.dataOk → r = ⟨x.buf, x.thisXfer, a⟩ := by
    intro r hr hdata
    rcases mem_append.mp hr with hr | hr
    · exact absurd hdata (hok r hr)
    · exact mem_singleton.mp hr
  have hresult : a.status ≠ 0 → a.result ≠ 0 := by
    intro hstatus
    unfold Answer.result
    rw [if_neg hstatus]
    decide
  -- a request that is not a success in spite of a status leaves none
  have hnone : ¬Request.dataOk ⟨x.buf, x.thisXfer, a⟩ → ∀ r ∈ x.log ++ [⟨x.buf, x.thisXfer, a⟩], ¬r.dataOk := by
    intro hnot r hr hdata
    exact hnot (honly hr hdata ▸ hdata)
  have hfails : a.status ≠ 0 → ¬Request.dataOk ⟨x.buf, x.thisXfer, a⟩ →
      Inv length (.inr (a.result, x.log ++ [⟨x.buf, x.thisXfer, a⟩])) := fun hstatus hnot =>
    ⟨_, hlog, hall, fun r hr hdata => absurd hdata (hnone hnot r hr), fun h => absurd h (hresult hstatus)⟩
  have hsucceeds : Request.dataOk ⟨x.buf, x.thisXfer, a⟩ →
      Inv length (.inr (0, x.log ++ [⟨x.buf, x.thisXfer, a⟩])) := by
    intro hdata
    have hsize : x.thisXfer = a.moved := hdata.2.2
    refine ⟨_, hlog, hall, fun r hr h => ?_, fun _ => .inr ⟨_, mem_append_right _ mem_cons_self, hdata, ?_⟩⟩
    · rw [honly hr h]
      dsimp only
      omega
    · dsimp only
      omega
  split
  next hstatus =>
    split
    next hstalled =>
      split
      next hsize => exact hsucceeds ⟨hstatus, .inl hstalled, hsize⟩
      next hsize => exact hfails hstatus fun h => hsize h.2.2
    next hstalled =>
      split
      next hnak =>
        refine hfails hstatus fun h => ?_
        rcases h.2.1 with h | h
        · exact hstalled h
        · rw [hnak] at h
          cases h
      next hnak =>
        split
        next hsize => exact hsucceeds ⟨hstatus, .inr (by simpa using hnak), hsize⟩
        next hsize =>
          have hnot : ¬Request.dataOk ⟨x.buf, x.thisXfer, a⟩ := fun h => hsize h.2.2
          split
          · exact hfails hstatus hnot
          · exact goOn_inv hwithin hlog hrest hall (hnone hnot)
  next hstatus => exact goOn_inv hwithin hlog hrest hall (hnone fun h => hstatus h.1)

theorem reached_inv {s : Xfer ⊕ (Int × List Request)} (h : Reached host maxpacket length s) : Inv length s := by
  induction h with
  | start => exact nextChunk_inv rfl (Nat.zero_add length) (fun r hr => nomatch hr) (fun r hr => nomatch hr)
  | request _ ih => exact request_inv ih

theorem reached_returns {s : Xfer ⊕ (Int × List Request)} (h : Reached host maxpacket length s)
    {r : Int × List Request} (hr : (follow host (maxpacket * 16) s).Returns r) :
    (usOneTransfer host maxpacket length).Returns r := by
  induction h with
  | start => exact hr
  | request _ ih =>
    apply ih
    cases hnext : request host (maxpacket * 16) _ with
    | inl x =>
      rw [hnext] at hr
      exact Comp.loop_again (hnext ▸ Comp.returns_pure _) hr
    | inr r' =>
      rw [hnext] at hr
      rw [Comp.returns_pure_iff.mp hr]
      exact Comp.loop_done (hnext ▸ Comp.returns_pure _)

theorem returns_reached {r : Int × List Request} (h : (usOneTransfer host maxpacket length).Returns r) :
    Reached host maxpacket length (.inr r) := by
  have hstart := @Reached.start host maxpacket length
  unfold usOneTransfer at h
  cases hfirst : nextChunk (maxpacket * 16) 0 length [] with
  | inr r' =>
    rw [hfirst] at h hstart
    rw [Comp.returns_pure_iff.mp h]
    exact hstart
  | inl x =>
    rw [hfirst] at h hstart
    refine Comp.loop_returns (Q := fun r => Reached host maxpacket length (.inr r))
      (fun x => Reached host maxpacket length (.inl x)) ?_ ?_ hstart h
    · intro x x' hx hnext
      rw [Comp.returns_pure_iff.mp hnext]
      exact hx.request
    · intro x r hx hnext
      rw [Comp.returns_pure_iff.mp hnext]
      exact hx.request

def left (x : Xfer) : Nat := (x.thisXfer + x.length) * 11 + x.maxtry

theorem nextChunk_left {buf rest : Nat} {log : List Request} {x : Xfer}
    (h : nextChunk maxSize buf rest log = .inl x) : x.maxtry = 10 ∧ x.thisXfer + x.length = rest := by
  unfold nextChunk at h
  split at h
  · cases h
  · cases h
    refine ⟨rfl, ?_⟩
    dsimp only
    split <;> omega

theorem goOn_left {moved maxtry : Nat} {x x' : Xfer} {log : List Request} (hmoved : moved ≤ x.thisXfer)
    (htry : maxtry ≤ 10) (hprogress : 0 < moved ∨ maxtry < x.maxtry ∧ moved ≠ x.thisXfer)
    (h : goOn maxSize x moved maxtry log = .inl x') : x'.maxtry ≤ 10 ∧ left x' < left x := by
  unfold left
  unfold goOn at h
  split at h
  next hdone =>
    obtain ⟨hten, hrest⟩ := nextChunk_left h
    omega
  · cases h
    dsimp only
    omega

theorem request_left {x x' : Xfer} (htry : x.maxtry ≤ 10) (h : request host (maxpacket * 16) x = .inl x')
    (hprogress : 0 < (host x.log.length x.thisXfer).moved ∨ (host x.log.length x.thisXfer).status ≠ 0) :
    x'.maxtry ≤ 10 ∧ left x' < left x := by
  have hwithin := (host x.log.length x.thisXfer).within
  unfold request at h
  dsimp only at h
  split at h
  next hstatus =>
    split at h
    · split at h <;> cases h
    · split at h
      · cases h
      · split at h
        · cases h
        next hsize =>
          split at h
          · cases h
          next hlast => exact goOn_left hwithin (by omega) (.inr ⟨by omega, fun he => hsize he.symm⟩) h
  next hstatus => exact goOn_left hwithin htry (.inl (hprogress.resolve_right hstatus)) h

theorem request_made (x : Xfer) :
    ⟨x.buf, x.thisXfer, host x.log.length x.thisXfer⟩ ∈ made (request host (maxpacket * 16) x) := by
  have hlog : ∀ {s : Xfer ⊕ (Int × List Request)},
      made s = x.log ++ [⟨x.buf, x.thisXfer, host x.log.length x.thisXfer⟩] →
      ⟨x.buf, x.thisXfer, host x.log.length x.thisXfer⟩ ∈ made s := by
    intro s hs
    rw [hs]
    exact mem_append_right _ mem_cons_self
  have hgoOn : ∀ maxtry, made (goOn (maxpacket * 16) x (host x.log.length x.thisXfer).moved maxtry
      (x.log ++ [⟨x.buf, x.thisXfer, host x.log.length x.thisXfer⟩])) =
        x.log ++ [⟨x.buf, x.thisXfer, host x.log.length x.thisXfer⟩] := by
    intro maxtry
    unfold goOn nextChunk
    split
    · split <;> rfl
    · rfl
  apply hlog
  unfold request
  dsimp only
  split
  · split
    · split <;> rfl
    · split
      · rfl
      · split
        · rfl
        · split
          · rfl
          · exact hgoOn _
  · exact hgoOn _

theorem us_one_transfer_ends
    (h : ∀ s, Reached host maxpacket length s → ∀ r ∈ made s, 0 < r.answer.moved ∨ r.answer.status ≠ 0) :
    (usOneTransfer host maxpacket length).Ends := by
  have hstart := @Reached.start host maxpacket length
  unfold usOneTransfer
  cases hfirst : nextChunk (maxpacket * 16) 0 length [] with
  | inr r => exact Comp.ends_pure r
  | inl x =>
    rw [hfirst] at hstart
    refine Comp.loop_ends (fun x => Reached host maxpacket length (.inl x) ∧ x.maxtry ≤ 10) left
      (fun x _ => Comp.ends_pure _) ?_ ⟨hstart, le_of_eq (nextChunk_left hfirst).1⟩
    rintro x x' ⟨hx, htry⟩ hnext
    have hround := (Comp.returns_pure_iff.mp hnext).symm
    have hprogress := h _ hx.request _ (request_made x)
    obtain ⟨htry', hless⟩ := request_left htry hround hprogress
    exact ⟨⟨hround ▸ hx.request, htry'⟩, hless⟩

/-- `us_one_transfer` keeps its word exactly where no request but one up to the end of `buf` is complete with
a status that is a stall or is not a NAK. -/
theorem us_one_transfer_correct_iff (host : Host) (maxpacket length : Nat) : Correct host maxpacket length ↔
      ∀ s, Reached host maxpacket length s → ∀ r ∈ made s, r.dataOk → r.buf + r.size = length := by
  constructor
  · intro h s hs r hr hdata
    have hinv := reached_inv hs
    cases s with
    | inl x => exact absurd hdata (hinv.2.2.2 r hr)
    | inr out =>
      obtain ⟨result, log⟩ := out
      obtain ⟨stop, hbytes, -, hend, -⟩ := hinv
      obtain ⟨rfl, hstop⟩ := hend r hr hdata
      have hall := h.complete log (reached_returns hs (Comp.returns_pure _))
      have hlength := congrArg List.length (hbytes.symm.trans hall)
      rw [length_range', length_range'] at hlength
      omega
  · intro h
    refine ⟨fun log hlog => ?_, fun s hs r hr => ?_, us_one_transfer_ends⟩
    · have hs := returns_reached hlog
      obtain ⟨stop, hbytes, -, -, hzero⟩ := reached_inv hs
      rcases hzero rfl with rfl | ⟨r, hr, hdata, rfl⟩
      · exact hbytes
      · rw [hbytes, h _ hs r hr hdata]
    · have hinv := reached_inv hs
      cases s with
      | inl x => exact hinv.2.2.1 r hr
      | inr out =>
        obtain ⟨stop, -, hinside, -⟩ := hinv
        exact hinside r hr

def stallsOnce : Host := fun n size =>
  if n = 0 then ⟨2, size, Nat.le_refl size⟩ else ⟨0, size, Nat.le_refl size⟩

theorem half_is_a_success : (usOneTransfer stallsOnce 64 2048).run 1 =
    some (0, [⟨0, 1024, stallsOnce 0 1024⟩]) ∧ ¬Correct stallsOnce 64 2048 := by
  have hrun : (usOneTransfer stallsOnce 64 2048).run 1 = some (0, [⟨0, 1024, stallsOnce 0 1024⟩]) := rfl
  refine ⟨hrun, fun h => ?_⟩
  have hlength := congrArg List.length (h.complete _ ⟨1, hrun⟩)
  revert hlength
  simp [bytes, stallsOnce]

end UBoot.UsbTransfer
