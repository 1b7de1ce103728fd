import UBoot.Circbuf
import UBoot.Loops

namespace UBoot.Usbtty

open Circbuf List Loops
open RecentWindow (recent)

/-- One round of the loop of `write_buffer`: the room in the urb, and whether the write that is started behind it
is pre-empted. -/
structure Pass where
  room : Nat
  stops : Bool

/-- What a call of `write_buffer` meets: data of an earlier one whose write is pre-empted, or the rounds of its loop.
Behind the last one there is no room. -/
structure Turn where
  preempted : Bool
  passes : List Pass

/-- What `usbd_rcv_complete` is told: a packet that was put behind the data in `rcv_urb`, or an error. -/
inductive Rx where
  | packet (bytes : List UInt8)
  | bad

/-- The controller and the host: what an interrupt and a write find at a time. -/
structure Udc where
  irq : Nat → List Rx
  turn : Nat → Turn

/-- The two buffers, what was moved into transmit urbs, and what `rcv_urb` holds. The port stays configured, and a
buffer is less than half of the memory, so that its sizes are no negative numbers as `int`. -/
structure Tty where
  output : CircbufT
  input : CircbufT
  urbs : List UInt8
  rcv : List UInt8
  clock : Nat
  /-- what `fill_buffer` has put into the input -/
  filled : List UInt8
  /-- what has been read -/
  taken : List UInt8

/-- The console after `drv_usbtty_init`. -/
def Tty.init (block block' : List UInt8) : Tty := ⟨bufInit block, bufInit block', [], [], 0, [], []⟩

def Rx.arrive (rcv : List UInt8) : Rx → List UInt8
  | .packet bytes => rcv ++ bytes
  | .bad => []

/-- The loop of `write_buffer`: the bytes that it moves, and the buffer. -/
def writeLoop : List Pass → CircbufT → Option (List UInt8 × CircbufT)
  | [], b => some ([], b)
  | pass :: passes, b =>
    if b.size > 0 then
      let popnum := min pass.room b.size
      if popnum = 0 then some ([], b)
      else do
        let ((popped, dest), b) ← bufPop b popnum
        if popped = 0 ∨ pass.stops then some (dest, b)
        else do
          let (bytes, b) ← writeLoop passes b
          some (dest ++ bytes, b)
    else some ([], b)

variable (udc : Udc)
variable {w' : List UInt8}

def udcIrq (t : Tty) : Tty := { t with rcv := (udc.irq t.clock).foldl Rx.arrive t.rcv, clock := t.clock + 1 }

/-- `write_buffer` of the output. Nobody looks at what it returns. -/
def writeBuffer (t : Tty) : Option Tty :=
  if (udc.turn t.clock).preempted then some { t with clock := t.clock + 1 }
  else do
    let (bytes, output) ← writeLoop (udc.turn t.clock).passes t.output
    some { t with output := output, urbs := t.urbs ++ bytes, clock := t.clock + 1 }

/-- `fill_buffer` of the input -/
def fillBuffer (t : Tty) : Option Tty :=
  if t.rcv.length ≠ 0 then
    let rxAvail := t.input.totalsize - t.input.size
    if rxAvail ≥ t.rcv.length then do
      let (_, input) ← bufPush t.input t.rcv
      some { t with input := input, filled := t.filled ++ t.rcv, rcv := [] }
    else some t
  else some t

def usbttyPoll (t : Tty) : Option Tty := do
  let t ← writeBuffer udc (udcIrq udc t)
  let t ← fillBuffer (udcIrq udc t)
  some (udcIrq udc t)

/-- `buf_push` of the output -/
def Tty.push (t : Tty) (src : List UInt8) : Option Tty := do
  let (_, output) ← bufPush t.output src
  some { t with output := output }

def usbttyPutc (t : Tty) (c : UInt8) : Option Tty := do
  let t ← t.push [c]
  let t ← if c = 10 then t.push [13] else some t
  if t.output.size + 2 ≥ t.output.totalsize then usbttyPoll udc t else some t

/-- A round of the loop of `__usbtty_puts`, with what is left of the text. -/
def putsRound : Tty × List UInt8 → Option ((Tty × List UInt8) ⊕ Tty)
  | (t, []) => some (.inr t)
  | (t, c :: str) => do
    let t ← usbttyPoll udc t
    let space := t.output.totalsize - t.output.size
    if space ≠ 0 then do
      let t ← writeBuffer udc t
      let n := min space (min (c :: str).length t.output.totalsize)
      let t ← t.push ((c :: str).take n)
      some (.inl (t, (c :: str).drop n))
    else some (.inl (t, c :: str))

/-- `__usbtty_puts` -/
def putsPart (t : Tty) (str : List UInt8) : Comp (Option Tty) :=
  Comp.loop (fun s => Comp.round (putsRound udc s)) (t, str)

/-- `next_nl_pos`, of a text up to its end. -/
def nextNlPos : List UInt8 → Nat
  | [] => 0
  | c :: str => if c = 10 then 0 else nextNlPos str + 1

/-- The loop of `usbtty_puts`. -/
def putsLines (t : Tty) (str : List UInt8) : Comp (Option Tty) :=
  if str.length > 0 then
    if str[nextNlPos str]? = some 10 then
      (putsPart udc t (str.take (nextNlPos str + 1))).andThen fun t =>
        (putsPart udc t [13]).andThen fun t => putsLines t (str.drop (nextNlPos str + 1))
    else putsPart udc t (str.take (nextNlPos str))
  else Comp.pure (some t)
termination_by str.length
decreasing_by
  rw [length_drop]
  omega

def text (str : List UInt8) : List UInt8 := str.takeWhile (· ≠ 0)

def usbttyPuts (t : Tty) (str : List UInt8) : Comp (Option Tty) :=
  (putsLines udc t (text str)).andThen fun t => Comp.pure (usbttyPoll udc t)

/-- A round of the loop of `usbtty_getc`. -/
def waitRound (t : Tty) : Option (Tty ⊕ Tty) :=
  if t.input.size = 0 then do
    let t ← usbttyPoll udc t
    some (.inl t)
  else some (.inr t)

def usbttyGetc (t : Tty) : Comp (Option Tty) :=
  (Comp.loop (fun t => Comp.round (waitRound udc t)) t).andThen fun t => Comp.pure do
    let ((_, dest), input) ← bufPop t.input 1
    some { t with input := input, taken := t.taken ++ dest }

/-- The functions that the console calls. -/
inductive Call where
  | putc (c : UInt8)
  | puts (str : List UInt8)
  | getc
  | tstc

def call (t : Tty) : Call → Comp (Option Tty)
  | .putc c => Comp.pure (usbttyPutc udc t c)
  | .puts str => usbttyPuts udc t str
  | .getc => usbttyGetc udc t
  | .tstc => Comp.pure (usbttyPoll udc t)

def calls : Tty → List Call → Comp (Option Tty)
  | t, [] => Comp.pure (some t)
  | t, c :: cs => (call udc t c).andThen fun t => calls t cs

def contents (b : CircbufT) : List UInt8 := ((popLoop b b.size b.top).map Prod.fst).getD []

def crlf (str : List UInt8) : List UInt8 := str.flatMap fun c => if c = 10 then [10, 13] else [c]

def Call.written : Call → List UInt8
  | .putc c => crlf [c]
  | .puts str => crlf (text str)
  | .getc => []
  | .tstc => []

def written (cs : List Call) : List UInt8 := cs.flatMap Call.written

def Room (t : Tty) : Call → Prop
  | .putc c => t.output.size + (crlf [c]).length ≤ t.output.totalsize
  | .puts _ => True
  | .getc => True
  | .tstc => True

def Roomy : Tty → List Call → Prop
  | _, [] => True
  | t, c :: cs => Room t c ∧ ∀ t', (call udc t c).Returns (some t') → Roomy t' cs

/-- The call of `write_buffer` moves something out of a buffer that is not empty. -/
def Turn.Takes (turn : Turn) : Prop :=
  turn.preempted = false ∧ ∃ pass passes, turn.passes = pass :: passes ∧ 0 < pass.room

/-- Again and again the host takes something for a while, which is as long as a round of `__usbtty_puts`. -/
def Udc.Takes (udc : Udc) : Prop := ∀ n, ∃ m, n ≤ m ∧ ∀ k, k < 6 → (udc.turn (m + k)).Takes

variable {udc} {total : Nat} {t : Tty} {out inp w str : List UInt8} {b : CircbufT} {q : List UInt8}

theorem contents_eq (h : Circbuf.Holds b b.tail q) : contents b = q := by
  obtain ⟨top', hpop, -⟩ := h.popLoop (n := q.length) le_rfl
  unfold contents
  rw [h.size, hpop, take_length]
  rfl

/-- The buffers hold `out` and `inp`, and nothing of the input has been lost. -/
structure Keeps (total : Nat) (t : Tty) (out inp : List UInt8) : Prop where
  output : Circbuf.Holds t.output t.output.tail out
  total : t.output.totalsize = total
  input : Circbuf.Holds t.input t.input.tail inp
  taken : t.taken ++ inp = t.filled

/-- The urbs and the output together hold `w`. -/
def Told (total : Nat) (t : Tty) (w : List UInt8) : Prop :=
  ∃ out inp, Keeps total t out inp ∧ t.urbs ++ out = w

/-- The text `src` has come behind `w` where there was room, and something is missing where there was none. -/
def Adds (room : Prop) (w src w' : List UInt8) : Prop :=
  room ∧ w' = w ++ src ∨ ¬room ∧ w'.length < w.length + src.length

theorem Adds.iff {p p' : Prop} (h : Adds p w str w') (hp : p ↔ p') : Adds p' w str w' := by
  unfold Adds at h ⊢
  rwa [← hp]

theorem Adds.length_le {p : Prop} (h : Adds p w str w') : w'.length ≤ w.length + str.length := by
  rcases h with ⟨-, rfl⟩ | ⟨-, hless⟩
  · rw [length_append]
  · exact le_of_lt hless

theorem Adds.eq_iff {p : Prop} (h : Adds p w str w') : w' = w ++ str ↔ p := by
  rcases h with ⟨hp, heq⟩ | ⟨hp, hless⟩
  · exact iff_of_true heq hp
  · refine iff_of_false (fun heq => ?_) hp
    rw [heq, length_append] at hless
    exact lt_irrefl _ hless

theorem Adds.trans {p p' : Prop} {str' w'' : List UInt8} (h : Adds p w str w') (h' : Adds p' w' str' w'') :
    Adds (p ∧ p') w (str ++ str') w'' := by
  have hle := h'.length_le
  have hlen : (str ++ str').length = str.length + str'.length := length_append
  rcases h with ⟨hp, rfl⟩ | ⟨hp, hless⟩
  · rcases h' with ⟨hp', rfl⟩ | ⟨hp', hless'⟩
    · exact .inl ⟨⟨hp, hp'⟩, append_assoc _ _ _⟩
    · refine .inr ⟨fun hboth => hp' hboth.2, ?_⟩
      rw [length_append] at hless'
      omega
  · exact .inr ⟨fun hboth => hp hboth.1, by omega⟩

theorem Told.init {block block' : List UInt8} (h : 1 ≤ block.length) (h' : 1 ≤ block'.length) :
    Told block.length (Tty.init block block') [] := by
  have hout : Circbuf.Holds (bufInit block) (bufInit block).tail [] :=
    ⟨Ring.Holds.nil (by exact h) rfl, rfl, rfl, (Nat.zero_mod _).symm⟩
  have hin : Circbuf.Holds (bufInit block') (bufInit block').tail [] :=
    ⟨Ring.Holds.nil (by exact h') rfl, rfl, rfl, (Nat.zero_mod _).symm⟩
  exact ⟨[], [], ⟨hout, rfl, hin, rfl⟩, rfl⟩

theorem Told.size (h : Told total t w) : t.output.size ≤ total := by
  obtain ⟨out, inp, hk, -⟩ := h
  have hfits := hk.output.ring.fits
  rw [hk.total] at hfits
  rw [hk.output.size]
  exact hfits

theorem Told.totalsize (h : Told total t w) : t.output.totalsize = total := by
  obtain ⟨out, inp, hk, -⟩ := h
  exact hk.total

theorem Told.irq (udc : Udc) (h : Told total t w) : Told total (udcIrq udc t) w := by
  obtain ⟨out, inp, hk, hw⟩ := h
  exact ⟨out, inp, ⟨hk.output, hk.total, hk.input, hk.taken⟩, hw⟩

theorem writeLoop_spec (passes : List Pass) (h : Circbuf.Holds b b.tail q) :
    ∃ k b', writeLoop passes b = some (q.take k, b') ∧ b'.totalsize = b.totalsize ∧
      Circbuf.Holds b' b'.tail (q.drop k) := by
  induction passes generalizing b q with
  | nil => exact ⟨0, b, rfl, rfl, h⟩
  | cons pass passes ih =>
    unfold writeLoop
    dsimp only
    split
    next hsize =>
      split
      next hzero => exact ⟨0, b, rfl, rfl, h⟩
      next hsome =>
        obtain ⟨b', hpop, htotal, hb'⟩ := h.bufPop (min pass.room b.size)
        simp only [hpop, Option.bind_eq_bind, Option.bind_some]
        split
        next hstop => exact ⟨_, b', rfl, htotal, hb'⟩
        next hon =>
          obtain ⟨k, b'', hrest, htotal', hb''⟩ := ih hb'
          refine ⟨min pass.room b.size + k, b'', ?_, htotal'.trans htotal, ?_⟩
          · rw [hrest, Option.bind_some, take_add]
          · rw [drop_drop] at hb''
            exact hb''
    next hempty => exact ⟨0, b, rfl, rfl, h⟩

theorem writeLoop_takes {pass : Pass} {passes : List Pass} {bytes : List UInt8} {b' : CircbufT}
    (h : Circbuf.Holds b b.tail q) (hroom : 0 < pass.room) (hrun : writeLoop (pass :: passes) b = some (bytes, b'))
    (hq : q ≠ []) : bytes ≠ [] := by
  have hlen : 0 < q.length := length_pos_iff.mpr hq
  have hsize := h.size
  unfold writeLoop at hrun
  rw [if_pos (by omega), if_neg (by omega)] at hrun
  obtain ⟨b₁, hpop, -, -⟩ := h.bufPop (min pass.room b.size)
  have hsome : q.take (min pass.room b.size) ≠ [] := by
    rw [← length_pos_iff, length_take]
    omega
  simp only [hpop, Option.bind_eq_bind, Option.bind_some] at hrun
  split at hrun
  next hstop =>
    cases hrun
    exact hsome
  next hon =>
    obtain ⟨⟨more, b₂⟩, -, heq⟩ := Option.bind_eq_some_iff.mp hrun
    cases heq
    exact fun hnil => hsome (append_eq_nil_iff.mp hnil).1

theorem Told.write (udc : Udc) (h : Told total t w) :
    ∃ t', writeBuffer udc t = some t' ∧ Told total t' w ∧ t'.output.size ≤ t.output.size ∧ t'.clock = t.clock + 1 ∧
      ((udc.turn t.clock).Takes → t'.output.size ≤ t.output.size - 1) := by
  obtain ⟨out, inp, hk, hw⟩ := h
  unfold writeBuffer
  split
  next hpre =>
    exact ⟨_, rfl, ⟨out, inp, ⟨hk.output, hk.total, hk.input, hk.taken⟩, hw⟩, le_refl _, rfl,
      fun htakes => absurd hpre (by rw [htakes.1]; decide)⟩
  next hgo =>
    obtain ⟨k, b', hloop, htotal, hb'⟩ := writeLoop_spec (udc.turn t.clock).passes hk.output
    have hless : b'.size ≤ t.output.size := by
      rw [hb'.size, hk.output.size, length_drop]
      exact Nat.sub_le _ _
    have hall : t.urbs ++ out.take k ++ out.drop k = w := by rw [append_assoc, take_append_drop, hw]
    refine ⟨{ t with output := b', urbs := t.urbs ++ out.take k, clock := t.clock + 1 }, ?_, ?_, hless, rfl, ?_⟩
    · simp only [hloop, Option.bind_eq_bind, Option.bind_some]
    · exact ⟨out.drop k, inp, ⟨hb', htotal.trans hk.total, hk.input, hk.taken⟩, hall⟩
    · rintro ⟨-, pass, passes, hpasses, hroom⟩
      rw [hpasses] at hloop
      have hmoved : out ≠ [] → 0 < (out.take k).length := fun hout =>
        length_pos_iff.mpr (writeLoop_takes hk.output hroom hloop hout)
      have hout : out.length ≠ 0 → out ≠ [] := fun hlen hnil => hlen (congrArg List.length hnil)
      rw [length_take] at hmoved
      rw [hb'.size, hk.output.size, length_drop]
      by_cases hlen : out.length = 0
      · omega
      · have := hmoved (hout hlen)
        omega

theorem Told.fill (h : Told total t w) :
    ∃ t', fillBuffer t = some t' ∧ Told total t' w ∧ t'.output = t.output ∧ t'.clock = t.clock := by
  obtain ⟨out, inp, hk, hw⟩ := h
  unfold fillBuffer
  dsimp only
  split
  next hdata =>
    split
    next hroom =>
      obtain ⟨b', hpush, -, hb'⟩ := hk.input.bufPush t.rcv
      have hall : recent t.input.totalsize (inp ++ t.rcv) = inp ++ t.rcv := by
        rw [hk.input.size] at hroom
        apply RecentWindow.recent_all
        rw [length_append]
        omega
      rw [hall] at hb'
      have htaken : t.taken ++ (inp ++ t.rcv) = t.filled ++ t.rcv := by rw [← append_assoc, hk.taken]
      refine ⟨{ t with input := b', filled := t.filled ++ t.rcv, rcv := [] }, ?_, ?_, rfl, rfl⟩
      · simp only [hpush, Option.bind_eq_bind, Option.bind_some]
      · exact ⟨out, inp ++ t.rcv, ⟨hk.output, hk.total, hb', htaken⟩, hw⟩
    next hfull => exact ⟨t, rfl, ⟨out, inp, hk, hw⟩, rfl, rfl⟩
  next hnone => exact ⟨t, rfl, ⟨out, inp, hk, hw⟩, rfl, rfl⟩

theorem Told.poll (udc : Udc) (h : Told total t w) :
    ∃ t', usbttyPoll udc t = some t' ∧ Told total t' w ∧ t'.clock = t.clock + 4 ∧
      ((udc.turn (t.clock + 1)).Takes → t'.output.size ≤ t.output.size - 1) := by
  obtain ⟨t₁, hwrite, h₁, -, hclock₁, hless⟩ := (h.irq udc).write udc
  obtain ⟨t₂, hfill, h₂, hsame, hclock₂⟩ := (h₁.irq udc).fill
  refine ⟨udcIrq udc t₂, ?_, h₂.irq udc, ?_, ?_⟩
  · unfold usbttyPoll
    simp only [hwrite, hfill, Option.bind_eq_bind, Option.bind_some]
  · change t₂.clock + 1 = t.clock + 4
    rw [hclock₂]
    change t₁.clock + 1 + 1 = t.clock + 4
    rw [hclock₁]
    rfl
  · have hsize : (udcIrq udc t₂).output.size = t₁.output.size := congrArg CircbufT.size hsame
    rw [hsize]
    exact hless

theorem Told.push (h : Told total t w) (src : List UInt8) :
    ∃ t' w', t.push src = some t' ∧ Told total t' w' ∧ t'.output.size = min total (t.output.size + src.length) ∧
      t'.clock = t.clock ∧ Adds (t.output.size + src.length ≤ total) w src w' := by
  obtain ⟨out, inp, hk, hw⟩ := h
  obtain ⟨b', hpush, htotal, hb'⟩ := hk.output.bufPush src
  have hlen : (recent total (out ++ src)).length = min total (out.length + src.length) := by
    rw [RecentWindow.recent_length, length_append]
  rw [hk.total] at htotal hb'
  have hk' : Keeps total { t with output := b' } (recent total (out ++ src)) inp := ⟨hb', htotal, hk.input, hk.taken⟩
  refine ⟨{ t with output := b' }, t.urbs ++ recent total (out ++ src), ?_, ⟨_, inp, hk', rfl⟩, ?_, rfl, ?_⟩
  · unfold Tty.push
    simp only [hpush, Option.bind_eq_bind, Option.bind_some]
  · rw [hk.output.size, ← hlen]
    exact hb'.size
  · unfold Adds
    rw [hk.output.size, ← hw]
    by_cases hroom : out.length + src.length ≤ total
    · left
      have hall : (out ++ src).length ≤ total := by rwa [length_append]
      rw [RecentWindow.recent_all hall, append_assoc]
      exact ⟨hroom, rfl⟩
    · right
      rw [length_append, length_append, hlen]
      omega

theorem Told.putc (udc : Udc) (h : Told total t w) (c : UInt8) :
    ∃ t' w', usbttyPutc udc t c = some t' ∧ Told total t' w' ∧
      Adds (t.output.size + (crlf [c]).length ≤ total) w (crlf [c]) w' := by
  have hpoll : ∀ {t : Tty} {w : List UInt8}, Told total t w → ∃ t',
      (if t.output.size + 2 ≥ t.output.totalsize then usbttyPoll udc t else some t) = some t' ∧ Told total t' w := by
    intro t w h
    split
    next hfull =>
      obtain ⟨t', hpoll, h', -⟩ := h.poll udc
      exact ⟨t', hpoll, h'⟩
    next hroom => exact ⟨t, rfl, h⟩
  obtain ⟨t₁, w₁, hpush, h₁, hsize, -, hadds⟩ := h.push [c]
  unfold usbttyPutc
  simp only [hpush, Option.bind_eq_bind, Option.bind_some]
  by_cases hnl : c = 10
  · obtain ⟨t₂, w₂, hpush₂, h₂, -, -, hadds₂⟩ := h₁.push [13]
    obtain ⟨t', hend, h'⟩ := hpoll h₂
    have hcrlf : crlf [c] = [c] ++ [13] := by
      rw [hnl]
      rfl
    simp only [if_pos hnl, hpush₂, Option.bind_some, hend]
    refine ⟨t', w₂, rfl, h', ?_⟩
    rw [hcrlf]
    apply (hadds.trans hadds₂).iff
    rw [hsize]
    simp only [length_append, length_singleton]
    omega
  · obtain ⟨t', hend, h'⟩ := hpoll h₁
    have hcrlf : crlf [c] = [c] := by simp [crlf, hnl]
    simp only [if_neg hnl, hend]
    rw [hcrlf]
    exact ⟨t', w₁, rfl, h', hadds⟩

/-- What a round of `__usbtty_puts` puts into the output is lost nowhere, and it is something if the host takes
something in the poll. -/
theorem putsRound_spec (udc : Udc) (h : Told total t w) (c : UInt8) (str : List UInt8) :
    ∃ t' n, putsRound udc (t, c :: str) = some (.inl (t', (c :: str).drop n)) ∧
      Told total t' (w ++ (c :: str).take n) ∧ t.clock + 4 ≤ t'.clock ∧ t'.clock ≤ t.clock + 5 ∧
      (0 < total → (udc.turn (t.clock + 1)).Takes → 0 < n) := by
  obtain ⟨t₁, hpoll, h₁, hclock₁, htaken⟩ := h.poll udc
  have hmax := h.size
  unfold putsRound
  simp only [hpoll, Option.bind_eq_bind, Option.bind_some]
  split
  next hspace =>
    obtain ⟨t₂, hwrite, h₂, hless, hclock₂, -⟩ := h₁.write udc
    obtain ⟨n, hn⟩ : ∃ n, n = min (total - t₁.output.size) (min (c :: str).length total) := ⟨_, rfl⟩
    have hfits : t₂.output.size + ((c :: str).take n).length ≤ total := by
      have hmax := h₁.size
      rw [length_take]
      omega
    obtain ⟨t₃, w₃, hpush, h₃, -, hclock₃, hadds⟩ := h₂.push ((c :: str).take n)
    simp only [hwrite, Option.bind_some]
    rw [h₁.totalsize, h₂.totalsize, ← hn, hpush]
    rw [hadds.eq_iff.mpr hfits] at h₃
    refine ⟨t₃, n, rfl, h₃, by omega, by omega, fun htotal _ => ?_⟩
    rw [h₁.totalsize] at hspace
    rw [hn, length_cons]
    omega
  next hnone =>
    rw [h₁.totalsize] at hnone
    refine ⟨t₁, 0, rfl, ?_, by omega, by omega, fun htotal htakes => ?_⟩
    · rwa [take_zero, append_nil]
    · have := htaken htakes
      omega

theorem putsPart_returns {r : Option Tty} (h : Told total t w) (hret : (putsPart udc t str).Returns r) :
    ∃ t', r = some t' ∧ Told total t' (w ++ str) := by
  refine Comp.loop_returns (Q := fun r => ∃ t', r = some t' ∧ Told total t' (w ++ str))
    (fun s => ∃ done, done ++ s.2 = str ∧ Told total s.1 (w ++ done)) ?_ ?_ ⟨[], rfl, ?_⟩ hret
  · rintro ⟨t, left⟩ s' ⟨done, hdone, ht⟩ hround
    cases left with
    | nil => cases Comp.returns_round_again.mp hround
    | cons c left =>
      obtain ⟨t', n, hrun, ht', -⟩ := putsRound_spec udc ht c left
      have heq := Comp.returns_round_again.mp hround
      rw [hrun] at heq
      cases heq
      refine ⟨done ++ (c :: left).take n, ?_, ?_⟩
      · rw [append_assoc, take_append_drop]
        exact hdone
      · rwa [← append_assoc]
  · rintro ⟨t, left⟩ r ⟨done, hdone, ht⟩ hround
    have heq := Comp.returns_round_done.mp hround
    cases left with
    | nil =>
      cases r with
      | none => cases heq
      | some t' =>
        cases heq
        rw [append_nil] at hdone
        exact ⟨t, rfl, hdone ▸ ht⟩
    | cons c left =>
      obtain ⟨t', n, hrun, -⟩ := putsRound_spec udc ht c left
      rw [hrun] at heq
      cases r with
      | none => cases heq
      | some t'' => cases heq
  · rwa [append_nil]

/-- The outer induction is on what is left of the text, the inner one on the time until the host takes something. -/
theorem putsPart_ends (htotal : 0 < total) (htakes : udc.Takes) (h : Told total t w) : (putsPart udc t str).Ends := by
  induction hn : str.length using Nat.strong_induction_on generalizing t w str with
  | _ n ih =>
    obtain ⟨m, hm, hwhile⟩ := htakes t.clock
    have hsoon : t.clock ≤ m + 4 := by omega
    clear hm
    induction hd : m - t.clock using Nat.strong_induction_on generalizing t w with
    | _ d ihd =>
      cases str with
      | nil => exact ⟨some t, Comp.loop_done (Comp.returns_round_done.mpr rfl)⟩
      | cons c str =>
        obtain ⟨t', k, hrun, h', hlater, hround, hk⟩ := putsRound_spec udc h c str
        have hrest : (putsPart udc t' ((c :: str).drop k)).Ends := by
          rcases Nat.eq_zero_or_pos k with rfl | hpos
          · have hwaits : t.clock < m := by
              by_contra hnow
              have hturn := hwhile (t.clock + 1 - m) (by omega)
              rw [Nat.add_sub_cancel' (by omega)] at hturn
              exact lt_irrefl 0 (hk htotal hturn)
            exact ihd (m - t'.clock) (by omega) h' (by omega) rfl
          · have hshort : ((c :: str).drop k).length < n := by
              rw [length_drop, hn]
              rw [length_cons] at hn
              omega
            exact ih _ hshort h' rfl
        obtain ⟨a, ha⟩ := hrest
        exact ⟨a, Comp.loop_again (Comp.returns_round_again.mpr hrun) ha⟩

theorem crlf_cons (c : UInt8) (str : List UInt8) :
    crlf (c :: str) = (if c = 10 then [10, 13] else [c]) ++ crlf str := by
  simp [crlf]

theorem crlf_line (h : str[nextNlPos str]? = some 10) :
    crlf str = str.take (nextNlPos str + 1) ++ [13] ++ crlf (str.drop (nextNlPos str + 1)) := by
  induction str with
  | nil => simp at h
  | cons c str ih =>
    unfold nextNlPos at h ⊢
    rw [crlf_cons]
    split at h
    next hnl => simp [hnl]
    next hother =>
      rw [List.getElem?_cons_succ] at h
      simp [hother, ih h]

theorem crlf_last (h : str[nextNlPos str]? ≠ some 10) : crlf str = str.take (nextNlPos str) := by
  induction str with
  | nil => rfl
  | cons c str ih =>
    unfold nextNlPos at h ⊢
    rw [crlf_cons]
    split at h
    next hnl => simp [hnl] at h
    next hother =>
      rw [List.getElem?_cons_succ] at h
      simp [hother, ih h]

theorem andThen_returns {c : Comp (Option Tty)} {k : Tty → Comp (Option Tty)} {r : Option Tty}
    (h : (c.andThen k).Returns r) (hc : ∀ r, c.Returns r → ∃ t', r = some t' ∧ Told total t' w') :
    ∃ t', Told total t' w' ∧ (k t').Returns r := by
  obtain ⟨x, hx, hr⟩ := Comp.returns_bind.mp h
  obtain ⟨t', rfl, ht⟩ := hc x hx
  exact ⟨t', ht, hr⟩

theorem putsLines_returns {r : Option Tty} (h : Told total t w) (hret : (putsLines udc t str).Returns r) :
    ∃ t', r = some t' ∧ Told total t' (w ++ crlf str) := by
  induction hn : str.length using Nat.strong_induction_on generalizing t w str with
  | _ n ih =>
    unfold putsLines at hret
    split at hret
    next hlen =>
      split at hret
      next hnl =>
        obtain ⟨t₁, h₁, hret⟩ := andThen_returns hret fun r => putsPart_returns h
        obtain ⟨t₂, h₂, hret⟩ := andThen_returns hret fun r => putsPart_returns h₁
        have hshort : (str.drop (nextNlPos str + 1)).length < n := by
          rw [length_drop]
          omega
        obtain ⟨t', hr, h'⟩ := ih _ hshort h₂ hret rfl
        refine ⟨t', hr, ?_⟩
        rw [crlf_line hnl, ← append_assoc, ← append_assoc]
        exact h'
      next hlast =>
        rw [crlf_last hlast]
        exact putsPart_returns h hret
    next hempty =>
      have hnil : str = [] := length_eq_zero_iff.mp (by omega)
      rw [Comp.returns_pure_iff.mp hret, hnil]
      exact ⟨t, rfl, by rwa [show crlf [] = [] from rfl, append_nil]⟩

theorem putsLines_ends (htotal : 0 < total) (htakes : udc.Takes) (h : Told total t w) :
    (putsLines udc t str).Ends := by
  induction hn : str.length using Nat.strong_induction_on generalizing t w str with
  | _ n ih =>
    unfold putsLines
    split
    next hlen =>
      split
      next hnl =>
        refine (putsPart_ends htotal htakes h).andThen fun t₁ hret₁ => ?_
        obtain ⟨_, heq₁, h₁⟩ := putsPart_returns h hret₁
        cases heq₁
        refine (putsPart_ends htotal htakes h₁).andThen fun t₂ hret₂ => ?_
        obtain ⟨_, heq₂, h₂⟩ := putsPart_returns h₁ hret₂
        cases heq₂
        exact ih _ (by rw [length_drop]; omega) h₂ rfl
      next hlast => exact putsPart_ends htotal htakes h
    next hempty => exact Comp.ends_pure _

theorem wait_returns {r : Option Tty} (h : Told total t w)
    (hret : (Comp.loop (fun t => Comp.round (waitRound udc t)) t).Returns r) : ∃ t', r = some t' ∧ Told total t' w := by
  refine Comp.loop_returns (Q := fun r => ∃ t', r = some t' ∧ Told total t' w) (fun t => Told total t w) ?_ ?_ h
    hret
  · intro t t' ht hround
    have heq := Comp.returns_round_again.mp hround
    obtain ⟨t₁, hpoll, h₁, -⟩ := ht.poll udc
    unfold waitRound at heq
    split at heq
    next hempty =>
      simp only [hpoll, Option.bind_eq_bind, Option.bind_some] at heq
      cases heq
      exact h₁
    next hdata => cases heq
  · intro t r ht hround
    have heq := Comp.returns_round_done.mp hround
    obtain ⟨t₁, hpoll, h₁, -⟩ := ht.poll udc
    unfold waitRound at heq
    split at heq
    next hempty =>
      simp only [hpoll, Option.bind_eq_bind, Option.bind_some] at heq
      cases r with
      | none => cases heq
      | some t' => cases heq
    next hdata =>
      cases r with
      | none => cases heq
      | some t' =>
        cases heq
        exact ⟨t, rfl, ht⟩

theorem call_returns {c : Call} {r : Option Tty} (h : Told total t w) (hret : (call udc t c).Returns r) :
    ∃ t' w', r = some t' ∧ Told total t' w' ∧ Adds (Room t c) w c.written w' := by
  cases c with
  | putc c =>
    obtain ⟨t', w', hrun, h', hadds⟩ := h.putc udc c
    rw [← h.totalsize] at hadds
    have hr := Comp.returns_pure_iff.mp hret
    exact ⟨t', w', hr.trans hrun, h', hadds⟩
  | puts str =>
    obtain ⟨t₁, h₁, hret⟩ := andThen_returns hret fun r => putsLines_returns h
    obtain ⟨t', hpoll, h', -⟩ := h₁.poll udc
    have hr := Comp.returns_pure_iff.mp hret
    exact ⟨t', _, hr.trans hpoll, h', .inl ⟨trivial, rfl⟩⟩
  | getc =>
    obtain ⟨t₁, h₁, hret⟩ := andThen_returns hret fun r => wait_returns h
    have hr := Comp.returns_pure_iff.mp hret
    obtain ⟨out, inp, hk, hw⟩ := h₁
    obtain ⟨b', hpop, -, hb'⟩ := hk.input.bufPop 1
    simp only [hpop, Option.bind_eq_bind, Option.bind_some] at hr
    have htaken : t₁.taken ++ inp.take 1 ++ inp.drop 1 = t₁.filled := by
      rw [append_assoc, take_append_drop, hk.taken]
    refine ⟨_, w, hr, ⟨out, inp.drop 1, ⟨hk.output, hk.total, hb', htaken⟩, hw⟩, .inl ⟨trivial, ?_⟩⟩
    exact (append_nil w).symm
  | tstc =>
    obtain ⟨t', hpoll, h', -⟩ := h.poll udc
    have hr := Comp.returns_pure_iff.mp hret
    exact ⟨t', w, hr.trans hpoll, h', .inl ⟨trivial, (append_nil w).symm⟩⟩

theorem calls_returns {cs : List Call} {r : Option Tty} (h : Told total t w) (hret : (calls udc t cs).Returns r) :
    ∃ t' w', r = some t' ∧ Told total t' w' ∧ Adds (Roomy udc t cs) w (written cs) w' := by
  induction cs generalizing t w with
  | nil => exact ⟨t, w, Comp.returns_pure_iff.mp hret, h, .inl ⟨trivial, (append_nil w).symm⟩⟩
  | cons c cs ih =>
    obtain ⟨x, hx, hrest⟩ := Comp.returns_bind.mp hret
    obtain ⟨t₁, w₁, rfl, h₁, hadds⟩ := call_returns h hx
    obtain ⟨t', w', hr, h', hadds'⟩ := ih h₁ hrest
    refine ⟨t', w', hr, h', (hadds.trans hadds').iff ?_⟩
    constructor
    · rintro ⟨hroom, hon⟩
      refine ⟨hroom, fun t₂ h₂ => ?_⟩
      cases hx.unique h₂
      exact hon
    · rintro ⟨hroom, hon⟩
      exact ⟨hroom, hon t₁ hx⟩

/-- Only `usbtty_getc` waits for more than the host's taking what was written. -/
theorem calls_end {cs : List Call} (htotal : 0 < total) (htakes : udc.Takes) (h : Told total t w)
    (hcs : Call.getc ∉ cs) : (calls udc t cs).Ends := by
  induction cs generalizing t w with
  | nil => exact Comp.ends_pure _
  | cons c cs ih =>
    have hcall : (call udc t c).Ends := by
      cases c with
      | putc c => exact Comp.ends_pure _
      | puts str => exact (putsLines_ends htotal htakes h).andThen fun t _ => Comp.ends_pure _
      | getc => exact absurd mem_cons_self hcs
      | tstc => exact Comp.ends_pure _
    refine hcall.andThen fun t₁ hret => ?_
    obtain ⟨_, w₁, heq, h₁, -⟩ := call_returns h hret
    cases heq
    exact ih h₁ fun hmem => hcs (mem_cons_of_mem c hmem)

/-- Runs without `usbtty_getc` return where the host takes something again and again. Every run that returns has
moved to the urbs, or still holds in the output, all that was written, exactly if each `usbtty_putc` found room for
what it pushes. The input keeps what has not been read in every run. -/
theorem usbtty_loses_nothing_iff (udc : Udc) (block block' : List UInt8) (hsize : 2 ≤ block.length)
    (hsize' : 2 ≤ block'.length) (cs : List Call) :
    (udc.Takes → Call.getc ∉ cs → (calls udc (Tty.init block block') cs).Ends) ∧
      ∀ r, (calls udc (Tty.init block block') cs).Returns r →
        ∃ t, r = some t ∧ (t.urbs ++ contents t.output = written cs ↔ Roomy udc (Tty.init block block') cs) ∧
          t.taken ++ contents t.input = t.filled := by
  have hinit : Told block.length (Tty.init block block') [] := Told.init (by omega) (by omega)
  refine ⟨fun htakes hcs => calls_end (by omega) htakes hinit hcs, fun r hret => ?_⟩
  obtain ⟨t, w, hr, ⟨out, inp, hk, hw⟩, hadds⟩ := calls_returns hinit hret
  refine ⟨t, hr, ?_, ?_⟩
  · rw [contents_eq hk.output, hw]
    exact hadds.eq_iff
  · rw [contents_eq hk.input]
    exact hk.taken

/-- A host that takes nothing for a time, and then a byte with each write. -/
def late : Udc := ⟨fun _ => [], fun n => ⟨false, if n < 20 then [] else [⟨1, true⟩]⟩⟩

theorem late_takes : late.Takes := fun n =>
  ⟨n + 20, by omega, fun k _ => ⟨rfl, ⟨1, true⟩, [], if_neg (by omega), by decide⟩⟩

/-- `a` still waits in a buffer of two bytes when `b`, a newline and `c` are written. -/
theorem usbtty_loses_nothing_lines : ∃ t,
    (calls late (Tty.init [0, 0] [0, 0]) [.putc 97, .puts [98, 10, 99]]).Returns (some t) ∧
      t.urbs ++ contents t.output = [97, 98, 10, 13, 99] ∧ t.taken ++ contents t.input = t.filled := by
  obtain ⟨hends, hholds⟩ := usbtty_loses_nothing_iff late [0, 0] [0, 0] (by decide) (by decide)
    [.putc 97, .puts [98, 10, 99]]
  obtain ⟨r, hret⟩ := hends late_takes (by simp)
  obtain ⟨t, rfl, hiff, htaken⟩ := hholds r hret
  exact ⟨t, hret, hiff.mpr ⟨show 0 + 1 ≤ 2 by decide, fun _ _ => ⟨trivial, fun _ _ => trivial⟩⟩, htaken⟩

/-- No call of `write_buffer` moves anything. -/
def slow : Udc := ⟨fun _ => [], fun _ => ⟨false, []⟩⟩

/-- The third character goes where the first one still waits. -/
theorem waiting_character_overwritten : ∃ t,
    (calls slow (Tty.init [0, 0] [0, 0]) [.putc 97, .putc 98, .putc 99]).Returns (some t) ∧
      t.urbs ++ contents t.output ≠ written [.putc 97, .putc 98, .putc 99] :=
  ⟨_, ⟨0, rfl⟩, by decide⟩

end UBoot.Usbtty
