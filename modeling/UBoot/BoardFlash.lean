import Mathlib.Data.List.Infix
import Mathlib.Data.UInt
import UBoot.FlashCells
import UBoot.Loops

namespace UBoot.BoardFlash

open Loops FlashCells
open Loops.Comp (returns_bind returns_pure returns_pure_iff)

def errOk : Nat := 0
def errTimout : Nat := 1
def errNotErased : Nat := 2
def errProtected : Nat := 4
def errInval : Nat := 8
def errUnknownFlashVendor : Nat := 32
def errUnknownFlashType : Nat := 64
def errProgError : Nat := 128

def flashUnknown : UInt32 := 0xFFFF
def flashVendmask : UInt32 := 0xFFFF0000
def amdManufact : UInt32 := 0x00010001

/-- The values of `chip`. -/
def ready : Nat := 1
def err : Nat := 2
def tmo : Nat := 4

/-- The fields of `flash_info_t` that are read, by sector. -/
structure FlashInfo where
  flashId : UInt32
  start : Int → UInt32
  protect : Int → UInt8

/-- What the chip and the clock answer to the n-th status read, and what the n-th program command leaves of the
bits of each byte. -/
structure Chip where
  status : Nat → UInt16
  clock : Nat → Nat
  left : Nat → Flash

/-- What the driver prints, writes to the chip and reads from it. -/
inductive Event where
  | erasing (sect : Int)
  | write (addr : UInt32) (value : UInt16)
  | read (addr : UInt32) (value : UInt16)
  | ok
  | isProtected
  | interrupted

variable (base : UInt32) (tout : Nat) (chip : Chip) (ctrlc : Nat → Bool) (info : FlashInfo)

def flashAddr1 : UInt32 := base + ((0x00000555 : UInt32) <<< 1)

def flashAddr2 : UInt32 := base + ((0x000002AA : UInt32) <<< 1)

def eraseCommand (addr : UInt32) : List Event :=
  [.write (flashAddr1 base) 0xAA, .write (flashAddr2 base) 0x55, .write (flashAddr1 base) 0x80,
    .write (flashAddr1 base) 0xAA, .write (flashAddr2 base) 0x55, .write addr 0x30]

def readArray : Event := .write (flashAddr1 base) 0xF0

/-- One round of the loop that waits: the status reads so far and the events. -/
def erasePoll (addr : UInt32) (s : Nat × List Event) : (Nat × List Event) ⊕ (Nat × Nat × List Event) :=
  let result := chip.status s.1
  let log := s.2 ++ [.read addr result]
  if tout < chip.clock s.1 then .inr (tmo, s.1 + 1, log ++ [readArray base])
  else if result &&& 0x80 ≠ 0 then .inr (ready, s.1 + 1, log)
  else if result &&& 0x20 ≠ 0 then .inr (err, s.1 + 1, log)
  else .inl (s.1 + 1, log)

def eraseSector (sect : Int) (s : Nat × List Event) : Comp (Nat × Nat × List Event) :=
  (Comp.loop (fun t => Comp.pure (erasePoll base tout chip (info.start sect) t))
    (s.1, s.2 ++ .erasing sect :: eraseCommand base (info.start sect))).bind fun r =>
    let log := r.2.2 ++ [readArray base]
    if r.1 = err then Comp.pure (errProgError, r.2.1, log)
    else if r.1 = tmo then Comp.pure (errTimout, r.2.1, log)
    else Comp.pure (errOk, r.2.1, log ++ [.ok])

/-- The loop over the sectors, with so many left: the return value, how often `ctrlc` was asked, and the rest. -/
def eraseSectors : Nat → Int → Nat → Nat × List Event → Comp (Nat × Nat × Nat × List Event)
  | 0, _, asked, s => Comp.pure (errOk, asked, s)
  | n + 1, sect, asked, s =>
    if ctrlc asked then Comp.pure (errOk, asked + 1, s)
    else if info.protect sect = 0 then
      (eraseSector base tout chip info sect s).bind fun r =>
        if r.1 ≠ errOk then Comp.pure (r.1, asked + 1, r.2)
        else eraseSectors n (sect + 1) (asked + 1) r.2
    else eraseSectors n (sect + 1) (asked + 1) (s.1, s.2 ++ [.erasing sect, .isProtected])

/-- `prot`, over so many sectors. -/
def countProtected : Nat → Int → Nat
  | 0, _ => 0
  | n + 1, sect => (if info.protect sect ≠ 0 then 1 else 0) + countProtected n (sect + 1)

/-- How many sectors there are from `s_first` to `s_last`. -/
def sectors (first last : Int) : Nat := (last - first + 1).toNat

def flashErase (first last : Int) : Comp (Nat × List Event) :=
  if info.flashId = flashUnknown then Comp.pure (errUnknownFlashType, [])
  else if first < 0 ∨ last < first then Comp.pure (errInval, [])
  else if info.flashId &&& flashVendmask ≠ amdManufact &&& flashVendmask then Comp.pure (errUnknownFlashVendor, [])
  else if countProtected info (sectors first last) first ≠ 0 then Comp.pure (errProtected, [])
  else
    (eraseSectors base tout chip ctrlc info (sectors first last) first 0 (0, [])).bind fun r =>
      if r.1 ≠ errOk then Comp.pure (r.1, r.2.2.2)
      else Comp.pure (errOk, if ctrlc r.2.1 then r.2.2.2 ++ [.interrupted] else r.2.2.2)

def pair (b0 b1 : UInt8) : UInt16 := b0.toUInt16 ||| (b1.toUInt16 <<< 8)

def half (m : Flash) (a : Nat) : UInt16 := pair (m a) (m (a + 1))

/-- The flash, the status reads and the program commands so far. -/
structure State where
  mem : Flash
  reads : Nat
  programs : Nat

/-- One round of the loop that waits for a half-word. -/
def programPoll (data : UInt16) (n : Nat) : Nat ⊕ (Nat × Nat) :=
  let result := chip.status n
  if tout < chip.clock n then .inr (err ||| tmo, n + 1)
  else if result &&& 0x80 = data &&& 0x80 then .inr (ready, n + 1)
  else if result &&& 0x20 ≠ 0 then
    if chip.status (n + 1) &&& 0x80 = data &&& 0x80 then .inr (ready, n + 2) else .inr (err, n + 2)
  else .inl (n + 1)

def State.programmed (s : State) (dest : Nat) : Flash :=
  patch s.mem dest 2 fun x => s.mem x &&& chip.left s.programs x

def writeHword (s : State) (dest : Nat) (data : UInt16) : Comp (Nat × State) :=
  if half s.mem dest &&& data ≠ data then Comp.pure (errNotErased, s)
  else
    let mem := s.programmed chip dest
    (Comp.loop (fun n => Comp.pure (programPoll tout chip data n)) s.reads).bind fun r =>
      Comp.pure (if r.1 = err ∨ half mem dest ≠ data then errProgError else errOk, ⟨mem, r.2, s.programs + 1⟩)

/-- A byte into `data` from above. -/
def shiftIn (data : UInt16) (b : UInt8) : UInt16 := (data >>> 8) ||| (b.toUInt16 <<< 8)

/-- `n` bytes from an address on into `data`. -/
def shiftAll (m : Flash) (a n : Nat) (data : UInt16) : UInt16 := (FlashCells.read m a n).foldl shiftIn data

/-- The state, `wp`, `src` and `cnt`. -/
structure Cursor where
  state : State
  wp : Nat
  src : Nat
  cnt : Nat

variable (ram : Flash)

def startBytes (c : Cursor) (l : Nat) : Comp (Nat × Cursor) :=
  if l = 0 then Comp.pure (errOk, c)
  else
    let k := min (2 - l) c.cnt
    let data := shiftAll ram c.src k (shiftAll c.state.mem c.wp l 0)
    let data := if c.cnt - k = 0 then shiftAll c.state.mem (c.wp + l + k) (2 - (l + k)) data else data
    (writeHword tout chip c.state c.wp data).bind fun r =>
      Comp.pure (r.1, ⟨r.2, c.wp + 2, c.src + k, c.cnt - k⟩)

/-- A half-word of the source. The processor checks the alignment: a load from an odd address does not return. -/
def srcHalf (src : Nat) : Option UInt16 := if src % 2 = 0 then some (half ram src) else none

def alignedWords : Nat → Cursor → Comp (Option (Nat × Cursor))
  | 0, c => Comp.pure (some (errOk, c))
  | n + 1, c =>
    match srcHalf ram c.src with
    | none => Comp.pure none
    | some data =>
      (writeHword tout chip c.state c.wp data).bind fun r =>
        if r.1 ≠ errOk then Comp.pure (some (r.1, { c with state := r.2 }))
        else alignedWords n ⟨r.2, c.wp + 2, c.src + 2, c.cnt - 2⟩

def tailBytes (c : Cursor) : Comp (Nat × State) :=
  let k := min 2 c.cnt
  let data := shiftAll ram c.src k 0
  let data := shiftAll c.state.mem (c.wp + k) (2 - k) data
  writeHword tout chip c.state c.wp data

/-- `write_buff`, or none where a load of the source does not return. -/
def writeBuff (s : State) (src addr cnt : Nat) : Comp (Option (Nat × State)) :=
  let wp := addr - addr % 2
  (startBytes tout chip ram ⟨s, wp, src, cnt⟩ (addr - wp)).bind fun r =>
    if r.1 ≠ errOk then Comp.pure (some (r.1, r.2.state))
    else
      (alignedWords tout chip ram (r.2.cnt / 2) r.2).andThen fun r =>
        if r.1 ≠ errOk then Comp.pure (some (r.1, r.2.state))
        else if r.2.cnt = 0 then Comp.pure (some (errOk, r.2.state))
        else (tailBytes tout chip ram r.2).bind fun r => Comp.pure (some r)

variable {base : UInt32} {tout : Nat} {chip : Chip} {ctrlc : Nat → Bool} {info : FlashInfo}
variable {addr : UInt32} {sect first last : Int} {n asked : Nat} {log out : List Event} {s : Nat × List Event}

/-- The events of a sector that was erased: the command, status reads up to one with the done bit, and the
message. -/
def Erased (base : UInt32) (info : FlashInfo) (log : List Event) (sect : Int) : Prop :=
  ∃ (front : List Event) (results : List UInt16) (result : UInt16) (back : List Event),
    log = front ++ .erasing sect :: eraseCommand base (info.start sect) ++
    results.map (Event.read (info.start sect)) ++ [.read (info.start sect) result, readArray base, .ok] ++ back ∧
    result &&& 0x80 ≠ 0

theorem Erased.append (h : Erased base info log sect) (more : List Event) : Erased base info (log ++ more) sect := by
  obtain ⟨front, results, result, back, rfl, hdone⟩ := h
  exact ⟨front, results, result, back ++ more, by simp only [List.append_assoc], hdone⟩

theorem Erased.mono (h : Erased base info log sect) (hout : log <+: out) : Erased base info out sect := by
  obtain ⟨more, rfl⟩ := hout
  exact h.append more

theorem Erased.begun (h : Erased base info log sect) : Event.erasing sect ∈ log := by
  obtain ⟨front, results, result, back, rfl, -⟩ := h
  simp

theorem tmo_ne_ready : tmo ≠ ready := by decide
theorem err_ne_ready : err ≠ ready := by decide
theorem errProgError_ne : errProgError ≠ errOk := by decide
theorem errNotErased_ne : errNotErased ≠ errOk := by decide
theorem errTimout_ne : errTimout ≠ errOk := by decide

theorem erasePoll_loop {r : Nat × Nat × List Event}
    (h : (Comp.loop (fun t => Comp.pure (erasePoll base tout chip addr t)) s).Returns r) :
    (∃ (results : List UInt16) (result : UInt16) (more : List Event),
      r.2.2 = s.2 ++ results.map (Event.read addr) ++ .read addr result :: more ∧
      (r.1 = ready → result &&& 0x80 ≠ 0 ∧ more = [])) ∧ (r.1 = ready ∨ r.1 = err ∨ r.1 = tmo) := by
  refine Comp.loop_returns (s := s) (fun t => ∃ results : List UInt16, t.2 = s.2 ++ results.map (Event.read addr))
    (Q := fun r => (∃ (results : List UInt16) (result : UInt16) (more : List Event),
      r.2.2 = s.2 ++ results.map (Event.read addr) ++ .read addr result :: more ∧
      (r.1 = ready → result &&& 0x80 ≠ 0 ∧ more = [])) ∧ (r.1 = ready ∨ r.1 = err ∨ r.1 = tmo))
    (fun t t' ht ht' => ?_) (fun t r ht hr => ?_) ⟨[], by simp⟩ h
  · obtain ⟨results, ht⟩ := ht
    have hstep := returns_pure_iff.mp ht'
    unfold erasePoll at hstep
    dsimp only at hstep
    split at hstep
    · cases hstep
    · split at hstep
      · cases hstep
      · split at hstep
        · cases hstep
        · cases hstep
          exact ⟨results ++ [chip.status t.1], by simp [ht]⟩
  · obtain ⟨results, ht⟩ := ht
    have hstep := returns_pure_iff.mp hr
    unfold erasePoll at hstep
    dsimp only at hstep
    split at hstep
    · cases hstep
      exact ⟨⟨results, chip.status t.1, [readArray base], by simp [ht], fun h => absurd h tmo_ne_ready⟩,
        .inr (.inr rfl)⟩
    · split at hstep
      next hdone =>
        cases hstep
        exact ⟨⟨results, chip.status t.1, [], by simp [ht], fun _ => ⟨hdone, rfl⟩⟩, .inl rfl⟩
      · split at hstep
        · cases hstep
          exact ⟨⟨results, chip.status t.1, [], by simp [ht], fun h => absurd h err_ne_ready⟩, .inr (.inl rfl)⟩
        · cases hstep

theorem eraseSector_spec {r : Nat × Nat × List Event} (h : (eraseSector base tout chip info sect s).Returns r) :
    s.2 <+: r.2.2 ∧ (r.1 = errOk → Erased base info r.2.2 sect) := by
  obtain ⟨w, hw, hr⟩ := returns_bind.mp h
  obtain ⟨⟨results, result, more, hlog, hready⟩, hcases⟩ := erasePoll_loop hw
  have hpre : s.2 <+: w.2.2 := by
    rw [hlog]
    exact ⟨_, by simp only [List.append_assoc]; rfl⟩
  rcases hcases with hchip | hchip | hchip
  · rw [hchip, if_neg (by decide), if_neg (by decide)] at hr
    cases returns_pure_iff.mp hr
    refine ⟨?_, fun _ => ?_⟩
    · exact hpre.trans ⟨[readArray base, .ok], by simp⟩
    · obtain ⟨hdone, rfl⟩ := hready hchip
      exact ⟨s.2, results, result, [], by rw [hlog]; simp, hdone⟩
  · rw [hchip, if_pos rfl] at hr
    cases returns_pure_iff.mp hr
    exact ⟨hpre.trans ⟨[readArray base], rfl⟩, fun h => absurd h errProgError_ne⟩
  · rw [hchip, if_neg (by decide), if_pos rfl] at hr
    cases returns_pure_iff.mp hr
    exact ⟨hpre.trans ⟨[readArray base], rfl⟩, fun h => absurd h errTimout_ne⟩

theorem eraseSectors_spec {r : Nat × Nat × Nat × List Event}
    (h : (eraseSectors base tout chip ctrlc info n sect asked s).Returns r)
    (hfree : ∀ k : Nat, k < n → info.protect (sect + k) = 0) (hquiet : ∀ k < n, ctrlc (asked + k) = false) :
    s.2 <+: r.2.2.2 ∧ (r.1 = errOk → ∀ k : Nat, k < n → Erased base info r.2.2.2 (sect + k)) := by
  induction n generalizing sect asked s with
  | zero =>
    cases returns_pure_iff.mp h
    exact ⟨List.prefix_rfl, fun _ k hk => by omega⟩
  | succ n ih =>
    have hno : ctrlc asked = false := hquiet 0 (by omega)
    have hfirst : info.protect sect = 0 := by simpa using hfree 0 (by omega)
    rw [eraseSectors, hno, if_neg Bool.false_ne_true, if_pos hfirst] at h
    obtain ⟨w, hw, hr⟩ := returns_bind.mp h
    obtain ⟨hpre, herased⟩ := eraseSector_spec hw
    by_cases hok : w.1 = errOk
    · rw [if_neg (not_not_intro hok)] at hr
      obtain ⟨hpre', hall⟩ := ih hr
        (fun k hk => by have := hfree (k + 1) (by omega); rwa [Int.natCast_succ, Int.add_comm (k : Int) 1,
          ← Int.add_assoc] at this)
        (fun k hk => by have := hquiet (k + 1) (by omega); rwa [add_comm k 1, ← add_assoc] at this)
      refine ⟨hpre.trans hpre', fun hrc k hk => ?_⟩
      cases k with
      | zero => simpa using (herased hok).mono hpre'
      | succ k =>
        have hrest := hall hrc k (by omega)
        rwa [Int.natCast_succ, Int.add_comm (k : Int) 1, ← Int.add_assoc]
    · rw [if_pos hok] at hr
      cases returns_pure_iff.mp hr
      exact ⟨hpre, fun hrc => absurd hrc hok⟩

def readyChip : Chip where
  status _ := 0x80
  clock _ := 0
  left _ _ := 0xff

theorem done_bit : (0x80 : UInt16) &&& 0x80 ≠ 0 := by decide

theorem eraseSector_ready (base : UInt32) (tout : Nat) (info : FlashInfo) (sect : Int) (s : Nat × List Event) :
    ∃ r, (eraseSector base tout readyChip info sect s).Returns r ∧ r.1 = errOk ∧
    ∀ x, .erasing x ∈ r.2.2 → .erasing x ∈ s.2 ∨ x = sect := by
  have hpoll : ∀ t, erasePoll base tout readyChip (info.start sect) t =
      .inr (ready, t.1 + 1, t.2 ++ [.read (info.start sect) 0x80]) := by
    intro t
    unfold erasePoll
    exact (if_neg (Nat.not_lt_zero tout)).trans (if_pos done_bit)
  refine ⟨_, returns_bind.mpr ⟨_, Comp.loop_done (returns_pure_iff.mpr (hpoll _).symm),
    returns_pure _⟩, rfl, fun x hx => ?_⟩
  simpa [eraseCommand, readArray] using hx

def FlashInfo.Free (info : FlashInfo) (sect : Int) (n : Nat) : Prop := ∀ k : Nat, k < n → info.protect (sect + k) = 0

theorem FlashInfo.free_succ : info.Free sect (n + 1) ↔ info.protect sect = 0 ∧ info.Free (sect + 1) n := by
  have hplace : ∀ k : Nat, sect + 1 + k = sect + (k + 1 : Nat) := fun k => by omega
  constructor
  · intro h
    refine ⟨by simpa using h 0 (by omega), fun k hk => ?_⟩
    rw [hplace]
    exact h (k + 1) (by omega)
  · rintro ⟨hfirst, hrest⟩ k hk
    cases k with
    | zero => simpa using hfirst
    | succ k =>
      rw [← hplace]
      exact hrest k (by omega)

theorem countProtected_zero : countProtected info n sect = 0 ↔ info.Free sect n := by
  induction n generalizing sect with
  | zero => exact ⟨fun _ k hk => by omega, fun _ => rfl⟩
  | succ n ih =>
    rw [countProtected, FlashInfo.free_succ, ← ih]
    by_cases hfirst : info.protect sect = 0
    · rw [if_neg (not_not_intro hfirst), zero_add]
      exact ⟨fun h => ⟨hfirst, h⟩, fun h => h.2⟩
    · rw [if_pos hfirst]
      exact ⟨fun h => by omega, fun h => absurd h.1 hfirst⟩

theorem eraseSectors_interrupted (hfree : info.Free sect n) (hint : ∃ k < n, ctrlc (asked + k) = true) :
    ∃ r, (eraseSectors base tout readyChip ctrlc info n sect asked s).Returns r ∧ r.1 = errOk ∧
      ∃ k : Nat, k < n ∧ ∀ x, .erasing x ∈ r.2.2.2 → .erasing x ∈ s.2 ∨ x < sect + k := by
  induction n generalizing sect asked s with
  | zero =>
    obtain ⟨k, hk, -⟩ := hint
    omega
  | succ n ih =>
    obtain ⟨hfirst, hrest⟩ := FlashInfo.free_succ.mp hfree
    rw [eraseSectors]
    by_cases hnow : ctrlc asked = true
    · rw [if_pos hnow]
      exact ⟨_, returns_pure _, rfl, 0, by omega, fun x hx => .inl hx⟩
    · obtain ⟨k, hk, hctrlc⟩ := hint
      obtain ⟨k, rfl⟩ : ∃ j, k = j + 1 := ⟨k - 1, by
        cases k with
        | zero => exact absurd hctrlc hnow
        | succ k => rfl⟩
      have hnext : ∃ j < n, ctrlc (asked + 1 + j) = true := ⟨k, by omega, by rwa [add_assoc, add_comm 1 k]⟩
      obtain ⟨w, hw, hok, hbegun⟩ := eraseSector_ready base tout info sect s
      obtain ⟨r, hr, hrok, j, hj, hbefore⟩ := ih (s := w.2) hrest hnext
      rw [if_neg hnow, if_pos hfirst]
      refine ⟨r, returns_bind.mpr ⟨w, hw, ?_⟩, hrok, j + 1, by omega, fun x hx => ?_⟩
      · rw [if_neg (not_not_intro hok)]
        exact hr
      · rcases hbefore x hx with h | h
        · rcases hbegun x h with h | rfl
          · exact .inl h
          · exact .inr (by omega)
        · exact .inr (by omega)

/-- What `flash_erase` refuses before it erases anything. -/
def FlashInfo.Refused (info : FlashInfo) (first last : Int) : Prop :=
  info.flashId = flashUnknown ∨ (first < 0 ∨ last < first) ∨
  info.flashId &&& flashVendmask ≠ amdManufact &&& flashVendmask ∨ ¬info.Free first (sectors first last)

theorem flashErase_refused (base : UInt32) (tout : Nat) (chip : Chip) (ctrlc : Nat → Bool)
    (h : info.Refused first last) : ∃ rc, rc ≠ errOk ∧ flashErase base tout chip ctrlc info first last = Comp.pure (rc, []) := by
  unfold flashErase
  by_cases htype : info.flashId = flashUnknown
  · exact ⟨errUnknownFlashType, by decide, if_pos htype⟩
  · rw [if_neg htype]
    by_cases hrange : first < 0 ∨ last < first
    · exact ⟨errInval, by decide, if_pos hrange⟩
    · rw [if_neg hrange]
      by_cases hvendor : info.flashId &&& flashVendmask ≠ amdManufact &&& flashVendmask
      · exact ⟨errUnknownFlashVendor, by decide, if_pos hvendor⟩
      · rw [if_neg hvendor]
        have hprot : countProtected info (sectors first last) first ≠ 0 :=
          fun hcount => ((h.resolve_left htype).resolve_left hrange).resolve_left hvendor
            (countProtected_zero.mp hcount)
        exact ⟨errProtected, by decide, if_pos hprot⟩

theorem flashErase_begins (h : ¬info.Refused first last) : flashErase base tout chip ctrlc info first last =
    (eraseSectors base tout chip ctrlc info (sectors first last) first 0 (0, [])).bind fun r =>
      if r.1 ≠ errOk then Comp.pure (r.1, r.2.2.2)
      else Comp.pure (errOk, if ctrlc r.2.1 then r.2.2.2 ++ [.interrupted] else r.2.2.2) := by
  unfold FlashInfo.Refused at h
  simp only [not_or, ne_eq, not_not] at h
  obtain ⟨htype, hrange, hvendor, hfree⟩ := h
  unfold flashErase
  rw [if_neg htype, if_neg fun h => h.elim hrange.1 hrange.2, if_neg (not_not_intro hvendor),
    if_neg (not_not_intro (countProtected_zero.mpr hfree))]

theorem FlashInfo.free_of_begins (h : ¬info.Refused first last) : info.Free first (sectors first last) := by
  by_contra hnot
  exact h (.inr (.inr (.inr hnot)))

theorem flashErase_interrupted (base : UInt32) (tout : Nat) (h : ¬info.Refused first last)
    (hint : ∃ k < sectors first last, ctrlc k = true) :
    ∃ log, (flashErase base tout readyChip ctrlc info first last).Returns (errOk, log) ∧
      ∃ k : Nat, k < sectors first last ∧ ∀ x, .erasing x ∈ log → x < first + k := by
  have hasked : ∃ k < sectors first last, ctrlc (0 + k) = true := by simpa only [zero_add] using hint
  have hrun : ∃ r, (eraseSectors base tout readyChip ctrlc info (sectors first last) first 0 (0, [])).Returns r ∧
      r.1 = errOk ∧ ∃ k : Nat, k < sectors first last ∧
        ∀ x, Event.erasing x ∈ r.2.2.2 → Event.erasing x ∈ [] ∨ x < first + k :=
    eraseSectors_interrupted (FlashInfo.free_of_begins h) hasked
  obtain ⟨r, hr, hok, k, hk, hbefore⟩ := hrun
  refine ⟨if ctrlc r.2.1 then r.2.2.2 ++ [.interrupted] else r.2.2.2, ?_, k, hk, fun x hx => ?_⟩
  · rw [flashErase_begins h]
    refine returns_bind.mpr ⟨r, hr, ?_⟩
    rw [if_neg (not_not_intro hok)]
    exact returns_pure _
  · have hin : Event.erasing x ∈ r.2.2.2 := by
      split at hx
      · simpa using hx
      · exact hx
    exact (hbefore x hin).resolve_left List.not_mem_nil

/-- Where `flash_erase` returns `ERR_OK`, every sector from the first to the last was erased. -/
def EraseTruthful (base : UInt32) (tout : Nat) (ctrlc : Nat → Bool) (info : FlashInfo) (first last : Int) : Prop :=
  ∀ chip log, (flashErase base tout chip ctrlc info first last).Returns (errOk, log) →
    ∀ sect, first ≤ sect → sect ≤ last → Erased base info log sect

theorem EraseTruthful.quiet (h : EraseTruthful base tout ctrlc info first last) (hbegins : ¬info.Refused first last) :
    ∀ k < sectors first last, ctrlc k = false := by
  intro k hk
  by_contra hctrlc
  obtain ⟨log, hlog, j, hj, hnone⟩ := flashErase_interrupted base tout hbegins ⟨k, hk, by simpa using hctrlc⟩
  unfold sectors at hj
  have hlt := hnone (first + j) (h readyChip log hlog (first + j) (by omega) (by omega)).begun
  omega

theorem eraseTruthful_iff : EraseTruthful base tout ctrlc info first last ↔
    info.Refused first last ∨ ∀ k < sectors first last, ctrlc k = false := by
  constructor
  · intro h
    by_cases hrefused : info.Refused first last
    · exact .inl hrefused
    · exact .inr (h.quiet hrefused)
  · intro hcond chip log hret sect hfirst hlast
    by_cases hrefused : info.Refused first last
    · obtain ⟨rc, hrc, heq⟩ := flashErase_refused base tout chip ctrlc hrefused
      rw [heq] at hret
      cases returns_pure_iff.mp hret
      exact absurd rfl hrc
    · have hquiet := hcond.resolve_left hrefused
      have hfree := FlashInfo.free_of_begins hrefused
      rw [flashErase_begins hrefused] at hret
      obtain ⟨r, hr, hret⟩ := returns_bind.mp hret
      obtain ⟨-, hall⟩ := eraseSectors_spec hr hfree fun k hk => by rw [zero_add]; exact hquiet k hk
      by_cases hok : r.1 = errOk
      · rw [if_neg (not_not_intro hok)] at hret
        have hlog := congrArg Prod.snd (returns_pure_iff.mp hret)
        have hsect : first + ((sect - first).toNat : Nat) = sect := by omega
        have herased := hall hok (sect - first).toNat (by unfold sectors; omega)
        rw [hsect] at herased
        dsimp only at hlog
        rw [hlog]
        split
        · exact herased.append _
        · exact herased
      · rw [if_pos hok] at hret
        have hrc := congrArg Prod.fst (returns_pure_iff.mp hret)
        exact absurd hrc.symm hok

variable {ram m : Flash} {s : State} {dest src addr i : Nat} {data : UInt16}
variable {m' : Flash}
variable {b0 b1 : UInt8}

theorem shiftIn_pair (b0 b1 : UInt8) : shiftIn (shiftIn 0 b0) b1 = pair b0 b1 := by
  unfold shiftIn pair
  apply UInt16.eq_of_toBitVec_eq
  ext i hi
  simp
  grind

theorem pair_low (b0 b1 : UInt8) : (pair b0 b1).toUInt8 = b0 := by
  unfold pair
  apply UInt8.eq_of_toBitVec_eq
  ext i hi
  simp

theorem pair_high (b0 b1 : UInt8) : (pair b0 b1 >>> 8).toUInt8 = b1 := by
  unfold pair
  apply UInt8.eq_of_toBitVec_eq
  ext i hi
  have h16 : i < 16 := by omega
  have hhigh : 8 + i < 16 := by omega
  have hlow : ¬8 + i < 8 := by omega
  simp [h16, hhigh, hlow]
  exact BitVec.getLsbD_eq_getElem hi

theorem half_eq_pair (h : half m dest = pair b0 b1) : m dest = b0 ∧ m (dest + 1) = b1 := by
  unfold half at h
  constructor
  · rw [← pair_low (m dest) (m (dest + 1)), h, pair_low]
  · rw [← pair_high (m dest) (m (dest + 1)), h, pair_high]

theorem writeHword_ok {r : Nat × State} (h : (writeHword tout chip s dest data).Returns r) (hok : r.1 = errOk) :
    half r.2.mem dest = data ∧ ∀ x, x < dest ∨ dest + 2 ≤ x → r.2.mem x = s.mem x := by
  unfold writeHword at h
  split at h
  · cases returns_pure_iff.mp h
    exact absurd hok errNotErased_ne
  · obtain ⟨w, -, hr⟩ := returns_bind.mp h
    cases returns_pure_iff.mp hr
    dsimp only at hok ⊢
    refine ⟨?_, fun x hx => patch_outside hx⟩
    split at hok
    · exact absurd hok errProgError_ne
    next hno => exact not_not.mp fun hne => hno (.inr hne)

/-- The flash with `n` bytes of the source from an address on. -/
def written (ram m : Flash) (addr src n : Nat) : Flash := patch m addr n fun x => ram (src + (x - addr))

theorem written_inside {j : Nat} (h : j < n) : written ram m addr src n (addr + j) = ram (src + j) := by
  unfold written
  rw [patch_inside (by omega) (by omega), Nat.add_sub_cancel_left]

theorem written_outside {x : Nat} (h : x < addr ∨ addr + n ≤ x) : written ram m addr src n x = m x := patch_outside h

theorem written_zero : written ram m addr src 0 = m := funext fun _ => written_outside (by omega)

theorem written_more {k : Nat} (hnew : ∀ j, i ≤ j → j < i + k → m' (addr + j) = ram (src + j))
    (hrest : ∀ x, x < addr + i ∨ addr + i + k ≤ x → m' x = written ram m addr src i x) :
    m' = written ram m addr src (i + k) := by
  funext x
  by_cases hin : addr ≤ x ∧ x < addr + (i + k)
  · obtain ⟨j, rfl⟩ : ∃ j, x = addr + j := ⟨x - addr, by omega⟩
    rw [written_inside (by omega)]
    by_cases hj : i ≤ j
    · exact hnew j hj (by omega)
    · rw [hrest _ (by omega), written_inside (by omega)]
  · rw [written_outside (by omega), hrest x (by omega), written_outside (by omega)]

theorem written_two (hdata : half m' (addr + i) = pair (ram (src + i)) (ram (src + i + 1)))
    (hrest : ∀ x, x < addr + i ∨ addr + i + 2 ≤ x → m' x = written ram m addr src i x) :
    m' = written ram m addr src (i + 2) := by
  obtain ⟨hlow, hhigh⟩ := half_eq_pair hdata
  refine written_more (fun j hj hlt => ?_) hrest
  obtain rfl | rfl : j = i ∨ j = i + 1 := by omega
  · exact hlow
  · exact hhigh

theorem written_one
    (hdata : half m' (addr + i) = pair (ram (src + i)) (written ram m addr src i (addr + i + 1)))
    (hrest : ∀ x, x < addr + i ∨ addr + i + 2 ≤ x → m' x = written ram m addr src i x) :
    m' = written ram m addr src (i + 1) := by
  obtain ⟨hlow, hhigh⟩ := half_eq_pair hdata
  refine written_more (fun j hj hlt => ?_) fun x hx => ?_
  · obtain rfl : j = i := by omega
    exact hlow
  · by_cases hnext : x = addr + i + 1
    · rw [hnext, hhigh]
    · exact hrest x (by omega)

theorem startBytes_ok {cnt : Nat} {r : Nat × Cursor}
    (h : (startBytes tout chip ram ⟨s, addr - addr % 2, src, cnt⟩ (addr - (addr - addr % 2))).Returns r)
    (hok : r.1 = errOk) : ∃ i ≤ cnt, r.2.state.mem = written ram s.mem addr src i ∧ r.2.src = src + i ∧
      r.2.cnt = cnt - i ∧ (r.2.cnt ≠ 0 → r.2.wp = addr + i) := by
  unfold startBytes at h
  split at h
  next heven =>
    cases returns_pure_iff.mp h
    exact ⟨0, Nat.zero_le cnt, written_zero.symm, rfl, rfl, fun _ => by dsimp only; omega⟩
  next hodd =>
    have hl : addr - (addr - addr % 2) = 1 := by omega
    obtain ⟨a, rfl⟩ : ∃ a, addr = a + 1 := ⟨addr - 1, by omega⟩
    have hwp : a + 1 - (a + 1) % 2 = a := by omega
    rw [hl, hwp] at h
    obtain ⟨w, hw, hr⟩ := returns_bind.mp h
    cases returns_pure_iff.mp hr
    dsimp only at hok hw ⊢
    obtain ⟨hdata, hrest⟩ := writeHword_ok hw hok
    cases cnt with
    | zero =>
      refine ⟨0, le_refl 0, ?_, rfl, rfl, fun h => absurd rfl h⟩
      have hsame : half w.2.mem a = pair (s.mem a) (s.mem (a + 1)) := hdata.trans (shiftIn_pair _ _)
      obtain ⟨hlow, hhigh⟩ := half_eq_pair hsame
      rw [written_zero]
      funext x
      by_cases hx : x = a ∨ x = a + 1
      · rcases hx with rfl | rfl
        · exact hlow
        · exact hhigh
      · exact hrest x (by omega)
    | succ cnt =>
      have hk : min (2 - 1) (cnt + 1) = 1 := by omega
      rw [hk] at hdata ⊢
      refine ⟨1, by omega, ?_, rfl, rfl, fun _ => rfl⟩
      have hnew : half w.2.mem a = pair (s.mem a) (ram src) := by
        refine hdata.trans (Eq.trans ?_ (shiftIn_pair _ _))
        exact ite_self _
      obtain ⟨hlow, hhigh⟩ := half_eq_pair hnew
      change w.2.mem = written ram s.mem (a + 1) src (0 + 1)
      refine written_more (fun j hj hlt => ?_) fun x hx => ?_
      · obtain rfl : j = 0 := by omega
        exact hhigh
      · rw [written_zero]
        by_cases hx' : x = a
        · rw [hx', hlow]
        · exact hrest x (by omega)

theorem alignedWords_ok {c : Cursor} {r : Nat × Cursor}
    (h : (alignedWords tout chip ram n c).Returns (some r)) (hok : r.1 = errOk) (hcnt : 2 * n ≤ c.cnt)
    (hmem : c.state.mem = written ram m addr src i) (hsrc : c.src = src + i) (hwp : c.cnt ≠ 0 → c.wp = addr + i) :
    r.2.state.mem = written ram m addr src (i + 2 * n) ∧ r.2.src = src + (i + 2 * n) ∧
      r.2.cnt = c.cnt - 2 * n ∧ (r.2.cnt ≠ 0 → r.2.wp = addr + (i + 2 * n)) := by
  induction n generalizing c i with
  | zero =>
    cases Option.some.inj (returns_pure_iff.mp h)
    exact ⟨hmem, hsrc, rfl, hwp⟩
  | succ n ih =>
    have hplace : i + 2 + 2 * n = i + 2 * (n + 1) := by omega
    have hwp := hwp (by omega)
    rw [alignedWords] at h
    unfold srcHalf at h
    split at h
    · cases returns_pure_iff.mp h
    next data hload =>
      split at hload
      · cases hload
        obtain ⟨w, hw, hr⟩ := returns_bind.mp h
        by_cases hword : w.1 = errOk
        · rw [if_neg (not_not_intro hword)] at hr
          obtain ⟨hdata, hrest⟩ := writeHword_ok hw hword
          rw [hwp, hmem] at hrest
          rw [hwp, hsrc] at hdata
          have hnext := ih hr (by dsimp only; omega) (written_two hdata hrest) (by dsimp only; omega)
            (fun _ => by dsimp only; omega)
          rw [hplace] at hnext
          refine ⟨hnext.1, hnext.2.1, ?_, hnext.2.2.2⟩
          have hleft := hnext.2.2.1
          dsimp only at hleft
          omega
        · rw [if_pos hword] at hr
          cases Option.some.inj (returns_pure_iff.mp hr)
          exact absurd hok hword
      · cases hload

theorem tailBytes_ok {c : Cursor} {r : Nat × State} (h : (tailBytes tout chip ram c).Returns r) (hok : r.1 = errOk)
    (hcnt : c.cnt = 1) (hmem : c.state.mem = written ram m addr src i) (hsrc : c.src = src + i)
    (hwp : c.wp = addr + i) : r.2.mem = written ram m addr src (i + 1) := by
  obtain ⟨hdata, hrest⟩ := writeHword_ok h hok
  rw [hcnt] at hdata
  have hpair : half r.2.mem c.wp = pair (ram c.src) (c.state.mem (c.wp + 1)) := hdata.trans (shiftIn_pair _ _)
  rw [hwp, hsrc, hmem] at hpair
  rw [hwp, hmem] at hrest
  exact written_one hpair hrest

theorem writeBuff_ok {cnt : Nat} {r : Nat × State} (h : (writeBuff tout chip ram s src addr cnt).Returns (some r))
    (hok : r.1 = errOk) : r.2.mem = written ram s.mem addr src cnt := by
  obtain ⟨t, ht, h⟩ := returns_bind.mp h
  by_cases hstart : t.1 = errOk
  · rw [if_neg (not_not_intro hstart)] at h
    obtain ⟨i, hi, hmem, hsrc, hcnt, hwp⟩ := startBytes_ok ht hstart
    obtain ⟨w, hw, h⟩ := returns_bind.mp h
    cases w with
    | none => cases returns_pure_iff.mp h
    | some w =>
      change (if w.1 ≠ errOk then _ else _ : Comp _).Returns _ at h
      by_cases hwords : w.1 = errOk
      · rw [if_neg (not_not_intro hwords)] at h
        obtain ⟨hmem', hsrc', hcnt', hwp'⟩ := alignedWords_ok hw hwords (by omega) hmem hsrc hwp
        by_cases hend : w.2.cnt = 0
        · rw [if_pos hend] at h
          cases Option.some.inj (returns_pure_iff.mp h)
          rw [show cnt = i + 2 * (t.2.cnt / 2) from by omega]
          exact hmem'
        · rw [if_neg hend] at h
          obtain ⟨u, hu, h⟩ := returns_bind.mp h
          cases Option.some.inj (returns_pure_iff.mp h)
          rw [show cnt = i + 2 * (t.2.cnt / 2) + 1 from by omega]
          exact tailBytes_ok hu hok (by omega) hmem' hsrc' (hwp' hend)
      · rw [if_pos hwords] at h
        cases Option.some.inj (returns_pure_iff.mp h)
        exact absurd hok hwords
  · rw [if_pos hstart] at h
    cases Option.some.inj (returns_pure_iff.mp h)
    exact absurd hok hstart

/-- Where `write_buff` returns `ERR_OK`, the bytes from `addr` on are those of the source and all others are as they
were. -/
def WriteTruthful (tout src addr cnt : Nat) : Prop :=
  ∀ chip ram s s', (writeBuff tout chip ram s src addr cnt).Returns (some (errOk, s')) →
    (∀ i < cnt, s'.mem (addr + i) = ram (src + i)) ∧ ∀ x, x < addr ∨ addr + cnt ≤ x → s'.mem x = s.mem x

theorem writeTruthful (tout src addr cnt : Nat) : WriteTruthful tout src addr cnt := by
  intro chip ram s s' h
  have hmem : s'.mem = written ram s.mem addr src cnt := writeBuff_ok h rfl
  rw [hmem]
  exact ⟨fun i hi => written_inside hi, fun x hx => written_outside hx⟩

/-- The driver reports what it did where it refuses to erase, and where no interrupt is seen before a sector. -/
theorem reports_truthful_iff (base : UInt32) (tout : Nat) (ctrlc : Nat → Bool) (info : FlashInfo) (first last : Int) :
    (EraseTruthful base tout ctrlc info first last ∧ ∀ src addr cnt, WriteTruthful tout src addr cnt) ↔
      info.Refused first last ∨ ∀ k < sectors first last, ctrlc k = false :=
  (and_iff_left fun src addr cnt => writeTruthful tout src addr cnt).trans eraseTruthful_iff

def twoSectors : FlashInfo where
  flashId := amdManufact
  start sect := if sect = 0 then 0 else 0x10000
  protect _ := 0

theorem twoSectors_begins : ¬twoSectors.Refused 0 1 := by
  rintro (h | h | h | h)
  · exact absurd h (by decide)
  · omega
  · exact h rfl
  · exact h fun k hk => rfl

/-- An interrupt before the second of two sectors. -/
theorem interrupted_erase_reports_ok : ¬EraseTruthful 0 0 (fun k => k == 1) twoSectors 0 1 := by
  intro h
  have hquiet := h.quiet twoSectors_begins 1 (by decide)
  cases hquiet

end UBoot.BoardFlash
