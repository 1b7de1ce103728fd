import UBoot.Blocks
import UBoot.CString
import UBoot.Cells
import Mathlib.Logic.Function.Basic

namespace UBoot.Iomux

open Blocks

structure StdioDev where
  name : CString
  flags : Nat

/-- `DEV_FLAGS_INPUT`, `DEV_FLAGS_OUTPUT` -/
def devFlagsInput : Nat := 1
def devFlagsOutput : Nat := 2

def comma : UInt8 := 44

/-- `search_device`: the place of the device in the list. -/
def searchDevice (devs : List StdioDev) (flags : Nat) (name : List UInt8) : Option Nat :=
  match devs.findIdx? fun dev => dev.name.bytes = name with
  | none => none
  | some d => (devs[d]?).bind fun dev => if dev.flags &&& flags ≠ 0 then some d else none

/-- `serial_assign`, with the names of the serial devices. -/
def serialAssign (serial : List CString) (name : List UInt8) : Int :=
  if serial.any fun s => s.bytes = name then 0 else 1

/-- `strchr` from index `p` of a buffer. -/
def strchrFrom : List UInt8 → UInt8 → Nat → Option Nat
  | [], _, _ => none
  | x :: xs, c, p => if x = c then some p else if x = 0 then none else strchrFrom xs c (p + 1)

def strchr (d : List UInt8) (c : UInt8) (p : Nat) : Option Nat := strchrFrom (d.drop p) c p

/-- The loop that counts the names. -/
def countLoop (d : List UInt8) : Nat → Nat → Nat → Option Nat
  | 0, _, _ => none
  | fuel + 1, temp, i =>
    match strchr d comma temp with
    | some p => countLoop d fuel (p + 1) (i + 1)
    | none => some (i + 1)

/-- The loop that cuts the string and fills `start`. -/
def splitLoop : Nat → List UInt8 → List Nat → Nat → Option (List UInt8 × List Nat × Nat)
  | 0, _, _, _ => none
  | fuel + 1, d, start, i => do
    let p ← start[i]?
    match strchr d comma p with
    | none => some (d, start, i + 1)
    | some temp => do
      let start ← Cells.store start (i + 1) (temp + 1)
      splitLoop fuel (d.set temp 0) start (i + 1)

/-- What is met on the way: which allocations succeed, and what `console_assign` returns for each of the names. -/
structure Faults where
  strdup : Bool
  malloc : Bool
  calloc : Bool
  realloc : Bool
  assign : Nat → Int

/-- What is there: the devices, and with `CONFIG_SERIAL_MULTI` the serial ones. -/
structure Board where
  devs : List StdioDev
  serial : Option (List CString)

/-- The loop over the names: `cons_set` and `cs_idx`. -/
def deviceLoop (b : Board) (assign : Nat → Int) (ioFlag : Nat) (d : List UInt8) (start : List Nat) :
    Nat → Nat → List (Option Nat) → Nat → Option (List (Option Nat) × Nat)
  | 0, _, consSet, csIdx => some (consSet, csIdx)
  | left + 1, j, consSet, csIdx => do
    let p ← start[j]?
    let name ← cstrAt d p
    match searchDevice b.devs ioFlag name with
    | none => deviceLoop b assign ioFlag d start left (j + 1) consSet csIdx
    | some dev =>
      if some dev ∈ consSet.take csIdx then deviceLoop b assign ioFlag d start left (j + 1) consSet csIdx
      else if assign j < 0 then deviceLoop b assign ioFlag d start left (j + 1) consSet csIdx
      else if (b.serial.any fun s => serialAssign s name < 0) then
        deviceLoop b assign ioFlag d start left (j + 1) consSet csIdx
      else do
        let consSet ← Cells.store consSet csIdx (some dev)
        deviceLoop b assign ioFlag d start left (j + 1) consSet (csIdx + 1)

/-- `console_devices` and `cd_count`, and what is in the blocks. -/
structure Mux where
  heap : Heap
  list : Int → Option Nat
  devices : Nat → List (Option Nat)
  count : Int → Nat

def ioFlag (console : Int) : Option Nat :=
  if console = 0 then some devFlagsInput
  else if console = 1 ∨ console = 2 then some devFlagsOutput
  else none

/-- The end of `iomux_doenv`, with `cons_set` still there. -/
def setList (f : Faults) (s : Mux) (heap : Heap) (console : Int) (consSet : Nat) (set : List (Option Nat))
    (csIdx : Nat) : Option (Int × Mux) :=
  if csIdx = 0 then do
    let heap ← heap.free consSet
    pure (1, { s with heap := heap })
  else do
    let (p, heap) ← heap.realloc f.realloc (s.list console)
    let list := Function.update s.list console p
    match p with
    | none => do
      let heap ← heap.free consSet
      pure (1, { s with heap := heap, list := list })
    | some block => do
      let heap ← heap.free consSet
      pure (0, ⟨heap, list, Function.update s.devices block (set.take csIdx), Function.update s.count console csIdx⟩)

/-- `iomux_doenv`: what it returns and the lists it leaves. A loop takes no more rounds than there are characters. -/
def iomuxDoenv (b : Board) (f : Faults) (s : Mux) (console : Int) (arg : CString) : Option (Int × Mux) :=
  match s.heap.malloc f.strdup with
  | (none, heap) => some (1, { s with heap := heap })
  | (some consoleArgs, heap) => do
    let d := arg.bytes ++ [0]
    let n ← countLoop d d.length 0 0
    match heap.malloc f.malloc with
    | (none, heap) => do
      let heap ← heap.free consoleArgs
      pure (1, { s with heap := heap })
    | (some startBlock, heap) => do
      let start ← Cells.store (List.replicate n 0) 0 0
      let (d, start, i) ← splitLoop d.length d start 0
      match heap.malloc f.calloc with
      | (none, heap) => do
        let heap ← heap.free startBlock
        let heap ← heap.free consoleArgs
        pure (1, { s with heap := heap })
      | (some consSet, heap) =>
        match ioFlag console with
        | none => do
          let heap ← heap.free startBlock
          let heap ← heap.free consoleArgs
          let heap ← heap.free consSet
          pure (1, { s with heap := heap })
        | some flag => do
          let (set, csIdx) ← deviceLoop b f.assign flag d start i 0 (List.replicate i none) 0
          let heap ← heap.free consoleArgs
          let heap ← heap.free startBlock
          setList f s heap console consSet set csIdx

def items : List UInt8 → List (List UInt8)
  | [] => [[]]
  | c :: s =>
    if c = comma then [] :: items s
    else match items s with
      | [] => [[c]]
      | t :: ts => (c :: t) :: ts

def line (sep : UInt8) : List (List UInt8) → List UInt8
  | [] => []
  | [t] => t ++ [0]
  | t :: u :: ts => t ++ sep :: line sep (u :: ts)

def ended (ts : List (List UInt8)) : List UInt8 := ts.flatMap (· ++ [0])

def assigned (b : Board) (assign : Nat → Int) (flag : Nat) (names : List (List UInt8)) : List Nat :=
  names.zipIdx.filterMap fun x => if assign x.2 < 0 then none else searchDevice b.devs flag x.1

def wanted (b : Board) (assign : Nat → Int) (console : Int) (arg : CString) : List Nat :=
  match ioFlag console with
  | none => []
  | some flag => (assigned b assign flag (items arg.bytes)).eraseDups

/-- A name of the line: it has neither a comma nor a NUL. -/
def Plain (t : List UInt8) : Prop := comma ∉ t ∧ (0 : UInt8) ∉ t

variable {t : List UInt8} {ts us : List (List UInt8)} {p : Nat}

theorem items_ne_nil (s : List UInt8) : items s ≠ [] := by
  cases s with
  | nil => simp [items]
  | cons c s =>
    rw [items]
    split
    · simp
    · split <;> simp

theorem items_plain {s : List UInt8} (h : (0 : UInt8) ∉ s) : ∀ t ∈ items s, Plain t := by
  induction s with
  | nil => simp [items, Plain]
  | cons c s ih =>
    simp only [List.mem_cons, not_or] at h
    have hs := ih h.2
    rw [items]
    split
    · intro t ht
      rcases List.mem_cons.mp ht with rfl | ht
      · simp [Plain]
      · exact hs t ht
    next hc =>
      cases hi : items s with
      | nil => exact absurd hi (items_ne_nil s)
      | cons u us =>
        rw [hi] at hs
        intro t ht
        rcases List.mem_cons.mp ht with rfl | ht
        · have hu := hs u List.mem_cons_self
          simp only [Plain, List.mem_cons, not_or]
          exact ⟨⟨fun h => hc h.symm, hu.1⟩, h.1, hu.2⟩
        · exact hs t (List.mem_cons_of_mem u ht)

theorem line_items (s : List UInt8) : line comma (items s) = s ++ [0] := by
  induction s with
  | nil => rfl
  | cons c s ih =>
    rw [items]
    cases hi : items s with
    | nil => exact absurd hi (items_ne_nil s)
    | cons u us =>
      rw [hi] at ih
      split
      next hc => simp [line, ih, hc]
      · cases us <;> simp_all [line]

theorem ended_split {k : Nat} (hk : k < ts.length) :
    ended ts = ended (ts.take k) ++ ts[k] ++ 0 :: ended (ts.drop (k + 1)) := by
  have hts : ts = ts.take k ++ ts[k] :: ts.drop (k + 1) := by
    rw [← List.drop_eq_getElem_cons hk, List.take_append_drop]
  unfold ended
  conv_lhs => rw [hts, List.flatMap_append, List.flatMap_cons]
  simp only [List.append_assoc, List.cons_append, List.nil_append]

theorem strchrFrom_comma (h : Plain t) (rest : List UInt8) (p : Nat) :
    strchrFrom (t ++ comma :: rest) comma p = some (p + t.length) := by
  induction t generalizing p with
  | nil => simp [strchrFrom]
  | cons c t ih =>
    simp only [Plain, List.mem_cons, not_or] at h
    rw [List.cons_append, strchrFrom, if_neg fun hc => h.1.1 hc.symm, if_neg fun hc => h.2.1 hc.symm, ih ⟨h.1.2, h.2.2⟩,
      List.length_cons]
    congr 1
    omega

theorem strchrFrom_nul (h : Plain t) (rest : List UInt8) (p : Nat) :
    strchrFrom (t ++ 0 :: rest) comma p = none := by
  induction t generalizing p with
  | nil => simp [strchrFrom, comma]
  | cons c t ih =>
    simp only [Plain, List.mem_cons, not_or] at h
    rw [List.cons_append, strchrFrom, if_neg fun hc => h.1.1 hc.symm, if_neg fun hc => h.2.1 hc.symm]
    exact ih ⟨h.1.2, h.2.2⟩ (p + 1)

theorem strchr_line (h : Plain t) (pre : List UInt8) : strchr (pre ++ line comma (t :: ts)) comma pre.length =
      if ts = [] then none else some (pre.length + t.length) := by
  unfold strchr
  rw [List.drop_left]
  cases ts with
  | nil => simpa [line] using strchrFrom_nul h [] pre.length
  | cons u us => simpa [line] using strchrFrom_comma h (line comma (u :: us)) pre.length

theorem countLoop_line {fuel i : Nat} {pre : List UInt8} (hne : ts ≠ []) (h : ∀ t ∈ ts, Plain t)
    (hf : ts.length ≤ fuel) : countLoop (pre ++ line comma ts) fuel pre.length i = some (i + ts.length) := by
  induction ts generalizing fuel i pre with
  | nil => exact absurd rfl hne
  | cons t ts ih =>
    obtain ⟨fuel, rfl⟩ : ∃ n, fuel = n + 1 := ⟨fuel - 1, by simp at hf; omega⟩
    rw [countLoop, strchr_line (h t List.mem_cons_self)]
    cases ts with
    | nil => rfl
    | cons u us =>
      have hrest := @ih fuel (i + 1) (pre ++ t ++ [comma]) (by simp)
        (fun x hx => h x (List.mem_cons_of_mem t hx)) (by simp at hf ⊢; omega)
      simp only [reduceCtorEq, if_false]
      simp [line, add_assoc] at hrest ⊢
      rw [hrest]
      congr 1
      omega

theorem splitLoop_line {fuel i : Nat} {pre : List UInt8} {start : List Nat} (hne : ts ≠ []) (h : ∀ t ∈ ts, Plain t)
    (hf : ts.length ≤ fuel) (hroom : i + ts.length ≤ start.length) (hi : start[i]? = some pre.length) :
    ∃ start', splitLoop fuel (pre ++ line comma ts) start i = some (pre ++ ended ts, start', i + ts.length) ∧
      (∀ k, k ≤ i → start'[k]? = start[k]?) ∧
      ∀ k, k < ts.length → start'[i + k]? = some (pre.length + (ended (ts.take k)).length) := by
  induction ts generalizing fuel i pre start with
  | nil => exact absurd rfl hne
  | cons t ts ih =>
    obtain ⟨fuel, rfl⟩ : ∃ n, fuel = n + 1 := ⟨fuel - 1, by simp at hf; omega⟩
    rw [splitLoop, hi, Option.bind_eq_bind, Option.bind_some, strchr_line (h t List.mem_cons_self)]
    cases ts with
    | nil =>
      refine ⟨start, by simp [line, ended], fun _ _ => rfl, fun k hk => ?_⟩
      obtain rfl : k = 0 := by simpa using hk
      simpa [ended] using hi
    | cons u us =>
      simp only [List.length_cons] at hroom hf
      have hstore : Cells.store start (i + 1) (pre.length + t.length + 1) =
          some (start.set (i + 1) (pre.length + t.length + 1)) := if_pos (by omega)
      have hcut : (pre ++ line comma (t :: u :: us)).set (pre.length + t.length) 0 =
          pre ++ t ++ [0] ++ line comma (u :: us) := by
        simp [line, List.set_append_right]
      have hplace : (start.set (i + 1) (pre.length + t.length + 1))[i + 1]? = some (pre ++ t ++ [0]).length := by
        rw [List.getElem?_set_self (by omega)]
        simp
        omega
      obtain ⟨start', hloop, hkept, hplaces⟩ := @ih fuel _ _ _ (by simp) (fun x hx => h x (List.mem_cons_of_mem t hx))
        (by simp; omega) (by simp; omega) hplace
      refine ⟨start', ?_, fun k hk => ?_, fun k hk => ?_⟩
      · simp only [reduceCtorEq, if_false, hstore, Option.bind_eq_bind, Option.bind_some, hcut]
        rw [hloop]
        simp [ended, add_assoc, add_comm 1]
      · rw [hkept k (by omega), List.getElem?_set_ne (by omega)]
      · cases k with
        | zero =>
          rw [add_zero, hkept i (by omega), List.getElem?_set_ne (by omega), hi]
          simp [ended]
        | succ k =>
          have hrest := hplaces k (by simpa using hk)
          have hindex : i + (k + 1) = i + 1 + k := by omega
          rw [hindex, hrest]
          simp [ended]
          omega

variable {b : Board} {assign : Nat → Int} {flag j n m : Nat}

theorem assigned_succ (hj : j < ts.length) : (assigned b assign flag (ts.take (j + 1))).eraseDups =
    match (if assign j < 0 then none else searchDevice b.devs flag ts[j]) with
    | none => (assigned b assign flag (ts.take j)).eraseDups
    | some dev =>
      if dev ∈ (assigned b assign flag (ts.take j)).eraseDups then (assigned b assign flag (ts.take j)).eraseDups
      else (assigned b assign flag (ts.take j)).eraseDups ++ [dev] := by
  have happ : assigned b assign flag (ts.take (j + 1)) = assigned b assign flag (ts.take j) ++
      (if assign j < 0 then none else searchDevice b.devs flag ts[j]).toList := by
    unfold assigned
    rw [List.take_succ_eq_append_getElem hj, List.zipIdx_append, List.filterMap_append, List.length_take_of_le (by omega)]
    congr 1
    cases hd : (if assign j < 0 then none else searchDevice b.devs flag ts[j]) <;> simp [hd]
  rw [happ, List.eraseDups_append]
  cases hd : (if assign j < 0 then none else searchDevice b.devs flag ts[j]) with
  | none => simp
  | some dev =>
    simp only [Option.toList_some, List.mem_eraseDups]
    by_cases hmem : dev ∈ assigned b assign flag (ts.take j) <;> simp [List.removeAll, List.eraseDups_cons, hmem]

/-- `cons_set` holds the devices of the first names. -/
structure Filled (b : Board) (assign : Nat → Int) (flag : Nat) (ts : List (List UInt8)) (j : Nat)
    (consSet : List (Option Nat)) (csIdx : Nat) : Prop where
  size : consSet.length = ts.length
  count : csIdx = (assigned b assign flag (ts.take j)).eraseDups.length
  taken : consSet.take csIdx = (assigned b assign flag (ts.take j)).eraseDups.map some
  room : csIdx ≤ j

theorem serialAssign_nonneg (serial : List CString) (name : List UInt8) : ¬serialAssign serial name < 0 := by
  unfold serialAssign
  split <;> simp

theorem deviceLoop_filled {consSet : List (Option Nat)} {start : List Nat} {d : List UInt8} (hd : d = ended ts)
    (hplain : ∀ t ∈ ts, Plain t)
    (hstart : ∀ k, k < ts.length → start[k]? = some (ended (ts.take k)).length) (hj : j + n = ts.length)
    (h : Filled b assign flag ts j consSet m) :
    ∃ set csIdx, deviceLoop b assign flag d start n j consSet m = some (set, csIdx) ∧
      Filled b assign flag ts ts.length set csIdx := by
  induction n generalizing j consSet m with
  | zero =>
    obtain rfl : j = ts.length := by omega
    exact ⟨consSet, m, rfl, h⟩
  | succ n ih =>
    have hlt : j < ts.length := by omega
    have hname : cstrAt d (ended (ts.take j)).length = some ts[j] := by
      rw [hd, ended_split hlt]
      exact cstrAt_append (hplain _ (List.getElem_mem hlt)).2
    have hsucc := @assigned_succ ts b assign flag j hlt
    -- a name that adds no device
    have hpass : (assigned b assign flag (ts.take (j + 1))).eraseDups = (assigned b assign flag (ts.take j)).eraseDups →
        ∃ set csIdx, deviceLoop b assign flag d start n (j + 1) consSet m = some (set, csIdx) ∧
          Filled b assign flag ts ts.length set csIdx := by
      intro hsame
      exact ih (by omega) ⟨h.size, hsame ▸ h.count, hsame ▸ h.taken, Nat.le_succ_of_le h.room⟩
    rw [deviceLoop, hstart j hlt, Option.bind_eq_bind, Option.bind_some, hname, Option.bind_eq_bind,
      Option.bind_some]
    cases hdev : searchDevice b.devs flag ts[j] with
    | none =>
      apply hpass
      rw [hsucc, hdev]
      simp
    | some dev =>
      have hmem : some dev ∈ consSet.take m ↔ dev ∈ (assigned b assign flag (ts.take j)).eraseDups := by
        rw [h.taken]
        simp
      rw [hdev] at hsucc
      dsimp only
      by_cases hrepeat : some dev ∈ consSet.take m
      · rw [if_pos hrepeat]
        apply hpass
        rw [hsucc]
        split
        · rfl
        next heq =>
          split at heq
          · cases heq
          · cases heq
            rw [if_pos (hmem.mp hrepeat)]
      · rw [if_neg hrepeat]
        by_cases hbad : assign j < 0
        · rw [if_pos hbad]
          apply hpass
          rw [hsucc, if_pos hbad]
        · have hserial : ¬(b.serial.any fun s => serialAssign s ts[j] < 0) = true := by
            cases b.serial with
            | none => simp
            | some s => simpa using serialAssign_nonneg s ts[j]
          have hroom := h.room
          have hsize := h.size
          have hstore : Cells.store consSet m (some dev) = some (consSet.set m (some dev)) := if_pos (by omega)
          rw [if_neg hbad] at hsucc ⊢
          rw [if_neg hserial, hstore, Option.bind_eq_bind, Option.bind_some]
          simp only [if_neg fun hm => hrepeat (hmem.mpr hm)] at hsucc
          apply ih (by omega)
          refine ⟨by rw [List.length_set, hsize], ?_, ?_, by omega⟩
          · rw [hsucc, List.length_append, ← h.count]
            rfl
          · rw [hsucc, List.map_append, ← h.taken, List.take_add_one, List.take_set_of_le (Nat.le_refl m),
              List.getElem?_set_self (by omega)]
            rfl

/-- The list is replaced by the devices wanted or left alone, and in the heap only the block of the list may have
changed. -/
structure Outcome (s : Mux) (console : Int) (devices : List Nat) (ret : Int) (s' : Mux) : Prop where
  replaced : ret = 0 → ∃ p, s'.list console = some p ∧ s'.devices p = devices.map some ∧
    s'.count console = devices.length
  kept : ret ≠ 0 → s'.list console = s.list console ∧ s'.count console = s.count console ∧
    ∀ p, s.list console = some p → s'.devices p = s.devices p
  blocks : ∀ p, p ∈ s'.heap.live ↔ s'.list console = some p ∨ p ∈ s.heap.live ∧ s.list console ≠ some p

/-- The list of the console is a live block or there is none. -/
structure Sound (s : Mux) (console : Int) : Prop where
  tidy : s.heap.Tidy
  live : ∀ p, s.list console = some p → p ∈ s.heap.live

variable {s : Mux} {f : Faults} {console : Int} {heap : Heap} {block : Nat} {set : List (Option Nat)} {devices : List Nat}

theorem Sound.left (hs : Sound s console) (hlive : ∀ p, p ∈ heap.live ↔ p ∈ s.heap.live) :
    Outcome s console devices 1 { s with heap := heap } := by
  refine ⟨fun h => ?_, fun _ => ⟨rfl, rfl, fun _ _ => rfl⟩, fun p => ?_⟩
  · simp at h
  · rw [hlive]
    constructor
    · intro hp
      by_cases heq : s.list console = some p
      · exact .inl heq
      · exact .inr ⟨hp, heq⟩
    · rintro (hp | hp)
      · exact hs.live p hp
      · exact hp.1

theorem setList_grown (hs : Sound s console) (ht : heap.Tidy) (hfresh : block ∉ s.heap.live)
    (hlive : ∀ p, p ∈ heap.live ↔ p = block ∨ p ∈ s.heap.live) (hset : set.take m = devices.map some)
    (hm : m = devices.length) (hne : devices ≠ []) (hok : f.realloc = true) :
    ∃ s', setList f s heap console block set m = some (0, s') ∧ Outcome s console devices 0 s' := by
  have hcount : m ≠ 0 := by
    rw [hm]
    simpa using hne
  obtain ⟨p, grown, hgrow, ht', hnew, hlive'⟩ := ht.realloc (p := s.list console)
    fun p hp => (hlive p).mpr (.inr (hs.live p hp))
  have hother : s.list console ≠ some block := fun heq => hfresh (hs.live block heq)
  have hblock : block ∈ grown.live := (hlive' block).mpr (.inr ⟨(hlive block).mpr (.inl rfl), hother⟩)
  have hapart : p ≠ block := fun heq => hnew ((hlive p).mpr (.inl heq))
  obtain ⟨freed, hfree, -, hleft⟩ := ht'.free hblock
  refine ⟨⟨freed, Function.update s.list console (some p), Function.update s.devices p (set.take m),
    Function.update s.count console m⟩, ?_, ?_⟩
  · rw [setList, if_neg hcount, hok, hgrow, Option.bind_eq_bind, Option.bind_some]
    dsimp only
    rw [hfree]
    rfl
  · refine ⟨fun _ => ⟨p, by simp, by simp [hset], by simp [hm]⟩, fun h => absurd rfl h, fun q => ?_⟩
    simp only [hleft, hlive', hlive, Function.update_self, Option.some.injEq]
    constructor
    · rintro ⟨hq, rfl | ⟨hq' | hq', hold⟩⟩
      · exact .inl rfl
      · exact absurd hq' hq
      · exact .inr ⟨hq', hold⟩
    · rintro (rfl | ⟨hq, hold⟩)
      · exact ⟨hapart, .inl rfl⟩
      · refine ⟨?_, .inr ⟨.inr hq, hold⟩⟩
        rintro rfl
        exact hfresh hq

theorem setList_fails (hs : Sound s console) (ht : heap.Tidy) (hfresh : block ∉ s.heap.live)
    (hlive : ∀ p, p ∈ heap.live ↔ p = block ∨ p ∈ s.heap.live) (hm : m ≠ 0) (hfail : f.realloc = false) :
    ∃ freed, setList f s heap console block set m =
      some (1, { s with heap := freed, list := Function.update s.list console none }) ∧
      ∀ p, p ∈ freed.live ↔ p ∈ s.heap.live := by
  obtain ⟨freed, hfree, -, hleft⟩ := ht.release hfresh hlive
  refine ⟨freed, ?_, hleft⟩
  rw [setList, if_neg hm, hfail, Heap.realloc_fails fun p hp => (hlive p).mpr (.inr (hs.live p hp)),
    Option.bind_eq_bind, Option.bind_some]
  dsimp only
  rw [hfree]
  rfl

theorem setList_iff (hs : Sound s console) (ht : heap.Tidy) (hfresh : block ∉ s.heap.live)
    (hlive : ∀ p, p ∈ heap.live ↔ p = block ∨ p ∈ s.heap.live) (hset : set.take m = devices.map some)
    (hm : m = devices.length) :
    (∃ ret s', setList f s heap console block set m = some (ret, s') ∧ Outcome s console devices ret s') ↔
      ¬(f.realloc = false ∧ devices ≠ [] ∧ s.list console ≠ none) := by
  by_cases hnone : devices = []
  · subst devices
    obtain ⟨freed, hfree, -, hsame⟩ := ht.release hfresh hlive
    have hzero : m = 0 := hm
    have hend : setList f s heap console block set m = some (1, { s with heap := freed }) := by
      rw [setList, if_pos hzero, hfree]
      rfl
    simp only [ne_eq, not_true_eq_false, false_and, and_false, not_false_eq_true, iff_true]
    exact ⟨1, _, hend, hs.left hsame⟩
  · cases hre : f.realloc with
    | true =>
      obtain ⟨s', hend, hout⟩ := setList_grown hs ht hfresh hlive hset hm hnone hre
      simp only [Bool.true_eq_false, false_and, not_false_eq_true, iff_true]
      exact ⟨0, s', hend, hout⟩
    | false =>
      have hpos : m ≠ 0 := by
        rw [hm]
        simpa using hnone
      obtain ⟨freed, hend, hsame⟩ := @setList_fails m s f console heap block set hs ht hfresh hlive hpos hre
      constructor
      · rintro ⟨ret, s', hrun, hout⟩ ⟨-, -, hold⟩
        rw [hend, Option.some.injEq, Prod.mk.injEq] at hrun
        obtain ⟨rfl, rfl⟩ := hrun
        have hkept := (hout.kept (by simp)).1
        simp only [Function.update_self] at hkept
        exact hold hkept.symm
      · intro hcond
        have hempty : s.list console = none := by
          by_contra hold
          exact hcond ⟨rfl, hnone, hold⟩
        have hlist : Function.update s.list console none = s.list := by
          rw [← hempty]
          exact Function.update_eq_self console s.list
        rw [hlist] at hend
        exact ⟨1, _, hend, hs.left hsame⟩

theorem items_length (s : List UInt8) : (items s).length ≤ s.length + 1 := by
  induction s with
  | nil => simp [items]
  | cons c s ih =>
    rw [items]
    split
    · simpa using ih
    · cases hi : items s with
      | nil => simp
      | cons u us =>
        rw [hi] at ih
        simpa using Nat.le_succ_of_le ih

theorem loops_eq (b : Board) (assign : Nat → Int) (console : Int) (arg : CString) :
    countLoop (arg.bytes ++ [0]) (arg.bytes ++ [0]).length 0 0 = some (items arg.bytes).length ∧
    ∃ start d start', Cells.store (List.replicate (items arg.bytes).length 0) 0 0 = some start ∧
      splitLoop (arg.bytes ++ [0]).length (arg.bytes ++ [0]) start 0 = some (d, start', (items arg.bytes).length) ∧
      ∀ flag, ioFlag console = some flag → ∃ set,
        deviceLoop b assign flag d start' (items arg.bytes).length 0 (List.replicate (items arg.bytes).length none) 0 =
          some (set, (wanted b assign console arg).length) ∧
        set.take (wanted b assign console arg).length = (wanted b assign console arg).map some := by
  have hne := items_ne_nil arg.bytes
  have hplain := items_plain arg.nulFree
  have hfuel : (items arg.bytes).length ≤ (arg.bytes ++ [0]).length := by
    simpa using items_length arg.bytes
  have hcount := @countLoop_line (items arg.bytes) _ 0 [] hne hplain hfuel
  rw [line_items, zero_add] at hcount
  have hpos : 0 < (items arg.bytes).length := List.length_pos_iff.mpr hne
  refine ⟨hcount, ?_⟩
  have hstore : Cells.store (List.replicate (items arg.bytes).length 0) 0 0 =
      some (List.replicate (items arg.bytes).length 0) := by
    rw [Cells.store, if_pos (by simpa using hpos), List.set_replicate_self]
  have hzero : (List.replicate (items arg.bytes).length 0)[0]? = some ([] : List UInt8).length := by
    simp [hpos]
  obtain ⟨start', hsplit, -, hplaces⟩ := @splitLoop_line (items arg.bytes) _ 0 [] _ hne hplain hfuel (by simp) hzero
  rw [line_items, zero_add] at hsplit
  refine ⟨_, _, _, hstore, hsplit, fun flag hflag => ?_⟩
  have hempty : Filled b assign flag (items arg.bytes) 0 (List.replicate (items arg.bytes).length none) 0 :=
    ⟨List.length_replicate, by simp [assigned], by simp [assigned], Nat.le_refl 0⟩
  obtain ⟨set, n, hloop, hfilled⟩ := deviceLoop_filled rfl hplain
    (fun k hk => by simpa using hplaces k hk) (zero_add _) hempty
  have hwanted : wanted b assign console arg =
      (assigned b assign flag ((items arg.bytes).take (items arg.bytes).length)).eraseDups := by
    rw [wanted, hflag, List.take_length]
  rw [hwanted, ← hfilled.count]
  exact ⟨set, hloop, hfilled.taken⟩

/-- The list is replaced or left alone, and no block is lost, unless a list that is there cannot be grown for the
devices: then it is lost. -/
theorem iomux_doenv_iff (b : Board) (f : Faults) (s : Mux) (console : Int) (arg : CString) (hs : Sound s console) :
    (∃ ret s', iomuxDoenv b f s console arg = some (ret, s') ∧
      Outcome s console (wanted b f.assign console arg) ret s') ↔
      ¬(f.strdup = true ∧ f.malloc = true ∧ f.calloc = true ∧ f.realloc = false ∧
        wanted b f.assign console arg ≠ [] ∧ s.list console ≠ none) := by
  obtain ⟨hcount, start, d, start', hstore, hsplit, hdevices⟩ := loops_eq b f.assign console arg
  unfold iomuxDoenv
  cases hstrdup : f.strdup with
  | false =>
    simp only [Heap.malloc_fails, Bool.false_eq_true, false_and, not_false_eq_true, iff_true]
    exact ⟨1, _, rfl, hs.left fun p => Iff.rfl⟩
  | true =>
    obtain ⟨args, heap, hargs, ht, hfresh, hlive⟩ := hs.tidy.malloc
    simp only [hargs, hcount, Option.bind_eq_bind, Option.bind_some]
    cases hmalloc : f.malloc with
    | false =>
      obtain ⟨freed, hfree, -, hsame⟩ := ht.release hfresh hlive
      simp only [Heap.malloc_fails, hfree, Option.bind_some, Bool.false_eq_true, false_and, and_false,
        not_false_eq_true, iff_true]
      exact ⟨1, _, rfl, hs.left hsame⟩
    | true =>
      obtain ⟨startBlock, heap', hstart, ht', hfresh', hlive'⟩ := ht.malloc
      have hfresh'' : ¬(startBlock = args ∨ startBlock ∈ s.heap.live) := fun h => hfresh' ((hlive _).mpr h)
      simp only [hlive] at hlive'
      simp only [hstart, hstore, hsplit, Option.bind_some]
      cases hcalloc : f.calloc with
      | false =>
        obtain ⟨freed, hfree, hfreed, hleft⟩ := ht'.release hfresh'' hlive'
        obtain ⟨freed', hfree', -, hsame⟩ := hfreed.release hfresh hleft
        simp only [Heap.malloc_fails, hfree, hfree', Option.bind_some, Bool.false_eq_true, false_and, and_false,
          not_false_eq_true, iff_true]
        exact ⟨1, _, rfl, hs.left hsame⟩
      | true =>
        obtain ⟨consSet, heap'', hset, ht'', hfresh₃, hlive''⟩ := ht'.malloc
        simp only [hlive', not_or] at hlive'' hfresh₃ hfresh''
        simp only [hset]
        cases hflag : ioFlag console with
        | none =>
          obtain ⟨freed, hfree, hfreed, hleft⟩ := ht''.release (b := startBlock)
            (P := fun p => p = args ∨ p = consSet ∨ p ∈ s.heap.live) (by tauto) (fun p => by rw [hlive'']; tauto)
          obtain ⟨freed', hfree', hfreed', hleft'⟩ := hfreed.release
            (P := fun p => p = consSet ∨ p ∈ s.heap.live) (by tauto) hleft
          obtain ⟨freed'', hfree'', -, hsame⟩ := hfreed'.release hfresh₃.2.2 hleft'
          have hnone : wanted b f.assign console arg = [] := by rw [wanted, hflag]
          simp only [hfree, hfree', hfree'', hnone, Option.bind_some, ne_eq, not_true_eq_false, false_and, and_false,
            not_false_eq_true, iff_true]
          exact ⟨1, _, rfl, hs.left hsame⟩
        | some flag =>
          obtain ⟨set, hloop, htake⟩ := hdevices flag hflag
          obtain ⟨freed, hfree, hfreed, hleft⟩ := ht''.release (b := args)
            (P := fun p => p = startBlock ∨ p = consSet ∨ p ∈ s.heap.live) (by tauto) (fun p => by rw [hlive'']; tauto)
          obtain ⟨freed', hfree', hfreed', hleft'⟩ := hfreed.release
            (P := fun p => p = consSet ∨ p ∈ s.heap.live) (by tauto) hleft
          simp only [hloop, hfree, hfree', Option.bind_some, true_and]
          exact setList_iff hs hfreed' hfresh₃.2.2 hleft' htake rfl

/-- A board with one device, called `s`, for output, and `stdout` on a list of its own. -/
def oneDevice : Board := ⟨[⟨⟨[115], by decide⟩, devFlagsOutput⟩], none⟩

def oneList : Mux := ⟨⟨1, [0]⟩, fun console => if console = 1 then some 0 else none, fun _ => [some 0], fun _ => 1⟩

theorem oneList_sound : Sound oneList 1 :=
  ⟨⟨by decide, by decide⟩, fun p hp => by simp [oneList] at hp ⊢; exact hp.symm⟩

/-- The list is grown for the same device. -/
theorem iomux_doenv_iff_grown :
    (∃ ret s', iomuxDoenv oneDevice ⟨true, true, true, true, fun _ => 0⟩ oneList 1 ⟨[115], by decide⟩ = some (ret, s') ∧
      Outcome oneList 1 (wanted oneDevice (fun _ => 0) 1 ⟨[115], by decide⟩) ret s') ↔
      ¬(true = true ∧ true = true ∧ true = true ∧ true = false ∧
        wanted oneDevice (fun _ => 0) 1 ⟨[115], by decide⟩ ≠ [] ∧ oneList.list 1 ≠ none) :=
  iomux_doenv_iff oneDevice ⟨true, true, true, true, fun _ => 0⟩ oneList 1 ⟨[115], by decide⟩ oneList_sound

/-- Where `realloc` fails the old list is neither kept nor freed. -/
theorem old_list_lost : ¬∀ (b : Board) (f : Faults) (s : Mux) (console : Int) (arg : CString), Sound s console →
    ∃ ret s', iomuxDoenv b f s console arg = some (ret, s') ∧
      Outcome s console (wanted b f.assign console arg) ret s' := by
  intro h
  obtain ⟨ret, s', hrun, hout⟩ := h oneDevice ⟨true, true, true, false, fun _ => 0⟩ oneList 1 ⟨[115], by decide⟩
    oneList_sound
  have hend : (iomuxDoenv oneDevice ⟨true, true, true, false, fun _ => 0⟩ oneList 1 ⟨[115], by decide⟩).map
      (fun x => (x.1, x.2.list 1)) = some (1, none) := by decide
  rw [hrun] at hend
  simp only [Option.map_some, Option.some.injEq, Prod.mk.injEq] at hend
  have hkept := (hout.kept (by simp [hend.1])).1
  rw [hend.2] at hkept
  simp [oneList] at hkept

end UBoot.Iomux
