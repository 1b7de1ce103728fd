import Mathlib.Algebra.Group.Nat.Defs
import Mathlib.Data.List.Basic

namespace UBoot.UsbStorScan

structure Endpoint where
  bmAttributes : Nat
  bEndpointAddress : Nat
  bInterval : Nat

/-- The first interface of a device. -/
structure Interface where
  bInterfaceClass : Nat
  bInterfaceSubClass : Nat
  bInterfaceProtocol : Nat
  endpoints : List Endpoint

/-- What the transport gives for an INQUIRY: its result, and what was written to `usb_stor_buf`. -/
structure Reply where
  result : Int
  data : List Nat
  short : data.length ≤ 36

/-- A device on the bus, with what it will answer to each attempt of each command. -/
structure Device where
  devnum : Nat
  bDeviceClass : Nat
  iface : Interface
  setInterface : Int
  inquiry : Nat → Reply
  unitReady : Nat → Int
  readCapacity : Nat → Int × Nat × Nat

structure UsData where
  pusbDev : Option Nat
  subclass : Nat
  protocol : Nat
  epIn : Nat
  epOut : Nat
  epInt : Nat
  irqinterval : Nat

def UsData.zero : UsData := ⟨none, 0, 0, 0, 0, 0, 0⟩

/-- `block_dev_desc_t` -/
structure Desc where
  target : Nat
  removable : Nat
  vendor : List Nat
  product : List Nat
  revision : List Nat
  type : Nat
  lba : Nat
  blksz : Nat

def Desc.fresh : Desc := ⟨0xff, 0, [], [], [], 0, 0, 0⟩

/-- What `usb_stor_get_info` gave for a device: its result, how often the commands were sent, and the first
byte of `usb_stor_buf` that it read. -/
structure Outcome where
  result : Int
  inquiries : Nat
  readies : Nat
  perq : Nat

/-- An endpoint that `usb_storage_probe` looks at. -/
def UsData.endpoint (ss : UsData) (ep : Endpoint) : UsData :=
  let ss := if ep.bmAttributes &&& 0x03 = 2 then
      if ep.bEndpointAddress &&& 0x80 ≠ 0 then { ss with epIn := ep.bEndpointAddress &&& 0x0f }
      else { ss with epOut := ep.bEndpointAddress &&& 0x0f }
    else ss
  if ep.bmAttributes &&& 0x03 = 3 then
    { ss with epInt := ep.bEndpointAddress &&& 0x0f, irqinterval := ep.bInterval }
  else ss

/-- `usb_storage_probe`, for the device of index `i`: whether it is a storage device, and the record. -/
def usbStorageProbe (i : Nat) (d : Device) (ss : UsData) : Bool × UsData :=
  if d.bDeviceClass ≠ 0 ∨ d.iface.bInterfaceClass ≠ 8 ∨ d.iface.bInterfaceSubClass < 1 ∨ d.iface.bInterfaceSubClass > 6
  then (false, ss)
  else
    let ss := { UsData.zero with
      pusbDev := some i, subclass := d.iface.bInterfaceSubClass, protocol := d.iface.bInterfaceProtocol }
    if ss.protocol ≠ 1 ∧ ss.protocol ≠ 0 ∧ ss.protocol ≠ 0x50 then (false, ss)
    else
      let ss := d.iface.endpoints.foldl UsData.endpoint ss
      if d.setInterface ≠ 0 ∨ ss.epIn = 0 ∨ ss.epOut = 0 ∨ (ss.protocol = 0 ∧ ss.epInt = 0) then (false, ss)
      else if ss.subclass ≠ 4 ∧ ss.subclass ≠ 6 ∧ ss.subclass ≠ 5 then (false, ss)
      else if ss.epInt ≠ 0 then
        (true, { ss with irqinterval := if ss.irqinterval > 0 then ss.irqinterval else 255 })
      else (true, ss)

def store (data buf : List Nat) : List Nat := data ++ buf.drop data.length

/-- The loop of `usb_inquiry`: `retry` behind it, the attempts made and `usb_stor_buf`. -/
def inquiryLoop (d : Device) : Nat → Nat → List Nat → Int × Nat × List Nat
  | 0, n, buf =>
    let buf := store (d.inquiry n).data buf
    if (d.inquiry n).result = 0 then (0, n + 1, buf) else (-1, n + 1, buf)
  | retry + 1, n, buf =>
    let buf := store (d.inquiry n).data buf
    if (d.inquiry n).result = 0 then (((retry + 1 : Nat) : Int), n + 1, buf)
    else inquiryLoop d retry (n + 1) buf

def usbInquiry (d : Device) (buf : List Nat) : Int × Nat × List Nat :=
  let out := inquiryLoop d 5 0 buf
  if out.1 = 0 then (-1, out.2) else (0, out.2)

/-- A loop `do .. while (retries--)` over the attempts of a command: its result, and the attempts made. -/
def attempts (send : Nat → Int) : Nat → Nat → Int × Nat
  | 0, n => if send n = 0 then (0, n + 1) else (-1, n + 1)
  | retries + 1, n => if send n = 0 then (0, n + 1) else attempts send retries (n + 1)

def usbTestUnitReady (d : Device) : Int × Nat := attempts d.unitReady 10 0

def usbReadCapacity (d : Device) : Int × Nat := attempts (fun n => (d.readCapacity n).1) 3 0

def byteAt (buf : List Nat) (i : Nat) : Nat := buf[i]?.getD 0

/-- The bit of the INQUIRY data with which a device declares itself removable. -/
def Removable (buf : List Nat) : Prop := byteAt buf 1 &&& 0x80 = 0x80

def Unknown (buf : List Nat) : Prop := byteAt buf 0 &&& 0x1f = 0x1f

instance (buf : List Nat) : Decidable (Removable buf) := inferInstanceAs (Decidable (_ = _))

instance (buf : List Nat) : Decidable (Unknown buf) := inferInstanceAs (Decidable (_ = _))

variable (cpuToBe32 : Nat → Nat)

def usbStorGetInfo (d : Device) (desc : Desc) (buf : List Nat) : Outcome × Desc × List Nat :=
  let desc := { desc with target := d.devnum }
  let inq := usbInquiry d buf
  let buf := inq.2.2
  let perq := byteAt buf 0
  if inq.1 ≠ 0 then (⟨-1, inq.2.1, 0, perq⟩, desc, buf)
  else if Unknown buf then (⟨0, inq.2.1, 0, perq⟩, desc, buf)
  else
    let desc := { desc with
      removable := if Removable buf then 1 else desc.removable
      vendor := (buf.drop 8).take 8, product := (buf.drop 16).take 16, revision := (buf.drop 32).take 4 }
    let tur := usbTestUnitReady d
    if tur.1 ≠ 0 then
      if desc.removable = 1 then (⟨1, inq.2.1, tur.2, perq⟩, { desc with type := perq }, buf)
      else (⟨0, inq.2.1, tur.2, perq⟩, desc, buf)
    else
      let cap := usbReadCapacity d
      let words := if cap.1 ≠ 0 then (2880, 0x200) else (d.readCapacity (cap.2 - 1)).2
      (⟨1, inq.2.1, tur.2, perq⟩, { desc with
        lba := (cpuToBe32 words.1 + 1) % 2 ^ 32, blksz := cpuToBe32 words.2, type := perq }, buf)

/-- The state of a scan; `outcome` records what `usb_stor_get_info` gave for each device. -/
structure Scan where
  buf : List Nat
  maxDevs : Nat
  stor : Nat → UsData
  desc : Nat → Desc
  privptr : Nat → Option Nat
  outcome : Nat → Option Outcome

def Scan.start (stor : Nat → UsData) : Scan :=
  ⟨List.replicate 512 0, 0, stor, fun _ => Desc.fresh, fun _ => none, fun _ => none⟩

def setAt {α : Type} (f : Nat → α) (k : Nat) (a : α) : Nat → α := fun j => if j = k then a else f j

/-- A round of the loop over the devices. -/
def scanDevice (s : Scan) (i : Nat) (d : Device) : Scan :=
  let probe := usbStorageProbe i d (s.stor s.maxDevs)
  let stor := setAt s.stor s.maxDevs probe.2
  if probe.1 then
    let info := usbStorGetInfo cpuToBe32 d (s.desc s.maxDevs) s.buf
    { buf := info.2.2
      maxDevs := if info.1.result ≠ 0 then s.maxDevs + 1 else s.maxDevs
      stor := stor
      desc := setAt s.desc s.maxDevs info.2.1
      privptr := setAt s.privptr i (some s.maxDevs)
      outcome := setAt s.outcome i (some info.1) }
  else { s with stor := stor }

/-- The loop over the devices from index `i` on. -/
def scanFrom : Nat → List Device → Scan → Scan
  | _, [], s => s
  | i, d :: ds, s =>
    let s := scanDevice cpuToBe32 s i d
    if s.maxDevs = 5 then s else scanFrom (i + 1) ds s

/-- `usb_stor_scan`, over the devices with a number; there is room for 32. -/
def usbStorScan (stor : Nat → UsData) (devices : List Device) : Scan :=
  scanFrom cpuToBe32 0 (devices.take 32) (Scan.start stor)

variable {cpuToBe32 : Nat → Nat} {stor : Nat → UsData} {devices : List Device} {d : Device} {s t u : Scan} {i : Nat}

/-- What holds of an index that a scan has given to a device: the record and the descriptor are those of the
device, its INQUIRY succeeded, it is ready or removable, and no other device has the record. -/
structure Describes (s : Scan) (k i : Nat) (d : Device) : Prop where
  record : (s.stor k).pusbDev = some i
  privptr : s.privptr i = some k
  target : (s.desc k).target = d.devnum
  answered : ∃ o, s.outcome i = some o ∧ (∃ n < o.inquiries, (d.inquiry n).result = 0) ∧
    ((∃ n < o.readies, d.unitReady n = 0) ∨ ∃ n < o.inquiries, Removable (d.inquiry n).data)
  alone : ∀ j, j ≠ i → s.privptr j ≠ some k

/-- A device whose INQUIRY succeeded is counted, unless it is of an unknown type or never ready. -/
def Kept (devices : List Device) (s : Scan) : Prop :=
  ∀ i d o, devices[i]? = some d → s.outcome i = some o → (∃ n < o.inquiries, (d.inquiry n).result = 0) →
    (∃ k < s.maxDevs, (s.stor k).pusbDev = some i) ∨ o.perq &&& 0x1f = 0x1f ∨
      (0 < o.readies ∧ ∀ n < o.readies, d.unitReady n ≠ 0)

/-- The list of storage devices says what the devices answered. -/
structure Correct (devices : List Device) (s : Scan) : Prop where
  room : s.maxDevs ≤ 5
  described : ∀ k < s.maxDevs, ∃ i d, devices[i]? = some d ∧ Describes s k i d
  kept : Kept devices s

/-- The states in front of each device. -/
inductive Reached (cpuToBe32 : Nat → Nat) (stor : Nat → UsData) (devices : List Device) : Nat → Scan → Prop
  | start : Reached cpuToBe32 stor devices 0 (Scan.start stor)
  | next {i : Nat} {s : Scan} {d : Device} (h : Reached cpuToBe32 stor devices i s)
    (hd : (devices.take 32)[i]? = some d) (hroom : (scanDevice cpuToBe32 s i d).maxDevs ≠ 5) :
    Reached cpuToBe32 stor devices (i + 1) (scanDevice cpuToBe32 s i d)

def First (d : Device) (m : Nat) : Prop := (∀ l < m, (d.inquiry l).result ≠ 0) ∧ (d.inquiry m).result = 0

/-- `usb_stor_buf` after so many INQUIRYs. -/
def after (d : Device) (buf : List Nat) : Nat → List Nat
  | 0 => buf
  | n + 1 => store (d.inquiry n).data (after d buf n)

def Ready (d : Device) : Prop := ∃ n < 11, d.unitReady n = 0

/-- What `usb_stor_buf` and the device must say for it to be counted. -/
def Passes (d : Device) (buf : List Nat) : Prop := ¬Unknown buf ∧ (Ready d ∨ Removable buf)

def Rejects (d : Device) (buf : List Nat) : Prop :=
  (∃ m < 5, First d m ∧ ¬Passes d (after d buf (m + 1))) ∨ (∀ n < 6, (d.inquiry n).result ≠ 0) ∧ ¬Passes d (after d buf 6)

/-- One of the first INQUIRY answers has the bit for a removable device. -/
def Declared (d : Device) (n : Nat) : Prop := ∃ m < n, Removable (d.inquiry m).data

/-- Where all INQUIRYs fail, what is in `usb_stor_buf` and the device do not pass; where only the last one
succeeds, and where a device passes that is not ready, it declared itself removable. -/
def Answers (d : Device) (buf : List Nat) : Prop :=
  ((∀ n < 6, (d.inquiry n).result ≠ 0) → ¬Passes d (after d buf 6)) ∧ (First d 5 → Declared d 6) ∧
    ∀ m < 5, First d m → Passes d (after d buf (m + 1)) → Ready d ∨ Declared d (m + 1)

/-- A round that does as it should: the device answers, and if it is counted none before it points to its record. -/
structure Fine (s : Scan) (d : Device) : Prop where
  answers : Answers d s.buf
  alone : ¬Rejects d s.buf → ∀ j, s.privptr j ≠ some s.maxDevs

section Commands

variable {buf : List Nat} {desc : Desc} {send : Nat → Int} {n m retry : Nat}

theorem attempts_spec (send : Nat → Int) (retry n : Nat) :
    ((attempts send retry n).1 = 0 ∧ n < (attempts send retry n).2 ∧ (attempts send retry n).2 ≤ n + retry + 1 ∧
      send ((attempts send retry n).2 - 1) = 0) ∨
    (attempts send retry n = (-1, n + retry + 1) ∧ ∀ l, n ≤ l → l ≤ n + retry → send l ≠ 0) := by
  induction retry generalizing n with
  | zero =>
    unfold attempts
    split
    next h => exact .inl ⟨rfl, by simp, by simp, by simpa using h⟩
    next h =>
      refine .inr ⟨rfl, fun l hl hle => ?_⟩
      rw [show l = n by omega]
      exact h
  | succ retry ih =>
    unfold attempts
    split
    next h => exact .inl ⟨rfl, by simp, by dsimp only; omega, by simpa using h⟩
    next h =>
      rcases ih (n + 1) with ⟨hzero, hlt, hle, hsend⟩ | ⟨hfail, hall⟩
      · exact .inl ⟨hzero, by omega, by omega, hsend⟩
      · refine .inr ⟨by rw [hfail, show n + 1 + retry + 1 = n + (retry + 1) + 1 by omega], fun l hl hle => ?_⟩
        rcases Nat.lt_or_ge n l with hlt | hge
        · exact hall l hlt (by omega)
        · rw [show l = n by omega]
          exact h

theorem ready_spec (d : Device) :
    (Ready d ∧ (usbTestUnitReady d).1 = 0 ∧ ∃ n < (usbTestUnitReady d).2, d.unitReady n = 0) ∨
    (¬Ready d ∧ usbTestUnitReady d = (-1, 11)) := by
  unfold usbTestUnitReady
  rcases attempts_spec d.unitReady 10 0 with ⟨hzero, hlt, hle, hsend⟩ | ⟨hfail, hall⟩
  · exact .inl ⟨⟨_, by omega, hsend⟩, hzero, _, by omega, hsend⟩
  · refine .inr ⟨?_, hfail⟩
    rintro ⟨n, hn, hzero⟩
    exact hall n (Nat.zero_le n) (by omega) hzero

theorem inquiryLoop_spec (d : Device) (buf : List Nat) (retry n : Nat) :
    (∃ k ≤ retry, (∀ l, n ≤ l → l < n + k → (d.inquiry l).result ≠ 0) ∧ (d.inquiry (n + k)).result = 0 ∧
      inquiryLoop d retry n (after d buf n) = (((retry - k : Nat) : Int), n + k + 1, after d buf (n + k + 1))) ∨
    ((∀ l, n ≤ l → l ≤ n + retry → (d.inquiry l).result ≠ 0) ∧
      inquiryLoop d retry n (after d buf n) = (-1, n + retry + 1, after d buf (n + retry + 1))) := by
  induction retry generalizing n with
  | zero =>
    unfold inquiryLoop
    split
    next h => exact .inl ⟨0, Nat.le_refl 0, fun l hl hlt => absurd hlt (by omega), h, rfl⟩
    next h =>
      refine .inr ⟨fun l hl hle => ?_, rfl⟩
      rw [show l = n by omega]
      exact h
  | succ retry ih =>
    unfold inquiryLoop
    split
    next h => exact .inl ⟨0, Nat.zero_le _, fun l hl hlt => absurd hlt (by omega), h, rfl⟩
    next h =>
      have hfirst : ∀ {l}, n ≤ l → (n + 1 ≤ l → (d.inquiry l).result ≠ 0) → (d.inquiry l).result ≠ 0 := by
        intro l hl hlater
        rcases Nat.lt_or_ge n l with hlt | hge
        · exact hlater hlt
        · rw [show l = n by omega]
          exact h
      rcases ih (n + 1) with ⟨k, hk, hbefore, hzero, hout⟩ | ⟨hall, hout⟩
      · refine .inl ⟨k + 1, by omega, fun l hl hlt => hfirst hl fun hl => hbefore l hl (by omega), ?_, ?_⟩
        · rw [show n + (k + 1) = n + 1 + k by omega]
          exact hzero
        · rw [show n + (k + 1) = n + 1 + k by omega, show retry + 1 - (k + 1) = retry - k by omega]
          exact hout
      · refine .inr ⟨fun l hl hle => hfirst hl fun hl => hall l hl (by omega), ?_⟩
        rw [show n + (retry + 1) = n + 1 + retry by omega]
        exact hout

theorem usbInquiry_spec (d : Device) (buf : List Nat) :
    (∃ m < 5, First d m ∧ usbInquiry d buf = (0, m + 1, after d buf (m + 1))) ∨
    (First d 5 ∧ usbInquiry d buf = (-1, 6, after d buf 6)) ∨
    ((∀ n < 6, (d.inquiry n).result ≠ 0) ∧ usbInquiry d buf = (0, 6, after d buf 6)) := by
  unfold usbInquiry
  rcases inquiryLoop_spec d buf 5 0 with ⟨k, hk, hbefore, hzero, hout⟩ | ⟨hall, hout⟩
  · rw [zero_add] at hzero
    have hfirst : First d k := ⟨fun l hl => hbefore l (Nat.zero_le l) (by omega), hzero⟩
    change inquiryLoop d 5 0 buf = _ at hout
    rw [hout]
    rcases Nat.lt_or_ge k 5 with hlt | hge
    · refine .inl ⟨k, hlt, hfirst, ?_⟩
      rw [if_neg (by dsimp only; omega), zero_add]
    · obtain rfl : k = 5 := by omega
      exact .inr (.inl ⟨hfirst, rfl⟩)
  · change inquiryLoop d 5 0 buf = _ at hout
    rw [hout]
    exact .inr (.inr ⟨fun n hn => hall n (Nat.zero_le n) (by omega), rfl⟩)

theorem usbStorGetInfo_target (d : Device) (desc : Desc) (buf : List Nat) :
    (usbStorGetInfo cpuToBe32 d desc buf).2.1.target = d.devnum := by
  unfold usbStorGetInfo
  dsimp only
  split
  · rfl
  · split
    · rfl
    · split
      · split
        · rfl
        · split <;> rfl
      · rfl

theorem usbStorGetInfo_error {b : List Nat} (h : usbInquiry d buf = (-1, n, b)) :
    ∃ o desc', usbStorGetInfo cpuToBe32 d desc buf = (o, desc', b) ∧ o.result = -1 ∧ o.inquiries = n ∧ o.readies = 0 := by
  unfold usbStorGetInfo
  rw [h]
  exact ⟨_, _, rfl, rfl, rfl, rfl⟩

theorem usbStorGetInfo_spec {b : List Nat} (h : usbInquiry d buf = (0, n, b)) (hfresh : desc.removable = 0) :
    ∃ o desc', usbStorGetInfo cpuToBe32 d desc buf = (o, desc', b) ∧ o.inquiries = n ∧
      ((Passes d b ∧ o.result = 1 ∧ (Ready d → ∃ l < o.readies, d.unitReady l = 0) ∧
        (¬Ready d → o.readies = 11 ∧ Removable b)) ∨
      (¬Passes d b ∧ o.result = 0 ∧ desc'.removable = 0 ∧
        (o.perq &&& 0x1f = 0x1f ∨ o.readies = 11 ∧ ¬Ready d))) := by
  unfold usbStorGetInfo
  rw [h]
  dsimp only
  rw [if_neg (by decide)]
  by_cases hunknown : Unknown b
  · rw [if_pos hunknown]
    exact ⟨_, _, rfl, rfl, .inr ⟨fun hp => hp.1 hunknown, rfl, hfresh, .inl hunknown⟩⟩
  rw [if_neg hunknown]
  rcases ready_spec d with ⟨hready, hzero, hsend⟩ | ⟨hnot, hfail⟩
  · rw [if_neg (by simp [hzero])]
    exact ⟨_, _, rfl, rfl, .inl ⟨⟨hunknown, .inl hready⟩, rfl, fun _ => hsend, fun hn => absurd hready hn⟩⟩
  · rw [hfail, if_pos (by decide), hfresh]
    by_cases hremovable : Removable b
    · simp only [if_pos hremovable, if_true]
      exact ⟨_, _, rfl, rfl, .inl ⟨⟨hunknown, .inr hremovable⟩, rfl, fun hr => absurd hr hnot,
        fun _ => ⟨rfl, hremovable⟩⟩⟩
    · simp only [if_neg hremovable, Nat.zero_ne_one, if_false]
      refine ⟨_, _, rfl, rfl, .inr ⟨fun hp => ?_, rfl, rfl, .inr ⟨rfl, hnot⟩⟩⟩
      rcases hp.2 with hr | hr
      · exact hnot hr
      · exact hremovable hr

theorem First.unique (h : First d m) (h' : First d n) : m = n := by
  rcases Nat.lt_trichotomy m n with hlt | heq | hgt
  · exact absurd h.2 (h'.1 m hlt)
  · exact heq
  · exact absurd h'.2 (h.1 n hgt)

theorem rejects_first (hm : m < 5) (h : First d m) : Rejects d buf ↔ ¬Passes d (after d buf (m + 1)) := by
  unfold Rejects
  constructor
  · rintro (⟨l, -, hl, hp⟩ | ⟨hall, -⟩)
    · rwa [h.unique hl]
    · exact absurd h.2 (hall m (by omega))
  · exact fun hp => .inl ⟨m, hm, h, hp⟩

theorem rejects_none (h : ∀ n < 6, (d.inquiry n).result ≠ 0) : Rejects d buf ↔ ¬Passes d (after d buf 6) := by
  unfold Rejects
  constructor
  · rintro (⟨l, hl, hfirst, -⟩ | ⟨-, hp⟩)
    · exact absurd hfirst.2 (h l (by omega))
    · exact hp
  · exact fun hp => .inr ⟨h, hp⟩

theorem rejects_last (h : First d 5) : ¬Rejects d buf := by
  rintro (⟨l, hl, hfirst, -⟩ | ⟨hall, -⟩)
  · have heq := h.unique hfirst
    omega
  · exact absurd h.2 (hall 5 (by decide))

theorem usbStorGetInfo_counts (hfresh : desc.removable = 0) :
    ∃ o desc' buf', usbStorGetInfo cpuToBe32 d desc buf = (o, desc', buf') ∧ desc'.target = d.devnum ∧
      (o.result = 0 ↔ Rejects d buf) ∧
      (Rejects d buf → Answers d buf ∧ desc'.removable = 0 ∧ ((∃ n < o.inquiries, (d.inquiry n).result = 0) →
        o.perq &&& 0x1f = 0x1f ∨ (0 < o.readies ∧ ∀ n < o.readies, d.unitReady n ≠ 0))) ∧
      (¬Rejects d buf → (((∃ n < o.inquiries, (d.inquiry n).result = 0) ∧
        ((∃ n < o.readies, d.unitReady n = 0) ∨ Declared d o.inquiries)) ↔ Answers d buf)) := by
  have htarget := @usbStorGetInfo_target cpuToBe32 d desc buf
  have hother : ∀ {o : Outcome}, (o.perq &&& 0x1f = 0x1f ∨ o.readies = 11 ∧ ¬Ready d) →
      o.perq &&& 0x1f = 0x1f ∨ (0 < o.readies ∧ ∀ n < o.readies, d.unitReady n ≠ 0) := by
    rintro o (hperq | ⟨hreadies, hnot⟩)
    · exact .inl hperq
    · refine .inr ⟨by omega, fun n hn hzero => hnot ⟨n, by omega, hzero⟩⟩
  have hready : ∀ {o : Outcome}, (Ready d → ∃ l < o.readies, d.unitReady l = 0) → (¬Ready d → o.readies = 11) →
      ((∃ l < o.readies, d.unitReady l = 0) ↔ Ready d) := by
    intro o hyes hno
    refine ⟨?_, hyes⟩
    rintro ⟨l, hl, hzero⟩
    by_contra hnot
    rw [hno hnot] at hl
    exact hnot ⟨l, hl, hzero⟩
  rcases usbInquiry_spec d buf with ⟨m, hm, hfirst, hinq⟩ | ⟨hfirst, hinq⟩ | ⟨hall, hinq⟩
  · obtain ⟨o, desc', hout, hn, hcase⟩ := @usbStorGetInfo_spec cpuToBe32 d buf desc _ _ hinq hfresh
    rw [hout] at htarget
    have hrejects := @rejects_first d buf m hm hfirst
    have hanswers : Answers d buf ↔ (Passes d (after d buf (m + 1)) → Ready d ∨ Declared d (m + 1)) := by
      refine ⟨fun h => h.2.2 m hm hfirst, fun h => ⟨fun hall => absurd hfirst.2 (hall m (by omega)), fun hlast => ?_, ?_⟩⟩
      · have heq := hfirst.unique hlast
        omega
      · intro l _ hl
        rw [← hfirst.unique hl]
        exact h
    refine ⟨o, desc', _, hout, htarget, ?_⟩
    rcases hcase with ⟨hpass, hone, hyes, hno⟩ | ⟨hnot, hzero, hremovable, hwhy⟩
    · have hkeeps : ¬Rejects d buf := fun h => hrejects.mp h hpass
      refine ⟨⟨fun h => by omega, fun h => absurd h hkeeps⟩, fun h => absurd h hkeeps, fun _ => ?_⟩
      rw [hready hyes fun h => (hno h).1, hanswers, hn]
      exact ⟨fun h _ => h.2, fun h => ⟨⟨m, by omega, hfirst.2⟩, h hpass⟩⟩
    · have hdrops : Rejects d buf := hrejects.mpr hnot
      exact ⟨⟨fun _ => hdrops, fun _ => hzero⟩, fun _ => ⟨hanswers.mpr fun h => absurd h hnot, hremovable,
        fun _ => hother hwhy⟩, fun h => absurd hdrops h⟩
  · obtain ⟨o, desc', hout, hresult, hn, hreadies⟩ := @usbStorGetInfo_error cpuToBe32 d buf desc _ _ hinq
    rw [hout] at htarget
    have hkeeps := @rejects_last d buf hfirst
    refine ⟨o, desc', _, hout, htarget, ⟨fun h => by omega, fun h => absurd h hkeeps⟩, fun h => absurd h hkeeps, fun _ => ?_⟩
    rw [hn, hreadies]
    constructor
    · rintro ⟨-, ⟨n, hn, -⟩ | hdeclared⟩
      · exact absurd hn (Nat.not_lt_zero n)
      · refine ⟨fun hall => absurd hfirst.2 (hall 5 (by decide)), fun _ => hdeclared, fun l hl hfirst' => ?_⟩
        have heq := hfirst.unique hfirst'
        omega
    · exact fun h => ⟨⟨5, by decide, hfirst.2⟩, .inr (h.2.1 hfirst)⟩
  · obtain ⟨o, desc', hout, hn, hcase⟩ := @usbStorGetInfo_spec cpuToBe32 d buf desc _ _ hinq hfresh
    rw [hout] at htarget
    have hrejects := @rejects_none d buf hall
    refine ⟨o, desc', _, hout, htarget, ?_⟩
    have hnone : ¬∃ n < o.inquiries, (d.inquiry n).result = 0 := by
      rintro ⟨n, hlt, hzero⟩
      exact hall n (by omega) hzero
    rcases hcase with ⟨hpass, hone, -, -⟩ | ⟨hnot, hzero, hremovable, -⟩
    · have hkeeps : ¬Rejects d buf := fun h => hrejects.mp h hpass
      refine ⟨⟨fun h => by omega, fun h => absurd h hkeeps⟩, fun h => absurd h hkeeps, fun _ => ?_⟩
      exact ⟨fun h => absurd h.1 hnone, fun h => absurd hpass (h.1 hall)⟩
    · have hdrops : Rejects d buf := hrejects.mpr hnot
      refine ⟨⟨fun _ => hdrops, fun _ => hzero⟩, fun _ => ⟨⟨fun _ => hnot, fun hlast => ?_, fun l hl hfirst => ?_⟩,
        hremovable, fun h => absurd h hnone⟩, fun h => absurd hdrops h⟩
      · exact absurd hlast.2 (hall 5 (by decide))
      · exact absurd hfirst.2 (hall l (by omega))

end Commands

section Rounds

theorem endpoints_pusbDev (eps : List Endpoint) (ss : UsData) :
    (eps.foldl UsData.endpoint ss).pusbDev = ss.pusbDev := by
  induction eps generalizing ss with
  | nil => rfl
  | cons ep eps ih =>
    rw [List.foldl_cons, ih]
    unfold UsData.endpoint
    split <;> split <;> first | rfl | (split <;> rfl)

theorem usbStorageProbe_pusbDev {ss : UsData} (h : (usbStorageProbe i d ss).1 = true) :
    (usbStorageProbe i d ss).2.pusbDev = some i := by
  have hendpoints := endpoints_pusbDev d.iface.endpoints { UsData.zero with
    pusbDev := some i, subclass := d.iface.bInterfaceSubClass, protocol := d.iface.bInterfaceProtocol }
  unfold usbStorageProbe at h ⊢
  dsimp only at h hendpoints ⊢
  split at h
  · cases h
  next hclass =>
    rw [if_neg hclass]
    split at h
    · cases h
    next hprotocol =>
      rw [if_neg hprotocol]
      split at h
      · cases h
      next hsane =>
        rw [if_neg hsane]
        split at h
        · cases h
        next hsubclass =>
          rw [if_neg hsubclass]
          split <;> exact hendpoints

theorem setAt_at {α : Type} (f : Nat → α) (k : Nat) (a : α) : setAt f k a k = a := if_pos rfl

theorem setAt_other {α : Type} (f : Nat → α) {j k : Nat} (a : α) (h : j ≠ k) : setAt f k a j = f j := if_neg h

theorem scanDevice_skip (h : (usbStorageProbe i d (s.stor s.maxDevs)).1 = false) :
    scanDevice cpuToBe32 s i d = { s with
      stor := setAt s.stor s.maxDevs (usbStorageProbe i d (s.stor s.maxDevs)).2 } := by
  unfold scanDevice
  dsimp only
  rw [h]
  rfl

theorem scanDevice_probe (h : (usbStorageProbe i d (s.stor s.maxDevs)).1 = true) {o : Outcome} {desc : Desc}
    {buf : List Nat} (hout : usbStorGetInfo cpuToBe32 d (s.desc s.maxDevs) s.buf = (o, desc, buf)) :
    scanDevice cpuToBe32 s i d = {
      buf := buf
      maxDevs := if o.result ≠ 0 then s.maxDevs + 1 else s.maxDevs
      stor := setAt s.stor s.maxDevs (usbStorageProbe i d (s.stor s.maxDevs)).2
      desc := setAt s.desc s.maxDevs desc
      privptr := setAt s.privptr i (some s.maxDevs)
      outcome := setAt s.outcome i (some o) } := by
  unfold scanDevice
  dsimp only
  rw [h, hout]
  rfl

/-- What the devices from index `i` on leave as it was. -/
structure Later (i : Nat) (s t : Scan) : Prop where
  maxDevs : s.maxDevs ≤ t.maxDevs
  stor : ∀ k < s.maxDevs, t.stor k = s.stor k
  desc : ∀ k < s.maxDevs, t.desc k = s.desc k
  privptr : ∀ j < i, t.privptr j = s.privptr j
  outcome : ∀ j < i, t.outcome j = s.outcome j
  fresh : ∀ j k, i ≤ j → k < s.maxDevs → t.privptr j = some k → s.privptr j = some k

theorem Later.refl (i : Nat) (s : Scan) : Later i s s :=
  ⟨Nat.le_refl _, fun _ _ => rfl, fun _ _ => rfl, fun _ _ => rfl, fun _ _ => rfl, fun _ _ _ _ h => h⟩

theorem Later.trans (h : Later i s t) (h' : Later (i + 1) t u) : Later i s u where
  maxDevs := Nat.le_trans h.maxDevs h'.maxDevs
  stor k hk := (h'.stor k (Nat.lt_of_lt_of_le hk h.maxDevs)).trans (h.stor k hk)
  desc k hk := (h'.desc k (Nat.lt_of_lt_of_le hk h.maxDevs)).trans (h.desc k hk)
  privptr j hj := (h'.privptr j (Nat.lt_succ_of_lt hj)).trans (h.privptr j hj)
  outcome j hj := (h'.outcome j (Nat.lt_succ_of_lt hj)).trans (h.outcome j hj)
  fresh := by
    intro j k hj hk hu
    apply h.fresh j k hj hk
    rcases Nat.lt_or_ge i j with hlt | hge
    · exact h'.fresh j k hlt (Nat.lt_of_lt_of_le hk h.maxDevs) hu
    · rw [← h'.privptr j (by omega)]
      exact hu

theorem scanDevice_later (s : Scan) (i : Nat) (d : Device) : Later i s (scanDevice cpuToBe32 s i d) := by
  cases hprobe : (usbStorageProbe i d (s.stor s.maxDevs)).1 with
  | false =>
    rw [scanDevice_skip hprobe]
    refine ⟨Nat.le_refl _, fun k hk => setAt_other _ _ (Nat.ne_of_lt hk), fun _ _ => rfl, fun _ _ => rfl,
      fun _ _ => rfl, fun _ _ _ _ h => h⟩
  | true =>
    obtain ⟨⟨o, desc, buf⟩, hout⟩ : ∃ out, usbStorGetInfo cpuToBe32 d (s.desc s.maxDevs) s.buf = out := ⟨_, rfl⟩
    rw [scanDevice_probe hprobe hout]
    refine ⟨?_, fun k hk => setAt_other _ _ (Nat.ne_of_lt hk), fun k hk => setAt_other _ _ (Nat.ne_of_lt hk),
      fun j hj => setAt_other _ _ (Nat.ne_of_lt hj), fun j hj => setAt_other _ _ (Nat.ne_of_lt hj), ?_⟩
    · dsimp only
      split <;> omega
    · intro j k hj hk hset
      dsimp only at hset
      by_cases heq : j = i
      · rw [heq, setAt_at] at hset
        cases hset
        exact absurd hk (Nat.lt_irrefl _)
      · rwa [setAt_other _ _ heq] at hset

theorem scanFrom_later (ds : List Device) (i : Nat) (s : Scan) : Later i s (scanFrom cpuToBe32 i ds s) := by
  induction ds generalizing i s with
  | nil => exact Later.refl i s
  | cons d ds ih =>
    unfold scanFrom
    dsimp only
    split
    · exact scanDevice_later s i d
    · exact (scanDevice_later s i d).trans (ih (i + 1) _)

/-- What holds in front of the device of index `i`. -/
structure Inv (devices : List Device) (i : Nat) (s : Scan) : Prop where
  room : s.maxDevs ≤ 5
  untouched : ∀ j, i ≤ j → s.privptr j = none ∧ s.outcome j = none
  fresh : ∀ k, s.maxDevs ≤ k → (s.desc k).removable = 0
  kept : Kept devices s

theorem start_inv : Inv devices 0 (Scan.start stor) where
  room := Nat.zero_le 5
  untouched _ _ := ⟨rfl, rfl⟩
  fresh _ _ := rfl
  kept := nofun

theorem Describes.later (hinv : Inv devices i s) (h : Later i s t) {j k : Nat} (hj : j < i) (hk : k < s.maxDevs) :
    Describes t k j d ↔ Describes s k j d := by
  have hothers : (∀ l, l ≠ j → t.privptr l ≠ some k) ↔ ∀ l, l ≠ j → s.privptr l ≠ some k := by
    refine forall_congr' fun l => imp_congr_right fun _ => not_congr ?_
    rcases Nat.lt_or_ge l i with hlt | hge
    · rw [h.privptr l hlt]
    · refine ⟨h.fresh l k hge hk, fun hs => ?_⟩
      rw [(hinv.untouched l hge).1] at hs
      cases hs
  constructor
  · intro hd
    refine ⟨?_, ?_, ?_, ?_, hothers.mp hd.alone⟩
    · rw [← h.stor k hk]
      exact hd.record
    · rw [← h.privptr j hj]
      exact hd.privptr
    · rw [← h.desc k hk]
      exact hd.target
    · rw [← h.outcome j hj]
      exact hd.answered
  · intro hd
    refine ⟨?_, ?_, ?_, ?_, hothers.mpr hd.alone⟩
    · rw [h.stor k hk]
      exact hd.record
    · rw [h.privptr j hj]
      exact hd.privptr
    · rw [h.desc k hk]
      exact hd.target
    · rw [h.outcome j hj]
      exact hd.answered

theorem scanDevice_counts (h : Inv devices i s) (hprobe : (usbStorageProbe i d (s.stor s.maxDevs)).1 = true) :
    (Rejects d s.buf → (scanDevice cpuToBe32 s i d).maxDevs = s.maxDevs ∧ Fine s d) ∧
    (¬Rejects d s.buf → (scanDevice cpuToBe32 s i d).maxDevs = s.maxDevs + 1 ∧
      ((scanDevice cpuToBe32 s i d).stor s.maxDevs).pusbDev = some i ∧
      (Describes (scanDevice cpuToBe32 s i d) s.maxDevs i d ↔ Fine s d)) := by
  obtain ⟨o, desc', buf', hout, htarget, hzero, hdrops, hkeeps⟩ :=
    @usbStorGetInfo_counts cpuToBe32 d s.buf (s.desc s.maxDevs) (h.fresh s.maxDevs (Nat.le_refl _))
  have hrecord := usbStorageProbe_pusbDev hprobe
  rw [scanDevice_probe hprobe hout]
  dsimp only
  constructor
  · intro hrejects
    exact ⟨if_neg (not_not.mpr (hzero.mpr hrejects)), (hdrops hrejects).1, fun hnot => absurd hrejects hnot⟩
  · intro hnot
    refine ⟨if_pos fun he => hnot (hzero.mp he), ?_, ?_⟩
    · rw [setAt_at]
      exact hrecord
    have hothers : (∀ j, j ≠ i → setAt s.privptr i (some s.maxDevs) j ≠ some s.maxDevs) ↔
        ∀ j, s.privptr j ≠ some s.maxDevs := by
      refine forall_congr' fun j => ?_
      by_cases hj : j = i
      · rw [hj, (h.untouched i (Nat.le_refl i)).1]
        exact ⟨nofun, fun _ hne => absurd rfl hne⟩
      · rw [setAt_other _ _ hj]
        exact ⟨fun hne => hne hj, fun hne _ => hne⟩
    constructor
    · intro hd
      obtain ⟨o', ho', hanswered⟩ := hd.answered
      dsimp only at ho'
      rw [setAt_at] at ho'
      cases ho'
      exact ⟨(hkeeps hnot).mp hanswered, fun _ => hothers.mp hd.alone⟩
    · intro hfine
      refine ⟨?_, setAt_at _ _ _, ?_, ⟨o, setAt_at _ _ _, (hkeeps hnot).mpr hfine.answers⟩, hothers.mpr (hfine.alone hnot)⟩
      · dsimp only
        rw [setAt_at]
        exact hrecord
      · dsimp only
        rw [setAt_at]
        exact htarget

theorem scanDevice_inv (h : Inv devices i s) (hd : devices[i]? = some d) (hroom : s.maxDevs ≠ 5) :
    Inv devices (i + 1) (scanDevice cpuToBe32 s i d) := by
  have hlt : s.maxDevs < 5 := Nat.lt_of_le_of_ne h.room hroom
  have hlater := @scanDevice_later cpuToBe32 s i d
  -- a device that was counted is still counted, and one that was asked before has the same outcome
  have hbefore : ∀ {j o}, j < i → ∀ {e : Device}, devices[j]? = some e → (scanDevice cpuToBe32 s i d).outcome j = some o →
      (∃ n < o.inquiries, (e.inquiry n).result = 0) →
      (∃ k < (scanDevice cpuToBe32 s i d).maxDevs, ((scanDevice cpuToBe32 s i d).stor k).pusbDev = some j) ∨
        o.perq &&& 0x1f = 0x1f ∨ (0 < o.readies ∧ ∀ n < o.readies, e.unitReady n ≠ 0) := by
    intro j o hj e he ho hsuccess
    rw [hlater.outcome j hj] at ho
    refine (h.kept j e o he ho hsuccess).imp_left ?_
    rintro ⟨k, hk, hrecord⟩
    refine ⟨k, Nat.lt_of_lt_of_le hk hlater.maxDevs, ?_⟩
    rw [hlater.stor k hk]
    exact hrecord
  cases hprobe : (usbStorageProbe i d (s.stor s.maxDevs)).1 with
  | false =>
    rw [scanDevice_skip hprobe] at hbefore ⊢
    refine ⟨h.room, fun j hj => h.untouched j (by omega), h.fresh, fun j e o he ho => ?_⟩
    rcases Nat.lt_or_ge j i with hj | hj
    · exact hbefore hj he ho
    · rw [(h.untouched j hj).2] at ho
      cases ho
  | true =>
    obtain ⟨o, desc', buf', hout, -, hzero, hdrops, -⟩ :=
      @usbStorGetInfo_counts cpuToBe32 d s.buf (s.desc s.maxDevs) (h.fresh s.maxDevs (Nat.le_refl _))
    rw [scanDevice_probe hprobe hout] at hbefore ⊢
    refine ⟨?_, fun j hj => ?_, fun k hk => ?_, fun j e o' he ho' hsuccess => ?_⟩
    · dsimp only
      split <;> omega
    · dsimp only
      rw [setAt_other _ _ (by omega), setAt_other _ _ (by omega)]
      exact h.untouched j (by omega)
    · dsimp only at hk ⊢
      by_cases hat : k = s.maxDevs
      · rw [hat, setAt_at]
        by_cases hrejects : Rejects d s.buf
        · exact (hdrops hrejects).2.1
        · rw [if_pos fun hz => hrejects (hzero.mp hz)] at hk
          omega
      · rw [setAt_other _ _ hat]
        split at hk <;> exact h.fresh k (by omega)
    · rcases Nat.lt_trichotomy j i with hj | rfl | hj
      · exact hbefore hj he ho' hsuccess
      · dsimp only at ho' ⊢
        rw [setAt_at] at ho'
        cases ho'
        obtain rfl := Option.some.inj (hd.symm.trans he)
        by_cases hrejects : Rejects d s.buf
        · exact .inr ((hdrops hrejects).2.2 hsuccess)
        · refine .inl ⟨s.maxDevs, ?_, ?_⟩
          · rw [if_pos fun hz => hrejects (hzero.mp hz)]
            exact Nat.lt_succ_self _
          · rw [setAt_at]
            exact usbStorageProbe_pusbDev hprobe
      · dsimp only at ho'
        rw [setAt_other _ _ (by omega), (h.untouched j (by omega)).2] at ho'
        cases ho'

theorem on_bus (h : (devices.take 32)[i]? = some d) : devices[i]? = some d := by
  rw [List.getElem?_take] at h
  split at h
  · exact h
  · cases h

theorem reached_inv (h : Reached cpuToBe32 stor devices i s) : Inv devices i s ∧ s.maxDevs ≠ 5 := by
  induction h with
  | start => exact ⟨start_inv, nofun⟩
  | next _ hd hroom ih => exact ⟨scanDevice_inv ih.1 (on_bus hd) ih.2, hroom⟩

theorem drop_of_getElem? {ds : List Device} (hd : ds[i]? = some d) : ds.drop i = d :: ds.drop (i + 1) := by
  obtain ⟨hlt, rfl⟩ := List.getElem?_eq_some_iff.mp hd
  exact List.drop_eq_getElem_cons hlt

theorem reached_scan (h : Reached cpuToBe32 stor devices i s) :
    usbStorScan cpuToBe32 stor devices = scanFrom cpuToBe32 i ((devices.take 32).drop i) s := by
  induction h with
  | start => rfl
  | next _ hd hroom ih =>
    rw [ih, drop_of_getElem? hd, scanFrom]
    exact if_neg hroom

/-- The indices given so far are those of devices that were looked at. -/
def Described (devices : List Device) (i : Nat) (s : Scan) : Prop :=
  ∀ k < s.maxDevs, ∃ j d, j < i ∧ devices[j]? = some d ∧ Describes s k j d

theorem Described.correct (h : Described devices i s) (hinv : Inv devices i s) : Correct devices s := by
  refine ⟨hinv.room, fun k hk => ?_, hinv.kept⟩
  obtain ⟨j, d, -, hd, hdescribes⟩ := h k hk
  exact ⟨j, d, hd, hdescribes⟩

theorem Described.round (h : Described devices i s) (hinv : Inv devices i s) (hd : devices[i]? = some d)
    (hfine : (usbStorageProbe i d (s.stor s.maxDevs)).1 = true → Fine s d) :
    Described devices (i + 1) (scanDevice cpuToBe32 s i d) := by
  have hlater := @scanDevice_later cpuToBe32 s i d
  intro k hk
  rcases Nat.lt_or_ge k s.maxDevs with hlt | hge
  · obtain ⟨j, e, hj, he, hdescribes⟩ := h k hlt
    exact ⟨j, e, by omega, he, (Describes.later hinv hlater hj hlt).mpr hdescribes⟩
  cases hprobe : (usbStorageProbe i d (s.stor s.maxDevs)).1 with
  | false =>
    rw [scanDevice_skip hprobe] at hk
    exact absurd hk (Nat.not_lt_of_le hge)
  | true =>
    obtain ⟨hdrops, hkeeps⟩ := @scanDevice_counts cpuToBe32 devices d s i hinv hprobe
    by_cases hrejects : Rejects d s.buf
    · rw [(hdrops hrejects).1] at hk
      omega
    · obtain ⟨hmax, -, hdescribes⟩ := hkeeps hrejects
      obtain rfl : k = s.maxDevs := by omega
      exact ⟨i, d, Nat.lt_succ_self i, hd, hdescribes.mpr (hfine hprobe)⟩

theorem scanFrom_correct (hfine : ∀ i s d, Reached cpuToBe32 stor devices i s → (devices.take 32)[i]? = some d →
      (usbStorageProbe i d (s.stor s.maxDevs)).1 = true → Fine s d) (ds : List Device)
    (hreached : Reached cpuToBe32 stor devices i s) (hds : (devices.take 32).drop i = ds)
    (hdescribed : Described devices i s) : Correct devices (scanFrom cpuToBe32 i ds s) := by
  induction ds generalizing i s with
  | nil => exact hdescribed.correct (reached_inv hreached).1
  | cons d ds ih =>
    obtain ⟨hinv, hroom⟩ := reached_inv hreached
    have hd : (devices.take 32)[i]? = some d := by
      rw [← List.head?_drop, hds]
      rfl
    have hdevice := on_bus hd
    have hnext := @Described.round cpuToBe32 devices d s i hdescribed hinv hdevice (hfine i s d hreached hd)
    unfold scanFrom
    dsimp only
    split
    · exact hnext.correct (scanDevice_inv hinv hdevice hroom)
    next hmore =>
      refine ih (hreached.next hd hmore) ?_ hnext
      rw [drop_of_getElem? hd] at hds
      exact (List.cons.inj hds).2

/-- The list of storage devices is right exactly where every round with a storage device is fine. -/
theorem usb_stor_scan_correct_iff (cpuToBe32 : Nat → Nat) (stor : Nat → UsData) (devices : List Device) :
    Correct devices (usbStorScan cpuToBe32 stor devices) ↔
      ∀ i s d, Reached cpuToBe32 stor devices i s → (devices.take 32)[i]? = some d →
        (usbStorageProbe i d (s.stor s.maxDevs)).1 = true → Fine s d := by
  constructor
  · intro hcorrect i s d hreached hd hprobe
    obtain ⟨hinv, hroom⟩ := reached_inv hreached
    have hdevice := on_bus hd
    obtain ⟨hdrops, hkeeps⟩ := @scanDevice_counts cpuToBe32 devices d s i hinv hprobe
    by_cases hrejects : Rejects d s.buf
    · exact (hdrops hrejects).2
    obtain ⟨hmax, hrecord, hdescribes⟩ := hkeeps hrejects
    have hlater : Later (i + 1) (scanDevice cpuToBe32 s i d) (usbStorScan cpuToBe32 stor devices) := by
      rw [reached_scan hreached, drop_of_getElem? hd, scanFrom]
      split
      · exact Later.refl _ _
      · exact scanFrom_later _ _ _
    have hk : s.maxDevs < (scanDevice cpuToBe32 s i d).maxDevs := by omega
    obtain ⟨j, e, he, hfinal⟩ := hcorrect.described s.maxDevs (Nat.lt_of_lt_of_le hk hlater.maxDevs)
    obtain rfl : i = j := by
      have hsame := hfinal.record
      rw [hlater.stor s.maxDevs hk, hrecord] at hsame
      exact Option.some.inj hsame
    obtain rfl := Option.some.inj (hdevice.symm.trans he)
    have hnext := @scanDevice_inv cpuToBe32 devices d s i hinv hdevice hroom
    exact hdescribes.mp ((Describes.later hnext hlater (Nat.lt_succ_self i) hk).mp hfinal)
  · intro hfine
    exact scanFrom_correct hfine _ Reached.start rfl fun k hk => absurd hk (Nat.not_lt_zero k)

def silent : Device where
  devnum := 2
  bDeviceClass := 0
  iface := ⟨8, 6, 0x50, [⟨2, 0x81, 0⟩, ⟨2, 0x02, 0⟩]⟩
  setInterface := 0
  inquiry _ := ⟨-1, [], Nat.zero_le 36⟩
  unitReady _ := 0
  readCapacity _ := (0, 0xffff, 512)

/-- It is counted. -/
theorem silent_device_counted : (usbStorScan id (fun _ => UsData.zero) [silent]).maxDevs = 1 ∧
    ¬Correct [silent] (usbStorScan id (fun _ => UsData.zero) [silent]) := by
  have hcounted : (usbStorScan id (fun _ => UsData.zero) [silent]).maxDevs = 1 := by decide
  refine ⟨hcounted, fun h => ?_⟩
  obtain ⟨i, d, hd, hdescribes⟩ := h.described 0 (by omega)
  obtain ⟨o, -, ⟨n, -, hzero⟩, -⟩ := hdescribes.answered
  obtain rfl := List.mem_singleton.mp (List.mem_of_getElem? hd)
  cases hzero

end Rounds

end UBoot.UsbStorScan
