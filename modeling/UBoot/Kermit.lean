import UBoot.FlashCells

namespace UBoot.Kermit

open FlashCells List

def startChar : UInt8 := 0x01
def etxChar : UInt8 := 0x03
def endChar : UInt8 := 0x0d
def kEscape : UInt8 := 0x23
def sendType : UInt8 := 83
def dataType : UInt8 := 68
def breakType : UInt8 := 66
def sendDataSize : Nat := 20

def tochar (x : Nat) : UInt8 := UInt8.ofNat x + 0x20
def untochar (c : UInt8) : Nat := (c - 0x20).toNat

/-- A character less than `SPACE`, an error anywhere in a packet. -/
def control (c : UInt8) : Bool := c &&& 0xe0 = 0

def checkChar (sum : Nat) : UInt8 := tochar ((sum + sum / 64 % 4) % 64)

def ktrans (c : UInt8) : UInt8 :=
  if c &&& 0x60 = 0x40 then c &&& 0xbf else if c &&& 0x7f = 0x3f then c ||| 0x40 else c

/-- `os_data_addr`, counted from `bin_start_address`, and `k_data_escape`. -/
structure OsData where
  addr : Nat
  escape : Bool
deriving DecidableEq

inductive Reply where
  | ack (n : Nat)
  | nack (n : Nat)
deriving DecidableEq

def Reply.isAck : Reply → Bool
  | .ack _ => true
  | .nack _ => false

/-- The calls of `getc` in `k_recv`, and its return. -/
inductive Phase where
  | start
  | len
  | seq
  | type
  | lenHi
  | lenLo
  | headCheck
  | data
  | check
  | last
  | returned (r : Nat)
deriving DecidableEq

structure KRecv where
  phase : Phase
  sum : Nat
  length : Int
  lenHi : Nat
  n : Nat
  lastN : Option Nat
  kState : UInt8
  kStateSaved : UInt8
  data : OsData
  saved : OsData
  mem : Flash
  /-- `send_parms` up to `send_ptr`. -/
  parms : List UInt8
  hisQuote : UInt8
  replies : List Reply

/-- The state in which the main loop is entered. -/
def KRecv.init (mem : Flash) : KRecv where
  phase := .start
  sum := 0
  length := 0
  lenHi := 0
  n := 0
  lastN := none
  kState := 0
  kStateSaved := 0
  data := ⟨0, false⟩
  saved := ⟨0, false⟩
  mem := mem
  parms := []
  hisQuote := kEscape
  replies := []

/-- `bin_data_char`; its `os_data_state` is 0 throughout. -/
def KRecv.binDataChar (s : KRecv) (c : UInt8) : KRecv :=
  { s with mem := store s.mem s.data.addr [c], data := ⟨s.data.addr + 1, false⟩ }

def KRecv.kDataChar (s : KRecv) (c : UInt8) : KRecv :=
  if s.data.escape then s.binDataChar (ktrans c)
  else if c = s.hisQuote then { s with data := ⟨s.data.addr, true⟩ }
  else s.binDataChar c

/-- `*send_ptr++ = new_char`, backing off at the end of `send_parms`. -/
def pushParm (parms : List UInt8) (c : UInt8) : List UInt8 :=
  if parms.length + 1 ≥ sendDataSize then (parms ++ [c]).dropLast else parms ++ [c]

/-- The top of the main loop. -/
def KRecv.again (s : KRecv) : KRecv := { s with phase := .start, parms := [] }

def KRecv.packetError (s : KRecv) : KRecv :=
  { s with kState := s.kStateSaved, data := s.saved, replies := s.replies ++ [Reply.nack s.n] }.again

/-- The comparison of sequence numbers: a retried packet restores the state that a new one
saves. -/
def KRecv.checkpoint (s : KRecv) (n : Nat) : KRecv :=
  if s.lastN = some n then { s with n := n, kState := s.kStateSaved, data := s.saved }
  else { s with n := n, lastN := some n, kStateSaved := s.kState, saved := s.data }

/-- The condition of the loop over the rest of the packet. -/
def KRecv.rest (s : KRecv) : KRecv := { s with phase := if s.length > 1 then .data else .check }

def KRecv.absorb (s : KRecv) (c : UInt8) : KRecv :=
  if s.kState = dataType then s.kDataChar c
  else if s.kState = sendType then { s with parms := pushParm s.parms c }
  else s

/-- `handle_send_packet`, what it sets that the data depend on. -/
def KRecv.handleSendPacket (s : KRecv) : KRecv :=
  { s with hisQuote := s.parms[5]?.getD kEscape, replies := s.replies ++ [Reply.ack s.n] }

def KRecv.accept (s : KRecv) : KRecv :=
  if s.kState = sendType then s.handleSendPacket.again
  else
    let s := { s with replies := s.replies ++ [Reply.ack s.n] }
    if s.kState = breakType then { s with phase := .returned s.data.addr } else s.again

/-- What `k_recv` does with the next character. -/
def KRecv.step (s : KRecv) (c : UInt8) : KRecv :=
  match s.phase with
  | .start =>
    if c = startChar then { s with phase := .len, sum := 0 }
    else if c = etxChar then { s with phase := .returned 0 }
    else s
  | .len =>
    if control c then s.packetError
    else { s with phase := .seq, sum := s.sum + c.toNat, length := untochar c }
  | .seq =>
    if control c then s.packetError
    else { s with phase := .type, sum := s.sum + c.toNat, length := s.length - 1 }.checkpoint
      (untochar c)
  | .type =>
    if control c then s.packetError
    else
      let s := { s with sum := s.sum + c.toNat, kState := c, length := s.length - 1 }
      if s.length = -2 then { s with phase := .lenHi } else s.rest
  | .lenHi =>
    if control c then s.packetError
    else { s with phase := .lenLo, sum := s.sum + c.toNat, lenHi := untochar c }
  | .lenLo =>
    if control c then s.packetError
    else { s with
      phase := .headCheck, sum := s.sum + c.toNat, length := (s.lenHi * 95 + untochar c : Nat) }
  | .headCheck =>
    if control c ∨ c ≠ checkChar s.sum then s.packetError
    else { s with sum := s.sum + c.toNat }.rest
  | .data =>
    if control c then s.packetError
    else ({ s with sum := s.sum + c.toNat, length := s.length - 1 }.absorb c).rest
  | .check => if control c ∨ c ≠ checkChar s.sum then s.packetError else { s with phase := .last }
  | .last => if c ≠ endChar then s.packetError else s.accept
  | .returned _ => s

def KRecv.run (s : KRecv) (cs : List UInt8) : KRecv := cs.foldl KRecv.step s

/-- The bytes decoded so far, and whether an escape character is pending. -/
structure Decoded where
  bytes : List UInt8
  escape : Bool
deriving DecidableEq

def Decoded.char (quote : UInt8) (d : Decoded) (c : UInt8) : Decoded :=
  if d.escape then ⟨d.bytes ++ [ktrans c], false⟩
  else if c = quote then ⟨d.bytes, true⟩
  else ⟨d.bytes ++ [c], false⟩

def Decoded.text (quote : UInt8) (d : Decoded) (cs : List UInt8) : Decoded :=
  cs.foldl (Decoded.char quote) d

/-- What memory holds up to `os_data_addr`. -/
def decodedAt (m : Flash) (o : OsData) : Decoded := ⟨read m 0 o.addr, o.escape⟩

structure Packet where
  type : UInt8
  data : List UInt8
deriving DecidableEq

/-- What a receiver knows after some packets. -/
structure Content where
  data : Decoded
  quote : UInt8
deriving DecidableEq

def Content.init : Content := ⟨⟨[], false⟩, kEscape⟩

def Content.take (c : Content) (p : Packet) : Content :=
  if p.type = sendType then { c with quote := p.data[5]?.getD kEscape }
  else if p.type = dataType then { c with data := c.data.text c.quote p.data }
  else c

/-- What the first `k` packets of a download say. -/
def content (ps : List Packet) (k : Nat) : Content := (ps.take k).foldl Content.take Content.init

/-- A control-quoted form of a file: each byte as it is or behind the quote character. -/
inductive Quoted (quote : UInt8) : List UInt8 → List UInt8 → Prop
  | nil : Quoted quote [] []
  | plain {b bs cs} (h : b ≠ quote) : Quoted quote bs cs → Quoted quote (b :: bs) (b :: cs)
  | escaped {c bs cs} : Quoted quote bs cs → Quoted quote (ktrans c :: bs) (quote :: c :: cs)

def dataOf (p : Packet) : List UInt8 := if p.type = dataType then p.data else []

/-- The packets of a sender for a file: the parameters, the file's data among packets of other
types, and the end of the transmission. -/
def Sends (file : List UInt8) (ps : List Packet) : Prop :=
  ∃ parms middle farewell, ps = ⟨sendType, parms⟩ :: middle ++ [⟨breakType, farewell⟩] ∧
    (∀ p ∈ middle, p.type ≠ sendType ∧ p.type ≠ breakType) ∧
    Quoted (parms[5]?.getD kEscape) file (middle.flatMap dataOf)

section
variable {quote : UInt8} {d : Decoded} {cs ds file : List UInt8}

theorem Decoded.text_append : d.text quote (cs ++ ds) = (d.text quote cs).text quote ds := foldl_append

theorem Quoted.text (h : Quoted quote file cs) (bytes : List UInt8) :
    Decoded.text quote ⟨bytes, false⟩ cs = ⟨bytes ++ file, false⟩ := by
  induction h generalizing bytes with
  | nil => simp [Decoded.text]
  | @plain b bs cs hb _ ih =>
    have hrest := ih (bytes ++ [b])
    simpa [Decoded.text, Decoded.char, hb] using hrest
  | @escaped c bs cs _ ih =>
    have hrest := ih (bytes ++ [ktrans c])
    simpa [Decoded.text, Decoded.char] using hrest

end

section
variable {ps : List Packet} {file : List UInt8}

theorem content_succ {k : Nat} {p : Packet} (h : ps[k]? = some p) :
    content ps (k + 1) = (content ps k).take p := by
  rw [content, take_add_one, h]
  simp [content, foldl_append]

theorem content_middle {middle : List Packet} (h : ∀ p ∈ middle, p.type ≠ sendType) (c : Content) :
    middle.foldl Content.take c = ⟨c.data.text c.quote (middle.flatMap dataOf), c.quote⟩ := by
  induction middle generalizing c with
  | nil => rfl
  | cons p middle ih =>
    have hp := h p mem_cons_self
    have hc : c.take p = ⟨c.data.text c.quote (dataOf p), c.quote⟩ := by
      unfold Content.take dataOf
      rw [if_neg hp]
      split <;> rfl
    rw [foldl_cons, hc, ih fun p hp => h p (mem_cons_of_mem _ hp), flatMap_cons,
      Decoded.text_append]

theorem Sends.content (h : Sends file ps) : (content ps ps.length).data = ⟨file, false⟩ := by
  obtain ⟨parms, middle, farewell, rfl, htypes, hquoted⟩ := h
  have hmiddle := content_middle (fun p hp => (htypes p hp).1) (Content.init.take ⟨sendType, parms⟩)
  have hfile := hquoted.text []
  have hsend : Content.init.take ⟨sendType, parms⟩ = ⟨⟨[], false⟩, parms[5]?.getD kEscape⟩ := rfl
  have hbreak : ∀ c : Content, c.take ⟨breakType, farewell⟩ = c := fun _ => rfl
  unfold Kermit.content
  rw [take_length, cons_append, foldl_cons, foldl_append, hmiddle, hsend,
    foldl_cons, foldl_nil, hbreak, hfile, nil_append]

theorem Sends.breaks (h : Sends file ps) {k : Nat} {p : Packet} (hp : ps[k]? = some p)
    (hb : p.type = breakType) : k + 1 = ps.length := by
  obtain ⟨parms, middle, farewell, rfl, htypes, _⟩ := h
  obtain ⟨hk, hpk⟩ := List.getElem?_eq_some_iff.mp hp
  by_contra hne
  have hlen : k < (⟨sendType, parms⟩ :: middle).length := by
    simp only [length_append, length_cons, length_nil] at hk hne ⊢
    omega
  rw [List.getElem?_append_left hlen] at hp
  rcases mem_cons.mp (mem_of_getElem? hp) with rfl | hmem
  · exact absurd hb (show sendType ≠ breakType by decide)
  · exact (htypes p hmem).2 hb

end

theorem decodedAt_store (m : Flash) (o : OsData) (c : UInt8) :
    decodedAt (store m o.addr [c]) ⟨o.addr + 1, false⟩ = ⟨(decodedAt m o).bytes ++ [c], false⟩ := by
  have hbelow : read (store m o.addr [c]) 0 o.addr = read m 0 o.addr := by
    apply read_congr
    intro i hi
    exact store_outside (.inl (by omega))
  have hat := read_store m o.addr [c]
  unfold decodedAt
  rw [read_append, hbelow, Nat.zero_add]
  exact congrArg (fun bs => Decoded.mk (read m 0 o.addr ++ bs) false) hat

theorem decodedAt_below {m : Flash} {o : OsData} {a : Nat} {bs : List UInt8} (h : o.addr ≤ a) :
    decodedAt (store m a bs) o = decodedAt m o := by
  have hbelow : read (store m a bs) 0 o.addr = read m 0 o.addr := by
    apply read_congr
    intro i hi
    exact store_outside (.inl (by omega))
  rw [decodedAt, decodedAt, hbelow]

def KRecv.now (s : KRecv) : Decoded := decodedAt s.mem s.data
def KRecv.before (s : KRecv) : Decoded := decodedAt s.mem s.saved

theorem kDataChar_spec {s : KRecv} (h : s.saved.addr ≤ s.data.addr) (c : UInt8) :
    (s.kDataChar c).now = s.now.char s.hisQuote c ∧ (s.kDataChar c).before = s.before ∧
      (s.kDataChar c).saved.addr ≤ (s.kDataChar c).data.addr := by
  have hput : ∀ b, (s.binDataChar b).now = ⟨s.now.bytes ++ [b], false⟩ ∧ (s.binDataChar b).before = s.before ∧
      (s.binDataChar b).saved.addr ≤ (s.binDataChar b).data.addr := fun b =>
    ⟨decodedAt_store s.mem s.data b, decodedAt_below h, Nat.le_succ_of_le h⟩
  unfold KRecv.kDataChar Decoded.char
  have hescape : s.now.escape = s.data.escape := rfl
  rw [hescape]
  split
  · exact hput (ktrans c)
  · split
    · exact ⟨rfl, rfl, h⟩
    · exact hput c

end UBoot.Kermit
