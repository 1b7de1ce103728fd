import Mathlib.Data.List.GetD
import UBoot.Loops
import UBoot.Words

namespace UBoot.UsbConfig

open FlashCells List Loops Words

/-- What the functions use of `struct usb_device`. The bytes of `config` are those of `struct usb_config_descriptor`:
ten for the configuration, then 8 interfaces of 12 bytes with 16 endpoints of 10 bytes. -/
structure Dev where
  configno : Int
  config : Flash

def usbBufsiz : Nat := 512
def usbMaxinterfaces : Nat := 8
def usbMaxendpoints : Nat := 16
def interfaceSize : Nat := 172
def endpointSize : Nat := 10

def ifDesc (i : Nat) : Nat := 10 + 172 * i

def epDesc (i ep : Nat) : Nat := ifDesc i + 12 + 10 * ep

def bNumInterfaces (c : Flash) : Nat := (c 4).toNat
def noOfIf (c : Flash) : Nat := (c 9).toNat
def bNumEndpoints (c : Flash) (i : Nat) : Nat := (c (ifDesc i + 4)).toNat
def noOfEp (c : Flash) (i : Nat) : Nat := (c (ifDesc i + 9)).toNat

def setByte (c : Flash) (a : Nat) (v : UInt8) : Flash := store c a [v]

def word16 (big : Bool) (c : Flash) (a : Nat) : Nat := if big then be16 c a else le16 c a

def le16ToCpus (big : Bool) (c : Flash) (a : Nat) : Flash := if big then store c a [c (a + 1), c a] else c

/-- A descriptor copied by the length that it tells, or `none` where that leaves the buffer or the slot. -/
def copyDesc (buf c : Flash) (dst slot src : Nat) : Option Flash :=
  if (buf src).toNat ≤ slot ∧ src + (buf src).toNat ≤ usbBufsiz then
    some (store c dst (read buf src (buf src).toNat))
  else none

/-- The local variables of `usb_parse_config`, with the configuration that it fills. -/
structure Parse where
  config : Flash
  index : Nat
  ifno : Int
  currIfNum : Int

variable (big : Bool) (buf : Flash)

/-- The branch for an interface. -/
def parseInterface (st : Parse) : Option Parse :=
  if st.index + 2 < usbBufsiz then
    if ((buf (st.index + 2)).toNat : Int) ≠ st.currIfNum then
      let ifno := noOfIf st.config
      let c := setByte st.config 9 (st.config 9 + 1)
      if ifno < usbMaxinterfaces then do
        let c ← copyDesc buf c (ifDesc ifno) interfaceSize st.index
        let c := setByte c (ifDesc ifno + 9) 0
        let c := setByte c (ifDesc ifno + 10) 1
        some { st with config := c, ifno := ifno, currIfNum := (c (ifDesc ifno + 2)).toNat }
      else none
    else if 0 ≤ st.ifno ∧ st.ifno < usbMaxinterfaces then
      let a := ifDesc st.ifno.toNat + 10
      some { st with config := setByte st.config a (st.config a + 1) }
    else none
  else none

/-- The branch for an endpoint. -/
def parseEndpoint (st : Parse) : Option Parse :=
  if 0 ≤ st.ifno ∧ st.ifno < usbMaxinterfaces then
    let ifno := st.ifno.toNat
    let epno := noOfEp st.config ifno
    let c := setByte st.config (ifDesc ifno + 9) (st.config (ifDesc ifno + 9) + 1)
    if epno < usbMaxendpoints then do
      let c ← copyDesc buf c (epDesc ifno epno) endpointSize st.index
      some { st with config := le16ToCpus big c (epDesc ifno epno + 4) }
    else none
  else none

/-- A round of the loop, or `none` where it looks at what is not in the buffer or is not in its slot. -/
def round (st : Parse) : Option (Parse ⊕ Flash) :=
  if st.index + 1 < word16 big st.config 2 then
    if st.index + 1 < usbBufsiz then
      let len := (buf st.index).toNat
      if buf (st.index + 1) = 4 then do
        let st' ← parseInterface buf st
        some (.inl { st' with index := st.index + len })
      else if buf (st.index + 1) = 5 then do
        let st' ← parseEndpoint big buf st
        some (.inl { st' with index := st.index + len })
      else if len = 0 then some (.inr st.config)
      else some (.inl { st with index := st.index + len })
    else none
  else some (.inr st.config)

/-- The configuration with the first descriptor of the buffer, which is never longer than either of them. -/
def header (c : Flash) : Flash := store c 0 (read buf 0 (buf 0).toNat)

def usbParseConfig (dev : Dev) (cfgno : Int) : Comp (Option (Int × Dev)) :=
  let dev := { dev with configno := cfgno }
  if buf 1 ≠ 2 then Comp.pure (some (-1, dev))
  else
    let c := setByte (le16ToCpus big (header buf dev.config) 2) 9 0
    (Comp.loop (fun st => Comp.round (round big buf st)) ⟨c, (c 0).toNat, -1, -1⟩).andThen fun c =>
      Comp.pure (some (1, { dev with config := c }))

/-- The interfaces that `usb_set_maxpacket` looks at. -/
def interfacesSeen (c : Flash) : List Nat := List.range (bNumInterfaces c)

def endpointsSeen (c : Flash) (i : Nat) : List Nat := List.range (bNumEndpoints c i)

/-- What `usb_set_maxpacket` looks at was parsed, by a parse with the result `ret`. -/
def SeesParsed (ret : Int) (c : Flash) : Prop :=
  ∀ i ∈ interfacesSeen c, ret = 1 ∧ i < noOfIf c ∧ ∀ ii ∈ endpointsSeen c i, ii < noOfEp c i

/-- The parse ends, with nothing outside of the buffer and of the slots, and is followed by no look at what it has
not found. -/
def Safe (dev : Dev) (cfgno : Int) : Prop :=
  ∃ ret dev', (usbParseConfig big buf dev cfgno).Returns (some (ret, dev')) ∧ SeesParsed ret dev'.config

/-- An interface: how many endpoints it announces, and how many came. -/
structure Iface where
  declared : Nat
  eps : Nat

/-- A place in the buffer, with the number of the current interface and the interfaces so far. -/
structure At where
  index : Nat
  cur : Int
  ifs : List Iface

/-- A field of the descriptor at `p`, or what the slot of the interface held if the descriptor ends before. -/
def field (c : Flash) (p n k : Nat) : UInt8 := if k < (buf p).toNat then buf (p + k) else c (ifDesc n + k)

/-- A descriptor that has its place. -/
inductive Step (c : Flash) : At → At → Prop
  | again {p : Nat} {cur : Int} {ifs : List Iface} (htype : buf (p + 1) = 4) (hin : p + 2 < usbBufsiz)
    (hcur : ((buf (p + 2)).toNat : Int) = cur) : Step c ⟨p, cur, ifs⟩ ⟨p + (buf p).toNat, cur, ifs⟩
  | interface {p : Nat} {cur : Int} {ifs : List Iface} (htype : buf (p + 1) = 4) (hin : p + 2 < usbBufsiz)
    (hcur : ((buf (p + 2)).toNat : Int) ≠ cur) (hfew : ifs.length < usbMaxinterfaces)
    (hlen : (buf p).toNat ≤ interfaceSize) (hend : p + (buf p).toNat ≤ usbBufsiz) :
    Step c ⟨p, cur, ifs⟩ ⟨p + (buf p).toNat, (field buf c p ifs.length 2).toNat,
      ifs ++ [⟨(field buf c p ifs.length 4).toNat, 0⟩]⟩
  | endpoint {p : Nat} {cur : Int} {ifs : List Iface} {x : Iface} (htype : buf (p + 1) = 5)
    (hfew : x.eps < usbMaxendpoints) (hlen : (buf p).toNat ≤ endpointSize)
    (hend : p + (buf p).toNat ≤ usbBufsiz) :
    Step c ⟨p, cur, ifs ++ [x]⟩ ⟨p + (buf p).toNat, cur, ifs ++ [⟨x.declared, x.eps + 1⟩]⟩
  | other {p : Nat} {cur : Int} {ifs : List Iface} (hif : buf (p + 1) ≠ 4) (hep : buf (p + 1) ≠ 5) :
    Step c ⟨p, cur, ifs⟩ ⟨p + (buf p).toNat, cur, ifs⟩

/-- Descriptors one behind the other up to the total length, or to one of length 0 that is none of those that are
parsed. No other one has the length 0. -/
inductive Chain (c : Flash) (total : Nat) : At → List Iface → Prop
  | done {a : At} (h : total ≤ a.index + 1) : Chain c total a a.ifs
  | null {a : At} (h : a.index + 1 < total) (hin : a.index + 1 < usbBufsiz) (hif : buf (a.index + 1) ≠ 4)
    (hep : buf (a.index + 1) ≠ 5) (hlen : (buf a.index).toNat = 0) : Chain c total a a.ifs
  | next {a a' : At} {ifs : List Iface} (h : a.index + 1 < total) (hin : a.index + 1 < usbBufsiz)
    (hlen : 0 < (buf a.index).toNat) (hstep : Step buf c a a') (hrest : Chain c total a' ifs) : Chain c total a ifs

/-- The buffer holds such a chain behind the configuration, in which there is what the configuration and the
interfaces announce; what is no configuration comes to a device that has no interfaces. -/
def WellFormed (c : Flash) : Prop :=
  buf 1 ≠ 2 ∧ c 4 = 0 ∨
    buf 1 = 2 ∧ ∃ ifs, Chain buf (header buf c) (le16 (header buf c) 2) ⟨(header buf c 0).toNat, -1, []⟩ ifs ∧
      ∀ i, i < bNumInterfaces (header buf c) → ∃ x, ifs[i]? = some x ∧ x.declared ≤ x.eps

variable {big : Bool} {buf c c₀ : Flash} {total a dst slot src x i : Nat} {ifs : List Iface}

theorem setByte_eq (v : UInt8) : setByte c a v a = v := by
  simp [setByte, store, patch]

theorem setByte_ne (v : UInt8) (h : x ≠ a) : setByte c a v x = c x := by
  apply store_outside
  rw [length_singleton]
  omega

theorem le16ToCpus_ne (h : x < a ∨ a + 2 ≤ x) : le16ToCpus big c a x = c x := by
  unfold le16ToCpus
  split
  · exact store_outside h
  · rfl

theorem word16_le16ToCpus : word16 big (le16ToCpus big c a) a = le16 c a := by
  unfold word16 le16ToCpus
  split
  · simp [be16, le16, store, patch, Nat.add_comm]
  · rfl

theorem word16_congr {c' : Flash} (h₀ : c' a = c a) (h₁ : c' (a + 1) = c (a + 1)) :
    word16 big c' a = word16 big c a := by
  unfold word16 be16 le16
  rw [h₀, h₁]

theorem copyDesc_fits (h : (buf src).toNat ≤ slot) (h' : src + (buf src).toNat ≤ usbBufsiz) :
    copyDesc buf c dst slot src = some (store c dst (read buf src (buf src).toNat)) := if_pos ⟨h, h'⟩

theorem copyDesc_some {c' : Flash} (h : copyDesc buf c dst slot src = some c') :
    (buf src).toNat ≤ slot ∧ src + (buf src).toNat ≤ usbBufsiz ∧ c' = store c dst (read buf src (buf src).toNat) := by
  unfold copyDesc at h
  split at h
  next hfits => exact ⟨hfits.1, hfits.2, (Option.some.inj h).symm⟩
  · cases h

theorem copied_outside (hx : x < dst ∨ dst + slot ≤ x) (h : (buf src).toNat ≤ slot) :
    store c dst (read buf src (buf src).toNat) x = c x := by
  apply store_outside
  rw [read_length]
  omega

/-- The configuration holds the interfaces, and its own fields are those of the header. -/
structure Table (big : Bool) (c₀ c : Flash) (ifs : List Iface) : Prop where
  count : noOfIf c = ifs.length
  few : ifs.length ≤ usbMaxinterfaces
  num : c 4 = c₀ 4
  total : word16 big c 2 = le16 c₀ 2
  iface : ∀ i x, ifs[i]? = some x → bNumEndpoints c i = x.declared ∧ noOfEp c i = x.eps
  fresh : ∀ x, ifDesc ifs.length ≤ x → c x = c₀ x

/-- Nothing but the slots of some interface has changed. -/
structure Kept (c c' : Flash) (n : Nat) : Prop where
  low : ∀ x, x < ifDesc n → x ≠ 9 → c' x = c x
  high : ∀ x, ifDesc (n + 1) ≤ x → c' x = c x

theorem Table.header (c : Flash) (buf : Flash) :
    Table big (UsbConfig.header buf c) (setByte (le16ToCpus big (UsbConfig.header buf c) 2) 9 0) [] := by
  refine ⟨?_, Nat.zero_le _, ?_, ?_, ?_, ?_⟩
  · unfold noOfIf
    rw [setByte_eq]
    rfl
  · rw [setByte_ne _ (by decide), le16ToCpus_ne (by decide)]
  · rw [word16_congr (setByte_ne _ (by decide)) (setByte_ne _ (by decide)), word16_le16ToCpus]
  · intro i x hx
    cases hx
  · intro x hx
    have hlow : 10 ≤ x := hx
    rw [setByte_ne _ (by omega), le16ToCpus_ne (by omega)]

/-- The parse and the place in the buffer. -/
structure Related (big : Bool) (c₀ : Flash) (st : Parse) (a : At) : Prop where
  table : Table big c₀ st.config a.ifs
  index : st.index = a.index
  cur : st.currIfNum = a.cur
  ifno : st.ifno = (a.ifs.length : Int) - 1
  first : a.ifs = [] → a.cur = -1

theorem Table.put {c' : Flash} {old : List Iface} {y : Iface} (h : Table big c₀ c old)
    (hold : ∀ i, i < ifs.length → old[i]? = ifs[i]?) (hlen : old.length ≤ ifs.length + 1) (hk : Kept c c' ifs.length)
    (hcount : noOfIf c' = ifs.length + 1) (hfew : ifs.length < usbMaxinterfaces)
    (hdeclared : bNumEndpoints c' ifs.length = y.declared) (heps : noOfEp c' ifs.length = y.eps) :
    Table big c₀ c' (ifs ++ [y]) := by
  have hlow : ∀ x, x < 9 → c' x = c x := fun x hx => hk.low x (by unfold ifDesc; omega) (by omega)
  refine ⟨?_, ?_, (hlow 4 (by decide)).trans h.num, ?_, ?_, ?_⟩
  · rw [hcount, length_append, length_singleton]
  · rw [length_append, length_singleton]
    exact hfew
  · rw [word16_congr (hlow 2 (by decide)) (hlow 3 (by decide))]
    exact h.total
  · intro i x hx
    rcases lt_trichotomy i ifs.length with hlt | heq | hgt
    · rw [List.getElem?_append_left hlt, ← hold i hlt] at hx
      obtain ⟨hd, he⟩ := h.iface i x hx
      unfold bNumEndpoints at hd ⊢
      unfold noOfEp at he ⊢
      rw [hk.low _ (by unfold ifDesc; omega) (by unfold ifDesc; omega),
        hk.low _ (by unfold ifDesc; omega) (by unfold ifDesc; omega)]
      exact ⟨hd, he⟩
    · subst heq
      rw [List.getElem?_concat_length] at hx
      cases hx
      exact ⟨hdeclared, heps⟩
    · rw [List.getElem?_eq_none (by rw [length_append, length_singleton]; omega)] at hx
      cases hx
  · intro x hx
    rw [length_append, length_singleton] at hx
    have hmore : ifDesc old.length ≤ ifDesc (ifs.length + 1) := by
      unfold ifDesc
      omega
    rw [hk.high x hx]
    exact h.fresh x (by omega)

theorem newInterface_field {n p k : Nat} {v : UInt8} (hk : k < 9) :
    setByte (setByte (store (setByte c 9 v) (ifDesc n) (read buf p (buf p).toNat)) (ifDesc n + 9) 0) (ifDesc n + 10) 1
      (ifDesc n + k) = field buf c p n k := by
  rw [setByte_ne _ (by omega), setByte_ne _ (by omega), store_read]
  unfold field
  split
  next hin =>
    rw [patch_inside (by omega) (by omega), Nat.add_sub_cancel_left]
  next hout =>
    rw [patch_outside (by omega), setByte_ne _ (by unfold ifDesc; omega)]

theorem newInterface_kept {n p : Nat} {v : UInt8} (hlen : (buf p).toNat ≤ interfaceSize) :
    Kept c (setByte (setByte (store (setByte c 9 v) (ifDesc n) (read buf p (buf p).toNat)) (ifDesc n + 9) 0)
      (ifDesc n + 10) 1) n := by
  have hnext : ifDesc (n + 1) = ifDesc n + interfaceSize := by
    unfold ifDesc interfaceSize
    omega
  have hsize : interfaceSize = 172 := by rfl
  constructor
  · intro x hx hne
    rw [setByte_ne _ (by omega), setByte_ne _ (by omega), copied_outside (.inl hx) hlen, setByte_ne _ hne]
  · intro x hx
    rw [setByte_ne _ (by omega), setByte_ne _ (by omega), copied_outside (.inr (by omega)) hlen,
      setByte_ne _ (by unfold ifDesc at hx; omega)]

theorem Table.bump (h : Table big c₀ c ifs) (hfew : ifs.length < usbMaxinterfaces) :
    (c 9 + 1).toNat = ifs.length + 1 := by
  have hcount := h.count
  unfold noOfIf at hcount
  unfold usbMaxinterfaces at hfew
  rw [UInt8.toNat_add, hcount]
  exact Nat.mod_eq_of_lt (by show ifs.length + 1 < 256; omega)

theorem parseInterface_new {st : Parse} {cur : Int} {p : Nat} (h : Related big c₀ st ⟨p, cur, ifs⟩)
    (hin : p + 2 < usbBufsiz) (hcur : ((buf (p + 2)).toNat : Int) ≠ cur) (hfew : ifs.length < usbMaxinterfaces)
    (hlen : (buf p).toNat ≤ interfaceSize) (hend : p + (buf p).toNat ≤ usbBufsiz) :
    ∃ st', parseInterface buf st = some st' ∧ Related big c₀ { st' with index := p + (buf p).toNat }
      ⟨p + (buf p).toNat, (field buf c₀ p ifs.length 2).toNat, ifs ++ [⟨(field buf c₀ p ifs.length 4).toNat, 0⟩]⟩ := by
  have hindex := h.index
  have hcur' := h.cur
  have hcount := h.table.count
  have hfield : ∀ k, field buf st.config p ifs.length k = field buf c₀ p ifs.length k := by
    intro k
    unfold field
    rw [h.table.fresh _ (Nat.le_add_right _ _)]
  unfold parseInterface
  simp only [hindex, hcur', hcount, if_pos hin, if_pos hcur, if_pos hfew, copyDesc_fits hlen hend, Option.bind_eq_bind,
    Option.bind_some]
  refine ⟨_, rfl, ?_, rfl, ?_, ?_, fun hnil => absurd hnil (by simp)⟩
  · refine h.table.put (fun _ _ => rfl) (Nat.le_succ _) (newInterface_kept hlen) ?_ hfew ?_ ?_
    · unfold noOfIf
      dsimp only
      rw [setByte_ne _ (by unfold ifDesc; omega), setByte_ne _ (by unfold ifDesc; omega),
        copied_outside (.inl (by unfold ifDesc; omega)) hlen, setByte_eq]
      exact h.table.bump hfew
    · unfold bNumEndpoints
      dsimp only
      rw [newInterface_field (by decide), hfield]
    · unfold noOfEp
      dsimp only
      rw [setByte_ne _ (by omega), setByte_eq]
      rfl
  · dsimp only
    rw [newInterface_field (by decide), hfield]
  · dsimp only
    rw [length_append, length_singleton]
    omega

theorem Related.current {st : Parse} {a : At} (h : Related big c₀ st a) (hne : a.ifs ≠ []) :
    ∃ ifs x, a.ifs = ifs ++ [x] ∧ st.ifno = ifs.length ∧ ifs.length < usbMaxinterfaces := by
  have hifno := h.ifno
  have hfew := h.table.few
  rcases eq_nil_or_concat a.ifs with hnil | ⟨ifs, x, hifs⟩
  · exact absurd hnil hne
  · rw [concat_eq_append] at hifs
    rw [hifs, length_append, length_singleton] at hifno hfew
    exact ⟨ifs, x, hifs, by omega, hfew⟩

theorem parseInterface_again {st : Parse} {cur : Int} {p : Nat} (h : Related big c₀ st ⟨p, cur, ifs⟩)
    (hin : p + 2 < usbBufsiz) (hcur : ((buf (p + 2)).toNat : Int) = cur) :
    ∃ st', parseInterface buf st = some st' ∧
      Related big c₀ { st' with index := p + (buf p).toNat } ⟨p + (buf p).toNat, cur, ifs⟩ := by
  have hindex := h.index
  have hcur' := h.cur
  have hfirst := h.first
  dsimp only at hindex hcur' hfirst
  obtain ⟨ifs', x, rfl, hifno, hfew⟩ := h.current (fun hnil => by
    have hneg := hfirst hnil
    omega)
  have hhere : 0 ≤ st.ifno ∧ st.ifno < usbMaxinterfaces := by
    rw [hifno]
    omega
  obtain ⟨hdeclared, heps⟩ := h.table.iface ifs'.length x List.getElem?_concat_length
  have hcount := h.table.count
  rw [length_append, length_singleton] at hcount
  unfold parseInterface
  simp only [hindex, hcur', if_pos hin, hcur, ne_eq, not_true_eq_false, if_false, if_pos hhere]
  refine ⟨_, rfl, ?_, rfl, rfl, h.ifno, h.first⟩
  have htoNat : st.ifno.toNat = ifs'.length := by omega
  rw [htoNat]
  refine h.table.put (fun i hi => List.getElem?_append_left hi) (by rw [length_append]; rfl) ?_ ?_ hfew ?_ ?_
  · exact ⟨fun x hx _ => setByte_ne _ (by omega), fun x hx => setByte_ne _ (by unfold ifDesc at hx ⊢; omega)⟩
  · unfold noOfIf at hcount ⊢
    dsimp only
    rw [setByte_ne _ (by unfold ifDesc; omega)]
    exact hcount
  · unfold bNumEndpoints at hdeclared ⊢
    dsimp only
    rw [setByte_ne _ (by omega)]
    exact hdeclared
  · unfold noOfEp at heps ⊢
    dsimp only
    rw [setByte_ne _ (by omega)]
    exact heps

theorem newEndpoint_outside {n ep p : Nat} {v : UInt8} (hep : ep < usbMaxendpoints)
    (hlen : (buf p).toNat ≤ endpointSize) (hx : x < ifDesc n + 12 ∨ ifDesc (n + 1) ≤ x) (hne : x ≠ ifDesc n + 9) :
    le16ToCpus big (store (setByte c (ifDesc n + 9) v) (epDesc n ep) (read buf p (buf p).toNat)) (epDesc n ep + 4) x =
      c x := by
  have hsize : endpointSize = 10 := by rfl
  have hmany : usbMaxendpoints = 16 := by rfl
  have hslot : ifDesc n + 12 ≤ epDesc n ep ∧ epDesc n ep + 10 ≤ ifDesc (n + 1) := by
    unfold epDesc ifDesc
    omega
  rw [le16ToCpus_ne (by omega), copied_outside (by omega) hlen, setByte_ne _ hne]

theorem newEndpoint_count {n ep p : Nat} (hep : ep < usbMaxendpoints) (hlen : (buf p).toNat ≤ endpointSize)
    (hcount : noOfEp c n = ep) :
    noOfEp (le16ToCpus big (store (setByte c (ifDesc n + 9) (c (ifDesc n + 9) + 1)) (epDesc n ep)
      (read buf p (buf p).toNat)) (epDesc n ep + 4)) n = ep + 1 := by
  unfold noOfEp at hcount ⊢
  unfold usbMaxendpoints at hep
  rw [le16ToCpus_ne (by unfold epDesc; omega), copied_outside (.inl (by unfold epDesc; omega)) hlen, setByte_eq,
    UInt8.toNat_add, hcount]
  exact Nat.mod_eq_of_lt (by show ep + 1 < 256; omega)

theorem parseEndpoint_put {st : Parse} {cur : Int} {p : Nat} {x : Iface} (h : Related big c₀ st ⟨p, cur, ifs ++ [x]⟩)
    (hfew : x.eps < usbMaxendpoints) (hlen : (buf p).toNat ≤ endpointSize) (hend : p + (buf p).toNat ≤ usbBufsiz) :
    ∃ st', parseEndpoint big buf st = some st' ∧ Related big c₀ { st' with index := p + (buf p).toNat }
      ⟨p + (buf p).toNat, cur, ifs ++ [⟨x.declared, x.eps + 1⟩]⟩ := by
  have hindex := h.index
  obtain ⟨ifs', x', hifs, hifno, hroom⟩ := h.current (by simp)
  obtain ⟨rfl, hx⟩ := append_inj' hifs rfl
  cases hx
  have hhere : 0 ≤ st.ifno ∧ st.ifno < usbMaxinterfaces := by
    rw [hifno]
    omega
  obtain ⟨hdeclared, heps⟩ := h.table.iface ifs.length x List.getElem?_concat_length
  have hcount := h.table.count
  rw [length_append, length_singleton] at hcount
  have htoNat : st.ifno.toNat = ifs.length := by omega
  unfold parseEndpoint
  simp only [hindex, if_pos hhere, htoNat, heps, if_pos hfew, copyDesc_fits hlen hend, Option.bind_eq_bind,
    Option.bind_some]
  refine ⟨_, rfl, ?_, rfl, h.cur, ?_, fun hnil => absurd hnil (by simp)⟩
  · refine h.table.put (fun i hi => List.getElem?_append_left hi) (by rw [length_append]; rfl) ?_ ?_ hroom ?_ ?_
    · constructor
      · intro y hy hne
        exact newEndpoint_outside hfew hlen (.inl (by omega)) (by omega)
      · intro y hy
        refine newEndpoint_outside hfew hlen (.inr hy) ?_
        unfold ifDesc at hy ⊢
        omega
    · unfold noOfIf at hcount ⊢
      dsimp only
      rw [newEndpoint_outside hfew hlen (.inl (by unfold ifDesc; omega)) (by unfold ifDesc; omega)]
      exact hcount
    · unfold bNumEndpoints at hdeclared ⊢
      dsimp only
      rw [newEndpoint_outside hfew hlen (.inl (by omega)) (by omega)]
      exact hdeclared
    · exact newEndpoint_count hfew hlen heps
  · have hifno' := h.ifno
    rw [length_append, length_singleton] at hifno' ⊢
    exact hifno'

theorem parseInterface_some {st st' : Parse} {cur : Int} {p : Nat} (h : Related big c₀ st ⟨p, cur, ifs⟩)
    (htype : buf (p + 1) = 4) (hrun : parseInterface buf st = some st') :
    ∃ a', Step buf c₀ ⟨p, cur, ifs⟩ a' ∧ Related big c₀ { st' with index := p + (buf p).toNat } a' := by
  have hindex := h.index
  have hcur' := h.cur
  have hcount := h.table.count
  have hcopy := hrun
  unfold parseInterface at hcopy
  simp only [hindex, hcur', hcount] at hcopy
  split at hcopy
  next hin =>
    by_cases hcur : ((buf (p + 2)).toNat : Int) = cur
    · obtain ⟨st'', hrun', hrel⟩ := parseInterface_again h hin hcur
      cases hrun.symm.trans hrun'
      exact ⟨_, Step.again htype hin hcur, hrel⟩
    rw [if_pos hcur] at hcopy
    split at hcopy
    next hfew =>
      obtain ⟨c', hc', -⟩ := Option.bind_eq_some_iff.mp hcopy
      obtain ⟨hlen, hend, -⟩ := copyDesc_some hc'
      obtain ⟨st'', hrun', hrel⟩ := parseInterface_new h hin hcur hfew hlen hend
      cases hrun.symm.trans hrun'
      exact ⟨_, Step.interface htype hin hcur hfew hlen hend, hrel⟩
    · cases hcopy
  · cases hcopy

theorem parseEndpoint_some {st st' : Parse} {cur : Int} {p : Nat} (h : Related big c₀ st ⟨p, cur, ifs⟩)
    (htype : buf (p + 1) = 5) (hrun : parseEndpoint big buf st = some st') :
    ∃ a', Step buf c₀ ⟨p, cur, ifs⟩ a' ∧ Related big c₀ { st' with index := p + (buf p).toNat } a' := by
  have hindex := h.index
  have hifno := h.ifno
  have hcopy := hrun
  unfold parseEndpoint at hcopy
  simp only [hindex] at hcopy
  split at hcopy
  next hhere =>
    obtain ⟨ifs', x, hifs, hlast, hroom⟩ := h.current (by
      intro hnil
      rw [hnil, length_nil] at hifno
      omega)
    subst hifs
    obtain ⟨-, heps⟩ := h.table.iface ifs'.length x List.getElem?_concat_length
    have htoNat : st.ifno.toNat = ifs'.length := by omega
    rw [htoNat, heps] at hcopy
    split at hcopy
    next hfew =>
      obtain ⟨c', hc', -⟩ := Option.bind_eq_some_iff.mp hcopy
      obtain ⟨hlen, hend, -⟩ := copyDesc_some hc'
      obtain ⟨st'', hrun', hrel⟩ := parseEndpoint_put h hfew hlen hend
      cases hrun.symm.trans hrun'
      exact ⟨_, Step.endpoint htype hfew hlen hend, hrel⟩
    · cases hcopy
  · cases hcopy

theorem round_of_step {st : Parse} {a a' : At} (h : Related big c₀ st a) (htotal : a.index + 1 < le16 c₀ 2)
    (hhere : a.index + 1 < usbBufsiz) (hpos : 0 < (buf a.index).toNat) (hstep : Step buf c₀ a a') :
    ∃ st', round big buf st = some (.inl st') ∧ Related big c₀ st' a' := by
  have hindex := h.index
  unfold round
  rw [hindex, h.table.total, if_pos htotal, if_pos hhere]
  cases hstep with
  | again htype hin hcur =>
    obtain ⟨st', hrun, hrel⟩ := parseInterface_again h hin hcur
    simp only [htype, if_true, hrun, Option.bind_eq_bind, Option.bind_some]
    exact ⟨_, rfl, hrel⟩
  | interface htype hin hcur hfew hlen hend =>
    obtain ⟨st', hrun, hrel⟩ := parseInterface_new h hin hcur hfew hlen hend
    simp only [htype, if_true, hrun, Option.bind_eq_bind, Option.bind_some]
    exact ⟨_, rfl, hrel⟩
  | endpoint htype hfew hlen hend =>
    obtain ⟨st', hrun, hrel⟩ := parseEndpoint_put h hfew hlen hend
    have hne : ¬((5 : UInt8) = 4) := by decide
    simp only [htype, if_neg hne, if_true, hrun, Option.bind_eq_bind, Option.bind_some]
    exact ⟨_, rfl, hrel⟩
  | other hif hep =>
    dsimp only at hpos
    simp only [if_neg hif, if_neg hep]
    rw [if_neg (by omega)]
    exact ⟨_, rfl, h.table, rfl, h.cur, h.ifno, h.first⟩

theorem step_of_round {st st' : Parse} {a : At} (h : Related big c₀ st a) (hrun : round big buf st = some (.inl st')) :
    a.index + 1 < le16 c₀ 2 ∧ a.index + 1 < usbBufsiz ∧
      (buf (a.index + 1) ≠ 4 → buf (a.index + 1) ≠ 5 → 0 < (buf a.index).toNat) ∧
        ∃ a', Step buf c₀ a a' ∧ Related big c₀ st' a' := by
  obtain ⟨p, cur, ifs⟩ := a
  have hindex := h.index
  dsimp only at hindex ⊢
  unfold round at hrun
  rw [hindex, h.table.total] at hrun
  split at hrun
  next htotal =>
    split at hrun
    next hin =>
      refine ⟨htotal, hin, ?_⟩
      dsimp only at hrun
      split at hrun
      next htype =>
        obtain ⟨st₁, hrun₁, heq⟩ := Option.bind_eq_some_iff.mp hrun
        cases heq
        obtain ⟨a', hstep, hrel⟩ := parseInterface_some h htype hrun₁
        exact ⟨fun hne => absurd htype hne, a', hstep, hrel⟩
      next hif =>
        split at hrun
        next htype =>
          obtain ⟨st₁, hrun₁, heq⟩ := Option.bind_eq_some_iff.mp hrun
          cases heq
          obtain ⟨a', hstep, hrel⟩ := parseEndpoint_some h htype hrun₁
          exact ⟨fun _ hne => absurd htype hne, a', hstep, hrel⟩
        next hep =>
          split at hrun
          next hzero => cases hrun
          next hlen =>
            cases hrun
            exact ⟨fun _ _ => by omega, _, Step.other hif hep, h.table, rfl, h.cur, h.ifno, h.first⟩
    · cases hrun
  · cases hrun

theorem chain_of_end {st : Parse} {a : At} (h : Related big c₀ st a) (hrun : round big buf st = some (.inr c)) :
    c = st.config ∧ Chain buf c₀ (le16 c₀ 2) a a.ifs := by
  have hindex := h.index
  unfold round at hrun
  rw [hindex, h.table.total] at hrun
  split at hrun
  next htotal =>
    split at hrun
    next hin =>
      dsimp only at hrun
      split at hrun
      next htype =>
        obtain ⟨st₁, -, heq⟩ := Option.bind_eq_some_iff.mp hrun
        cases heq
      next hif =>
        split at hrun
        next htype =>
          obtain ⟨st₁, -, heq⟩ := Option.bind_eq_some_iff.mp hrun
          cases heq
        next hep =>
          split at hrun
          next hzero =>
            cases hrun
            exact ⟨rfl, Chain.null htotal hin hif hep hzero⟩
          next hlen => cases hrun
    · cases hrun
  next htotal =>
    cases hrun
    exact ⟨rfl, Chain.done (not_lt.mp htotal)⟩

theorem Step.index {a a' : At} (h : Step buf c₀ a a') : a'.index = a.index + (buf a.index).toNat := by
  cases h <;> rfl

theorem Chain.longer {a a' : At} (h : Chain buf c₀ total a' ifs) (hstep : Step buf c₀ a a')
    (htotal : a.index + 1 < total)
    (hlen : buf (a.index + 1) ≠ 4 → buf (a.index + 1) ≠ 5 → 0 < (buf a.index).toNat) : 0 < (buf a.index).toNat := by
  have hindex := hstep.index
  by_contra hzero
  have hsame : a'.index = a.index := by omega
  cases h with
  | done hdone => omega
  | null _ _ hif hep _ =>
    rw [hsame] at hif hep
    exact hzero (hlen hif hep)
  | next _ _ hpos _ _ =>
    rw [hsame] at hpos
    exact hzero hpos

theorem loop_of_chain {st : Parse} {a : At} (hchain : Chain buf c₀ (le16 c₀ 2) a ifs) (h : Related big c₀ st a) :
    ∃ c, (Comp.loop (fun st => Comp.round (round big buf st)) st).Returns (some c) ∧ Table big c₀ c ifs := by
  induction hchain generalizing st with
  | done hdone =>
    refine ⟨st.config, Comp.loop_done (Comp.returns_round_done.mpr ?_), h.table⟩
    unfold round
    rw [h.index, h.table.total, if_neg (not_lt.mpr hdone)]
    rfl
  | null htotal hin hif hep hlen =>
    refine ⟨st.config, Comp.loop_done (Comp.returns_round_done.mpr ?_), h.table⟩
    unfold round
    rw [h.index, h.table.total, if_pos htotal, if_pos hin]
    simp only [if_neg hif, if_neg hep, if_pos hlen]
    rfl
  | next htotal hin hlen hstep _ ih =>
    obtain ⟨st', hrun, hrel⟩ := round_of_step h htotal hin hlen hstep
    obtain ⟨c, hret, htable⟩ := ih hrel
    exact ⟨c, Comp.loop_again (Comp.returns_round_again.mpr hrun) hret, htable⟩

theorem chain_of_loop {st : Parse} {a : At} {r : Option Flash} (h : Related big c₀ st a)
    (hret : (Comp.loop (fun st => Comp.round (round big buf st)) st).Returns r) :
    ∀ c, r = some c → ∃ ifs, Chain buf c₀ (le16 c₀ 2) a ifs ∧ Table big c₀ c ifs := by
  refine Comp.loop_induction (R := fun st r => ∀ a, Related big c₀ st a → ∀ c, r = some c →
    ∃ ifs, Chain buf c₀ (le16 c₀ 2) a ifs ∧ Table big c₀ c ifs) ?_ ?_ hret a h
  · rintro st r hround a h c rfl
    obtain ⟨rfl, hchain⟩ := chain_of_end h (Comp.returns_round_done.mp hround)
    exact ⟨a.ifs, hchain, h.table⟩
  · intro st st' r hround ih a h c hr
    obtain ⟨htotal, hin, hlen, a', hstep, hrel⟩ := step_of_round h (Comp.returns_round_again.mp hround)
    obtain ⟨ifs, hchain, htable⟩ := ih a' hrel c hr
    exact ⟨ifs, Chain.next htotal hin (hchain.longer hstep htotal hlen) hstep hchain, htable⟩

theorem seesParsed_failed_iff : SeesParsed (-1) c ↔ c 4 = 0 := by
  have hnum : c 4 = 0 ↔ bNumInterfaces c = 0 := UInt8.toNat_inj.symm
  unfold SeesParsed interfacesSeen
  rw [hnum]
  constructor
  · intro h
    by_contra hne
    obtain ⟨hret, -⟩ := h 0 (mem_range.mpr (Nat.pos_of_ne_zero hne))
    exact absurd hret (by decide)
  · intro hzero i hi
    rw [hzero] at hi
    cases hi

theorem Table.seesParsed_iff (h : Table big c₀ c ifs) :
    SeesParsed 1 c ↔ ∀ i, i < bNumInterfaces c₀ → ∃ x, ifs[i]? = some x ∧ x.declared ≤ x.eps := by
  have hnum : bNumInterfaces c = bNumInterfaces c₀ := congrArg UInt8.toNat h.num
  unfold SeesParsed interfacesSeen endpointsSeen
  rw [hnum]
  constructor
  · intro hsees i hi
    obtain ⟨-, hin, heps⟩ := hsees i (mem_range.mpr hi)
    rw [h.count] at hin
    obtain ⟨hd, he⟩ := h.iface i _ (List.getElem?_eq_getElem hin)
    refine ⟨_, List.getElem?_eq_getElem hin, ?_⟩
    by_contra hless
    have hall := heps (ifs[i].eps) (mem_range.mpr (by omega))
    omega
  · intro hall i hi
    obtain ⟨x, hx, hle⟩ := hall i (mem_range.mp hi)
    obtain ⟨hin, -⟩ := List.getElem?_eq_some_iff.mp hx
    obtain ⟨hd, he⟩ := h.iface i x hx
    refine ⟨rfl, by rw [h.count]; exact hin, fun ii hii => ?_⟩
    have hlt := mem_range.mp hii
    omega

theorem related_start (big : Bool) (dev : Dev) (buf : Flash) : Related big (header buf dev.config)
      ⟨setByte (le16ToCpus big (header buf dev.config) 2) 9 0,
        (setByte (le16ToCpus big (header buf dev.config) 2) 9 0 0).toNat, -1, -1⟩
      ⟨(header buf dev.config 0).toNat, -1, []⟩ := by
  refine ⟨Table.header dev.config buf, ?_, rfl, rfl, fun _ => rfl⟩
  rw [setByte_ne _ (by decide), le16ToCpus_ne (by decide)]

/-- The parse of the configuration and the look at it that follows are safe for exactly the buffers with a chain of
descriptors that all have their place and are as many as they announce. -/
theorem usb_parse_config_safe_iff (big : Bool) (buf : Flash) (dev : Dev) (cfgno : Int) :
    Safe big buf dev cfgno ↔ WellFormed buf dev.config := by
  unfold Safe usbParseConfig WellFormed
  by_cases htype : buf 1 ≠ 2
  · rw [if_pos htype]
    constructor
    · rintro ⟨ret, dev', hret, hsees⟩
      cases Comp.returns_pure_iff.mp hret
      exact .inl ⟨htype, seesParsed_failed_iff.mp hsees⟩
    · rintro (⟨-, hnone⟩ | ⟨hcfg, -⟩)
      · exact ⟨_, _, Comp.returns_pure _, seesParsed_failed_iff.mpr hnone⟩
      · exact absurd hcfg htype
  have hcfg : buf 1 = 2 := not_not.mp htype
  have hstart := related_start big dev buf
  rw [if_neg htype]
  constructor
  · rintro ⟨ret, dev', hret, hsees⟩
    obtain ⟨r, hloop, hret'⟩ := Comp.returns_bind.mp hret
    cases r with
    | none => cases Comp.returns_pure_iff.mp hret'
    | some c =>
      cases Comp.returns_pure_iff.mp hret'
      obtain ⟨ifs, hchain, htable⟩ := chain_of_loop hstart hloop c rfl
      exact .inr ⟨hcfg, ifs, hchain, htable.seesParsed_iff.mp hsees⟩
  · rintro (⟨hne, -⟩ | ⟨-, ifs, hchain, hall⟩)
    · exact absurd hcfg hne
    · obtain ⟨c, hloop, htable⟩ := loop_of_chain hchain hstart
      exact ⟨_, _, hloop.andThen (Comp.returns_pure _), htable.seesParsed_iff.mpr hall⟩

def endpointFirst : Flash := fun x => [9, 2, 16, 0, 1, 1, 0, 0x80, 50, 7, 5, 0x81, 2, 64, 0, 0].getD x 0

def emptyInterface : Flash := fun x => [9, 2, 18, 0, 1, 1, 0, 0x80, 50, 0, 4, 0, 0, 0, 8, 6, 80, 0].getD x 0

def newDev : Dev := ⟨0, fun _ => 0⟩

/-- The endpoint comes to no interface, and the loop does not leave the descriptor without a length. -/
theorem endpoint_first_unsafe : ¬Safe false endpointFirst newDev 0 ∧ ¬Safe false emptyInterface newDev 0 := by
  constructor
  · rintro ⟨ret, dev', hret, -⟩
    have hnone : (usbParseConfig false endpointFirst newDev 0).Returns none := ⟨1, rfl⟩
    cases hret.unique hnone
  · rintro ⟨ret, dev', hret, -⟩
    obtain ⟨r, hloop, hret'⟩ := Comp.returns_bind.mp hret
    cases r with
    | none => cases Comp.returns_pure_iff.mp hret'
    | some c =>
      obtain ⟨ifs, hchain, -⟩ := chain_of_loop (related_start false newDev emptyInterface) hloop c rfl
      cases hchain with
      | done hdone => exact absurd hdone (by decide)
      | null _ _ hif _ _ => exact hif rfl
      | next _ _ hlen _ _ => exact absurd hlen (by decide)

end UBoot.UsbConfig
