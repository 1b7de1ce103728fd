import Mathlib.Logic.Relation
import UBoot.TreeWalk

namespace UBoot.Cdp

open Loops

def snapHdr : List UInt8 := [0xaa, 0xaa, 0x03, 0x00, 0x00, 0x0c, 0x20, 0x00]

def nativeVlanTlv : Nat := 0x000a
def applianceVlanTlv : Nat := 0x000e

/-- A `ushort` as a little-endian processor loads it. -/
def short (lo hi : UInt8) : UInt16 := lo.toUInt16 + (hi.toUInt16 <<< 8)

def swap (x : UInt16) : UInt16 := (x <<< 8) ||| (x >>> 8)

/-- `(result & 0xFFFF) + (result >> 16)` -/
def foldCarry (result : UInt32) : UInt32 := (result &&& (0xffff : UInt32)) + (result >>> (16 : UInt32))

/-- The loop of `CDP_compute_csum` over the words: the sum and what is left of the bytes. -/
def sumWords : List UInt8 → UInt32 → UInt32 × List UInt8
  | lo :: hi :: buff, result =>
    let result := result + (short lo hi).toUInt32
    sumWords buff (if result &&& 0x80000000 ≠ 0 then foldCarry result else result)
  | buff, result => (result, buff)

/-- `while (result >> 16)`. The sum gets smaller in each round. -/
def foldCarries : Nat → UInt32 → UInt32
  | 0, result => result
  | fuel + 1, result =>
    if result >>> 16 = 0 then result else foldCarries fuel (foldCarry result)

def leftover (c : UInt8) : UInt32 := if c &&& 0x80 = 0 then c.toUInt32 else 0xff00 + c.toUInt32

/-- `((result >> 8) & 0xff) | ((result & 0xff) << 8)` -/
def swapLow (result : UInt32) : UInt32 :=
  let lo : UInt32 := (result >>> 8) &&& (0xff : UInt32)
  let hi : UInt32 := (result &&& (0xff : UInt32)) <<< 8
  lo ||| hi

/-- `CDP_compute_csum`, at an odd address or at an even one. The length is a `ushort`. -/
def cdpComputeCsum (odd : Bool) (buff : List UInt8) : UInt16 :=
  let buff := buff.take (buff.length % 65536)
  let result : UInt32 :=
    if buff = [] then 0
    else
      let first := if odd then (buff.headD 0).toUInt32 <<< 8 else 0
      let (result, rest) := sumWords (if odd then buff.tail else buff) first
      let result := match rest with
        | [] => result
        | c :: _ => (result &&& 0xffff0000) ||| ((result + leftover c) &&& 0xffff)
      let result := foldCarries result.toNat result
      if odd then swapLow result else result
  swap (~~~(foldCarry (foldCarry (foldCarry result))).toUInt16)

/-- What the handler has come to: nothing, `** CDP packet is too short`, or the two VLANs. -/
inductive Outcome where
  | ignored
  | short
  | ok (appliance native : UInt16)
deriving DecidableEq

/-- The bytes from the pointer into the packet on, and the VLANs so far. -/
structure State where
  pkt : List UInt8
  vlan : UInt16
  nvlan : UInt16

variable (applianceType : Option UInt8)

def applianceEntry (t : List UInt8) (vlan : UInt16) : Option UInt16 := do
  let applid ← t[0]?
  match applianceType with
  | some type => if applid = type then do some (short (← t[1]?) (← t[2]?)) else some vlan
  | none => do some (swap (short (← t[1]?) (← t[2]?)))

/-- The loop over the entries of the appliance VLAN. The inner `none` is a TLV that ends inside an entry. -/
def applianceLoop (t : List UInt8) : Nat → UInt16 → Option (Option UInt16)
  | 0, vlan => some (some vlan)
  | 1, _ | 2, _ => some none
  | tlen + 3, vlan => do
    let vlan ← applianceEntry applianceType t vlan
    applianceLoop (t.drop 3) tlen vlan

/-- `ntohs(ss[0])` and `ntohs(ss[1])` -/
def word (pkt : List UInt8) (i : Nat) : Nat := (pkt.getD i 0).toNat * 256 + (pkt.getD (i + 1) 0).toNat

def type (pkt : List UInt8) : Nat := word pkt 0
def tlen (pkt : List UInt8) : Nat := word pkt 2

/-- What is left of the length behind `tlen -= 4`, a `ushort`. -/
def bodyLen (pkt : List UInt8) : Nat := (tlen pkt + 65532) % 65536

/-- One round of the loop over the TLVs. -/
def tlvRound (s : State) : Option (State ⊕ Outcome) :=
  if s.pkt = [] then some (.inr (.ok s.vlan s.nvlan))
  else if s.pkt.length < 4 then some (.inr .short)
  else if s.pkt.length < tlen s.pkt then some (.inr .short)
  else
    let ss := s.pkt.drop 4
    let s' := { s with pkt := s.pkt.drop (tlen s.pkt) }
    if type s.pkt = nativeVlanTlv then do
      some (.inl { s' with nvlan := short (← ss[0]?) (← ss[1]?) })
    else if type s.pkt = applianceVlanTlv then do
      match ← applianceLoop applianceType ss (bodyLen s.pkt) s.vlan with
      | none => some (.inr .short)
      | some vlan => some (.inl { s' with vlan := vlan })
    -- the other types are taken and left alone
    else some (.inl s')

def tlvLoop (pkt : List UInt8) : Comp (Option Outcome) :=
  Comp.loop (fun s => Comp.round (tlvRound applianceType s)) ⟨pkt, 0xffff, 0xffff⟩

/-- `CDPHandler`, with the parity of the packet's address. A read behind the end of the packet is a failure. -/
def cdpHandler (odd : Bool) (pkt : List UInt8) : Comp (Option Outcome) :=
  if pkt.length < 12 then Comp.pure (some .short)
  else if pkt.take 8 ≠ snapHdr then Comp.pure (some .ignored)
  else
    let pkt := pkt.drop 8
    if pkt.getD 0 0 < 2 ∨ pkt.getD 1 0 = 0 then Comp.pure (some .ignored)
    else if cdpComputeCsum odd pkt ≠ 0 then Comp.pure (some .ignored)
    else tlvLoop applianceType (pkt.drop 4)

def Accepted (odd : Bool) (pkt : List UInt8) : Prop :=
  12 ≤ pkt.length ∧ pkt.take 8 = snapHdr ∧ ¬((pkt.drop 8).getD 0 0 < 2 ∨ (pkt.drop 8).getD 1 0 = 0) ∧
    cdpComputeCsum odd (pkt.drop 8) = 0

/-- A TLV begins here whose length is not above what is left. -/
def Begins (pkt : List UInt8) : Prop := 4 ≤ pkt.length ∧ tlen pkt ≤ pkt.length

/-- The entries of the appliance VLAN that the length asks for lie in the packet. -/
def EntriesFit (t : List UInt8) (n : Nat) : Prop :=
  ∀ k < n / 3, 3 * k < t.length ∧ (applianceType = none ∨ applianceType = t[3 * k]? → 3 * k + 2 < t.length)

def ReadsFit (pkt : List UInt8) : Prop :=
  (type pkt = nativeVlanTlv → 6 ≤ pkt.length) ∧
    (type pkt = applianceVlanTlv → EntriesFit applianceType (pkt.drop 4) (bodyLen pkt))

/-- The loop goes on behind the TLV with the rest of the packet. -/
def Next (pkt rest : List UInt8) : Prop :=
  Begins pkt ∧ (type pkt = applianceVlanTlv → bodyLen pkt % 3 = 0) ∧ rest = pkt.drop (tlen pkt)

def Sound (pkt : List UInt8) : Prop :=
  Begins pkt → tlen pkt ≠ 0 ∧ (type pkt = nativeVlanTlv → 6 ≤ pkt.length) ∧
    (type pkt = applianceVlanTlv → tlen pkt < 4 → EntriesFit applianceType (pkt.drop 4) (bodyLen pkt))

open Relation

variable {T : Option UInt8} {t pkt rest : List UInt8} {n : Nat} {vlan : UInt16} {odd : Bool} {s s' : State}
  {o : Outcome}

theorem entriesFit_next : EntriesFit T t (n + 3) ↔
    (0 < t.length ∧ (T = none ∨ T = t[0]? → 2 < t.length)) ∧ EntriesFit T (t.drop 3) n := by
  have hdiv : (n + 3) / 3 = n / 3 + 1 := Nat.add_div_right n (Nat.succ_pos 2)
  unfold EntriesFit
  rw [hdiv]
  constructor
  · intro h
    refine ⟨h 0 (Nat.succ_pos _), fun k hk => ?_⟩
    have hnext := h (k + 1) (Nat.succ_lt_succ hk)
    rw [List.length_drop, List.getElem?_drop]
    rw [Nat.mul_succ, Nat.add_comm] at hnext
    exact ⟨by omega, fun htype => by have := hnext.2 htype; omega⟩
  · rintro ⟨hfirst, hrest⟩ k hk
    cases k with
    | zero => exact hfirst
    | succ k =>
      have hnext := hrest k (Nat.lt_of_succ_lt_succ hk)
      rw [List.length_drop, List.getElem?_drop] at hnext
      rw [Nat.mul_succ, Nat.add_comm]
      exact ⟨by omega, fun htype => by have := hnext.2 htype; omega⟩

theorem vlan_some {f : UInt16 → UInt16} :
    (∃ v, (do some (f (short (← t[1]?) (← t[2]?)))) = some v) ↔ 2 < t.length := by
  constructor
  · rintro ⟨v, h⟩
    obtain ⟨lo, _, h⟩ := Option.bind_eq_some_iff.mp h
    obtain ⟨hi, hhi, _⟩ := Option.bind_eq_some_iff.mp h
    exact (List.getElem?_eq_some_iff.mp hhi).1
  · intro h
    rw [List.getElem?_eq_getElem (show 1 < t.length by omega), List.getElem?_eq_getElem h]
    exact ⟨_, rfl⟩

theorem applianceEntry_some : (∃ v, applianceEntry T t vlan = some v) ↔
    0 < t.length ∧ (T = none ∨ T = t[0]? → 2 < t.length) := by
  unfold applianceEntry
  cases t with
  | nil =>
    refine iff_of_false ?_ fun h => absurd h.1 (lt_irrefl 0)
    rintro ⟨_, h⟩
    cases h
  | cons c t =>
    rw [List.getElem?_cons_zero, Option.bind_eq_bind, Option.bind_some]
    cases T with
    | none =>
      refine vlan_some.trans ⟨fun h => ⟨Nat.succ_pos _, fun _ => h⟩, fun h => h.2 (.inl rfl)⟩
    | some type =>
      dsimp only
      by_cases hc : c = type
      · subst c
        rw [if_pos rfl]
        exact (vlan_some (f := id)).trans ⟨fun h => ⟨Nat.succ_pos _, fun _ => h⟩, fun h => h.2 (.inr rfl)⟩
      · rw [if_neg hc]
        refine iff_of_true ⟨vlan, rfl⟩ ⟨Nat.succ_pos _, ?_⟩
        rintro (h | h)
        · cases h
        · exact absurd (Option.some.inj h).symm hc

variable (T t n vlan) in
theorem applianceLoop_spec : (applianceLoop T t n vlan = none ∧ ¬EntriesFit T t n) ∨
    (EntriesFit T t n ∧ n % 3 ≠ 0 ∧ applianceLoop T t n vlan = some none) ∨
      (EntriesFit T t n ∧ n % 3 = 0 ∧ ∃ vlan', applianceLoop T t n vlan = some (some vlan')) := by
  fun_induction applianceLoop T t n vlan with
  | case1 t vlan => exact .inr (.inr ⟨fun k hk => absurd hk (Nat.not_lt_zero k), rfl, vlan, rfl⟩)
  | case2 t => exact .inr (.inl ⟨fun k hk => absurd hk (Nat.not_lt_zero k), by decide, rfl⟩)
  | case3 t => exact .inr (.inl ⟨fun k hk => absurd hk (Nat.not_lt_zero k), by decide, rfl⟩)
  | case4 t n vlan ih =>
    change (_ ∧ ¬EntriesFit T t (n + 3)) ∨ (_ ∧ (n + 3) % 3 ≠ 0 ∧ _) ∨ (_ ∧ (n + 3) % 3 = 0 ∧ _)
    rw [entriesFit_next, Nat.add_mod_right, ← applianceEntry_some]
    cases hentry : applianceEntry T t vlan with
    | none =>
      refine .inl ⟨rfl, ?_⟩
      rintro ⟨⟨_, h⟩, _⟩
      cases h
    | some v =>
      simp only [Option.bind_eq_bind, Option.bind_some]
      rcases ih v with ⟨hfail, hfit⟩ | ⟨hfit, hmod, hrun⟩ | ⟨hfit, hmod, hrun⟩
      · exact .inl ⟨hfail, fun h => hfit h.2⟩
      · exact .inr (.inl ⟨⟨⟨v, rfl⟩, hfit⟩, hmod, hrun⟩)
      · exact .inr (.inr ⟨⟨⟨v, rfl⟩, hfit⟩, hmod, hrun⟩)

theorem tlen_lt (pkt : List UInt8) : tlen pkt < 65536 := by
  unfold tlen word
  have hhi := (pkt.getD 2 0).toNat_lt
  have hlo := (pkt.getD (2 + 1) 0).toNat_lt
  omega

theorem tlvRound_cases (s : State) : (¬Begins s.pkt ∧ ∃ o, tlvRound T s = some (.inr o)) ∨
      (Begins s.pkt ∧ ¬ReadsFit T s.pkt ∧ tlvRound T s = none) ∨
      (Begins s.pkt ∧ ReadsFit T s.pkt ∧ (type s.pkt = applianceVlanTlv ∧ bodyLen s.pkt % 3 ≠ 0) ∧
        ∃ o, tlvRound T s = some (.inr o)) ∨
      (Begins s.pkt ∧ ReadsFit T s.pkt ∧ (type s.pkt = applianceVlanTlv → bodyLen s.pkt % 3 = 0) ∧
        ∃ s', tlvRound T s = some (.inl s') ∧ s'.pkt = s.pkt.drop (tlen s.pkt)) := by
  unfold tlvRound
  split
  next hempty =>
    refine .inl ⟨fun h => ?_, _, rfl⟩
    have hlen := h.1
    rw [hempty] at hlen
    exact absurd hlen (by decide)
  split
  next hshort => exact .inl ⟨fun h => not_lt.mpr h.1 hshort, _, rfl⟩
  split
  next hlong => exact .inl ⟨fun h => not_lt.mpr h.2 hlong, _, rfl⟩
  next _ hfour hfits =>
    right
    have hbegins : Begins s.pkt := ⟨not_lt.mp hfour, not_lt.mp hfits⟩
    dsimp only
    split
    next hnative =>
      have hother : type s.pkt ≠ applianceVlanTlv := by
        rw [hnative]
        decide
      by_cases hsix : 6 ≤ s.pkt.length
      · right
        right
        refine ⟨hbegins, ⟨fun _ => hsix, fun h => absurd h hother⟩, fun h => absurd h hother, ?_⟩
        rw [List.getElem?_drop, List.getElem?_drop, List.getElem?_eq_getElem (by omega),
          List.getElem?_eq_getElem (by omega)]
        exact ⟨_, rfl, rfl⟩
      · refine .inl ⟨hbegins, fun h => hsix (h.1 hnative), ?_⟩
        rw [List.getElem?_drop, List.getElem?_drop, List.getElem?_eq_none (i := 4 + 1) (by omega)]
        cases s.pkt[4 + 0]? <;> rfl
    next hnative =>
      split
      next happ =>
        rcases applianceLoop_spec T (s.pkt.drop 4) (bodyLen s.pkt) s.vlan with
          ⟨hfail, hfit⟩ | ⟨hfit, hmod, hrun⟩ | ⟨hfit, hmod, vlan, hrun⟩
        · refine .inl ⟨hbegins, fun h => hfit (h.2 happ), ?_⟩
          rw [hfail]
          rfl
        · refine .inr (.inl ⟨hbegins, ⟨fun h => absurd h hnative, fun _ => hfit⟩, ⟨happ, hmod⟩, .short, ?_⟩)
          rw [hrun]
          rfl
        · refine .inr (.inr ⟨hbegins, ⟨fun h => absurd h hnative, fun _ => hfit⟩, fun _ => hmod,
            ⟨s.pkt.drop (tlen s.pkt), vlan, s.nvlan⟩, ?_, ?_⟩)
          · rw [hrun]
            rfl
          · rfl
      next happ =>
        exact .inr (.inr ⟨hbegins, ⟨fun h => absurd h hnative, fun h => absurd h happ⟩, fun h => absurd h happ,
          _, rfl, rfl⟩)

theorem sound_iff : Sound T pkt ↔ (Begins pkt → tlen pkt ≠ 0 ∧ ReadsFit T pkt) := by
  constructor
  · intro h hbegins
    obtain ⟨hlen, hnative, happ⟩ := h hbegins
    refine ⟨hlen, hnative, fun htype => ?_⟩
    by_cases hfour : tlen pkt < 4
    · exact happ htype hfour
    · have hbody : bodyLen pkt = tlen pkt - 4 := by
        have := tlen_lt pkt
        unfold bodyLen
        omega
      have hle := hbegins.2
      intro k hk
      rw [hbody] at hk
      rw [List.length_drop]
      exact ⟨by omega, fun _ => by omega⟩
  · intro h hbegins
    obtain ⟨hlen, hreads⟩ := h hbegins
    exact ⟨hlen, hreads.1, fun htype _ => hreads.2 htype⟩

theorem not_finishes_of_zero (h : Finishes (tlvRound T) s o) (hbegins : Begins s.pkt) : tlen s.pkt ≠ 0 := by
  intro hzero
  induction h with
  | @done s o h =>
    rcases tlvRound_cases (T := T) s with ⟨hno, _⟩ | ⟨_, _, hfail⟩ | ⟨_, _, ⟨_, hmod⟩, _⟩ | ⟨_, _, _, s', hs', _⟩
    · exact hno hbegins
    · rw [hfail] at h
      cases h
    · refine hmod ?_
      unfold bodyLen
      rw [hzero]
    · rw [hs'] at h
      cases h
  | @again s t o h hrest ih =>
    have hsame : t.pkt = s.pkt := by
      rcases tlvRound_cases (T := T) s with ⟨_, o', ho⟩ | ⟨_, _, hfail⟩ | ⟨_, _, _, o', ho⟩ | ⟨_, _, _, s', hs', hpkt⟩
      · rw [ho] at h
        cases h
      · rw [hfail] at h
        cases h
      · rw [ho] at h
        cases h
      · rw [hs'] at h
        cases h
        rw [hpkt, hzero, List.drop_zero]
    rw [← hsame] at hbegins hzero
    exact ih hbegins hzero

theorem tlvLoop_safe_iff : (tlvLoop T pkt).Safe ↔ ∀ d, ReflTransGen Next pkt d → Sound T d := by
  unfold Comp.Safe tlvLoop
  simp only [loop_returns_some]
  have hiff : (∃ o, Finishes (tlvRound T) ⟨pkt, 0xffff, 0xffff⟩ o ∧ True) ↔ _ :=
    finishes_good_iff State.pkt Next (Sound T) (fun _ => True) (fun s => s.pkt.length) (fun s _ => ?_) trivial
  · simpa only [and_true] using hiff
  rw [sound_iff]
  rcases tlvRound_cases (T := T) s with ⟨hno, o, ho⟩ | ⟨hbegins, hfail, hnone⟩ | ⟨hbegins, hreads, ⟨htype, hmod⟩, o, ho⟩ |
    ⟨hbegins, hreads, hgoes, s', hs', hpkt⟩
  · exact .inr (.inl ⟨fun hbegins => absurd hbegins hno, fun q hq => hno hq.1, o, ho, trivial⟩)
  · exact .inl ⟨fun h => hfail (h hbegins).2, fun o h => absurd h (not_finishes_of_none hnone o)⟩
  · refine .inr (.inl ⟨fun _ => ⟨fun hzero => hmod ?_, hreads⟩, fun q hq => hmod (hq.2.1 htype), o, ho, trivial⟩)
    unfold bodyLen
    rw [hzero]
  · by_cases hzero : tlen s.pkt = 0
    · exact .inl ⟨fun h => (h hbegins).1 hzero, fun o h => absurd hzero (not_finishes_of_zero h hbegins)⟩
    · have hfour := hbegins.1
      refine .inr (.inr ⟨fun _ => ⟨hzero, hreads⟩, s', hs', trivial, ?_, fun q => ?_⟩)
      · rw [hpkt, List.length_drop]
        omega
      · rw [hpkt]
        exact ⟨fun hq => hq.2.2, fun hq => ⟨hbegins, hgoes, hq⟩⟩

theorem cdpHandler_accepted (h : Accepted odd pkt) : cdpHandler T odd pkt = tlvLoop T (pkt.drop 12) := by
  obtain ⟨hlen, hsnap, hversion, hsum⟩ := h
  unfold cdpHandler
  rw [if_neg (not_lt.mpr hlen), if_neg (not_not.mpr hsnap)]
  rw [if_neg hversion, if_neg (not_not.mpr hsum), List.drop_drop]

theorem cdpHandler_refused (h : ¬Accepted odd pkt) : (cdpHandler T odd pkt).Safe := by
  have hsafe : ∀ o : Outcome, (Comp.pure (some o)).Safe := fun o => ⟨o, Comp.returns_pure _⟩
  unfold cdpHandler
  split
  · exact hsafe _
  split
  · exact hsafe _
  dsimp only
  split
  · exact hsafe _
  split
  · exact hsafe _
  next hshort hsnap hversion hsum =>
    exact absurd ⟨not_lt.mp hshort, not_not.mp hsnap, hversion, not_not.mp hsum⟩ h

/-- The handler ends and stays in the packet exactly if each TLV it comes to in a frame it accepts is sound. -/
theorem cdp_handler_safe_iff : (cdpHandler T odd pkt).Safe ↔
    (Accepted odd pkt → ∀ d, ReflTransGen Next (pkt.drop 12) d → Sound T d) := by
  by_cases h : Accepted odd pkt
  · rw [cdpHandler_accepted h, tlvLoop_safe_iff]
    exact ⟨fun hsound _ => hsound, fun hsound => hsound h⟩
  · exact iff_of_true (cdpHandler_refused h) fun hacc => absurd hacc h

def endlessFrame : List UInt8 := snapHdr ++ [2, 180, 0xfd, 0x4a, 0, 1, 0, 0]

/-- The loop finds the TLV without a length again and again. -/
theorem cdp_zero_length_endless : Accepted false endlessFrame ∧ ¬(cdpHandler none false endlessFrame).Ends ∧
    ¬(cdpHandler none false endlessFrame).Safe := by
  have hround : ∀ vlan nvlan, tlvRound none ⟨[0, 1, 0, 0], vlan, nvlan⟩ =
      some (.inl ⟨[0, 1, 0, 0], vlan, nvlan⟩) := by
    intro vlan nvlan
    unfold tlvRound
    dsimp only
    rw [if_neg (List.cons_ne_nil _ _), if_neg (by decide), if_neg (by decide), if_neg (by decide),
      if_neg (by decide)]
    rfl
  have hacc : Accepted false endlessFrame := ⟨by decide, by decide, by decide, by decide +kernel⟩
  have hrun : cdpHandler none false endlessFrame = tlvLoop none [0, 1, 0, 0] := cdpHandler_accepted hacc
  have hends : ¬(cdpHandler none false endlessFrame).Ends := by
    rw [hrun]
    refine Comp.loop_for_ever (fun s : State => s.pkt = [0, 1, 0, 0]) ?_ rfl
    rintro ⟨pkt, vlan, nvlan⟩ rfl
    exact ⟨_, Comp.returns_round_again.mpr (hround vlan nvlan), rfl⟩
  exact ⟨hacc, hends, fun ⟨o, ho⟩ => hends ⟨some o, ho⟩⟩

end UBoot.Cdp
