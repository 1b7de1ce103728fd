import Mathlib.Algebra.GroupWithZero.Nat
import UBoot.NetHoles

namespace UBoot

open FlashCells Words

def etherHdrSize : Nat := 14
def e802HdrSize : Nat := 22
def vlanEtherHdrSize : Nat := 18
def protIp : Nat := 0x0800
def protArp : Nat := 0x0806
def protRarp : Nat := 0x8035
def protVlan : Nat := 0x8100
def vlanNone : Nat := 4095
def vlanIdmask : Nat := 0x0fff
def ipprotoIcmp : Nat := 1
def ipprotoUdp : Nat := 17

/-- `NetOurVLAN` and `NetOurNativeVLAN` in host order, `NetOurIP` as it is loaded. -/
structure Net where
  ourVlan : Nat
  ourNativeVlan : Nat
  ourIp : Nat

/-- What becomes of a frame. The packet of `udp` is the one whose bytes after the UDP header are
passed to `packetHandler`, under the length `len`. -/
inductive Received where
  | ignored
  | arp
  | rarp
  | icmp (ip : Ip)
  | udp (ip : Ip) (dest src : Nat) (len : UInt32)

/-- The kind of a frame, its protocol and the VLAN of its tag. -/
structure Link where
  hdrSize : Nat
  prot : Nat
  vlanid : Nat

def linkOf (net : Net) (inpkt : Flash) (len : Nat) : Option Link :=
  let x := be16 inpkt 12
  if x < 1514 then some ⟨e802HdrSize, be16 inpkt 20, vlanNone⟩
  else if x ≠ protVlan then some ⟨etherHdrSize, x, vlanNone⟩
  else if len < vlanEtherHdrSize then none
  else if net.ourVlan &&& vlanIdmask = vlanNone then none
  else some ⟨vlanEtherHdrSize, be16 inpkt 16, be16 inpkt 14 &&& vlanIdmask⟩

def vlanOr (v : Nat) : Nat := if v = 0xffff then vlanNone else v

def vlanMatches (net : Net) (vlanid : Nat) : Bool :=
  let myvlanid := vlanOr net.ourVlan
  let mynvlanid := vlanOr net.ourNativeVlan
  if myvlanid &&& vlanIdmask ≠ vlanNone then
    (if vlanid = vlanNone then mynvlanid &&& vlanIdmask else vlanid) = myvlanid &&& vlanIdmask
  else true

def foldSum (xsum : Nat) : Nat := (xsum &&& 0xffff) + (xsum >>> 16)

def netCksum (m : Flash) (len : Nat) : Nat :=
  foldSum (foldSum ((List.range len).map fun i => le16 m (2 * i)).sum) &&& 0xffff

def netCksumOk (m : Flash) (len : Nat) : Bool := (netCksum m len + 1) &&& 0xfffe = 0

def ipDst (m : Flash) : Nat := le16 m 16 + 65536 * le16 m 18

/-- The checks on the header of an IP packet of which `len` bytes are there. -/
def ipAccepted (net : Net) (ip : Ip) (len : Int) : Bool :=
  -- `IP_HDR_SIZE` is unsigned, `ip_len` is not
  ¬len % 4294967296 < ipHdrSize ∧ ¬len < ip.ipLen ∧
    (ip.bytes 0).toNat &&& 0xf0 = 0x40 ∧ (ip.bytes 0).toNat &&& 0x0f ≤ 5 ∧
    netCksumOk ip.bytes (ipHdrSizeNoUdp / 2) ∧
    ¬(net.ourIp ≠ 0 ∧ ipDst ip.bytes ≠ net.ourIp ∧ ipDst ip.bytes ≠ 0xffffffff)

def Ip.udpLen (ip : Ip) : Nat := be16 ip.bytes 24

/-- What a whole packet is for. -/
def deliver (ip : Ip) : Received :=
  let ipP := (ip.bytes 9).toNat
  if ipP = ipprotoIcmp then .icmp ip
  else if ipP ≠ ipprotoUdp then .ignored
  else .udp ip (be16 ip.bytes 22) (be16 ip.bytes 20) (UInt32.ofNat ip.udpLen - 8)

/-- The packet of a frame behind a header of `hdrSize` bytes. -/
def framePacket (inpkt : Flash) (len hdrSize : Nat) : Ip := ⟨fun x => inpkt (hdrSize + x), len - hdrSize⟩

def receiveIp (net : Net) (inpkt : Flash) (len hdrSize : Nat) (st : Defrag) : Option (Received × Defrag) :=
  let ip := framePacket inpkt len hdrSize
  if ipAccepted net ip (len - hdrSize) then do
    match ← netDefragment st ip with
    | (none, st) => some (.ignored, st)
    | (some ip, st) => some (deliver ip, st)
  else some (.ignored, st)

/-- A frame is received; CDP, the API, checksums of UDP and multicast TFTP are not configured. There is no result
where an access of the reassembly is outside of its buffer. -/
def netReceive (net : Net) (inpkt : Flash) (len : Nat) (st : Defrag) : Option (Received × Defrag) :=
  if len < etherHdrSize then some (.ignored, st)
  else
    match linkOf net inpkt len with
    | none => some (.ignored, st)
    | some link =>
      if vlanMatches net link.vlanid then
        if link.prot = protArp then some (.arp, st)
        else if link.prot = protRarp then some (.rarp, st)
        else if link.prot = protIp then receiveIp net inpkt len link.hdrSize st
        else some (.ignored, st)
      else some (.ignored, st)

variable {st st' : Defrag} {ip p : Ip} {h : Nat}
variable {inpkt : Flash}

theorem removeHole_done (hr : removeHole st h = some (true, st')) :
    st' = st ∧ prevHole st.pktBuff h = 0 ∧ nextHole st.pktBuff h = 0 := by
  simp only [removeHole] at hr
  split at hr
  next hlast => exact ⟨by cases Option.some.inj hr; rfl, hlast⟩
  · split at hr <;> [skip; split at hr] <;> split at hr <;> simp at hr

theorem fixHoles_done (hf : fixHoles st ip h = some (true, st')) :
    st' = st ∧ ip.offset8 ≤ h ∧ lastByte st.pktBuff h ≤ ip.stop ∧
      prevHole st.pktBuff h = 0 ∧ nextHole st.pktBuff h = 0 := by
  unfold fixHoles at hf
  split at hf
  next hover =>
    obtain ⟨rfl, hprev, hnext⟩ := removeHole_done hf
    exact ⟨rfl, hover.1, hover.2, hprev, hnext⟩
  · split at hf
    · simp at hf
    · split at hf <;> simp at hf

/-- The length of the packet that `ip` makes whole. -/
def wholeLen (st : Defrag) (ip : Ip) : Nat := if ip.mfrag then st.totalLen else ip.stop

/-- Byte `j` of its payload. -/
def wholeByte (st : Defrag) (ip : Ip) (j : Nat) : UInt8 :=
  if ip.start ≤ j ∧ j < ip.start + ip.len then ip.bytes (ipHdrSizeNoUdp + j - ip.start)
  else st.pktBuff (ipHdrSizeNoUdp + j)

theorem truncate_totalLen (st : Defrag) (ip : Ip) (h : Nat) :
    (st.truncate ip h).totalLen = wholeLen st ip := by
  unfold Defrag.truncate wholeLen
  split <;> rfl

theorem truncate_outside {x : Nat} (hx : x < hole h ∨ hole h + 2 ≤ x) :
    (st.truncate ip h).pktBuff x = st.pktBuff x := by
  unfold Defrag.truncate
  split
  · rfl
  · exact putLe16_outside hx

theorem copyFragment_some {m m' : Flash} (hc : copyFragment m ip = some m') :
    0 ≤ ip.len ∧ m' = patch m (ipHdrSizeNoUdp + ip.start) ip.len.toNat fun x => ip.bytes (x - ip.start) := by
  unfold copyFragment at hc
  split at hc
  next hin => exact ⟨hin.1, (Option.some.inj hc).symm⟩
  · simp at hc

theorem localip_payload (st : Defrag) (j : Nat) :
    st.localip.bytes (ipHdrSizeNoUdp + j) = st.pktBuff (ipHdrSizeNoUdp + j) :=
  putBe16_outside (.inr (by unfold ipHdrSizeNoUdp; omega))

theorem addFragment_whole (ha : addFragment st ip h = some (some p, st'))
    (hpast : h < ip.offset8 + ip.len.tdiv 8) :
    p.size = wholeLen st ip + ipHdrSizeNoUdp ∧ ip.offset8 ≤ h ∧
      lastByte (st.truncate ip h).pktBuff h ≤ ip.stop ∧
      ∀ j, p.bytes (ipHdrSizeNoUdp + j) = wholeByte st ip j := by
  obtain ⟨⟨done, s⟩, hf, ha⟩ := Option.bind_eq_some_iff.mp ha
  obtain ⟨m, hc, ha⟩ := Option.bind_eq_some_iff.mp ha
  cases done with
  | false => simp at ha
  | true =>
    obtain ⟨rfl, hover, hlast, -, -⟩ := fixHoles_done hf
    obtain ⟨hlen, rfl⟩ := copyFragment_some hc
    obtain ⟨hp, -⟩ := Prod.mk.inj (Option.some.inj ha)
    cases hp
    refine ⟨?_, hover, hlast, fun j => ?_⟩
    · simp only [Defrag.localip, truncate_totalLen]
    · have hin : ip.len.tdiv 8 = ip.len / 8 := Int.tdiv_eq_ediv_of_nonneg hlen
      rw [hin] at hpast
      have hstart : ip.start = ip.offset8 * 8 := rfl
      rw [localip_payload]
      unfold wholeByte ipHdrSizeNoUdp
      dsimp only
      by_cases hj : ip.start ≤ j ∧ j < ip.start + ip.len
      · rw [if_pos hj]
        exact patch_inside (by omega) (by omega)
      · rw [if_neg hj, patch_outside (by omega)]
        apply truncate_outside
        unfold hole ipHdrSizeNoUdp
        omega

theorem reset_lastByte (st : Defrag) (ip : Ip) : lastByte (st.reset ip).pktBuff 0 = 0xffff := by
  have h₀ : ∀ x, hole 0 ≤ x → x < hole 0 + 2 →
      (st.reset ip).pktBuff x = setLastByte st.pktBuff 0 0xffff x := by
    intro x hx hlt
    unfold hole ipHdrSizeNoUdp at hx hlt
    have hhdr : (st.reset ip).pktBuff x = _ := patch_outside (.inr (by unfold ipHdrSizeNoUdp; omega))
    rw [hhdr, setPrevHole, setNextHole, putLe16_outside, putLe16_outside]
    all_goals unfold hole ipHdrSizeNoUdp; omega
  rw [lastByte, le16_congr (h₀ _ (by omega) (by omega)) (h₀ _ (by omega) (by omega))]
  exact le16_putLe16 (by omega)

theorem offset8_le (ip : Ip) : ip.offset8 ≤ 8191 := Nat.and_le_right

theorem netDefragmentFrag_whole (hd : netDefragmentFrag st ip = some (some p, st'))
    (hfrag : ¬(ip.offset8 = 0 ∧ ip.mfrag = false)) :
    p.size = wholeLen st ip + ipHdrSizeNoUdp ∧ ∀ j, p.bytes (ipHdrSizeNoUdp + j) = wholeByte st ip j := by
  unfold netDefragmentFrag at hd
  split at hd
  · simp at hd
  next hfar =>
    obtain ⟨found, hs, hd⟩ := Option.bind_eq_some_iff.mp hd
    cases found with
    | none => simp at hd
    | some h =>
      simp only at hd
      split at hd
      · simp at hd
      next hpast =>
        obtain ⟨hsize, hover, hlast, hbytes⟩ := addFragment_whole hd (by omega)
        by_cases hnew : st.IsNew ip
        · -- the one hole of a new packet is removed by a whole packet only
          rw [Defrag.begin, if_pos hnew] at hs hlast
          have h₀ : h = 0 := by
            have h8 := offset8_le ip
            have hstart : ip.start = ip.offset8 * 8 := rfl
            have hl : ¬lastByte (st.reset ip).pktBuff (st.reset ip).firstHole < ip.start := by
              change ¬lastByte (st.reset ip).pktBuff 0 < ip.start
              rw [reset_lastByte]
              omega
            obtain ⟨rounds, hrounds⟩ : ∃ n, holeRounds = n + 1 := ⟨2057, rfl⟩
            rw [hrounds, seekHole, if_neg hl] at hs
            split at hs
            · exact (Option.some.inj (Option.some.inj hs)).symm
            · simp at hs
          subst h₀
          have hoff : ip.offset8 = 0 := by omega
          have hm : ip.mfrag = true := by
            by_contra hm
            exact hfrag ⟨hoff, by simpa using hm⟩
          have hstart : ip.start = ip.offset8 * 8 := rfl
          have hstop : ip.stop = (ip.start + ip.len).toNat := rfl
          have hlen : ip.len = ip.ipLen - ipHdrSizeNoUdp := rfl
          have hmax : ipMaxudp = 16464 := rfl
          have hip : ip.ipLen < 65536 := be16_lt ip.bytes 2
          unfold Ip.TooFar at hfar
          simp only [Defrag.truncate, hm, if_true, reset_lastByte] at hlast
          omega
        · rw [Defrag.begin, if_neg hnew] at hsize hbytes
          exact ⟨hsize, hbytes⟩

theorem not_isWhole (h : ¬ip.IsWhole) : ¬(ip.offset8 = 0 ∧ ip.mfrag = false) := by
  rintro ⟨hoff, hm⟩
  have hm' : ip.ipOff &&& ipFlagsMfrag = 0 := by simpa [Ip.mfrag] using hm
  apply h
  unfold Ip.IsWhole
  rw [Nat.and_or_distrib_left, hm', Nat.or_zero]
  exact hoff

def linkHdrSize (inpkt : Flash) : Nat :=
  if be16 inpkt 12 < 1514 then e802HdrSize
  else if be16 inpkt 12 ≠ protVlan then etherHdrSize
  else vlanEtherHdrSize

theorem linkOf_hdrSize {net : Net} {len : Nat} {link : Link}
    (h : linkOf net inpkt len = some link) : link.hdrSize = linkHdrSize inpkt := by
  unfold linkOf at h
  unfold linkHdrSize
  simp only at h
  split at h
  next h802 =>
    rw [if_pos h802]
    exact (Option.some.inj h) ▸ rfl
  next h802 =>
    rw [if_neg h802]
    split at h
    next hplain =>
      rw [if_pos hplain]
      exact (Option.some.inj h) ▸ rfl
    next hplain =>
      rw [if_neg hplain]
      split at h
      · simp at h
      · split at h
        · simp at h
        · exact (Option.some.inj h) ▸ rfl

/-- The UDP length of the packet that `ip` is or makes whole. -/
def udpLenOf (st : Defrag) (ip : Ip) : Nat :=
  if ip.IsWhole then ip.udpLen
  else 256 * (wholeByte st ip 4).toNat + (wholeByte st ip 5).toNat

def udpRoom (st : Defrag) (ip : Ip) : Nat :=
  if ip.IsWhole then ip.size - ipHdrSize else wholeLen st ip - 8

theorem netDefragment_udp (hd : netDefragment st ip = some (some p, st')) :
    p.udpLen = udpLenOf st ip ∧ p.size - ipHdrSize = udpRoom st ip := by
  unfold netDefragment at hd
  unfold udpLenOf udpRoom
  split at hd
  next hwhole =>
    obtain ⟨hp, -⟩ := Prod.mk.inj (Option.some.inj hd)
    cases hp
    rw [if_pos hwhole, if_pos hwhole]
    exact ⟨rfl, rfl⟩
  next hfrag =>
    obtain ⟨hsize, hbytes⟩ := netDefragmentFrag_whole hd (not_isWhole hfrag)
    rw [if_neg hfrag, if_neg hfrag, hsize, ← hbytes, ← hbytes]
    exact ⟨rfl, Nat.add_sub_add_right _ 20 8⟩

theorem deliver_udp {q : Ip} {dest src : Nat} {n : UInt32} (h : deliver p = .udp q dest src n) :
    q = p ∧ n = UInt32.ofNat p.udpLen - 8 := by
  unfold deliver at h
  simp only at h
  split at h
  · cases h
  · split at h
    · cases h
    · cases h; exact ⟨rfl, rfl⟩

def ipOf (inpkt : Flash) (len : Nat) : Ip := framePacket inpkt len (linkHdrSize inpkt)

theorem netReceive_udp {net : Net} {len dest src : Nat} {n : UInt32}
    (h : netReceive net inpkt len st = some (.udp ip dest src n, st')) :
    n = UInt32.ofNat (udpLenOf st (ipOf inpkt len)) - 8 ∧
      ip.size - ipHdrSize = udpRoom st (ipOf inpkt len) := by
  unfold netReceive at h
  split at h
  · simp at h
  · split at h
    · simp at h
    next link hlink =>
      rw [linkOf_hdrSize hlink] at h
      split at h <;> [skip; simp at h]
      split at h <;> [simp at h; skip]
      split at h <;> [simp at h; skip]
      split at h <;> [skip; simp at h]
      simp only [receiveIp] at h
      split at h <;> [skip; simp at h]
      obtain ⟨⟨found, t⟩, hd, h⟩ := Option.bind_eq_some_iff.mp h
      cases found with
      | none => simp at h
      | some q =>
        obtain ⟨hdel, -⟩ := Prod.mk.inj (Option.some.inj h)
        obtain ⟨rfl, rfl⟩ := deliver_udp hdel
        obtain ⟨hudp, hroom⟩ := netDefragment_udp hd
        rw [hudp]
        exact ⟨rfl, hroom⟩

theorem udpRoom_lt {len : Nat} (hlen : len < 2147483648) (htotal : st.totalLen < 65536) :
    udpRoom st (ipOf inpkt len) < 2147483648 := by
  have hoff := offset8_le (ipOf inpkt len)
  have hip : (ipOf inpkt len).ipLen < 65536 := be16_lt _ 2
  have hsize : (ipOf inpkt len).size = len - linkHdrSize inpkt := rfl
  unfold udpRoom wholeLen Ip.stop Ip.start Ip.len ipHdrSize ipHdrSizeNoUdp
  split
  · omega
  · split <;> omega

/-- The handler's length stays inside of the packet exactly where the UDP length counts its own
header and no more than is there. -/
theorem handler_length_inside_iff {net : Net} {inpkt : Flash} {len dest src : Nat} {n : UInt32}
    (hlen : len < 2147483648) (htotal : st.totalLen < 65536)
    (h : netReceive net inpkt len st = some (.udp ip dest src n, st')) :
    n.toNat ≤ ip.size - ipHdrSize ↔ 8 ≤ udpLenOf st (ipOf inpkt len) ∧
        udpLenOf st (ipOf inpkt len) - 8 ≤ udpRoom st (ipOf inpkt len) := by
  obtain ⟨rfl, hroom⟩ := netReceive_udp h
  have hbound : udpRoom st (ipOf inpkt len) < 2147483648 := udpRoom_lt hlen htotal
  have hudp : udpLenOf st (ipOf inpkt len) < 65536 := by
    unfold udpLenOf
    split
    · exact be16_lt _ 24
    · have h₄ := (wholeByte st (ipOf inpkt len) 4).toNat_lt
      have h₅ := (wholeByte st (ipOf inpkt len) 5).toNat_lt
      omega
  rw [hroom, UInt32.toNat_sub, UInt32.toNat_ofNat']
  have h8 : (8 : UInt32).toNat = 8 := rfl
  omega

def udpFrame (udpLen : UInt8) : Flash := fun x =>
  [0xff, 0xff, 0xff, 0xff, 0xff, 0xff, 0, 0, 0, 0, 0, 0, 0x08, 0x00,
    0x45, 0, 0, 28, 0, 0, 0, 0, 64, 17, 0x7a, 0xd2, 0, 0, 0, 0, 0, 0, 0, 0,
    0, 69, 0, 69, 0, udpLen, 0, 0].getD x 0

def netInit : Net := ⟨0xffff, 0xffff, 0⟩

def defragInit : Defrag := ⟨fun _ => 0, 0, 0⟩

theorem handler_length_inside_iff_header_only :
    (0 : UInt32).toNat ≤ (framePacket (udpFrame 8) 42 14).size - ipHdrSize ↔
      8 ≤ udpLenOf defragInit (ipOf (udpFrame 8) 42) ∧
        udpLenOf defragInit (ipOf (udpFrame 8) 42) - 8 ≤ udpRoom defragInit (ipOf (udpFrame 8) 42) :=
  handler_length_inside_iff (by decide) (by decide)
    (rfl : netReceive netInit (udpFrame 8) 42 defragInit =
      some (.udp (framePacket (udpFrame 8) 42 14) 69 69 0, defragInit))

/-- A UDP length below the size of its header wraps around. -/
theorem handler_length_wraps :
    ¬∀ net inpkt len st ip dest src n st', netReceive net inpkt len st = some (.udp ip dest src n, st') →
      n.toNat ≤ ip.size - ipHdrSize := by
  intro h
  have hfar : ¬(0xfffffff8 : UInt32).toNat ≤ (framePacket (udpFrame 0) 42 14).size - ipHdrSize := by decide
  exact hfar (h netInit (udpFrame 0) 42 defragInit _ 69 69 0xfffffff8 defragInit rfl)

end UBoot
