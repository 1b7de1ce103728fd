import UBoot.NetHandler
import UBoot.OnesSum

namespace UBoot

open FlashCells Words OnesSum

def icmpEchoReply : Nat := 0
def icmpRedirect : Nat := 5
def icmpEchoRequest : Nat := 8
def icmpRedirHost : Nat := 1

/-- `~NetCksum` as it is stored in a `ushort` -/
def cksumField (m : Flash) (len : Nat) : Nat := 65535 - netCksum m len

/-- `NetOurIP` as it lies in memory. -/
def ourIpBytes (net : Net) : List UInt8 :=
  [UInt8.ofNat net.ourIp, UInt8.ofNat (net.ourIp / 256), UInt8.ofNat (net.ourIp / 65536),
    UInt8.ofNat (net.ourIp / 16777216)]

/-- The IP header of the request made that of the answer. -/
def echoHeader (net : Net) (m : Flash) : Flash :=
  let m := putLe16 m 10 0
  let m := putLe16 m 6 0
  let m := patch m 16 4 fun x => m (x - 4)
  let m := store m 12 (ourIpBytes net)
  putLe16 m 10 (cksumField m (ipHdrSizeNoUdp / 2))

/-- The message behind the header, `len` bytes with it. -/
def echoMessage (m : Flash) (len : Nat) : Flash :=
  let m := store m 20 [UInt8.ofNat icmpEchoReply]
  let m := putLe16 m 22 0
  putLe16 m 22 (cksumField (fun x => m (20 + x)) ((len - ipHdrSizeNoUdp) / 2))

/-- `et_dest` and `et_src` of the frame. -/
def echoEther (ether : List UInt8) (inpkt : Flash) : Flash :=
  store (patch inpkt 0 6 fun x => inpkt (6 + x)) 6 ether

/-- What `NetReceive` does with an ICMP packet: nothing, the print of a redirect, the call of the handler
for a reply, or the frame given to `eth_send`. -/
inductive Icmp where
  | ignored
  | redirect
  | reply
  | sent (frame : List UInt8)
deriving DecidableEq

/-- `len` for an ICMP packet: the length of its header, or that of the assembled packet. -/
def icmpLen (inpkt : Flash) (len : Nat) (p : Ip) : Nat :=
  if (ipOf inpkt len).IsWhole then p.ipLen else p.size

/-- The answer to a request `p` that came with the frame `inpkt`. An assembled packet lies in the buffer of
the reassembly, any other one in the frame. -/
def echoReply (net : Net) (ether : List UInt8) (inpkt : Flash) (len : Nat) (p : Ip) (st : Defrag) :
    Icmp × Defrag :=
  let n := icmpLen inpkt len p
  let frame := echoEther ether inpkt
  let m := echoMessage (echoHeader net p.bytes) n
  if (ipOf inpkt len).IsWhole then
    let hdrSize := linkHdrSize inpkt
    let frame := fun x => if x < hdrSize then frame x else m (x - hdrSize)
    (.sent (read frame 0 (etherHdrSize + n)), st)
  else (.sent (read frame 0 (etherHdrSize + n)), { st with pktBuff := m })

def netReceiveIcmp (net : Net) (ether : List UInt8) (inpkt : Flash) (len : Nat) (st : Defrag) :
    Option (Icmp × Defrag) := do
  match ← netReceive net inpkt len st with
  | (.icmp p, st) =>
    let type := (p.bytes 20).toNat
    if type = icmpRedirect then some (if (p.bytes 21).toNat = icmpRedirHost then .redirect else .ignored, st)
    else if type = icmpEchoReply then some (.reply, st)
    else if type = icmpEchoRequest then some (echoReply net ether inpkt len p st)
    else some (.ignored, st)
  | (_, st) => some (.ignored, st)

/-- An answer in one frame behind a header of `hdrSize` bytes, to a request of `n` bytes. -/
structure EchoAnswer (hdrSize : Nat) (request : Flash) (n : Nat) (frame : List UInt8) : Prop where
  length : frame.length = hdrSize + n
  type : frame.getD (hdrSize + 20) 0 = UInt8.ofNat icmpEchoReply
  whole : be16 (fun x => frame.getD (hdrSize + x) 0) 6 &&& (ipOffs ||| ipFlagsMfrag) = 0
  data : ∀ j, 24 ≤ j → j < n → frame.getD (hdrSize + j) 0 = request j
  ipCksum : Verifies ((frame.drop hdrSize).take 20)
  icmpCksum : Verifies ((frame.drop (hdrSize + 20)).take (n - 20))

/-- A request for the board: its packet `p` is passed on as one of ICMP, and holds a whole message header with
the type of a request. -/
structure EchoRequest (net : Net) (inpkt : Flash) (len : Nat) (st : Defrag) (p : Ip) (st' : Defrag) : Prop where
  received : netReceive net inpkt len st = some (.icmp p, st')
  type : (p.bytes 20).toNat = icmpEchoRequest
  message : ipHdrSize ≤ icmpLen inpkt len p

variable {net : Net} {ether : List UInt8} {inpkt m m' : Flash} {len n k x : Nat} {st st' : Defrag} {p : Ip}

theorem foldSum_eq (sum : Nat) : foldSum sum = foldCarry sum := by
  unfold foldSum foldCarry
  rw [show (0xffff : Nat) = 2 ^ 16 - 1 from rfl, Nat.and_two_pow_sub_one_eq_mod, Nat.shiftRight_eq_div_pow]

theorem netCksum_spec (hn : n < 65536) :
    netCksum m n ≤ 65535 ∧ netCksum m n % 65535 = wordSum m n % 65535 ∧ (netCksum m n = 0 ↔ wordSum m n = 0) := by
  have hle := wordSum_le m n
  obtain ⟨hlow, hmod, hzero⟩ := foldCarry_twice (show wordSum m n < 4294901760 by omega)
  have hsum : netCksum m n = foldCarry (foldCarry (wordSum m n)) := by
    unfold netCksum
    rw [foldSum_eq, foldSum_eq, show (0xffff : Nat) = 2 ^ 16 - 1 from rfl, Nat.and_two_pow_sub_one_eq_mod]
    exact Nat.mod_eq_of_lt (Nat.lt_succ_of_le hlow)
  rw [hsum]
  exact ⟨hlow, hmod, hzero⟩

theorem wordSum_cksumField (hk : k < n) (hn : n < 65536) (h0 : le16 m (2 * k) = 0) :
    wordSum (putLe16 m (2 * k) (cksumField m n)) n % 65535 = 0 ∧
      wordSum (putLe16 m (2 * k) (cksumField m n)) n ≠ 0 := by
  obtain ⟨hle, hmod, hzero⟩ := netCksum_spec (m := m) hn
  have hfield : cksumField m n = 65535 - netCksum m n := rfl
  rw [wordSum_putLe16 m hk (by omega) h0, hfield]
  omega

theorem echoMessage_header (hx : x < 20) : echoMessage m n x = m x := by
  unfold echoMessage
  rw [putLe16_outside (by omega), putLe16_outside (by omega)]
  exact store_outside (.inl hx)

theorem echoMessage_data (hx : 24 ≤ x) : echoMessage m n x = m x := by
  unfold echoMessage
  rw [putLe16_outside (by omega), putLe16_outside (by omega)]
  exact store_outside (.inr (by simp only [List.length_singleton]; omega))

theorem echoMessage_type : echoMessage m n 20 = UInt8.ofNat icmpEchoReply := by
  unfold echoMessage
  rw [putLe16_outside (by omega), putLe16_outside (by omega)]
  rfl

theorem echoHeader_outside (hx : 20 ≤ x) : echoHeader net m x = m x := by
  unfold echoHeader
  rw [putLe16_outside (by omega), store_outside (.inr (show 12 + 4 ≤ x by omega)),
    patch_outside (by omega), putLe16_outside (by omega), putLe16_outside (by omega)]

theorem echoHeader_off (net : Net) (m : Flash) : echoHeader net m 6 = 0 ∧ echoHeader net m 7 = 0 := by
  have hfield : ∀ x, x = 6 ∨ x = 7 → echoHeader net m x = 0 := by
    intro x hx
    unfold echoHeader
    rw [putLe16_outside (by omega), store_outside (.inl (by omega)), patch_outside (by omega)]
    rcases hx with rfl | rfl
    · rfl
    · rfl
  exact ⟨hfield 6 (.inl rfl), hfield 7 (.inr rfl)⟩

theorem echoHeader_sum (net : Net) (m : Flash) :
    wordSum (echoHeader net m) 10 % 65535 = 0 ∧ wordSum (echoHeader net m) 10 ≠ 0 := by
  unfold echoHeader
  refine wordSum_cksumField (k := 5) (by decide) (by decide) ?_
  have hfree : ∀ m' : Flash, ∀ x, 10 ≤ x → x < 12 →
      store (patch (putLe16 m' 6 0) 16 4 fun y => putLe16 m' 6 0 (y - 4)) 12 (ourIpBytes net) x = m' x := by
    intro m' x hlow hhigh
    rw [store_outside (.inl hhigh), patch_outside (by omega), putLe16_outside (by omega)]
  rw [le16_congr (hfree _ 10 (by omega) (by omega)) (hfree _ 11 (by omega) (by omega))]
  exact le16_putLe16 (by omega)

theorem putLe16_shift (m : Flash) (a b v : Nat) :
    (fun x => putLe16 m (a + b) v (a + x)) = putLe16 (fun x => m (a + x)) b v := by
  funext x
  unfold putLe16 store patch
  have hin : (a + b ≤ a + x ∧ a + x < a + b + 2) ↔ (b ≤ x ∧ x < b + 2) := by omega
  simp only [List.length_cons, List.length_nil, zero_add, Nat.reduceAdd, hin, Nat.add_sub_add_left]

theorem echoMessage_sum (hlow : 24 ≤ n) (hhigh : n < 65536 + 20) :
    wordSum (fun x => echoMessage m n (20 + x)) ((n - 20) / 2) % 65535 = 0 ∧
      wordSum (fun x => echoMessage m n (20 + x)) ((n - 20) / 2) ≠ 0 := by
  -- the message from its type on
  obtain ⟨s, hs⟩ : ∃ s : Flash, s = fun x => putLe16 (store m 20 [UInt8.ofNat icmpEchoReply]) 22 0 (20 + x) :=
    ⟨_, rfl⟩
  have hshift : (fun x => echoMessage m n (20 + x)) = putLe16 s (2 * 1) (cksumField s ((n - 20) / 2)) := by
    rw [hs]
    exact putLe16_shift _ 20 2 _
  rw [hshift]
  refine wordSum_cksumField (by omega) (by omega) ?_
  rw [hs]
  exact (le16_congr rfl rfl).trans (le16_putLe16 (by omega))

theorem echo_verifies_header : Verifies (read (echoMessage (echoHeader net m) n) 0 20) := by
  obtain ⟨hmod, hne⟩ := echoHeader_sum net m
  rw [verifies_iff, swappedSum_read, if_neg (by decide), add_zero,
    wordSum_congr (m := echoHeader net m) fun x hx => echoMessage_header (by omega)]
  exact ⟨hmod, hne⟩

theorem echo_verifies_message (hlow : 28 ≤ n) (hhigh : n < 65536 + 20) :
    Verifies (read (fun x => echoMessage m n (20 + x)) 0 (n - 20)) ↔ n % 2 = 0 ∨ m (n - 1) = 0 := by
  obtain ⟨hmod, hne⟩ := echoMessage_sum (m := m) (show 24 ≤ n by omega) hhigh
  have hlast : echoMessage m n (20 + (n - 20 - 1)) = m (n - 1) := by
    rw [echoMessage_data (by omega)]
    congr 1
    omega
  have hbyte := (m (n - 1)).toNat_lt
  rw [verifies_iff, swappedSum_read, hlast]
  rcases Nat.mod_two_eq_zero_or_one n with heven | hodd
  · rw [if_neg (by omega), add_zero]
    exact iff_of_true ⟨hmod, hne⟩ (.inl heven)
  · rw [if_pos (by omega)]
    have hzero : m (n - 1) = 0 ↔ (m (n - 1)).toNat = 0 :=
      ⟨fun h => by rw [h]; rfl, fun h => UInt8.toNat_inj.mp h⟩
    rw [hzero]
    omega

theorem netReceiveIcmp_request (h : EchoRequest net inpkt len st p st') :
    netReceiveIcmp net ether inpkt len st = some (echoReply net ether inpkt len p st') := by
  unfold netReceiveIcmp
  rw [h.received]
  simp only [Option.bind_eq_bind, Option.bind_some, h.type]
  rfl

theorem echoAnswer_iff (hn : 28 ≤ n) (hn' : n < 65536) {frame : List UInt8}
    (hframe : frame = read (fun x => if x < 14 then m' x else echoMessage (echoHeader net m) n (x - 14)) 0 (14 + n)) :
    EchoAnswer 14 m n frame ↔ n % 2 = 0 ∨ m (n - 1) = 0 := by
  have hat : ∀ j, j < n → frame.getD (14 + j) 0 = echoMessage (echoHeader net m) n j := by
    intro j hj
    rw [hframe, getD_read (by omega), zero_add, if_neg (by omega), Nat.add_sub_cancel_left]
  have hpart : ∀ a b, a + b ≤ n → (frame.drop (14 + a)).take b =
      read (fun x => echoMessage (echoHeader net m) n (a + x)) 0 b := by
    intro a b hab
    rw [hframe, take_drop_read _ (by omega), zero_add]
    apply read_congr
    intro i _
    rw [if_neg (by omega), zero_add, add_assoc, Nat.add_sub_cancel_left]
  have hmessage := echo_verifies_message (m := echoHeader net m) hn (by omega)
  rw [echoHeader_outside (by omega), ← hpart 20 (n - 20) (by omega)] at hmessage
  rw [← hmessage]
  refine ⟨fun h => h.icmpCksum, fun h => ⟨?_, ?_, ?_, fun j hj hjn => ?_, ?_, h⟩⟩
  · rw [hframe, read_length]
  · rw [hat 20 (by omega), echoMessage_type]
  · obtain ⟨h6, h7⟩ := echoHeader_off net m
    have hoff : be16 (fun x => frame.getD (14 + x) 0) 6 = be16 (fun _ => 0) 6 :=
      be16_congr (by rw [hat 6 (by omega), echoMessage_header (by omega), h6])
        (by rw [hat (6 + 1) (by omega), echoMessage_header (by omega), h7])
    rw [hoff]
    decide
  · rw [hat j hjn, echoMessage_data hj, echoHeader_outside (by omega)]
  · have hheader := hpart 0 20 (by omega)
    simp only [add_zero, zero_add] at hheader
    rw [hheader]
    exact echo_verifies_header

theorem linkHdrSize_bounds (inpkt : Flash) : 14 ≤ linkHdrSize inpkt ∧ linkHdrSize inpkt ≤ 22 := by
  unfold linkHdrSize
  split
  · exact ⟨by decide, by decide⟩
  split
  · exact ⟨by decide, by decide⟩
  · exact ⟨by decide, by decide⟩

theorem echoEther_behind (hether : ether.length = 6) (hx : 12 ≤ x) : echoEther ether inpkt x = inpkt x := by
  unfold echoEther
  rw [store_outside (.inr (by omega)), patch_outside (by omega)]

/-- An echo request is answered by a whole and right reply exactly if it came in one frame behind a plain
header, and its last byte is part of a word or zero. -/
theorem icmp_echo_answer_iff (hether : ether.length = 6) (h : EchoRequest net inpkt len st p st') :
    (∃ frame st'', netReceiveIcmp net ether inpkt len st = some (.sent frame, st'') ∧
        EchoAnswer (linkHdrSize inpkt) p.bytes (icmpLen inpkt len p) frame) ↔
      linkHdrSize inpkt = etherHdrSize ∧ (ipOf inpkt len).IsWhole ∧
        (icmpLen inpkt len p % 2 = 0 ∨ p.bytes (icmpLen inpkt len p - 1) = 0) := by
  have hmessage : 28 ≤ icmpLen inpkt len p := h.message
  rw [netReceiveIcmp_request h]
  unfold echoReply
  by_cases hwhole : (ipOf inpkt len).IsWhole
  · have hlen : icmpLen inpkt len p < 65536 := by
      unfold icmpLen
      rw [if_pos hwhole]
      exact be16_lt _ _
    simp only [if_pos hwhole]
    constructor
    · rintro ⟨frame, st'', hsent, hanswer⟩
      have hframe := (Prod.mk.inj (Option.some.inj hsent)).1
      cases hframe
      have hplain : linkHdrSize inpkt = etherHdrSize := by
        have hlength := hanswer.length
        rw [read_length] at hlength
        omega
      rw [hplain] at hanswer ⊢
      exact ⟨rfl, hwhole, (echoAnswer_iff hmessage hlen rfl).mp hanswer⟩
    · rintro ⟨hplain, _, hlast⟩
      rw [hplain]
      exact ⟨_, _, rfl, (echoAnswer_iff hmessage hlen rfl).mpr hlast⟩
  · simp only [if_neg hwhole]
    refine iff_of_false ?_ fun hcond => hwhole hcond.2.1
    rintro ⟨frame, st'', hsent, hanswer⟩
    have hframe := (Prod.mk.inj (Option.some.inj hsent)).1
    cases hframe
    -- the frame is still that of the last fragment
    have hat : ∀ x, x = 6 ∨ x = 7 → (read (echoEther ether inpkt) 0 (etherHdrSize + icmpLen inpkt len p)).getD
        (linkHdrSize inpkt + x) 0 = (ipOf inpkt len).bytes x := by
      intro x hx
      obtain ⟨hlow, hhigh⟩ := linkHdrSize_bounds inpkt
      have hhdr : etherHdrSize = 14 := rfl
      rw [getD_read (by omega), zero_add]
      exact echoEther_behind hether (by omega)
    apply hwhole
    have hoff := hanswer.whole
    rw [be16_congr (hat 6 (.inl rfl)) (hat 7 (.inr rfl))] at hoff
    exact hoff

def oddPing : List UInt8 :=
  [2, 0, 0, 0, 0, 1, 2, 0, 0, 0, 0, 2, 8, 0, 69, 0, 0, 29, 0, 1, 0, 0, 64, 1, 247, 123, 192, 168, 1, 2, 192, 168,
    1, 17, 8, 0, 150, 247, 0, 7, 0, 1, 97]

def pingNet : Net := ⟨0xffff, 0xffff, 285321408⟩

theorem oddPing_request :
    EchoRequest pingNet (fun x => oddPing.getD x 0) 43 defragInit ⟨fun x => oddPing.getD (14 + x) 0, 29⟩ defragInit :=
  ⟨rfl, by decide +kernel, by decide +kernel⟩

theorem icmp_echo_answer_odd :
    (∃ frame st'', netReceiveIcmp pingNet [2, 0, 0, 0, 0, 1] (fun x => oddPing.getD x 0) 43 defragInit =
          some (.sent frame, st'') ∧
        EchoAnswer 14 (fun x => oddPing.getD (14 + x) 0) 29 frame) ↔
      14 = etherHdrSize ∧ (ipOf (fun x => oddPing.getD x 0) 43).IsWhole ∧
        (29 % 2 = 0 ∨ oddPing.getD (14 + (29 - 1)) 0 = 0) :=
  icmp_echo_answer_iff rfl oddPing_request

theorem odd_ping_not_answered :
    EchoRequest pingNet (fun x => oddPing.getD x 0) 43 defragInit ⟨fun x => oddPing.getD (14 + x) 0, 29⟩ defragInit ∧
      ¬∃ frame st'', netReceiveIcmp pingNet [2, 0, 0, 0, 0, 1] (fun x => oddPing.getD x 0) 43 defragInit =
          some (.sent frame, st'') ∧
        EchoAnswer 14 (fun x => oddPing.getD (14 + x) 0) 29 frame := by
  refine ⟨oddPing_request, ?_⟩
  rintro ⟨frame, st'', hsent, hanswer⟩
  -- the reply is sent, but its checksum leaves the byte of data out
  have hframe : (netReceiveIcmp pingNet [2, 0, 0, 0, 0, 1] (fun x => oddPing.getD x 0) 43 defragInit).map Prod.fst =
      some (.sent [2, 0, 0, 0, 0, 2, 2, 0, 0, 0, 0, 1, 8, 0, 69, 0, 0, 29, 0, 1, 0, 0, 64, 1, 247, 123, 192, 168, 1,
        17, 192, 168, 1, 2, 0, 0, 255, 247, 0, 7, 0, 1, 97]) := by
    decide +kernel
  rw [hsent] at hframe
  cases hframe
  exact absurd hanswer.icmpCksum (by decide +kernel)

end UBoot
