import UBoot.Linked
import UBoot.Words

namespace UBoot

open FlashCells List Words

def ipHdrSize : Nat := 28
def ipHdrSizeNoUdp : Nat := 20
/-- `CONFIG_NET_MAXDEFRAG` and the overhead of an NFS reply -/
def ipPktsize : Nat := 16384 + 100
def ipMaxudp : Nat := ipPktsize - ipHdrSizeNoUdp
def ipOffs : Nat := 0x1fff
def ipFlagsMfrag : Nat := 0x2000

/-- A packet from its IP header on, with the number of bytes that are there. -/
structure Ip where
  bytes : Flash
  size : Nat

def Ip.ipLen (ip : Ip) : Nat := be16 ip.bytes 2
/-- Compared as it was loaded, in either byte order. -/
def ipId (m : Flash) : Nat := le16 m 4
def Ip.ipOff (ip : Ip) : Nat := be16 ip.bytes 6
def Ip.mfrag (ip : Ip) : Bool := ip.ipOff &&& ipFlagsMfrag ≠ 0

def Ip.offset8 (ip : Ip) : Nat := ip.ipOff &&& ipOffs
def Ip.start (ip : Ip) : Nat := ip.offset8 * 8
def Ip.len (ip : Ip) : Int := ip.ipLen - ipHdrSizeNoUdp
/-- `start + len`, not negative where the fragment is taken -/
def Ip.stop (ip : Ip) : Nat := (ip.start + ip.len).toNat

/-- The address of descriptor `k` of the payload, `struct hole`. -/
def hole (k : Nat) : Nat := ipHdrSizeNoUdp + 8 * k

/-- An access to a descriptor outside of `pkt_buff` has no result. -/
def InBuff (k : Nat) : Prop := 8 * (k + 1) ≤ ipMaxudp

instance (k : Nat) : Decidable (InBuff k) := inferInstanceAs (Decidable (_ ≤ _))

def lastByte (m : Flash) (k : Nat) : Nat := le16 m (hole k)
def nextHole (m : Flash) (k : Nat) : Nat := le16 m (hole k + 2)
def prevHole (m : Flash) (k : Nat) : Nat := le16 m (hole k + 4)

def setLastByte (m : Flash) (k v : Nat) : Flash := putLe16 m (hole k) v
def setNextHole (m : Flash) (k v : Nat) : Flash := putLe16 m (hole k + 2) v
def setPrevHole (m : Flash) (k v : Nat) : Flash := putLe16 m (hole k + 4) v

/-- `*newh = *h` -/
def copyHole (m : Flash) (h newh : Nat) : Flash :=
  patch m (hole newh) 8 fun x => m (hole h + (x - hole newh))

/-- The static variables of `__NetDefragment`. -/
structure Defrag where
  pktBuff : Flash
  firstHole : Nat
  totalLen : Nat

def Defrag.reset (st : Defrag) (ip : Ip) : Defrag where
  pktBuff :=
    let m := setLastByte st.pktBuff 0 0xffff
    let m := setNextHole m 0 0
    let m := setPrevHole m 0 0
    patch m 0 ipHdrSizeNoUdp ip.bytes
  firstHole := 0
  totalLen := 0xffff

def Defrag.IsNew (st : Defrag) (ip : Ip) : Prop := st.totalLen = 0 ∨ ipId st.pktBuff ≠ ipId ip.bytes

instance (st : Defrag) (ip : Ip) : Decidable (st.IsNew ip) := inferInstanceAs (Decidable (_ ∨ _))

def Defrag.begin (st : Defrag) (ip : Ip) : Defrag := if st.IsNew ip then st.reset ip else st

/-- The walk over the holes, to the first that does not end before `start`: `some none` where there is
no hole that far away. -/
def seekHole (m : Flash) (start : Nat) : Nat → Nat → Option (Option Nat)
  | 0, _ => none
  | fuel + 1, h =>
    if InBuff h then
      if lastByte m h < start then
        if nextHole m h = 0 then some none else seekHole m start fuel (nextHole m h)
      else some (some h)
    else none

def holeRounds : Nat := ipMaxudp / 8

/-- Complete overlap with the hole: remove it. The answer is `done`. -/
def removeHole (st : Defrag) (h : Nat) : Option (Bool × Defrag) :=
  let m := st.pktBuff
  if prevHole m h = 0 ∧ nextHole m h = 0 then some (true, st)
  else if prevHole m h = 0 then
    if InBuff (nextHole m h) then
      some (false, { st with
        pktBuff := setPrevHole m (nextHole m h) 0
        firstHole := nextHole m h })
    else none
  else if nextHole m h = 0 then
    if InBuff (prevHole m h) then
      some (false, { st with pktBuff := setNextHole m (prevHole m h) 0 })
    else none
  else if InBuff (nextHole m h) then
    let m := setPrevHole m (nextHole m h) (prevHole m h)
    if InBuff (prevHole m h) then
      some (false, { st with pktBuff := setNextHole m (prevHole m h) (nextHole m h) })
    else none
  else none

/-- Overlap with the final part of the hole: shorten it. -/
def shortenHole (st : Defrag) (h start : Nat) : Defrag :=
  { st with pktBuff := setLastByte st.pktBuff h start }

/-- `payload[k].prev_hole = v` where there is a hole after -/
def linkNext (m : Flash) (k v : Nat) : Option Flash :=
  if k ≠ 0 then if InBuff k then some (setPrevHole m k v) else none
  else some m

/-- Overlap with the initial part of the hole: move it. -/
def moveHole (st : Defrag) (h newh : Nat) : Option Defrag :=
  if InBuff newh then do
    let m := copyHole st.pktBuff h newh
    let m ← linkNext m (nextHole m newh) newh
    if prevHole m newh ≠ 0 then
      if InBuff (prevHole m newh) then
        some { st with pktBuff := setNextHole m (prevHole m newh) newh }
      else none
    else some { st with pktBuff := m, firstHole := newh }
  else none

/-- The fragment sits in the middle: split the hole. -/
def splitHole (st : Defrag) (h newh start : Nat) : Option Defrag :=
  if InBuff newh then do
    let m := copyHole st.pktBuff h newh
    let m := setLastByte m h start
    let m := setNextHole m h newh
    let m := setPrevHole m newh h
    let m ← linkNext m (nextHole m newh) newh
    some { st with pktBuff := m }
  else none

/-- `thisfrag + (len / 8)`, past hole `h` where the holes are fixed -/
def Ip.newh (ip : Ip) : Nat := (ip.offset8 + ip.len.tdiv 8).toNat

/-- Fix the hole list. -/
def fixHoles (st : Defrag) (ip : Ip) (h : Nat) : Option (Bool × Defrag) :=
  if ip.offset8 ≤ h ∧ lastByte st.pktBuff h ≤ ip.stop then removeHole st h
  else if lastByte st.pktBuff h ≤ ip.stop then some (false, shortenHole st h ip.start)
  else if ip.offset8 ≤ h then (moveHole st h ip.newh).map (Prod.mk false)
  else (splitHole st h ip.newh ip.start).map (Prod.mk false)

/-- `memcpy` of the fragment to its place, within both packets. -/
def copyFragment (m : Flash) (ip : Ip) : Option Flash :=
  if 0 ≤ ip.len ∧ ip.ipLen ≤ ip.size ∧ ip.start + ip.len ≤ ipMaxudp then
    some (patch m (ipHdrSizeNoUdp + ip.start) ip.len.toNat fun x => ip.bytes (x - ip.start))
  else none

/-- The last fragment truncates the (last) hole. -/
def Defrag.truncate (st : Defrag) (ip : Ip) (h : Nat) : Defrag :=
  if ip.mfrag then st
  else { st with
    totalLen := ip.stop
    pktBuff := setLastByte st.pktBuff h ip.stop }

/-- `localip` with its new `ip_len`, and `*lenp`. -/
def Defrag.localip (st : Defrag) : Ip := ⟨putBe16 st.pktBuff 2 st.totalLen, st.totalLen + ipHdrSizeNoUdp⟩

/-- The fragment overlaps hole `h`. -/
def addFragment (st : Defrag) (ip : Ip) (h : Nat) : Option (Option Ip × Defrag) := do
  let (done, st) ← fixHoles (st.truncate ip h) ip h
  let m ← copyFragment st.pktBuff ip
  let st := { st with pktBuff := m }
  if done then some (some st.localip, { st with pktBuff := st.localip.bytes })
  else some (none, st)

/-- `IP_MAXUDP` is unsigned, so a negative sum is beyond it as well. -/
def Ip.TooFar (ip : Ip) : Prop := (ipMaxudp : Int) < (ip.start + ip.len) % 4294967296

instance (ip : Ip) : Decidable ip.TooFar := inferInstanceAs (Decidable (_ < _))

/-- `__NetDefragment`: no packet where it returns `NULL`. -/
def netDefragmentFrag (st : Defrag) (ip : Ip) : Option (Option Ip × Defrag) :=
  if ip.TooFar then some (none, st)
  else do
    let st := st.begin ip
    match ← seekHole st.pktBuff ip.start holeRounds st.firstHole with
    | none => some (none, st)
    | some h =>
      if ip.offset8 + ip.len.tdiv 8 ≤ h then some (none, st)
      else addFragment st ip h

def Ip.IsWhole (ip : Ip) : Prop := ip.ipOff &&& (ipOffs ||| ipFlagsMfrag) = 0

instance (ip : Ip) : Decidable ip.IsWhole := inferInstanceAs (Decidable (_ = _))

def netDefragment (st : Defrag) (ip : Ip) : Option (Option Ip × Defrag) :=
  if ip.IsWhole then some (some ip, st)
  else netDefragmentFrag st ip

open Linked

abbrev Hole := Nat × Nat

variable {m m' : Flash} {j k l v p n q : Nat} {hs pre post : List Hole}
variable {ks : List Nat}

@[simp] theorem lastByte_setLastByte (h : v < 65536) : lastByte (setLastByte m k v) k = v := le16_putLe16 h
@[simp] theorem nextHole_setNextHole (h : v < 65536) : nextHole (setNextHole m k v) k = v := le16_putLe16 h
@[simp] theorem prevHole_setPrevHole (h : v < 65536) : prevHole (setPrevHole m k v) k = v := le16_putLe16 h

@[simp] theorem lastByte_setNextHole : lastByte (setNextHole m k v) j = lastByte m j :=
  le16_putLe16_of_ne (by unfold hole; omega)
@[simp] theorem lastByte_setPrevHole : lastByte (setPrevHole m k v) j = lastByte m j :=
  le16_putLe16_of_ne (by unfold hole; omega)
@[simp] theorem nextHole_setLastByte : nextHole (setLastByte m k v) j = nextHole m j :=
  le16_putLe16_of_ne (by unfold hole; omega)
@[simp] theorem nextHole_setPrevHole : nextHole (setPrevHole m k v) j = nextHole m j :=
  le16_putLe16_of_ne (by unfold hole; omega)
@[simp] theorem prevHole_setLastByte : prevHole (setLastByte m k v) j = prevHole m j :=
  le16_putLe16_of_ne (by unfold hole; omega)
@[simp] theorem prevHole_setNextHole : prevHole (setNextHole m k v) j = prevHole m j :=
  le16_putLe16_of_ne (by unfold hole; omega)

/-- Nothing is written outside of the descriptors `ks`. -/
def Same (m m' : Flash) (ks : List Nat) : Prop :=
  ∀ x, (∀ k ∈ ks, x < hole k ∨ hole k + 8 ≤ x) → m' x = m x

theorem same_setLastByte : Same m (setLastByte m k v) [k] := fun x hx => by
  have := hx k mem_cons_self
  exact putLe16_outside (by omega)

theorem same_setNextHole : Same m (setNextHole m k v) [k] := fun x hx => by
  have := hx k mem_cons_self
  exact putLe16_outside (by omega)

theorem same_setPrevHole : Same m (setPrevHole m k v) [k] := fun x hx => by
  have := hx k mem_cons_self
  exact putLe16_outside (by omega)

theorem same_copyHole : Same m (copyHole m j k) [k] :=
  fun _ hx => patch_outside (hx k mem_cons_self)

theorem Same.trans {m'' : Flash} {js : List Nat} (h : Same m m' ks) (h' : Same m' m'' js) :
    Same m m'' (ks ++ js) := fun x hx =>
  (h' x fun k hk => hx k (mem_append_right ks hk)).trans
    (h x fun k hk => hx k (mem_append_left js hk))

theorem Same.mono {js : List Nat} (h : Same m m' ks) (hk : ∀ k ∈ ks, k ∈ js) : Same m m' js :=
  fun x hx => h x fun k hmem => hx k (hk k hmem)

theorem fields_congr (h : ∀ x, hole k ≤ x → x < hole k + 8 → m' x = m x) :
    lastByte m' k = lastByte m k ∧ nextHole m' k = nextHole m k ∧ prevHole m' k = prevHole m k := by
  refine ⟨?_, ?_, ?_⟩ <;> exact le16_congr (h _ (by omega) (by omega)) (h _ (by omega) (by omega))

theorem Same.fields (h : Same m m' ks) (hj : j ∉ ks) :
    lastByte m' j = lastByte m j ∧ nextHole m' j = nextHole m j ∧ prevHole m' j = prevHole m j := by
  apply fields_congr
  intro x hx hlt
  apply h x
  intro k hk
  have hne : j ≠ k := fun he => hj (he ▸ hk)
  unfold hole at *
  omega

theorem copyHole_fields : lastByte (copyHole m j k) k = lastByte m j ∧
    nextHole (copyHole m j k) k = nextHole m j ∧ prevHole (copyHole m j k) k = prevHole m j := by
  have h : ∀ i, i < 8 → copyHole m j k (hole k + i) = m (hole j + i) := by
    intro i hi
    rw [copyHole, patch_inside (by omega) (by omega), Nat.add_sub_cancel_left]
  exact ⟨le16_congr (h 0 (by omega)) (h 1 (by omega)), le16_congr (h 2 (by omega)) (h 3 (by omega)),
    le16_congr (h 4 (by omega)) (h 5 (by omega))⟩

def indices (hs : List Hole) : List Nat := hs.map Prod.fst

def firstOf (hs : List Hole) : Nat := (indices hs).headD 0
def lastOf (hs : List Hole) : Nat := (indices hs).getLastD 0

/-- The buffer holds the holes `hs`, linked from `p` to `n`. -/
def HoleList (m : Flash) (p n : Nat) (hs : List Hole) : Prop :=
  Links (nextHole m) (prevHole m) p n (indices hs) ∧ ∀ a ∈ hs, lastByte m a.1 = a.2

theorem HoleList.congr (h : HoleList m p n hs)
    (hf : ∀ k ∈ indices hs, lastByte m' k = lastByte m k ∧ nextHole m' k = nextHole m k ∧
      prevHole m' k = prevHole m k) : HoleList m' p n hs := by
  refine ⟨h.1.congr (fun k hk => (hf k hk).2.1) fun k hk => (hf k hk).2.2, fun a ha => ?_⟩
  exact ((hf a.1 (mem_map_of_mem ha)).1).trans (h.2 a ha)

theorem HoleList.frame (h : HoleList m p n hs) (hs' : Same m m' ks)
    (hd : ∀ k ∈ indices hs, k ∉ ks) : HoleList m' p n hs :=
  h.congr fun k hk => hs'.fields (hd k hk)

theorem holeList_split : HoleList m p n (pre ++ (k, l) :: post) ↔
    HoleList m p k pre ∧ lastByte m k = l ∧ prevHole m k = (indices pre).getLastD p ∧
      nextHole m k = (indices post).headD n ∧ HoleList m k n post := by
  have hmap : indices (pre ++ (k, l) :: post) = indices pre ++ k :: indices post := by simp [indices]
  rw [HoleList, HoleList, HoleList, hmap, links_append, Links]
  constructor
  · rintro ⟨⟨hpre, hp, hn, hpost⟩, hl⟩
    exact ⟨⟨hpre, fun a ha => hl a (mem_append_left _ ha)⟩,
      hl (k, l) (mem_append_right pre mem_cons_self), hp, hn, hpost,
      fun a ha => hl a (mem_append_right pre (mem_cons_of_mem _ ha))⟩
  · rintro ⟨⟨hpre, hlpre⟩, hk, hp, hn, hpost, hlpost⟩
    refine ⟨⟨hpre, hp, hn, hpost⟩, fun a ha => ?_⟩
    rcases mem_append.mp ha with ha | ha
    · exact hlpre a ha
    · rcases mem_cons.mp ha with rfl | ha
      · exact hk
      · exact hlpost a ha

theorem holeList_append : HoleList m p n (pre ++ post) ↔
    HoleList m p ((indices post).headD n) pre ∧ HoleList m ((indices pre).getLastD p) n post := by
  have hmap : indices (pre ++ post) = indices pre ++ indices post := by simp [indices]
  rw [HoleList, HoleList, HoleList, hmap, links_append]
  constructor
  · rintro ⟨⟨hpre, hpost⟩, hl⟩
    exact ⟨⟨hpre, fun a ha => hl a (mem_append_left _ ha)⟩, hpost,
      fun a ha => hl a (mem_append_right pre ha)⟩
  · rintro ⟨⟨hpre, hlpre⟩, hpost, hlpost⟩
    exact ⟨⟨hpre, hpost⟩, fun a ha => (mem_append.mp ha).elim (hlpre a) (hlpost a)⟩

/-- The holes lie one after the other, each with a byte at least and its descriptor in the buffer. -/
def SortedHoles (hs : List Hole) : Prop :=
  hs.Pairwise (fun a b => a.2 ≤ 8 * b.1) ∧ ∀ a ∈ hs, InBuff a.1 ∧ 8 * a.1 < a.2

theorem sortedHoles_append : SortedHoles (pre ++ post) ↔
    SortedHoles pre ∧ SortedHoles post ∧ ∀ b ∈ pre, ∀ c ∈ post, b.2 ≤ 8 * c.1 := by
  simp only [SortedHoles, pairwise_append, mem_append]
  constructor
  · rintro ⟨⟨hpre, hpost, hd⟩, hin⟩
    exact ⟨⟨hpre, fun a ha => hin a (.inl ha)⟩, ⟨hpost, fun a ha => hin a (.inr ha)⟩, hd⟩
  · rintro ⟨⟨hpre, hipre⟩, ⟨hpost, hipost⟩, hd⟩
    exact ⟨⟨hpre, hpost, hd⟩, fun a ha => ha.elim (hipre a) (hipost a)⟩

theorem sortedHoles_cons {a : Hole} : SortedHoles (a :: hs) ↔
    (InBuff a.1 ∧ 8 * a.1 < a.2) ∧ (∀ b ∈ hs, a.2 ≤ 8 * b.1) ∧ SortedHoles hs := by
  simp only [SortedHoles, pairwise_cons, forall_mem_cons]
  constructor
  · rintro ⟨⟨hlt, hs⟩, ha, hin⟩
    exact ⟨ha, hlt, hs, hin⟩
  · rintro ⟨ha, hlt, hs, hin⟩
    exact ⟨⟨hlt, hs⟩, ha, hin⟩

theorem SortedHoles.nodup (h : SortedHoles hs) : (indices hs).Nodup := by
  refine List.Pairwise.map Prod.fst (fun a b hab => hab) (List.Pairwise.imp_of_mem ?_ h.1)
  intro a b ha _ hab
  have := (h.2 a ha).2
  omega

theorem SortedHoles.before (h : SortedHoles (pre ++ (k, l) :: post)) : ∀ b ∈ pre, b.1 < k ∧ b.2 ≤ 8 * k := by
  intro b hb
  have hlt := (sortedHoles_append.mp h).2.2 b hb (k, l) mem_cons_self
  have hin := (h.2 b (mem_append_left _ hb)).2
  exact ⟨by omega, hlt⟩

theorem SortedHoles.after (h : SortedHoles (pre ++ (k, l) :: post)) : ∀ b ∈ post, k < b.1 ∧ l ≤ 8 * b.1 := by
  intro b hb
  obtain ⟨hin, hlt, -⟩ := sortedHoles_cons.mp (sortedHoles_append.mp h).2.1
  have hb' := hlt b hb
  exact ⟨by omega, hb'⟩

theorem not_mem_indices (h : ∀ b ∈ hs, b.1 ≠ k) : k ∉ indices hs := by
  intro hk
  obtain ⟨b, hb, he⟩ := mem_map.mp hk
  exact h b hb he

theorem inBuff_lt (h : InBuff k) : k < 65536 := by
  unfold InBuff ipMaxudp ipPktsize ipHdrSizeNoUdp at h
  omega

theorem linkNext_spec (h : HoleList m p 0 post) (hin : ∀ a ∈ post, InBuff a.1 ∧ 0 < a.1)
    (hn : (indices post).Nodup) (hq : q < 65536) :
    ∃ m', linkNext m (firstOf post) q = some m' ∧ HoleList m' q 0 post ∧ Same m m' (indices post) := by
  cases post with
  | nil => exact ⟨m, rfl, ⟨trivial, fun a ha => absurd ha not_mem_nil⟩, fun _ _ => rfl⟩
  | cons a post =>
    obtain ⟨hina, hpos⟩ := hin a mem_cons_self
    have hne : firstOf (a :: post) ≠ 0 := ne_of_gt hpos
    refine ⟨setPrevHole m a.1 q, ?_, ⟨?_, fun b hb => ?_⟩, ?_⟩
    · rw [linkNext, if_pos hne]
      exact if_pos hina
    · refine h.1.relinkHead (prevHole_setPrevHole hq) (fun j _ => nextHole_setPrevHole) fun j hj => ?_
      have hja : j ∉ [a.1] := by
        rintro hmem
        rw [mem_singleton.mp hmem] at hj
        exact (nodup_cons.mp hn).1 hj
      exact ((same_setPrevHole).fields hja).2.2
    · rw [lastByte_setPrevHole]
      exact h.2 b hb
    · refine (same_setPrevHole).mono fun k hk => ?_
      rw [mem_singleton.mp hk]
      exact mem_cons_self

theorem linkLast_spec (h : HoleList m p n (pre ++ [(j, l)])) (hn : (indices (pre ++ [(j, l)])).Nodup)
    (hq : q < 65536) : HoleList (setNextHole m j q) p q (pre ++ [(j, l)]) := by
  have hmap : indices (pre ++ [(j, l)]) = indices pre ++ [j] := by simp [indices]
  rw [hmap] at hn
  refine ⟨?_, fun b hb => ?_⟩
  · have hl := h.1
    rw [hmap] at hl ⊢
    refine hl.relinkLast (nextHole_setNextHole hq) (fun i hi => ?_) fun i _ => prevHole_setNextHole
    have hij : i ∉ [j] := fun hmem => (nodup_append.mp hn).2.2 i hi j mem_cons_self (mem_singleton.mp hmem)
    exact ((same_setNextHole).fields hij).2.1
  · rw [lastByte_setNextHole]
    exact h.2 b hb

end UBoot
