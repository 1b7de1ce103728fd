import Mathlib.Data.Nat.Find
import UBoot.NetSteps
import UBoot.Runs

namespace UBoot

open FlashCells Linked List Words

variable {st : Defrag} {ip : Ip} {m : Flash} {k l p start fuel : Nat} {hs pre post : List Hole}

/-- The holes of a packet, read off its descriptors. -/
def holesFrom (m : Flash) : Nat → Nat → List Hole
  | 0, _ => []
  | fuel + 1, h => (h, lastByte m h) :: if nextHole m h = 0 then [] else holesFrom m fuel (nextHole m h)

def Defrag.holes (st : Defrag) : List Hole := holesFrom st.pktBuff holeRounds st.firstHole

theorem holesFrom_eq (h : HoleList m p 0 hs) (hpos : ∀ b ∈ hs.tail, 0 < b.1) (hne : hs ≠ [])
    (hfuel : hs.length ≤ fuel) : holesFrom m fuel (firstOf hs) = hs := by
  induction hs generalizing p fuel with
  | nil => exact absurd rfl hne
  | cons a hs ih =>
    obtain ⟨⟨-, hnext, hlinks⟩, hlast⟩ := h
    obtain ⟨f, rfl⟩ : ∃ f, fuel = f + 1 := ⟨fuel - 1, by simp only [length_cons] at hfuel; omega⟩
    simp only [length_cons, Nat.add_le_add_iff_right] at hfuel
    change nextHole m a.1 = firstOf hs at hnext
    change holesFrom m (f + 1) a.1 = a :: hs
    rw [holesFrom, hnext, hlast a mem_cons_self]
    cases hcase : hs with
    | nil => rfl
    | cons b tl =>
      have hb0 : firstOf hs ≠ 0 := by
        rw [hcase]
        exact ne_of_gt (hpos b (by rw [tail_cons, hcase]; exact mem_cons_self))
      have hlist : HoleList m a.1 0 hs := ⟨hlinks, fun b hb => hlast b (mem_cons_of_mem a hb)⟩
      rw [← hcase, if_neg hb0, ih hlist (fun c hc => hpos c (mem_of_mem_tail hc))
        (by rw [hcase]; exact cons_ne_nil b tl) hfuel]

theorem Listed.holes_eq (h : Listed st hs) (hne : hs ≠ []) : st.holes = hs := by
  rw [Defrag.holes, h.first]
  exact holesFrom_eq h.list h.sorted.tail_pos hne h.sorted.length_le

theorem reset_listed (st : Defrag) (ip : Ip) : Listed (st.reset ip) [(0, 0xffff)] := by
  have hout : ∀ x, hole 0 ≤ x → x < hole 0 + 8 → (st.reset ip).pktBuff x =
      setPrevHole (setNextHole (setLastByte st.pktBuff 0 0xffff) 0 0) 0 0 x := by
    intro x hx _
    unfold hole at hx
    exact patch_outside (by omega)
  obtain ⟨hlast, hnext, hprev⟩ := fields_congr hout
  rw [lastByte_setPrevHole, lastByte_setNextHole, lastByte_setLastByte (by omega)] at hlast
  rw [nextHole_setPrevHole, nextHole_setNextHole (by omega)] at hnext
  rw [prevHole_setPrevHole (by omega)] at hprev
  refine ⟨⟨⟨hprev, hnext, trivial⟩, ?_⟩, rfl, ?_⟩
  · intro a ha
    rw [mem_singleton.mp ha]
    exact hlast
  · exact sortedHoles_cons.mpr ⟨⟨by decide, by decide⟩, fun _ hb => absurd hb not_mem_nil, sortedHoles_nil⟩

/-- The fragment fits in the hole that the walk finds, if it is put into one. -/
def FitsHoles (ip : Ip) (hs : List Hole) : Prop :=
  ∀ (pre : List Hole) (k l : Nat) (post : List Hole), hs = pre ++ (k, l) :: post →
    (∀ b ∈ pre, b.2 < ip.start) → ip.start ≤ l → k < ip.offset8 + ip.len.tdiv 8 → Fits ip k (truncated ip l) post

theorem netDefragmentFrag_listed (hfar : ¬ip.TooFar) (h : Listed (st.begin ip) hs) (hne : hs ≠ [])
    (hf : FitsHoles ip hs) (hsize : ip.ipLen ≤ ip.size) :
    (∃ p st', netDefragmentFrag st ip = some (some p, st')) ∨
    ∃ st' hs', netDefragmentFrag st ip = some (none, st') ∧ Listed st' hs' ∧ hs' ≠ [] := by
  obtain ⟨-, hmax⟩ := not_tooFar hfar
  rcases netDefragmentFrag_cases hfar h hne with ⟨pre, k, l, post, rfl, hwalk, hl, hd⟩ | ⟨-, hd⟩
  · rw [hd]
    split
    · exact .inr ⟨_, _, rfl, h, hne⟩
    next hpast =>
      have hfits := hf pre k l post rfl hwalk hl (by omega)
      rcases addFragment_spec h hwalk hfits hsize hmax with ⟨-, p, st', ha⟩ | ⟨st', ha, hne', hlist, -⟩
      · exact .inl ⟨p, st', ha⟩
      · exact .inr ⟨st', _, ha, hlist, hne'⟩
  · rw [hd]
    exact .inr ⟨_, _, rfl, h, hne⟩

def Begins (st : Defrag) (ip : Ip) : Prop := ¬ip.TooFar ∧ st.IsNew ip

instance (st : Defrag) (ip : Ip) : Decidable (Begins st ip) := inferInstanceAs (Decidable (_ ∧ _))

def defragStep (w : Defrag × Bool) (ip : Ip) : Option (Option Ip × Defrag × Bool) :=
  (netDefragmentFrag w.1 ip).map fun r => (r.1, r.2, r.1.isSome || w.2 && !decide (Begins w.1 ip))

/-- What must hold of a fragment in the state it arrives in: after a packet was returned, that it begins
a new one, and that it fits in the holes. -/
def Harmless (w : Defrag × Bool) (ip : Ip) : Prop :=
  ip.TooFar ∨ (w.2 = true → w.1.IsNew ip) ∧ FitsHoles ip (w.1.begin ip).holes

/-- The holes of a packet that was begun and not returned are intact. -/
def Intact (w : Defrag × Bool) : Prop :=
  w.1.totalLen = 0 ∨ w.2 = true ∨ ∃ hs, hs ≠ [] ∧ Listed w.1 hs

theorem Intact.begin {w : Defrag × Bool} (h : Intact w) (hnew : w.2 = true → w.1.IsNew ip) :
    ∃ hs, hs ≠ [] ∧ Listed (w.1.begin ip) hs := by
  unfold Defrag.begin
  split
  · exact ⟨_, cons_ne_nil _ _, reset_listed w.1 ip⟩
  next hold =>
    rcases h with h₀ | hret | hlist
    · exact absurd (.inl h₀) hold
    · exact absurd (hnew hret) hold
    · exact hlist

theorem defragStep_safe {w : Defrag × Bool} (h : Intact w) (hin : ip.ipLen ≤ ip.size)
    (hok : Harmless w ip) : ∃ b w', defragStep w ip = some (b, w') ∧ Intact w' := by
  by_cases hfar : ip.TooFar
  · have hstep : netDefragmentFrag w.1 ip = some (none, w.1) := by rw [netDefragmentFrag, if_pos hfar]
    have hno : ¬Begins w.1 ip := fun hb => hb.1 hfar
    refine ⟨none, w, ?_, h⟩
    rw [defragStep, hstep]
    simp [hno]
  · obtain ⟨hnew, hfits⟩ := hok.resolve_left hfar
    obtain ⟨hs, hne, hlist⟩ := h.begin hnew
    rw [hlist.holes_eq hne] at hfits
    rcases netDefragmentFrag_listed hfar hlist hne hfits hin with ⟨p, st', hd⟩ | ⟨st', hs', hd, hlist', hne'⟩
    · refine ⟨some p, (st', true), ?_, .inr (.inl rfl)⟩
      rw [defragStep, hd]
      rfl
    · refine ⟨none, (st', w.2 && !decide (Begins w.1 ip)), ?_, .inr (.inr ⟨hs', hne', hlist'⟩)⟩
      rw [defragStep, hd]
      rfl

/-- Along every run of fragments that are harmless when they arrive, each access is inside of the
buffer, the copied length is within the packet and the walks end. -/
theorem defrag_safe {ips : List Ip} (hin : ∀ ip ∈ ips, ip.ipLen ≤ ip.size)
    (hok : Runs.Meets defragStep Harmless (defragInit, false) ips) :
    ∃ answers w, Runs.run defragStep (defragInit, false) ips = some (answers, w) ∧ Intact w := by
  have hinit : Intact (defragInit, false) := .inl rfl
  have hstep : ∀ w ip, Intact w → ip.ipLen ≤ ip.size → Harmless w ip →
      ∃ b w', defragStep w ip = some (b, w') ∧ Intact w' :=
    fun _ _ h hsize hp => defragStep_safe h hsize hp
  exact Runs.run_total (v := fun ip => ip.ipLen ≤ ip.size) hstep hinit hin hok

def sampleIp (ipLen ipOff : Nat) (payload : List UInt8) : Ip where
  bytes := fun x =>
    ([0x45, 0, UInt8.ofNat (ipLen / 256), UInt8.ofNat ipLen, 0, 1, UInt8.ofNat (ipOff / 256),
      UInt8.ofNat ipOff, 64, 17] ++ List.replicate 10 0 ++ payload).getD x 0
  size := ipHdrSizeNoUdp + payload.length

theorem fitsHoles_singleton (h : Fits ip k (truncated ip l) []) : FitsHoles ip [(k, l)] := by
  intro pre k' l' post he _ _ _
  cases pre with
  | nil =>
    obtain ⟨hkl, rfl⟩ := List.cons.inj he
    obtain ⟨rfl, rfl⟩ := Prod.mk.inj hkl
    exact h
  | cons a pre => simp at he

/-- The first eight bytes of a datagram are harmless. -/
theorem defrag_safe_first :
    ∃ answers w, Runs.run defragStep (defragInit, false) [sampleIp 28 0x2000 (List.replicate 8 0)] =
      some (answers, w) ∧ Intact w := by
  refine defrag_safe (forall_mem_singleton.mpr (by decide)) ⟨.inr ⟨nofun, ?_⟩, fun _ _ _ => trivial⟩
  have hholes : (Defrag.begin defragInit (sampleIp 28 0x2000 (List.replicate 8 0))).holes = [(0, 0xffff)] :=
    (reset_listed _ _).holes_eq (cons_ne_nil _ _)
  rw [hholes]
  exact fitsHoles_singleton ⟨by decide, by decide, nofun, fun _ => by decide⟩

/-- A length below that of the header is copied all the same. -/
theorem negative_length_copied : ¬∀ ips : List Ip, (∀ ip ∈ ips, ip.ipLen ≤ ip.size) →
      ∃ answers w, Runs.run defragStep (defragInit, false) ips = some (answers, w) := by
  intro h
  have hin : ∀ ip ∈ [sampleIp 0 0x2003 (List.replicate 8 0)], ip.ipLen ≤ ip.size :=
    forall_mem_singleton.mpr (by decide)
  obtain ⟨answers, w, hrun⟩ := h _ hin
  have hnone : netDefragmentFrag defragInit (sampleIp 0 0x2003 (List.replicate 8 0)) = none := rfl
  have hstep : defragStep (defragInit, false) (sampleIp 0 0x2003 (List.replicate 8 0)) = none := by
    rw [defragStep, hnone]
    rfl
  cases hrun.symm.trans (Runs.run_head_none hstep)

end UBoot
