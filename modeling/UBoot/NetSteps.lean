import Mathlib.Data.List.Perm.Subperm
import UBoot.NetFixHoles
import UBoot.NetHandler

namespace UBoot

open FlashCells Linked List Words

variable {st : Defrag} {ip : Ip} {m : Flash} {k l p fuel : Nat} {hs pre post : List Hole}

theorem seekHole_spec (start : Nat) (h : HoleList m p 0 hs) (hs' : SortedHoles hs) (hpos : ∀ b ∈ hs.tail, 0 < b.1)
    (hne : hs ≠ []) (hfuel : hs.length ≤ fuel) :
    (∃ pre k l post, hs = pre ++ (k, l) :: post ∧ (∀ b ∈ pre, b.2 < start) ∧ start ≤ l ∧
      seekHole m start fuel (firstOf hs) = some (some k)) ∨
    ((∀ b ∈ hs, b.2 < start) ∧ seekHole m start fuel (firstOf hs) = some none) := by
  induction hs generalizing p fuel with
  | nil => exact absurd rfl hne
  | cons a hs ih =>
    obtain ⟨⟨-, hnext, hlinks⟩, hlast⟩ := h
    obtain ⟨ha, -, hsorted⟩ := sortedHoles_cons.mp hs'
    have hla : lastByte m a.1 = a.2 := hlast a mem_cons_self
    have hlist : HoleList m a.1 0 hs := ⟨hlinks, fun b hb => hlast b (mem_cons_of_mem a hb)⟩
    change nextHole m a.1 = firstOf hs at hnext
    obtain ⟨f, rfl⟩ : ∃ f, fuel = f + 1 := ⟨fuel - 1, by simp only [length_cons] at hfuel; omega⟩
    simp only [length_cons, Nat.add_le_add_iff_right] at hfuel
    change (∃ pre k l post, _ ∧ _ ∧ _ ∧ seekHole m start (f + 1) a.1 = _) ∨
      (_ ∧ seekHole m start (f + 1) a.1 = _)
    rw [seekHole, if_pos ha.1, hla, hnext]
    by_cases hend : a.2 < start
    · rw [if_pos hend]
      cases hcase : hs with
      | nil =>
        right
        exact ⟨forall_mem_cons.mpr ⟨hend, fun b hb => absurd hb not_mem_nil⟩, rfl⟩
      | cons b tl =>
        have hb0 : firstOf hs ≠ 0 := by
          have := hpos b (by rw [tail_cons, hcase]; exact mem_cons_self)
          rw [hcase]
          exact ne_of_gt this
        have htail : ∀ c ∈ hs.tail, 0 < c.1 := fun c hc => hpos c (mem_of_mem_tail hc)
        rw [← hcase, if_neg hb0]
        rcases ih hlist hsorted htail (by rw [hcase]; exact cons_ne_nil b tl) hfuel with
          ⟨pre, k, l, post, he, hpre, hl, hseek⟩ | ⟨hall, hseek⟩
        · left
          exact ⟨a :: pre, k, l, post, by rw [he]; rfl, forall_mem_cons.mpr ⟨hend, hpre⟩, hl, hseek⟩
        · right
          exact ⟨forall_mem_cons.mpr ⟨hend, hall⟩, hseek⟩
    · left
      rw [if_neg hend]
      exact ⟨[], a.1, a.2, hs, rfl, fun b hb => absurd hb not_mem_nil, by omega, rfl⟩

theorem SortedHoles.length_le (h : SortedHoles hs) : hs.length ≤ holeRounds := by
  have hnodup := h.nodup
  have hsub : indices hs ⊆ List.range holeRounds := by
    intro i hi
    obtain ⟨b, hb, rfl⟩ := mem_map.mp hi
    have hin := (h.2 b hb).1
    rw [mem_range, holeRounds]
    unfold InBuff at hin
    omega
  have hle := (hnodup.subperm hsub).length_le
  rwa [indices, length_map, length_range] at hle

theorem SortedHoles.tail_pos (h : SortedHoles hs) : ∀ b ∈ hs.tail, 0 < b.1 := by
  cases hs with
  | nil => exact fun b hb => absurd hb not_mem_nil
  | cons a hs => exact fun b hb => (after_linkable (show SortedHoles ([] ++ a :: hs) from h) b hb).2

/-- The holes left after a fragment is put into hole `(k, l)`. -/
def edited (pre : List Hole) (k l : Nat) (post : List Hole) (ip : Ip) : List Hole :=
  if ip.offset8 ≤ k then
    if l ≤ ip.stop then kept pre ++ post else kept pre ++ (ip.newh, l) :: post
  else if l ≤ ip.stop then pre ++ (k, ip.start) :: post
  else pre ++ (k, ip.start) :: (ip.newh, l) :: post

/-- The fragment reaches into hole `(k, l)` and no further, and where a part of the hole is left after
it, that part begins where the fragment ends and has room for its descriptor. -/
structure Fits (ip : Ip) (k l : Nat) (post : List Hole) : Prop where
  len_nonneg : 0 ≤ ip.len
  past : k < ip.newh
  next : ∀ c ∈ post, ip.stop ≤ 8 * c.1
  rest : ip.stop < l → 8 ∣ ip.len ∧ InBuff ip.newh

theorem newh_bounds (h : 0 ≤ ip.len) : ip.start = 8 * ip.offset8 ∧ ip.offset8 ≤ ip.newh ∧
    8 * ip.newh ≤ ip.stop ∧ ip.stop < 8 * ip.newh + 8 ∧ (ip.stop : Int) = ip.start + ip.len := by
  have hdiv : ip.len.tdiv 8 = ip.len / 8 := Int.tdiv_eq_ediv_of_nonneg h
  have hstart : ip.start = ip.offset8 * 8 := rfl
  have hstop : ip.stop = (ip.start + ip.len).toNat := rfl
  have hnewh : ip.newh = (ip.offset8 + ip.len.tdiv 8).toNat := rfl
  omega

theorem Fits.stop_eq (h : Fits ip k l post) (hl : ip.stop < l) : ip.stop = 8 * ip.newh := by
  have hdiv := (h.rest hl).1
  have hlt := newh_bounds h.len_nonneg
  omega

theorem edited_sorted (h : SortedHoles (pre ++ (k, l) :: post)) (hf : Fits ip k l post) :
    SortedHoles (edited pre k l post ip) := by
  obtain ⟨hstart, hoff, hnlo, -, hstop⟩ := newh_bounds hf.len_nonneg
  have hpast := hf.past
  obtain ⟨hink, hkl⟩ := h.2 (k, l) (mem_append_right pre mem_cons_self)
  have hafter : ∀ c ∈ post, l ≤ 8 * c.1 := fun c hc => (h.after c hc).2
  unfold edited
  split
  next hover =>
    split
    · exact h.erase.kept
    next hl =>
      have hone : SortedHoles [(ip.newh, l)] := by
        refine sortedHoles_cons.mpr ⟨⟨(hf.rest (by omega)).2, ?_⟩, ?_, sortedHoles_nil⟩
        · dsimp only
          omega
        · exact fun b hb => absurd hb not_mem_nil
      refine (h.replace hone (fun b hb => ?_) fun b hb c hc => ?_).kept
      · obtain rfl := mem_singleton.mp hb
        exact le_of_lt hpast
      · obtain rfl := mem_singleton.mp hb
        exact hafter c hc
  next hover =>
    split
    next hl =>
      have hone : SortedHoles [(k, ip.start)] := by
        refine sortedHoles_cons.mpr ⟨⟨hink, ?_⟩, ?_, sortedHoles_nil⟩
        · dsimp only
          omega
        · exact fun b hb => absurd hb not_mem_nil
      refine h.replace hone (fun b hb => ?_) fun b hb c hc => ?_
      · obtain rfl := mem_singleton.mp hb
        exact le_refl k
      · obtain rfl := mem_singleton.mp hb
        have := hf.next c hc
        omega
    next hl =>
      have htwo : SortedHoles [(k, ip.start), (ip.newh, l)] := by
        refine sortedHoles_cons.mpr ⟨⟨hink, ?_⟩, fun b hb => ?_, sortedHoles_cons.mpr ⟨⟨(hf.rest (by omega)).2, ?_⟩,
          ?_, sortedHoles_nil⟩⟩
        · dsimp only
          omega
        · obtain rfl := mem_singleton.mp hb
          omega
        · dsimp only
          omega
        · exact fun b hb => absurd hb not_mem_nil
      refine h.replace htwo (fun b hb => ?_) fun b hb c hc => ?_
      · rcases mem_cons.mp hb with rfl | hb
        · exact le_refl k
        · obtain rfl := mem_singleton.mp hb
          exact le_of_lt hpast
      · have hc' := hafter c hc
        rcases mem_cons.mp hb with rfl | hb
        · dsimp only
          omega
        · obtain rfl := mem_singleton.mp hb
          exact hc'

theorem fixHoles_spec (h : Listed st (pre ++ (k, l) :: post)) (hf : Fits ip k l post)
    (hstart : ip.start < 65536) :
    (edited pre k l post ip = [] ∧ fixHoles st ip k = some (true, st)) ∨
    ∃ st', fixHoles st ip k = some (false, st') ∧ edited pre k l post ip ≠ [] ∧
      Listed st' (edited pre k l post ip) ∧ st'.totalLen = st.totalLen ∧
      Same st.pktBuff st'.pktBuff (k :: indices (edited pre k l post ip)) := by
  obtain ⟨-, hlast, -, -, -⟩ := h.around
  have hsorted := edited_sorted h.sorted hf
  obtain ⟨-, -, hnlo, -, -⟩ := newh_bounds hf.len_nonneg
  have hpast := hf.past
  rw [fixHoles, hlast]
  by_cases hover : ip.offset8 ≤ k
  · by_cases hl : l ≤ ip.stop
    · have he : edited pre k l post ip = kept pre ++ post := by rw [edited, if_pos hover, if_pos hl]
      rw [if_pos (And.intro hover hl), he]
      rcases removeHole_spec h with ⟨hnil, hr⟩ | ⟨st', hr, hne, hlist, htotal, hsame⟩
      · exact .inl ⟨hnil, hr⟩
      · exact .inr ⟨st', hr, hne, hlist, htotal, hsame.mono fun i hi => mem_cons_of_mem k hi⟩
    · right
      have he : edited pre k l post ip = kept pre ++ (ip.newh, l) :: post := by
        rw [edited, if_pos hover, if_neg hl]
      obtain ⟨st', hm, hlist, hfirst, htotal, hsame⟩ :=
        moveHole_spec h hpast (by omega) (hf.rest (by omega)).2
      rw [if_neg (fun hb => hl hb.2), if_neg hl, if_pos hover, he, hm]
      rw [he] at hsorted
      refine ⟨st', rfl, by simp, ⟨hlist, hfirst, hsorted⟩, htotal, ?_⟩
      exact hsame.mono fun i hi => mem_cons_of_mem k hi
  · right
    have hfirst : ∀ tl tl' : List Hole,
        firstOf (pre ++ (k, l) :: tl) = firstOf (pre ++ (k, ip.start) :: tl') := by
      intro tl tl'
      cases pre <;> rfl
    by_cases hl : l ≤ ip.stop
    · have he : edited pre k l post ip = pre ++ (k, ip.start) :: post := by
        rw [edited, if_neg hover, if_pos hl]
      obtain ⟨hlist, hsame⟩ := shortenHole_spec h hstart
      rw [if_neg (fun hb => hover hb.1), if_pos hl, he]
      rw [he] at hsorted
      refine ⟨_, rfl, by simp, ⟨hlist, h.first.trans (hfirst _ _), hsorted⟩, rfl, ?_⟩
      exact hsame.mono fun i hi => (mem_singleton.mp hi) ▸ mem_cons_self
    · have he : edited pre k l post ip = pre ++ (k, ip.start) :: (ip.newh, l) :: post := by
        rw [edited, if_neg hover, if_neg hl]
      obtain ⟨st', hs, hlist, hst, htotal, hsame⟩ :=
        splitHole_spec h hpast (by omega) (hf.rest (by omega)).2 hstart
      rw [if_neg (fun hb => hover hb.1), if_neg hl, if_neg hover, he, hs]
      rw [he] at hsorted
      refine ⟨st', rfl, by simp, ⟨hlist, (hst.trans h.first).trans (hfirst _ _), hsorted⟩, htotal, ?_⟩
      refine hsame.mono fun i hi => mem_cons_of_mem k ?_
      rw [indices_append]
      exact mem_append_right _ hi

theorem edited_apart (h : SortedHoles (pre ++ (k, l) :: post)) (hf : Fits ip k l post)
    (hwalk : ∀ b ∈ pre, b.2 < ip.start) :
    ∀ i ∈ indices (edited pre k l post ip), 8 * i + 8 ≤ ip.start ∨ ip.stop ≤ 8 * i := by
  intro i hi
  obtain ⟨b, hb, rfl⟩ := mem_map.mp hi
  obtain ⟨hstart, hoff, hnlo, hnhi, hstop⟩ := newh_bounds hf.len_nonneg
  have hpre : ∀ b ∈ pre, 8 * b.1 + 8 ≤ ip.start := fun b hb => by
    have hw := hwalk b hb
    have hin := (h.2 b (mem_append_left _ hb)).2
    omega
  have hpost : ∀ b ∈ post, ip.stop ≤ 8 * b.1 := hf.next
  have hnew : ¬l ≤ ip.stop → ip.stop ≤ 8 * ip.newh := fun hl => le_of_eq (hf.stop_eq (by omega))
  unfold edited at hb
  split at hb
  next hover =>
    split at hb
    next hl =>
      rcases mem_append.mp hb with hb | hb
      · exact .inl (hpre b (kept_mem hb))
      · exact .inr (hpost b hb)
    next hl =>
      rcases mem_append.mp hb with hb | hb
      · exact .inl (hpre b (kept_mem hb))
      · rcases mem_cons.mp hb with rfl | hb
        · exact .inr (hnew hl)
        · exact .inr (hpost b hb)
  next hover =>
    split at hb
    next hl =>
      rcases mem_append.mp hb with hb | hb
      · exact .inl (hpre b hb)
      · rcases mem_cons.mp hb with rfl | hb
        · left
          omega
        · exact .inr (hpost b hb)
    next hl =>
      rcases mem_append.mp hb with hb | hb
      · exact .inl (hpre b hb)
      · rcases mem_cons.mp hb with rfl | hb
        · left
          omega
        · rcases mem_cons.mp hb with rfl | hb
          · exact .inr (hnew hl)
          · exact .inr (hpost b hb)

/-- The end of the hole that the walk found, the last fragment being taken into account. -/
def truncated (ip : Ip) (l : Nat) : Nat := if ip.mfrag then l else ip.stop

theorem truncate_spec (h : Listed st (pre ++ (k, l) :: post))
    (hf : Fits ip k (truncated ip l) post) (hmax : ip.stop ≤ ipMaxudp) :
    Listed (st.truncate ip k) (pre ++ (k, truncated ip l) :: post) ∧
      Same st.pktBuff (st.truncate ip k).pktBuff [k] := by
  unfold Defrag.truncate truncated
  split
  · exact ⟨h, fun _ _ => rfl⟩
  · have hmax' : ip.stop < 65536 := by
      unfold ipMaxudp ipPktsize ipHdrSizeNoUdp at hmax
      omega
    obtain ⟨hlist, hsame⟩ := shortenHole_spec h hmax'
    refine ⟨⟨hlist, ?_, ?_⟩, hsame⟩
    · rw [h.first]
      cases pre <;> rfl
    · obtain ⟨-, -, hnlo, -, -⟩ := newh_bounds hf.len_nonneg
      have hpast := hf.past
      have hone : SortedHoles [(k, ip.stop)] := by
        refine sortedHoles_cons.mpr ⟨⟨?_, ?_⟩, ?_, sortedHoles_nil⟩
        · exact (h.sorted.2 (k, l) (mem_append_right pre mem_cons_self)).1
        · dsimp only
          omega
        · exact fun b hb => absurd hb not_mem_nil
      refine h.sorted.replace hone (fun b hb => ?_) fun b hb c hc => ?_
      · obtain rfl := mem_singleton.mp hb
        exact le_refl k
      · obtain rfl := mem_singleton.mp hb
        exact hf.next c hc

theorem addFragment_spec (h : Listed st (pre ++ (k, l) :: post))
    (hwalk : ∀ b ∈ pre, b.2 < ip.start) (hf : Fits ip k (truncated ip l) post)
    (hsize : ip.ipLen ≤ ip.size) (hmax : ip.stop ≤ ipMaxudp) :
    (edited pre k (truncated ip l) post ip = [] ∧ ∃ p st', addFragment st ip k = some (some p, st')) ∨
    ∃ st', addFragment st ip k = some (none, st') ∧ edited pre k (truncated ip l) post ip ≠ [] ∧
      Listed st' (edited pre k (truncated ip l) post ip) ∧ st'.totalLen = wholeLen st ip ∧
      (∀ x, ip.start ≤ x → x < ip.stop → st'.pktBuff (ipHdrSizeNoUdp + x) = ip.bytes (ipHdrSizeNoUdp + x - ip.start)) ∧
      ∀ x, x < ipHdrSizeNoUdp + ip.start ∨ ipHdrSizeNoUdp + ip.stop ≤ x →
        (∀ i ∈ k :: indices (edited pre k (truncated ip l) post ip), x < hole i ∨ hole i + 8 ≤ x) →
        st'.pktBuff x = st.pktBuff x := by
  obtain ⟨htl, htsame⟩ := truncate_spec h hf hmax
  obtain ⟨hstart, -, -, -, hstop⟩ := newh_bounds hf.len_nonneg
  have hlen := hf.len_nonneg
  have hs : ip.start < 65536 := by
    unfold ipMaxudp ipPktsize ipHdrSizeNoUdp at hmax
    omega
  have hcopy : ∀ m, copyFragment m ip = some
      (patch m (ipHdrSizeNoUdp + ip.start) ip.len.toNat fun x => ip.bytes (x - ip.start)) :=
    fun m => if_pos ⟨hlen, hsize, by omega⟩
  unfold addFragment
  rcases fixHoles_spec htl hf hs with ⟨hnil, hfix⟩ | ⟨s, hfix, hne, hlist, htotal, hsame⟩
  · left
    rw [hfix]
    simp only [Option.bind_eq_bind, Option.bind_some, hcopy]
    exact ⟨hnil, _, _, rfl⟩
  · right
    rw [hfix]
    simp only [Option.bind_eq_bind, Option.bind_some, hcopy]
    refine ⟨_, rfl, hne, ⟨?_, hlist.first, hlist.sorted⟩, ?_, fun x hx hlt => ?_, fun x hx hd => ?_⟩
    · refine hlist.list.congr fun i hi => fields_congr fun x hx hlt => ?_
      have hapart := edited_apart htl.sorted hf hwalk i hi
      unfold hole at hx hlt
      dsimp only
      exact patch_outside (by omega)
    · exact htotal.trans (truncate_totalLen st ip k)
    · dsimp only
      exact patch_inside (by omega) (by omega)
    · dsimp only
      rw [patch_outside (by omega)]
      refine (hsame x hd).trans (htsame x fun i hi => ?_)
      rw [mem_singleton.mp hi]
      exact hd k mem_cons_self

theorem not_tooFar (h : ¬ip.TooFar) : (ip.start + ip.len : Int) = ip.stop ∧ ip.stop ≤ ipMaxudp := by
  have hoff := offset8_le ip
  have hip : ip.ipLen < 65536 := be16_lt ip.bytes 2
  have hstart : ip.start = ip.offset8 * 8 := rfl
  have hstop : ip.stop = (ip.start + ip.len).toNat := rfl
  have hlen : ip.len = ip.ipLen - ipHdrSizeNoUdp := rfl
  have hmax : ipMaxudp = 16464 := rfl
  have h20 : ipHdrSizeNoUdp = 20 := rfl
  unfold Ip.TooFar at h
  omega

theorem netDefragmentFrag_cases (hfar : ¬ip.TooFar) (h : Listed (st.begin ip) hs) (hne : hs ≠ []) :
    (∃ (pre : List Hole) (k l : Nat) (post : List Hole), hs = pre ++ (k, l) :: post ∧
      (∀ b ∈ pre, b.2 < ip.start) ∧ ip.start ≤ l ∧
      netDefragmentFrag st ip = if ip.offset8 + ip.len.tdiv 8 ≤ k then some (none, st.begin ip)
        else addFragment (st.begin ip) ip k) ∨
    ((∀ b ∈ hs, b.2 < ip.start) ∧ netDefragmentFrag st ip = some (none, st.begin ip)) := by
  rw [netDefragmentFrag, if_neg hfar]
  dsimp only
  rw [h.first]
  rcases seekHole_spec ip.start h.list h.sorted h.sorted.tail_pos hne h.sorted.length_le with
    ⟨pre, k, l, post, rfl, hwalk, hl, hseek⟩ | ⟨hall, hseek⟩
  · left
    refine ⟨pre, k, l, post, rfl, hwalk, hl, ?_⟩
    rw [hseek]
    rfl
  · right
    refine ⟨hall, ?_⟩
    rw [hseek]
    rfl

end UBoot
