import UBoot.NetHoles

namespace UBoot

open FlashCells Linked List Words

variable {st : Defrag} {k l v newh start : Nat} {hs pre post : List Hole}

/-- The state of a packet with the holes `hs`. -/
structure Listed (st : Defrag) (hs : List Hole) : Prop where
  list : HoleList st.pktBuff 0 0 hs
  first : st.firstHole = firstOf hs
  sorted : SortedHoles hs

/-- The holes before one, as far as `prev_hole` tells them from none: index 0 stands for none. -/
def kept (pre : List Hole) : List Hole := if lastOf pre = 0 then [] else pre

theorem kept_mem {b : Hole} (h : b ∈ kept pre) : b ∈ pre := by
  unfold kept at h
  split at h
  · exact absurd h not_mem_nil
  · exact h

theorem kept_eq_self (h : pre = [] ∨ lastOf pre ≠ 0) : kept pre = pre := by
  unfold kept
  split
  next h₀ => exact (h.resolve_right (not_not_intro h₀)).symm
  · rfl

theorem exists_lastOf (h : lastOf pre ≠ 0) : ∃ pre' j l, pre = pre' ++ [(j, l)] ∧ lastOf pre = j := by
  rcases pre.eq_nil_or_concat with rfl | ⟨pre', ⟨j, l⟩, hcat⟩
  · exact absurd rfl h
  · rw [concat_eq_append] at hcat
    exact ⟨pre', j, l, hcat, by rw [hcat]; simp [lastOf, indices]⟩

theorem firstOf_append (h : pre ≠ []) : firstOf (pre ++ post) = firstOf pre := by
  cases pre with
  | nil => exact absurd rfl h
  | cons a pre => rfl

theorem SortedHoles.append_left (h : SortedHoles (pre ++ post)) : SortedHoles pre :=
  (sortedHoles_append.mp h).1

theorem SortedHoles.append_right (h : SortedHoles (pre ++ post)) : SortedHoles post :=
  (sortedHoles_append.mp h).2.1

theorem SortedHoles.replace {mid : List Hole} (h : SortedHoles (pre ++ (k, l) :: post))
    (hm : SortedHoles mid) (hlo : ∀ b ∈ mid, k ≤ b.1) (hhi : ∀ b ∈ mid, ∀ c ∈ post, b.2 ≤ 8 * c.1) :
    SortedHoles (pre ++ (mid ++ post)) := by
  have hpost : SortedHoles post := (sortedHoles_cons.mp h.append_right).2.2
  refine sortedHoles_append.mpr
    ⟨h.append_left, sortedHoles_append.mpr ⟨hm, hpost, hhi⟩, fun b hb c hc => ?_⟩
  have hbk := (h.before b hb).2
  rcases mem_append.mp hc with hc | hc
  · have := hlo c hc
    omega
  · have := (h.after c hc).1
    omega

theorem SortedHoles.kept (h : SortedHoles (pre ++ hs)) : SortedHoles (kept pre ++ hs) := by
  unfold UBoot.kept
  split
  · exact h.append_right
  · exact h

theorem after_linkable (h : SortedHoles (pre ++ (k, l) :: post)) : ∀ a ∈ post, InBuff a.1 ∧ 0 < a.1 := by
  intro a ha
  have hin := h.2 a (mem_append_right pre (mem_cons_of_mem _ ha))
  have hk := (h.after a ha).1
  exact ⟨hin.1, by omega⟩

theorem firstOf_eq_zero (h : SortedHoles (pre ++ (k, l) :: post)) : firstOf post = 0 ↔ post = [] := by
  cases post with
  | nil => exact ⟨fun _ => rfl, fun _ => rfl⟩
  | cons a post =>
    have hpos := (after_linkable h a mem_cons_self).2
    refine ⟨fun h₀ => absurd h₀ (ne_of_gt hpos), nofun⟩

theorem inBuff_firstOf (h : SortedHoles (pre ++ (k, l) :: post)) (hp : post ≠ []) :
    InBuff (firstOf post) := by
  cases post with
  | nil => exact absurd rfl hp
  | cons a post => exact (after_linkable h a mem_cons_self).1

theorem Listed.around (h : Listed st (pre ++ (k, l) :: post)) :
    HoleList st.pktBuff 0 k pre ∧ lastByte st.pktBuff k = l ∧ prevHole st.pktBuff k = lastOf pre ∧
      nextHole st.pktBuff k = firstOf post ∧ HoleList st.pktBuff k 0 post :=
  holeList_split.mp h.list

theorem pre_not_mem (h : SortedHoles (pre ++ (k, l) :: post)) (hv : k ≤ v) : v ∉ indices pre :=
  not_mem_indices fun b hb he => by
    have := (h.before b hb).1
    omega

theorem post_not_mem (h : SortedHoles (pre ++ (k, l) :: post)) (hv : 8 * v < l ∨ v ≤ k) : v ∉ indices post :=
  not_mem_indices fun b hb he => by
    have := h.after b hb
    omega

theorem pre_post_disjoint (h : SortedHoles (pre ++ (k, l) :: post)) :
    ∀ v ∈ indices pre, v ∉ indices post := by
  intro v hv
  obtain ⟨b, hb, rfl⟩ := mem_map.mp hv
  exact post_not_mem h (.inr (le_of_lt (h.before b hb).1))

theorem SortedHoles.post_nodup (h : SortedHoles (pre ++ (k, l) :: post)) : (indices post).Nodup :=
  (sortedHoles_cons.mp h.append_right).2.2.nodup

theorem removeHole_first (h : Listed st (pre ++ (k, l) :: post)) (h₀ : lastOf pre = 0)
    (hp : post ≠ []) :
    ∃ m, removeHole st k = some (false, { st with pktBuff := m, firstHole := firstOf post }) ∧
      HoleList m 0 0 post ∧ Same st.pktBuff m (indices post) := by
  obtain ⟨-, -, hprev, hnext, hpost⟩ := h.around
  have hne : firstOf post ≠ 0 := fun he => hp ((firstOf_eq_zero h.sorted).mp he)
  have hin := inBuff_firstOf h.sorted hp
  obtain ⟨m, hm, hlist, hsame⟩ :=
    linkNext_spec hpost (after_linkable h.sorted) h.sorted.post_nodup (q := 0) (by omega)
  rw [linkNext, if_pos hne, if_pos hin] at hm
  cases hm
  refine ⟨_, ?_, hlist, hsame⟩
  rw [removeHole, hprev, hnext, if_neg (fun hb => hne hb.2), if_pos h₀, if_pos hin]

theorem removeHole_last (h : Listed st (pre ++ [(k, l)])) (h₀ : lastOf pre ≠ 0) :
    ∃ m, removeHole st k = some (false, { st with pktBuff := m }) ∧
      HoleList m 0 0 pre ∧ Same st.pktBuff m (indices pre) := by
  obtain ⟨hpre, -, hprev, hnext, -⟩ := h.around
  obtain ⟨pre', j, lj, rfl, hj⟩ := exists_lastOf h₀
  have hmem : (j, lj) ∈ pre' ++ [(j, lj)] := mem_append_right _ mem_cons_self
  have hin : InBuff j := (h.sorted.2 (j, lj) (mem_append_left _ hmem)).1
  rw [hj] at h₀ hprev
  have hnone : firstOf ([] : List Hole) = 0 := rfl
  refine ⟨setNextHole st.pktBuff j 0, ?_, ?_, ?_⟩
  · rw [removeHole, hprev, hnext, if_neg (fun hb => h₀ hb.1), if_neg h₀, if_pos hnone, if_pos hin]
  · exact linkLast_spec hpre h.sorted.append_left.nodup (by omega)
  · refine same_setNextHole.mono fun i hi => ?_
    rw [mem_singleton.mp hi]
    exact mem_map_of_mem hmem

theorem removeHole_middle (h : Listed st (pre ++ (k, l) :: post)) (h₀ : lastOf pre ≠ 0)
    (hp : post ≠ []) :
    ∃ m, removeHole st k = some (false, { st with pktBuff := m }) ∧
      HoleList m 0 0 (pre ++ post) ∧ Same st.pktBuff m (indices (pre ++ post)) := by
  obtain ⟨hpre, -, hprev, hnext, hpost⟩ := h.around
  have hne : firstOf post ≠ 0 := fun he => hp ((firstOf_eq_zero h.sorted).mp he)
  have hin := inBuff_firstOf h.sorted hp
  have hdisj := pre_post_disjoint h.sorted
  have hkpost : k ∉ indices post := post_not_mem h.sorted (.inr (le_refl k))
  obtain ⟨pre', j, lj, rfl, hj⟩ := exists_lastOf h₀
  have hmem : (j, lj) ∈ pre' ++ [(j, lj)] := mem_append_right _ mem_cons_self
  have hinj : InBuff j := (h.sorted.2 (j, lj) (mem_append_left _ hmem)).1
  have hjpost : j ∉ indices post := hdisj j (mem_map_of_mem hmem)
  obtain ⟨m, hm, hlist, hsame⟩ :=
    linkNext_spec hpost (after_linkable h.sorted) h.sorted.post_nodup (q := j) (inBuff_lt hinj)
  rw [linkNext, if_pos hne, if_pos hin] at hm
  obtain ⟨-, hnextk, hprevk⟩ := hsame.fields hkpost
  have hpre' := linkLast_spec (hpre.frame hsame hdisj) h.sorted.append_left.nodup (inBuff_lt hin)
  have hpost' : HoleList (setNextHole m j (firstOf post)) j 0 post :=
    hlist.frame same_setNextHole fun i hi hmem => by
      rw [mem_singleton.mp hmem] at hi
      exact hjpost hi
  refine ⟨setNextHole m j (firstOf post), ?_, ?_, ?_⟩
  · rw [hj] at h₀ hprev
    rw [hprev] at hprevk
    rw [hnext] at hnextk
    cases hm
    rw [removeHole, hprev, hnext, if_neg (fun hb => h₀ hb.1), if_neg h₀, if_neg hne, if_pos hin]
    dsimp only
    rw [hprevk, hnextk, if_pos hinj]
  · refine holeList_append.mpr ⟨hpre', ?_⟩
    change HoleList _ (lastOf (pre' ++ [(j, lj)])) 0 post
    rw [hj]
    exact hpost'
  · refine (hsame.trans same_setNextHole).mono fun i hi => ?_
    unfold indices
    rw [map_append]
    rcases mem_append.mp hi with hi | hi
    · exact mem_append_right _ hi
    · rw [mem_singleton.mp hi]
      exact mem_append_left _ (mem_map_of_mem hmem)

theorem sortedHoles_nil : SortedHoles [] := ⟨List.Pairwise.nil, fun _ ha => absurd ha not_mem_nil⟩

theorem SortedHoles.erase (h : SortedHoles (pre ++ (k, l) :: post)) : SortedHoles (pre ++ post) :=
  h.replace sortedHoles_nil (fun _ ha => absurd ha not_mem_nil)
    fun _ ha => absurd ha not_mem_nil

theorem removeHole_spec (h : Listed st (pre ++ (k, l) :: post)) :
    (kept pre ++ post = [] ∧ removeHole st k = some (true, st)) ∨
    ∃ st', removeHole st k = some (false, st') ∧ kept pre ++ post ≠ [] ∧
      Listed st' (kept pre ++ post) ∧ st'.totalLen = st.totalLen ∧
      Same st.pktBuff st'.pktBuff (indices (kept pre ++ post)) := by
  have hsorted := h.sorted.erase.kept
  by_cases h₀ : lastOf pre = 0
  · have hkept : kept pre = [] := if_pos h₀
    rw [hkept, nil_append] at hsorted ⊢
    by_cases hp : post = []
    · left
      obtain ⟨-, -, hprev, hnext, -⟩ := h.around
      exact ⟨hp, if_pos ⟨hprev.trans h₀, hnext.trans (by rw [hp]; rfl)⟩⟩
    · right
      obtain ⟨m, hr, hlist, hsame⟩ := removeHole_first h h₀ hp
      exact ⟨_, hr, hp, ⟨hlist, rfl, hsorted⟩, rfl, hsame⟩
  · right
    have hkept : kept pre = pre := if_neg h₀
    have hne : pre ≠ [] := fun he => h₀ (by rw [he]; rfl)
    have hfirst := h.first.trans (firstOf_append hne)
    rw [hkept] at hsorted ⊢
    by_cases hp : post = []
    · subst hp
      rw [append_nil] at hsorted ⊢
      obtain ⟨m, hr, hlist, hsame⟩ := removeHole_last h h₀
      exact ⟨_, hr, hne, ⟨hlist, hfirst, hsorted⟩, rfl, hsame⟩
    · obtain ⟨m, hr, hlist, hsame⟩ := removeHole_middle h h₀ hp
      refine ⟨_, hr, fun he => hne (append_eq_nil_iff.mp he).1, ⟨hlist, ?_, hsorted⟩, rfl, hsame⟩
      exact hfirst.trans (firstOf_append hne).symm

theorem indices_append : indices (pre ++ post) = indices pre ++ indices post := map_append

theorem indices_cons {a : Hole} : indices (a :: hs) = a.1 :: indices hs := rfl

theorem shortenHole_spec (h : Listed st (pre ++ (k, l) :: post)) (hv : start < 65536) :
    HoleList (shortenHole st k start).pktBuff 0 0 (pre ++ (k, start) :: post) ∧
      Same st.pktBuff (shortenHole st k start).pktBuff [k] := by
  obtain ⟨hpre, -, hprev, hnext, hpost⟩ := h.around
  have hkpre : k ∉ indices pre := pre_not_mem h.sorted (le_refl k)
  have hkpost : k ∉ indices post := post_not_mem h.sorted (.inr (le_refl k))
  refine ⟨holeList_split.mpr ⟨?_, lastByte_setLastByte hv, ?_, ?_, ?_⟩, same_setLastByte⟩
  · exact hpre.frame same_setLastByte fun i hi hmem => hkpre ((mem_singleton.mp hmem) ▸ hi)
  · exact prevHole_setLastByte.trans hprev
  · exact nextHole_setLastByte.trans hnext
  · exact hpost.frame same_setLastByte fun i hi hmem => hkpost ((mem_singleton.mp hmem) ▸ hi)

theorem moveHole_spec (h : Listed st (pre ++ (k, l) :: post)) (hk : k < newh) (hl : 8 * newh < l)
    (hin : InBuff newh) :
    ∃ st', moveHole st k newh = some st' ∧ HoleList st'.pktBuff 0 0 (kept pre ++ (newh, l) :: post) ∧
      st'.firstHole = firstOf (kept pre ++ (newh, l) :: post) ∧ st'.totalLen = st.totalLen ∧
      Same st.pktBuff st'.pktBuff (indices (kept pre ++ (newh, l) :: post)) := by
  obtain ⟨hpre, hlast, hprev, hnext, hpost⟩ := h.around
  have hnpre : newh ∉ indices pre := pre_not_mem h.sorted (le_of_lt hk)
  have hnpost : newh ∉ indices post := post_not_mem h.sorted (.inl hl)
  have hcopy : Same st.pktBuff (copyHole st.pktBuff k newh) [newh] := same_copyHole
  obtain ⟨hclast, hcnext, hcprev⟩ := copyHole_fields (m := st.pktBuff) (j := k) (k := newh)
  rw [hlast] at hclast
  rw [hnext] at hcnext
  rw [hprev] at hcprev
  have hpre₁ := hpre.frame hcopy fun i hi hmem => hnpre ((mem_singleton.mp hmem) ▸ hi)
  have hpost₁ := hpost.frame hcopy fun i hi hmem => hnpost ((mem_singleton.mp hmem) ▸ hi)
  obtain ⟨m, hm, hlist, hsame⟩ :=
    linkNext_spec hpost₁ (after_linkable h.sorted) h.sorted.post_nodup (q := newh) (inBuff_lt hin)
  obtain ⟨hnlast, hnnext, hnprev⟩ := hsame.fields hnpost
  rw [hclast] at hnlast
  rw [hcnext] at hnnext
  rw [hcprev] at hnprev
  rw [moveHole, if_pos hin]
  dsimp only
  rw [hcnext, hm]
  simp only [Option.bind_eq_bind, Option.bind_some, hnprev]
  by_cases h₀ : lastOf pre = 0
  · have hkept : kept pre = [] := if_pos h₀
    rw [hkept, nil_append, if_neg (not_not_intro h₀)]
    refine ⟨_, rfl, ⟨⟨hnprev.trans h₀, hnnext, hlist.1⟩, ?_⟩, rfl, rfl, ?_⟩
    · exact forall_mem_cons.mpr ⟨hnlast, hlist.2⟩
    · refine (hcopy.trans hsame).mono fun i hi => ?_
      rw [indices_cons]
      rcases mem_append.mp hi with hi | hi
      · rw [mem_singleton.mp hi]
        exact mem_cons_self
      · exact mem_cons_of_mem _ hi
  · have hkept : kept pre = pre := if_neg h₀
    have hne : pre ≠ [] := fun he => h₀ (by rw [he]; rfl)
    have hfirst := h.first.trans (firstOf_append hne)
    have hpre₂ := hpre₁.frame hsame (pre_post_disjoint h.sorted)
    have hdisj := pre_post_disjoint h.sorted
    rw [hkept, if_pos h₀]
    obtain ⟨pre', j, lj, rfl, hj⟩ := exists_lastOf h₀
    have hmem : (j, lj) ∈ pre' ++ [(j, lj)] := mem_append_right _ mem_cons_self
    have hinj : InBuff j := (h.sorted.2 (j, lj) (mem_append_left _ hmem)).1
    have hjpost : j ∉ indices post := hdisj j (mem_map_of_mem hmem)
    have hjn : newh ∉ [j] := fun hmem' => hnpre (by
      rw [mem_singleton.mp hmem']
      exact mem_map_of_mem hmem)
    rw [hj, if_pos hinj]
    have hlink : Same m (setNextHole m j newh) [j] := same_setNextHole
    obtain ⟨hfl, hfn, hfp⟩ := hlink.fields hjn
    refine ⟨_, rfl, holeList_split.mpr ⟨?_, ?_, ?_, ?_, ?_⟩, ?_, rfl, ?_⟩
    · exact linkLast_spec hpre₂ h.sorted.append_left.nodup (inBuff_lt hin)
    · exact hfl.trans hnlast
    · exact hfp.trans hnprev
    · exact hfn.trans hnnext
    · exact hlist.frame hlink fun i hi hmem' => hjpost ((mem_singleton.mp hmem') ▸ hi)
    · exact hfirst.trans (firstOf_append hne).symm
    · refine ((hcopy.trans hsame).trans hlink).mono fun i hi => ?_
      rw [indices_append, indices_cons]
      rcases mem_append.mp hi with hi | hi
      · rcases mem_append.mp hi with hi | hi
        · rw [mem_singleton.mp hi]
          exact mem_append_right _ mem_cons_self
        · exact mem_append_right _ (mem_cons_of_mem _ hi)
      · rw [mem_singleton.mp hi]
        exact mem_append_left _ (mem_map_of_mem hmem)

theorem splitHole_spec (h : Listed st (pre ++ (k, l) :: post)) (hk : k < newh) (hl : 8 * newh < l)
    (hin : InBuff newh) (hv : start < 65536) :
    ∃ st', splitHole st k newh start = some st' ∧
      HoleList st'.pktBuff 0 0 (pre ++ (k, start) :: (newh, l) :: post) ∧
      st'.firstHole = st.firstHole ∧ st'.totalLen = st.totalLen ∧
      Same st.pktBuff st'.pktBuff (indices ((k, start) :: (newh, l) :: post)) := by
  obtain ⟨hpre, hlast, hprev, hnext, hpost⟩ := h.around
  have hnk : newh ∉ [k] := fun hmem => ne_of_gt hk (mem_singleton.mp hmem)
  have hkn : k ∉ [newh] := fun hmem => ne_of_lt hk (mem_singleton.mp hmem)
  have hnpre : newh ∉ indices pre := pre_not_mem h.sorted (le_of_lt hk)
  have hnpost : newh ∉ indices post := post_not_mem h.sorted (.inl hl)
  have hkpre : k ∉ indices pre := pre_not_mem h.sorted (le_refl k)
  have hkpost : k ∉ indices post := post_not_mem h.sorted (.inr (le_refl k))
  -- the memory before the hole after is linked
  let m₁ := copyHole st.pktBuff k newh
  let m₂ := setNextHole (setLastByte m₁ k start) k newh
  let m₃ := setPrevHole m₂ newh k
  have hcopy : Same st.pktBuff m₁ [newh] := same_copyHole
  have hset : Same m₁ m₂ ([k] ++ [k]) := same_setLastByte.trans same_setNextHole
  have hset₃ : Same m₂ m₃ [newh] := same_setPrevHole
  have hall : Same st.pktBuff m₃ [k, newh] :=
    ((hcopy.trans hset).trans hset₃).mono fun i hi => by
      simp only [mem_append, mem_cons, not_mem_nil, or_false] at hi ⊢
      tauto
  obtain ⟨hclast, hcnext, -⟩ := copyHole_fields (m := st.pktBuff) (j := k) (k := newh)
  obtain ⟨-, -, hkprev⟩ := hcopy.fields hkn
  have hnm : newh ∉ [k] ++ [k] := fun hmem => hnk (by simpa using hmem)
  obtain ⟨hslast, hsnext, -⟩ := hset.fields hnm
  have hnlast : lastByte m₃ newh = l := by
    rw [lastByte_setPrevHole, hslast, hclast, hlast]
  have hnnext : nextHole m₃ newh = firstOf post := by
    rw [nextHole_setPrevHole, hsnext, hcnext, hnext]
  have hnprev : prevHole m₃ newh = k := prevHole_setPrevHole (by have := inBuff_lt hin; omega)
  obtain ⟨hklast₃, hknext₃, hkprev₃⟩ := hset₃.fields hkn
  have hklast : lastByte m₃ k = start := by
    rw [hklast₃, lastByte_setNextHole, lastByte_setLastByte hv]
  have hknext : nextHole m₃ k = newh := by
    rw [hknext₃, nextHole_setNextHole (inBuff_lt hin)]
  have hkprev' : prevHole m₃ k = lastOf pre := by
    rw [hkprev₃, prevHole_setNextHole, prevHole_setLastByte, hkprev, hprev]
  have hpre₃ : HoleList m₃ 0 k pre := hpre.frame hall fun i hi hmem => by
    simp only [mem_cons, not_mem_nil, or_false] at hmem
    rcases hmem with rfl | rfl
    · exact hkpre hi
    · exact hnpre hi
  have hpost₃ : HoleList m₃ k 0 post := hpost.frame hall fun i hi hmem => by
    simp only [mem_cons, not_mem_nil, or_false] at hmem
    rcases hmem with rfl | rfl
    · exact hkpost hi
    · exact hnpost hi
  obtain ⟨m, hm, hlist, hsame⟩ :=
    linkNext_spec hpost₃ (after_linkable h.sorted) h.sorted.post_nodup (q := newh) (inBuff_lt hin)
  rw [← hnnext] at hm
  obtain ⟨hnl, hnn, hnp⟩ := hsame.fields hnpost
  obtain ⟨hkl, hkn', hkp⟩ := hsame.fields hkpost
  refine ⟨{ st with pktBuff := m }, ?_, ?_, rfl, rfl, ?_⟩
  · rw [splitHole, if_pos hin]
    change (linkNext m₃ (nextHole m₃ newh) newh).bind _ = _
    rw [hm]
    rfl
  · refine holeList_split.mpr ⟨?_, hkl.trans hklast, hkp.trans hkprev', hkn'.trans hknext, ?_, ?_⟩
    · exact hpre₃.frame hsame (pre_post_disjoint h.sorted)
    · exact ⟨hnp.trans hnprev, hnn.trans hnnext, hlist.1⟩
    · exact forall_mem_cons.mpr ⟨hnl.trans hnlast, hlist.2⟩
  · refine (hall.trans hsame).mono fun i hi => ?_
    rw [indices_cons, indices_cons]
    simp only [mem_append, mem_cons, not_mem_nil, or_false] at hi ⊢
    tauto

end UBoot
