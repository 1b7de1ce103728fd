import UBoot.NetGaps

namespace UBoot

open Extents FlashCells List Words

/-- A fragment of the datagram `d` with the bytes of piece `p`. -/
structure IsFragment (d : List UInt8) (id : Nat) (p : Piece) (ip : Ip) : Prop where
  ident : ipId ip.bytes = id
  start : ip.start = p.1
  ipLen : ip.ipLen = ipHdrSizeNoUdp + (p.2 - p.1)
  mfrag : ip.mfrag = true ↔ p.2 ≠ d.length
  size : ip.ipLen ≤ ip.size
  bytes : ∀ j, p.1 ≤ j → j < p.2 → ip.bytes (ipHdrSizeNoUdp + j - p.1) = d.getD j 0

/-- What has come before `s` is one block, and it is not the beginning of the datagram. -/
def FirstBlockBefore (past : List Piece) (s : Nat) : Prop :=
  ¬Came past 0 ∧ ∃ b < s, (∀ j < b, ¬Came past j) ∧ ∀ j, b ≤ j → j < s → Came past j

/-- A piece that comes for the first time fills its place: one that begins where a hole does has eight
bytes at least, and such a hole is not the second one after a hole of index 0. -/
def Lands (past : List Piece) (p : Piece) : Prop :=
  p ∈ past ∨ ((p.1 = 0 ∨ Came past (p.1 - 1)) → 8 ≤ p.2 - p.1) ∧ ¬FirstBlockBefore past p.1

/-- The state of the datagram `d` of which the pieces `past` have come, but not all. -/
structure Holding (d : List UInt8) (id : Nat) (cut past : List Piece) (st : Defrag) : Prop where
  arrived : Arrived d.length cut past
  holes : ∃ hs, hs ≠ [] ∧ Listed st hs ∧ Gaps d.length past hs
  total : st.totalLen = knownEnd d.length past
  ident : ipId st.pktBuff = id
  bytes : ∀ j, Came past j → st.pktBuff (ipHdrSizeNoUdp + j) = d.getD j 0

variable {d : List UInt8} {id k l n : Nat} {cut past : List Piece} {p : Piece} {ip : Ip}
  {hs pre post : List Hole}

theorem IsFragment.lengths (h : IsFragment d id p ip) (hp : p.1 < p.2) :
    0 ≤ ip.len ∧ ip.len = p.2 - p.1 ∧ ip.stop = p.2 ∧ 8 * ip.offset8 = p.1 := by
  have hlen : ip.len = ip.ipLen - ipHdrSizeNoUdp := rfl
  have hstop : ip.stop = (ip.start + ip.len).toNat := rfl
  have hstart : ip.start = ip.offset8 * 8 := rfl
  have hl := h.ipLen
  have hs := h.start
  omega

theorem knownEnd_ge (h : Arrived n cut past) : n ≤ knownEnd n past := by
  have hmax : ipMaxudp = 16464 := rfl
  have := h.le
  unfold knownEnd
  split <;> omega

theorem hole_of_new (ha : Arrived n cut past) (hg : Gaps n past (pre ++ (k, l) :: post))
    (hs : SortedHoles (pre ++ (k, l) :: post)) (hp : p ∈ cut) (hnew : p ∉ past)
    (hwalk : ∀ b ∈ pre, b.2 < p.1) (hl : p.1 ≤ l) : 8 * k ≤ p.1 ∧ p.2 ≤ l := by
  have hb := ha.bounds hp
  have hkl := (hs.2 (k, l) (mem_append_right pre mem_cons_self)).2
  obtain ⟨-, hafter, -, hpost⟩ := hg.after hkl
  have hend := knownEnd_ge ha
  have hin : Covers ((pre ++ (k, l) :: post).map Hole.extent) p.1 :=
    (hg.cover p.1).mpr ⟨by omega, ha.missing hp hnew le_rfl hb.1⟩
  have hhole : 8 * k ≤ p.1 ∧ p.1 < l := by
    rcases covers_holes.mp hin with hin | hin
    · exact hin
    · obtain ⟨b, hmem, hlo, hhi⟩ := covers_holes_iff.mp hin
      rcases mem_append.mp hmem with hmem | hmem
      · have := hwalk b hmem
        omega
      · have := hpost b hmem
        omega
  refine ⟨hhole.1, ?_⟩
  by_contra hlt
  exact ha.missing hp hnew (by omega) (by omega) (hafter (by omega))

theorem open_of_last (ha : Arrived n cut past) (hg : Gaps n past (pre ++ (k, l) :: post))
    (hs : SortedHoles (pre ++ (k, l) :: post)) (hl : n ≤ l) : l = knownEnd n past ∧ post = [] := by
  have hkl := (hs.2 (k, l) (mem_append_right pre mem_cons_self)).2
  obtain ⟨hle, hafter, -, hpost⟩ := hg.after hkl
  have he : l = knownEnd n past := by
    by_contra hne
    have := ha.came_lt (hafter (by omega))
    omega
  refine ⟨he, eq_nil_iff_forall_not_mem.mpr fun b hb => ?_⟩
  have hmem : b ∈ pre ++ (k, l) :: post := mem_append_right pre (mem_cons_of_mem _ hb)
  have hcov := (hg.cover (8 * b.1)).mp (covers_hole_mem hmem le_rfl (hs.2 b hmem).2)
  have := hpost b hb
  omega

theorem fits_of_new (ha : Arrived d.length cut past) (hs : SortedHoles (pre ++ (k, l) :: post))
    (hp : p ∈ cut) (hf : IsFragment d id p ip) (hl : p.2 ≤ l) (hpast : k < ip.newh) : Fits ip k (truncated ip l) post := by
  have hb := ha.bounds hp
  obtain ⟨hlen, hlen', hstop, hoff⟩ := hf.lengths hb.1
  obtain ⟨hstart, -, hnlo, hnhi, -⟩ := newh_bounds hlen
  refine ⟨hlen, hpast, fun c hc => ?_, fun hlt => ?_⟩
  · have := (hs.after c hc).2
    omega
  · unfold truncated at hlt
    split at hlt
    next hm =>
      have h8' := hb.2.2.1
      have hmax : ipMaxudp = 16464 := rfl
      have hle := ha.le
      have hne := hf.mfrag.mp hm
      refine ⟨by omega, ?_⟩
      unfold InBuff
      omega
    · omega

theorem past_of_new (ha : Arrived d.length cut past) (hg : Gaps d.length past (pre ++ (k, l) :: post))
    (hs : SortedHoles (pre ++ (k, l) :: post)) (hp : p ∈ cut) (hnew : p ∉ past)
    (hf : IsFragment d id p ip) (hk : 8 * k ≤ p.1) (hland : Lands past p) : k < ip.newh := by
  have hb := ha.bounds hp
  obtain ⟨hlen, hlen', hstop, hoff⟩ := hf.lengths hb.1
  obtain ⟨hstart, -, hnlo, hnhi, -⟩ := newh_bounds hlen
  by_cases hbegin : 8 * k = p.1
  · have hcame : p.1 = 0 ∨ Came past (p.1 - 1) := by
      by_cases h₀ : p.1 = 0
      · exact .inl h₀
      · right
        by_contra hno
        have hend := knownEnd_ge ha
        have hcov := (hg.cover (p.1 - 1)).mpr ⟨by omega, hno⟩
        obtain ⟨hpre, hpost⟩ := hg.sides
        rcases covers_holes.mp hcov with hin | hin
        · omega
        · obtain ⟨b, hmem, hlo, hhi⟩ := covers_holes_iff.mp hin
          rcases mem_append.mp hmem with hmem | hmem
          · have := hpre b hmem
            omega
          · have hkl := (hs.2 (k, l) (mem_append_right pre mem_cons_self)).2
            have := hpost b hmem
            omega
    have := (hland.resolve_left hnew).1 hcame
    omega
  · omega

theorem kept_of_new (ha : Arrived d.length cut past) (hg : Gaps d.length past (pre ++ (k, l) :: post))
    (hs : SortedHoles (pre ++ (k, l) :: post)) (hp : p ∈ cut) (hnew : p ∉ past) (hk : 8 * k = p.1)
    (hland : Lands past p) : kept pre = pre := by
  apply kept_eq_self
  by_contra hno
  obtain ⟨hne, hlast⟩ := not_or.mp hno
  have hlast : lastOf pre = 0 := by simpa using hlast
  obtain ⟨pre', b, hcat⟩ := (pre.eq_nil_or_concat).resolve_left hne
  rw [concat_eq_append] at hcat
  subst hcat
  have hb₀ : b.1 = 0 := by simpa [lastOf, indices] using hlast
  have hpre' : pre' = [] := by
    refine eq_nil_iff_forall_not_mem.mpr fun c hc => ?_
    have := (hs.append_left.before (k := b.1) (l := b.2) c hc).1
    omega
  subst hpre'
  rw [nil_append] at hg hs
  have hbl := (hs.2 b (mem_append_left _ mem_cons_self)).2
  have hsep := hg.sides.1 b mem_cons_self
  have hpos := (ha.bounds hp).2.1
  have hlt := (ha.bounds hp).1
  have hend := knownEnd_ge ha
  obtain ⟨-, hpost⟩ := hg.sides
  have hkl := (hs.2 (k, l) (mem_append_right _ mem_cons_self)).2
  have hfirst : ∀ j < b.2, ¬Came past j := fun j hj =>
    ((hg.cover j).mp (covers_hole_mem mem_cons_self (by omega) hj)).2
  refine (hland.resolve_left hnew).2 ⟨hfirst 0 (by omega), b.2, by omega, hfirst, fun j hlo hhi => ?_⟩
  by_contra hno
  have hcov := (hg.cover j).mpr ⟨by omega, hno⟩
  rcases covers_holes.mp hcov with hin | hin
  · omega
  · obtain ⟨c, hmem, hclo, hchi⟩ := covers_holes_iff.mp hin
    rcases mem_append.mp hmem with hmem | hmem
    · rw [mem_singleton.mp hmem] at hchi
      omega
    · have := hpost c hmem
      omega

theorem covers_edited {j : Nat} (hf : Fits ip k l post) (hk : 8 * k ≤ ip.start) (hl : ip.start ≤ l)
    (hkept : ip.offset8 ≤ k → kept pre = pre) :
    Covers ((edited pre k l post ip).map Hole.extent) j ↔
      (8 * k ≤ j ∧ j < l ∧ ¬(ip.start ≤ j ∧ j < ip.stop)) ∨ Covers ((pre ++ post).map Hole.extent) j := by
  obtain ⟨hstart, hoff, hnlo, hnhi, hstop⟩ := newh_bounds hf.len_nonneg
  unfold edited
  split
  next hover =>
    rw [hkept hover]
    split
    next hle =>
      refine ⟨.inr, fun h => h.resolve_left fun hin => ?_⟩
      omega
    next hlt =>
      have := hf.stop_eq (by omega)
      rw [covers_holes]
      refine or_congr_left ?_
      omega
  next hover =>
    split
    next hle =>
      rw [covers_holes]
      refine or_congr_left ?_
      omega
    next hlt =>
      have := hf.stop_eq (by omega)
      rw [covers_holes, covers_holes, ← or_assoc]
      refine or_congr_left ?_
      omega

theorem apart_edited (hf : Fits ip k l post) (hk : 8 * k ≤ ip.start) (hlen : 0 < ip.len)
    (hpre : pre.Pairwise fun a b => a.2 < 8 * b.1) (hpost : post.Pairwise fun a b => a.2 < 8 * b.1)
    (hcross : ∀ b ∈ pre, ∀ c ∈ post, b.2 < 8 * c.1) (hb : ∀ b ∈ pre, b.2 < 8 * k)
    (hc : ∀ c ∈ post, l < 8 * c.1) (hl : ip.start < l) (hkept : ip.offset8 ≤ k → kept pre = pre) :
    (edited pre k l post ip).Pairwise fun a b => a.2 < 8 * b.1 := by
  obtain ⟨hstart, hoff, hnlo, hnhi, hstop⟩ := newh_bounds hf.len_nonneg
  unfold edited
  split
  next hover =>
    rw [hkept hover]
    split
    · exact pairwise_append.mpr ⟨hpre, hpost, hcross⟩
    next hlt =>
      refine pairwise_append.mpr ⟨hpre, pairwise_cons.mpr ⟨hc, hpost⟩, fun b hmem c hmem' => ?_⟩
      rcases mem_cons.mp hmem' with rfl | hmem'
      · have := hb b hmem
        omega
      · exact hcross b hmem c hmem'
  next hover =>
    split
    next hle =>
      refine pairwise_append.mpr ⟨hpre, pairwise_cons.mpr ⟨fun c hmem => ?_, hpost⟩,
        fun b hmem c hmem' => ?_⟩
      · have := hc c hmem
        omega
      · rcases mem_cons.mp hmem' with rfl | hmem'
        · exact hb b hmem
        · exact hcross b hmem c hmem'
    next hlt =>
      have heq := hf.stop_eq (by omega)
      refine pairwise_append.mpr ⟨hpre, pairwise_cons.mpr ⟨fun c hmem => ?_,
        pairwise_cons.mpr ⟨hc, hpost⟩⟩, fun b hmem c hmem' => ?_⟩
      · rcases mem_cons.mp hmem with rfl | hmem
        · dsimp only
          omega
        · have := hc c hmem
          omega
      · rcases mem_cons.mp hmem' with rfl | hmem'
        · exact hb b hmem
        · rcases mem_cons.mp hmem' with rfl | hmem'
          · have := hb b hmem
            omega
          · exact hcross b hmem c hmem'

theorem knownEnd_append (ha : Arrived n cut past) (hp : p ∈ cut) :
    knownEnd n (past ++ [p]) = if p.2 = n then n else knownEnd n past := by
  have hb := ha.bounds hp
  unfold knownEnd
  simp only [came_append]
  by_cases hlast : p.2 = n
  · rw [if_pos hlast, if_pos (.inr (by omega))]
  · rw [if_neg hlast]
    by_cases hc : Came past (n - 1)
    · rw [if_pos (.inl hc), if_pos hc]
    · rw [if_neg hc, if_neg (fun h => (h.resolve_left hc).elim (by omega))]

theorem truncated_of_last (hf : IsFragment d id p ip) (hp : p.1 < p.2) :
    truncated ip l = if p.2 = d.length then d.length else l := by
  have hstop := (hf.lengths hp).2.2.1
  unfold truncated
  by_cases hlast : p.2 = d.length
  · rw [if_neg (fun hm => (hf.mfrag.mp hm) hlast), if_pos hlast, hstop, hlast]
  · rw [if_pos (hf.mfrag.mpr hlast), if_neg hlast]

theorem gaps_of_new (ha : Arrived d.length cut past) (hg : Gaps d.length past (pre ++ (k, l) :: post))
    (hs : SortedHoles (pre ++ (k, l) :: post)) (hp : p ∈ cut) (hnew : p ∉ past)
    (hf : IsFragment d id p ip) (hk : 8 * k ≤ p.1) (hl : p.2 ≤ l)
    (hfits : Fits ip k (truncated ip l) post) (hkept : ip.offset8 ≤ k → kept pre = pre) :
    Gaps d.length (past ++ [p]) (edited pre k (truncated ip l) post ip) := by
  have hb := ha.bounds hp
  obtain ⟨hlen, hlen', hstop, hoff⟩ := hf.lengths hb.1
  have hstart := hf.start
  have htrunc : truncated ip l = if p.2 = d.length then d.length else l := truncated_of_last hf hb.1
  have hlo : p.2 ≤ truncated ip l ∧ truncated ip l ≤ l := by
    rw [htrunc]
    split <;> omega
  obtain ⟨hpre, hpost, hcross⟩ := pairwise_append.mp hg.apart
  obtain ⟨hbefore, hafter⟩ := hg.sides
  refine ⟨fun j => ?_, ?_⟩
  · have hall := hg.cover j
    rw [covers_holes] at hall
    have hside : Covers ((pre ++ post).map Hole.extent) j → j < 8 * k ∨ l ≤ j := by
      intro hcov
      obtain ⟨b, hmem, hjlo, hjhi⟩ := covers_holes_iff.mp hcov
      rcases mem_append.mp hmem with hmem | hmem
      · have := hbefore b hmem
        omega
      · have := hafter b hmem
        omega
    have hmiss : p.1 ≤ j → j < p.2 → ¬Came past j := ha.missing hp hnew
    rw [covers_edited hfits (by omega) (by omega) hkept, knownEnd_append ha hp, came_append, htrunc,
      hstart, hstop]
    by_cases hlast : p.2 = d.length
    · have hopen := (open_of_last ha hg hs (by omega)).1
      rw [if_pos hlast, if_pos hlast]
      by_cases hX : Covers ((pre ++ post).map Hole.extent) j <;> by_cases hC : Came past j <;>
        simp only [hX, hC, not_true_eq_false, not_false_eq_true, and_true, and_false, or_true,
          or_false, true_or, false_or, iff_false, true_iff, true_implies] at * <;> omega
    · rw [if_neg hlast, if_neg hlast]
      by_cases hX : Covers ((pre ++ post).map Hole.extent) j <;> by_cases hC : Came past j <;>
        simp only [hX, hC, not_true_eq_false, not_false_eq_true, and_true, and_false, or_true,
          or_false, true_or, false_or, iff_false, true_iff, true_implies] at * <;> omega
  · refine apart_edited hfits (by omega) (by omega) hpre (pairwise_cons.mp hpost).2
      (fun b hmem c hmem' => hcross b hmem c (mem_cons_of_mem _ hmem')) hbefore (fun c hmem => ?_)
      (by omega) hkept
    have := hafter c hmem
    omega

end UBoot
