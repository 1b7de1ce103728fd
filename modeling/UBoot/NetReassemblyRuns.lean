import UBoot.NetDefragSafe
import UBoot.NetReassembly

namespace UBoot

open Extents FlashCells List Words

variable {d : List UInt8} {id k l n j : Nat} {cut past : List Piece} {p : Piece} {ip : Ip}
  {hs pre post : List Hole} {st : Defrag}

theorem Arrived.not_tooFar (ha : Arrived d.length cut past) (hp : p ∈ cut) (hf : IsFragment d id p ip) :
    ¬ip.TooFar := by
  have hb := ha.bounds hp
  have hle := ha.le
  have hs := hf.start
  obtain ⟨hlen, hlen', -, -⟩ := hf.lengths hb.1
  unfold Ip.TooFar
  omega

theorem Gaps.room (hg : Gaps n past hs) (hs' : SortedHoles hs) (ha : Arrived n cut past) :
    ∀ b ∈ hs, 8 * b.1 + 8 ≤ b.2 := by
  intro b hb
  obtain ⟨pre, post, rfl⟩ := append_of_mem hb
  obtain ⟨hin, hlt⟩ := hs'.2 b hb
  obtain ⟨hle, hafter, hlast, -⟩ := hg.after hlt
  by_cases hopen : b.2 < knownEnd n past
  · have h8 := ha.boundary (hafter hopen) fun _ => hlast
    omega
  · have hmax : ipMaxudp = 16464 := rfl
    have he : b.2 = knownEnd n past := by omega
    unfold InBuff at hin
    unfold knownEnd at he
    split at he
    next hcame =>
      rw [he] at hlast
      exact absurd hcame hlast
    · omega

theorem Gaps.beside (hg : Gaps n past hs) (hs' : SortedHoles hs) (ha : Arrived n cut past)
    (hj : Came past j) {i : Nat} (hi : i ∈ indices hs) :
    ipHdrSizeNoUdp + j < hole i ∨ hole i + 8 ≤ ipHdrSizeNoUdp + j := by
  obtain ⟨b, hb, rfl⟩ := mem_map.mp hi
  have hroom := hg.room hs' ha b hb
  by_contra hno
  unfold hole at hno
  have hcov := (hg.cover j).mp (covers_hole_mem hb (by omega) (by omega))
  exact hcov.2 hj

theorem holding_append {st' : Defrag} (h : Holding d id cut past st) (hp : p ∈ cut)
    (hf : IsFragment d id p ip) {hs' : List Hole} (hl : Listed st' hs') (hne : hs' ≠ [])
    (hg : Gaps d.length (past ++ [p]) hs') (htotal : st'.totalLen = wholeLen st ip)
    (hold : ∀ i ∈ k :: indices hs', ∀ j, Came past j →
      ipHdrSizeNoUdp + j < hole i ∨ hole i + 8 ≤ ipHdrSizeNoUdp + j)
    (hin : ∀ x, ip.start ≤ x → x < ip.stop →
      st'.pktBuff (ipHdrSizeNoUdp + x) = ip.bytes (ipHdrSizeNoUdp + x - ip.start))
    (hout : ∀ x, x < ipHdrSizeNoUdp + ip.start ∨ ipHdrSizeNoUdp + ip.stop ≤ x →
      (∀ i ∈ k :: indices hs', x < hole i ∨ hole i + 8 ≤ x) → st'.pktBuff x = st.pktBuff x) :
    Holding d id cut (past ++ [p]) st' := by
  have hb := h.arrived.bounds hp
  obtain ⟨hlen, hlen', hstop, hoff⟩ := hf.lengths hb.1
  refine ⟨h.arrived.append hp, ⟨hs', hne, hl, hg⟩, ?_, ?_, fun j hj => ?_⟩
  · rw [htotal, wholeLen, knownEnd_append h.arrived hp, h.total, hstop]
    by_cases hlast : p.2 = d.length
    · rw [if_neg (fun hm => (hf.mfrag.mp hm) hlast), if_pos hlast, hlast]
    · rw [if_pos (hf.mfrag.mpr hlast), if_neg hlast]
  · refine Eq.trans (le16_congr (hout 4 ?_ ?_) (hout 5 ?_ ?_)) h.ident
    · left
      unfold ipHdrSizeNoUdp
      omega
    · intro i _
      left
      unfold hole ipHdrSizeNoUdp
      omega
    · left
      unfold ipHdrSizeNoUdp
      omega
    · intro i _
      left
      unfold hole ipHdrSizeNoUdp
      omega
  · have hs := hf.start
    by_cases hjp : p.1 ≤ j ∧ j < p.2
    · rw [hin j (by omega) (by omega), hs]
      exact hf.bytes j hjp.1 hjp.2
    · have hj' : Came past j := (came_append.mp hj).resolve_right hjp
      rw [hout (ipHdrSizeNoUdp + j) (by omega) fun i hi => hold i hi j hj']
      exact h.bytes j hj'

/-- What a fragment does: it completes the datagram, which is then returned, or something is still missing. -/
def Outcome (d : List UInt8) (id : Nat) (cut past : List Piece) (st : Defrag) (ip : Ip) : Prop :=
  ((∀ p ∈ cut, p ∈ past) ∧ ∃ whole st', netDefragmentFrag st ip = some (some whole, st') ∧
    whole.size = ipHdrSizeNoUdp + d.length ∧
    ∀ j < d.length, whole.bytes (ipHdrSizeNoUdp + j) = d.getD j 0) ∨
  (¬(∀ p ∈ cut, p ∈ past) ∧ ∃ st', netDefragmentFrag st ip = some (none, st') ∧ Holding d id cut past st')

theorem Holding.not_all (h : Holding d id cut past st) : ¬∀ p ∈ cut, p ∈ past := by
  intro hall
  obtain ⟨hs, hne, hl, hg⟩ := h.holes
  obtain ⟨b, hb⟩ := exists_mem_of_ne_nil hs hne
  have hlt := (hl.sorted.2 b hb).2
  have hcov := (hg.cover (8 * b.1)).mp (covers_hole_mem hb le_rfl hlt)
  have hmiss := mt (h.arrived.all_iff.mp hall (8 * b.1)) hcov.2
  have hend : knownEnd d.length past = d.length := by
    unfold knownEnd
    have hpos := h.arrived.pos
    exact if_pos (h.arrived.all_iff.mp hall _ (by omega))
  omega

theorem arrive_old (h : Holding d id cut past (st.begin ip)) (hp : p ∈ past) (hf : IsFragment d id p ip) :
    Outcome d id cut (past ++ [p]) st ip := by
  have hcut := h.arrived.mem p hp
  have hb := h.arrived.bounds hcut
  have hfar := h.arrived.not_tooFar hcut hf
  obtain ⟨hlen, hlen', hstop, hoff⟩ := hf.lengths hb.1
  obtain ⟨hstart, hoff', hnlo, hnhi, -⟩ := newh_bounds hlen
  have hdiv : ip.len.tdiv 8 = ip.len / 8 := Int.tdiv_eq_ediv_of_nonneg hlen
  have hcame : ∀ j, Came (past ++ [p]) j ↔ Came past j := fun j => by
    rw [came_append]
    exact or_iff_left_of_imp fun hj => ⟨p, hp, hj⟩
  have hend : knownEnd d.length (past ++ [p]) = knownEnd d.length past := by
    unfold knownEnd
    simp only [hcame]
  have hgaps : ∀ {hs}, Gaps d.length past hs → Gaps d.length (past ++ [p]) hs := fun hg =>
    ⟨fun j => by rw [hcame, hend]; exact hg.cover j, hg.apart⟩
  obtain ⟨hs, hne, hl, hg⟩ := h.holes
  have hsame : Holding d id cut (past ++ [p]) (st.begin ip) :=
    ⟨h.arrived.append hcut, ⟨hs, hne, hl, hgaps hg⟩, by rw [hend]; exact h.total, h.ident,
      fun j hj => h.bytes j ((hcame j).mp hj)⟩
  right
  refine ⟨hsame.not_all, ?_⟩
  rcases netDefragmentFrag_cases hfar hl hne with ⟨pre, k, l, post, rfl, hwalk, hle, hd⟩ | ⟨-, hd⟩
  · have hkl := (hl.sorted.2 (k, l) (mem_append_right pre mem_cons_self)).2
    have hbeside : l = p.1 ∨ p.2 ≤ 8 * k := by
      by_contra hno
      have hmiss := (hg.cover (max (8 * k) p.1)).mp
        (covers_hole_mem (mem_append_right pre mem_cons_self) (le_max_left _ _)
          (by have := hf.start; dsimp only; omega))
      exact hmiss.2 ⟨p, hp, le_max_right _ _, by omega⟩
    by_cases hbefore : p.2 ≤ 8 * k
    · rw [if_pos (by omega)] at hd
      exact ⟨_, hd, hsame⟩
    · obtain rfl := hbeside.resolve_right hbefore
      rw [if_neg (by omega)] at hd
      have htrunc : truncated ip p.1 = p.1 ∨ truncated ip p.1 = p.2 := by
        unfold truncated
        split
        · exact .inl rfl
        · exact .inr hstop
      have hfits : Fits ip k (truncated ip p.1) post := by
        refine ⟨hlen, by omega, fun c hc => ?_, fun hlt => by omega⟩
        have hsep := hg.sides.2 c hc
        have hmem : c ∈ pre ++ (k, p.1) :: post := mem_append_right pre (mem_cons_of_mem _ hc)
        have hcov := (hg.cover (8 * c.1)).mp (covers_hole_mem hmem le_rfl (hl.sorted.2 c hmem).2)
        by_contra hlt
        exact hcov.2 ⟨p, hp, by omega, by omega⟩
      have hsize := hf.size
      have hmax : ip.stop ≤ ipMaxudp := (not_tooFar hfar).2
      have hed : edited pre k (truncated ip p.1) post ip = pre ++ (k, p.1) :: post := by
        rw [edited, if_neg (by omega), if_pos (by omega), hf.start]
      rcases addFragment_spec hl hwalk hfits hsize hmax with
        ⟨hnil, -⟩ | ⟨st', hadd, -, hlist, htotal, hin, hout⟩
      · rw [hed] at hnil
        simp at hnil
      · rw [hed] at hlist hout
        refine ⟨st', hd.trans hadd, holding_append h hcut hf hlist hne (hgaps hg) htotal ?_ hin hout⟩
        intro i hi j hj
        refine hg.beside hl.sorted h.arrived hj ?_
        rcases mem_cons.mp hi with rfl | hi
        · simp [indices]
        · exact hi
  · exact ⟨_, hd, hsame⟩

theorem arrive_new (h : Holding d id cut past (st.begin ip)) (hp : p ∈ cut) (hnew : p ∉ past)
    (hf : IsFragment d id p ip) (hland : Lands past p) : Outcome d id cut (past ++ [p]) st ip := by
  have hb := h.arrived.bounds hp
  have hfar := h.arrived.not_tooFar hp hf
  obtain ⟨hlen, hlen', hstop, hoff⟩ := hf.lengths hb.1
  have hs := hf.start
  obtain ⟨holes, hne, hl, hg⟩ := h.holes
  have harr := h.arrived.append hp
  rcases netDefragmentFrag_cases hfar hl hne with ⟨pre, k, l, post, rfl, hwalk, hle, hd⟩ | ⟨hall, -⟩
  · rw [hs] at hwalk hle
    obtain ⟨hk, hend⟩ := hole_of_new h.arrived hg hl.sorted hp hnew hwalk hle
    have hpast := past_of_new h.arrived hg hl.sorted hp hnew hf hk hland
    have hfits := fits_of_new h.arrived hl.sorted hp hf hend hpast
    have hkept : ip.offset8 ≤ k → kept pre = pre := fun hover =>
      kept_of_new h.arrived hg hl.sorted hp hnew (by omega) hland
    have hgaps := gaps_of_new h.arrived hg hl.sorted hp hnew hf hk hend hfits hkept
    have hnewh : ip.newh = (ip.offset8 + ip.len.tdiv 8).toNat := rfl
    rw [if_neg (by omega)] at hd
    rw [← hs] at hwalk
    rcases addFragment_spec hl hwalk hfits hf.size (not_tooFar hfar).2 with
      ⟨hnil, whole, st', hadd⟩ | ⟨st', hadd, hne', hlist, htotal, hin, hout⟩
    · left
      rw [hnil] at hgaps
      have hcame : ∀ j < d.length, Came (past ++ [p]) j := fun j hj => by
        by_contra hno
        have hj' := knownEnd_ge harr
        exact covers_nil ((hgaps.cover j).mpr ⟨by omega, hno⟩)
      obtain ⟨hsize, -, -, hbytes⟩ := addFragment_whole hadd (by omega)
      refine ⟨harr.all_iff.mpr hcame, whole, st', hd.trans hadd, ?_, fun j hj => ?_⟩
      · have hpos := harr.pos
        have hknown : knownEnd d.length (past ++ [p]) = d.length := if_pos (hcame _ (by omega))
        rw [knownEnd_append h.arrived hp] at hknown
        rw [hsize, wholeLen, h.total, hstop]
        by_cases hlast : p.2 = d.length
        · rw [if_neg (fun hm => (hf.mfrag.mp hm) hlast), hlast, add_comm]
        · rw [if_neg hlast] at hknown
          rw [if_pos (hf.mfrag.mpr hlast), hknown, add_comm]
      · rw [hbytes, wholeByte, hs]
        by_cases hjp : p.1 ≤ j ∧ j < p.2
        · rw [if_pos (by omega)]
          exact hf.bytes j hjp.1 hjp.2
        · rw [if_neg (by omega)]
          exact h.bytes j ((came_append.mp (hcame j hj)).resolve_right hjp)
    · right
      have hhold : Holding d id cut (past ++ [p]) st' := by
        refine holding_append h hp hf hlist hne' hgaps htotal (fun i hi j hj => ?_) hin hout
        rcases mem_cons.mp hi with rfl | hi
        · exact hg.beside hl.sorted h.arrived hj (by simp [indices])
        · exact hgaps.beside hlist.sorted harr (came_append.mpr (.inl hj)) hi
      exact ⟨hhold.not_all, st', hd.trans hadd, hhold⟩
  · exfalso
    have hj := knownEnd_ge h.arrived
    have hcov := (hg.cover p.1).mpr ⟨by omega, h.arrived.missing hp hnew le_rfl hb.1⟩
    obtain ⟨b, hmem, -, hhi⟩ := covers_holes_iff.mp hcov
    have := hall b hmem
    omega

theorem arrive (h : Holding d id cut past (st.begin ip)) (hp : p ∈ cut) (hf : IsFragment d id p ip)
    (hland : Lands past p) : Outcome d id cut (past ++ [p]) st ip := by
  by_cases hnew : p ∈ past
  · exact arrive_old h hnew hf
  · exact arrive_new h hp hnew hf hland

def Unseen (st : Defrag) (id : Nat) : Prop := st.totalLen = 0 ∨ ipId st.pktBuff ≠ id

theorem reset_header (st : Defrag) (ip : Ip) {x : Nat} (hx : x < ipHdrSizeNoUdp) :
    (st.reset ip).pktBuff x = ip.bytes x := if_pos ⟨Nat.zero_le x, by omega⟩

theorem holding_begin (hcut : CutFrom 0 d.length cut) (hpos : 0 < d.length) (hle : d.length ≤ ipMaxudp)
    (hst : Unseen st id) (hid : ipId ip.bytes = id) : Holding d id cut [] (st.begin ip) := by
  have hnew : st.IsNew ip := by
    unfold Defrag.IsNew
    rw [hid]
    exact hst
  have hnone : ∀ j, ¬Came [] j := by
    rintro j ⟨_, hmem, _⟩
    exact not_mem_nil hmem
  have hend : knownEnd d.length [] = 0xffff := if_neg (hnone _)
  rw [Defrag.begin, if_pos hnew]
  refine ⟨⟨hcut, hpos, hle, fun _ hp => absurd hp not_mem_nil⟩, ⟨_, cons_ne_nil _ _, reset_listed st ip, fun j => ?_,
    pairwise_singleton _ _⟩, hend.symm, ?_, fun j hj => absurd hj (hnone j)⟩
  · rw [hend, covers_holes_iff]
    simp [hnone]
  · refine Eq.trans (le16_congr ?_ ?_) hid
    · exact reset_header st ip (by decide)
    · exact reset_header st ip (by decide)

/-- A state that has seen the pieces `past`, or none of the id. -/
def Ready (d : List UInt8) (id : Nat) (cut past : List Piece) (st : Defrag) : Prop :=
  ∀ ip : Ip, ipId ip.bytes = id → Holding d id cut past (st.begin ip)

theorem Holding.ready (h : Holding d id cut past st) : Ready d id cut past st := by
  intro ip hid
  have hold : ¬st.IsNew ip := by
    have htotal := h.total
    have hend := knownEnd_ge h.arrived
    have hpos := h.arrived.pos
    rintro (h₀ | hne)
    · omega
    · exact hne (h.ident.trans hid.symm)
  rw [Defrag.begin, if_neg hold]
  exact h

theorem arrivals_none {arrivals : List (Piece × Ip)} (h : Ready d id cut past st)
    (hfrag : ∀ a ∈ arrivals, a.1 ∈ cut ∧ IsFragment d id a.1 a.2)
    (hmissing : ∃ p ∈ cut, p ∉ past ++ arrivals.map Prod.fst)
    (hland : ∀ pre a post, arrivals = pre ++ a :: post → Lands (past ++ pre.map Prod.fst) a.1) :
    ∃ st', Runs.run netDefragmentFrag st (arrivals.map Prod.snd) =
        some (List.replicate arrivals.length none, st') ∧
      Ready d id cut (past ++ arrivals.map Prod.fst) st' := by
  induction arrivals generalizing past st with
  | nil =>
    refine ⟨st, rfl, ?_⟩
    rw [map_nil, append_nil]
    exact h
  | cons a rest ih =>
    obtain ⟨hcut, hf⟩ := hfrag a mem_cons_self
    have hassoc : past ++ (a :: rest).map Prod.fst = past ++ [a.1] ++ rest.map Prod.fst := by simp
    rw [hassoc] at hmissing ⊢
    have hfirst := hland [] a rest rfl
    rw [map_nil, append_nil] at hfirst
    rcases arrive (h a.2 hf.ident) hcut hf hfirst with ⟨hall, -⟩ | ⟨-, st₁, hstep, hhold⟩
    · obtain ⟨p, hp, hno⟩ := hmissing
      exact absurd (mem_append_left _ (hall p hp)) hno
    · obtain ⟨st', hrun, hready⟩ := ih hhold.ready (fun b hb => hfrag b (mem_cons_of_mem a hb)) hmissing
        fun pre b post he => by
          have := hland (a :: pre) b post (by rw [he]; rfl)
          simpa using this
      exact ⟨st', Runs.run_cons hstep hrun, hready⟩

/-- Fragments that land are reassembled in whatever order they arrive: there is no packet before the
last missing piece, and that one makes the datagram whole. -/
theorem defrag_reassembles {arrivals : List (Piece × Ip)} {last : Piece × Ip}
    (hcut : CutFrom 0 d.length cut) (hpos : 0 < d.length) (hle : d.length ≤ ipMaxudp)
    (hst : Unseen st id) (hfrag : ∀ a ∈ arrivals ++ [last], a.1 ∈ cut ∧ IsFragment d id a.1 a.2)
    (hmissing : ∃ p ∈ cut, p ∉ arrivals.map Prod.fst)
    (hland : ∀ pre a post, arrivals ++ [last] = pre ++ a :: post → Lands (pre.map Prod.fst) a.1) :
    ∃ st', Runs.run netDefragmentFrag st (arrivals.map Prod.snd) =
        some (List.replicate arrivals.length none, st') ∧
      ((∃ p ∈ cut, p ∉ (arrivals ++ [last]).map Prod.fst) →
        ∃ st'', netDefragmentFrag st' last.2 = some (none, st'')) ∧
      ((∀ p ∈ cut, p ∈ (arrivals ++ [last]).map Prod.fst) →
        ∃ whole st'', netDefragmentFrag st' last.2 = some (some whole, st'') ∧
          whole.size = ipHdrSizeNoUdp + d.length ∧
          ∀ j < d.length, whole.bytes (ipHdrSizeNoUdp + j) = d.getD j 0) := by
  have hready : Ready d id cut [] st := fun ip hid => holding_begin hcut hpos hle hst hid
  obtain ⟨st', hrun, hready'⟩ := arrivals_none hready
    (fun a ha => hfrag a (mem_append_left _ ha)) (by rwa [nil_append])
    fun pre a post he => hland pre a (post ++ [last]) (by rw [he]; simp)
  rw [nil_append] at hready'
  obtain ⟨hcutLast, hfLast⟩ := hfrag last (mem_append_right _ mem_cons_self)
  have hout := arrive (hready' last.2 hfLast.ident) hcutLast hfLast (hland arrivals last [] rfl)
  have hmap : (arrivals ++ [last]).map Prod.fst = arrivals.map Prod.fst ++ [last.1] := by simp
  rw [hmap]
  refine ⟨st', hrun, fun ⟨p, hp, hno⟩ => ?_, fun hall => ?_⟩
  · rcases hout with ⟨hall, -⟩ | ⟨-, st'', hstep, -⟩
    · exact absurd (hall p hp) hno
    · exact ⟨st'', hstep⟩
  · rcases hout with ⟨-, hwhole⟩ | ⟨hno, -⟩
    · exact hwhole
    · exact absurd hall hno

def sampleFragment (p : Piece) (ipOff : Nat) : Piece × Ip :=
  (p, sampleIp (ipHdrSizeNoUdp + (p.2 - p.1)) ipOff (List.replicate (p.2 - p.1) 7))

theorem sampleFragment_first (n : Nat) (hn : 8 < n) :
    IsFragment (List.replicate n 7) 256 (0, 8) (sampleFragment (0, 8) 0x2000).2 where
  ident := rfl
  start := rfl
  ipLen := rfl
  mfrag := by
    refine ⟨fun _ => ?_, fun _ => rfl⟩
    rw [length_replicate]
    exact ne_of_lt hn
  size := by decide
  bytes j _ hj := by
    have hall : ∀ j < 8, (sampleFragment (0, 8) 0x2000).2.bytes (ipHdrSizeNoUdp + j - 0) = 7 := by decide
    rw [getD_replicate _ (by omega)]
    exact hall j hj

/-- Two pieces of eight bytes that arrive in order. -/
theorem defrag_reassembles_two :
    ∃ st', Runs.run netDefragmentFrag defragInit ([sampleFragment (0, 8) 0x2000].map Prod.snd) =
        some (List.replicate 1 none, st') ∧
      ((∃ p ∈ [(0, 8), (8, 16)],
          p ∉ ([sampleFragment (0, 8) 0x2000] ++ [sampleFragment (8, 16) 1]).map Prod.fst) →
        ∃ st'', netDefragmentFrag st' (sampleFragment (8, 16) 1).2 = some (none, st'')) ∧
      ((∀ p ∈ [(0, 8), (8, 16)],
          p ∈ ([sampleFragment (0, 8) 0x2000] ++ [sampleFragment (8, 16) 1]).map Prod.fst) →
        ∃ whole st'', netDefragmentFrag st' (sampleFragment (8, 16) 1).2 = some (some whole, st'') ∧
          whole.size = ipHdrSizeNoUdp + 16 ∧
          ∀ j < 16, whole.bytes (ipHdrSizeNoUdp + j) = (List.replicate 16 7).getD j 0) := by
  have hlast : IsFragment (List.replicate 16 7) 256 (8, 16) (sampleFragment (8, 16) 1).2 := by
    refine ⟨rfl, rfl, rfl, by decide, by decide, fun j hlo hhi => ?_⟩
    have hall : ∀ j < 16, 8 ≤ j → (sampleFragment (8, 16) 1).2.bytes (ipHdrSizeNoUdp + j - 8) = 7 := by
      decide
    rw [getD_replicate _ (by exact hhi)]
    exact hall j hhi hlo
  have hcut : CutFrom 0 (List.replicate 16 (7 : UInt8)).length [(0, 8), (8, 16)] :=
    ⟨rfl, by decide, fun _ => by decide, rfl, by decide, fun _ => by decide, rfl⟩
  have hunseen : Unseen defragInit 256 := .inl rfl
  refine defrag_reassembles (d := List.replicate 16 7) hcut (by decide) (by decide) hunseen ?_
    (by decide) ?_
  · refine forall_mem_cons.mpr ⟨⟨by decide, sampleFragment_first 16 (by decide)⟩, ?_⟩
    exact forall_mem_singleton.mpr ⟨by decide, hlast⟩
  · refine Runs.forall_split_cons.mpr ⟨.inr ⟨fun _ => by decide, ?_⟩, ?_⟩
    · rintro ⟨-, b, hb, -⟩
      exact Nat.not_lt_zero b hb
    · refine Runs.forall_split_cons.mpr ⟨.inr ⟨fun _ => by decide, ?_⟩, ?_⟩
      · rintro ⟨hfirst, -⟩
        exact hfirst (by decide)
      · intro pre x post he
        simp at he

/-- A last piece of one byte that arrives in its turn is taken for a duplicate. -/
theorem short_last_dropped :
    ¬∀ (d : List UInt8) (id : Nat) (cut : List Piece) (st : Defrag) (arrivals : List (Piece × Ip))
      (last : Piece × Ip), CutFrom 0 d.length cut → 0 < d.length → d.length ≤ ipMaxudp → Unseen st id →
      (∀ a ∈ arrivals ++ [last], a.1 ∈ cut ∧ IsFragment d id a.1 a.2) →
      (∃ p ∈ cut, p ∉ arrivals.map Prod.fst) →
      ∃ st', Runs.run netDefragmentFrag st (arrivals.map Prod.snd) =
          some (List.replicate arrivals.length none, st') ∧
        ((∀ p ∈ cut, p ∈ (arrivals ++ [last]).map Prod.fst) →
          ∃ whole st'', netDefragmentFrag st' last.2 = some (some whole, st'')) := by
  intro h
  have hcut : CutFrom 0 (List.replicate 9 (7 : UInt8)).length [(0, 8), (8, 9)] :=
    ⟨rfl, by decide, fun _ => by decide, rfl, by decide, fun hne => absurd rfl hne, rfl⟩
  have hlast : IsFragment (List.replicate 9 7) 256 (8, 9) (sampleFragment (8, 9) 1).2 := by
    refine ⟨rfl, rfl, rfl, by decide, by decide, fun j hlo hhi => ?_⟩
    have hall : ∀ j < 9, 8 ≤ j → (sampleFragment (8, 9) 1).2.bytes (ipHdrSizeNoUdp + j - 8) = 7 := by
      decide
    rw [getD_replicate _ (by exact hhi)]
    exact hall j hhi hlo
  obtain ⟨st', hrun, hwhole⟩ := h _ 256 _ defragInit [sampleFragment (0, 8) 0x2000]
    (sampleFragment (8, 9) 1) hcut (by decide) (by decide) (.inl rfl)
    (forall_mem_cons.mpr ⟨⟨by decide, sampleFragment_first 9 (by decide)⟩,
      forall_mem_singleton.mpr ⟨by decide, hlast⟩⟩) (by decide)
  obtain ⟨whole, st'', hstep⟩ := hwhole (by decide)
  obtain ⟨b, st₁, bs, hfirst, hrest, -⟩ := Runs.run_cons_iff.mp hrun
  obtain ⟨-, rfl⟩ := Prod.mk.inj (Option.some.inj hrest)
  have hanswer : ((netDefragmentFrag defragInit (sampleFragment (0, 8) 0x2000).2).bind fun r =>
      (netDefragmentFrag r.2 (sampleFragment (8, 9) 1).2).map fun q => q.1.isSome) = some false := rfl
  rw [hfirst, Option.bind_some, hstep] at hanswer
  cases hanswer

end UBoot
