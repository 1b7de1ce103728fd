import UBoot.FatTermination
import UBoot.FatVolume

namespace UBoot.Fat

open FlashCells List Loops Words
open Loops.Comp (loop_done returns_bind returns_pure_iff)

/-- Clusters of which each entry leads to the next one. -/
structure FileChain (d : Disk) (fs : Fsdata) (count start : Nat) (cs : List Nat) : Prop where
  clusters : ∀ c ∈ cs, IsCluster count c
  links : cs.IsChain fun a b => fatEntry fs.fatsize (fatTable d fs) a = b
  start : ∀ c ∈ cs.head?, c = start

/-- `CHECK_CLUST` passes the entries that lead from one of the clusters with the first `m` bytes of a
file to the next one. -/
def LinksPass (d : Disk) (fs : Fsdata) (m : Nat) (cs : List Nat) : Prop :=
  ∀ j c, cs[j]? = some c → (j + 1) * bytesPerClust fs < m →
    checkClust (storedEntry fs.fatsize (fatTable d fs) c) fs.fatsize = false

/-- The file is read: its bytes are in memory, nothing else there has changed, and their number is
returned. -/
def ReadsFile (d : Disk) (fs : Fsdata) (st : Store) (e : DirEntry) (buffer maxsize : Nat)
    (cs : List Nat) : Prop :=
  ∃ st', (getContents d fs st e buffer maxsize).Returns ((readSize e maxsize : Nat), st') ∧
    st'.mem = store st.mem buffer ((cs.flatMap (clusterBytes d fs)).take (readSize e maxsize))

variable {d : Disk} {fs : Fsdata} {count c m : Nat} {st : Store} {cs : List Nat}
variable {how : Reach} {g : Reading} {st' : Store}

theorem Volume.bytes_pos (h : Volume d fs count) : 0 < bytesPerClust fs ∧ bytesPerClust fs ≤ 65536 := by
  have hclusters := h.clusters
  unfold bytesPerClust
  omega

theorem FileChain.tail {start : Nat} (h : FileChain d fs count start (c :: cs)) {c' : Nat} {cs' : List Nat}
    (hcs : cs = c' :: cs') : FileChain d fs count c' cs := by
  subst hcs
  exact ⟨fun x hx => h.clusters x (mem_cons_of_mem _ hx), (isChain_cons_cons.mp h.links).2,
    fun x hx => (Option.some.inj hx).symm⟩

theorem FileChain.drop {start : Nat} (h : FileChain d fs count start cs) (k : Nat) :
    ∀ c, cs[k]? = some c → FileChain d fs count c (cs.drop k) := by
  intro c hc
  refine ⟨fun x hx => h.clusters x (mem_of_mem_drop hx), h.links.drop k, fun x hx => ?_⟩
  rw [List.head?_drop, hc] at hx
  exact (Option.some.inj hx).symm

theorem FileChain.next {start i a b : Nat} (h : FileChain d fs count start cs) (ha : cs[i]? = some a)
    (hb : cs[i + 1]? = some b) : fatEntry fs.fatsize (fatTable d fs) a = b := by
  obtain ⟨hi, rfl⟩ := List.getElem?_eq_some_iff.mp ha
  obtain ⟨hi', rfl⟩ := List.getElem?_eq_some_iff.mp hb
  exact h.links.getElem i hi'

/-- Where the search for consecutive clusters stands after `k` steps from a cluster on. -/
structure Searched (d : Disk) (fs : Fsdata) (m a c : Nat) (cs : List Nat) (k : Nat) (how : Reach) : Prop where
  within : k ≤ cs.length
  run : (c :: cs).take (k + 1) = List.range' c (k + 1)
  passed : ∀ j, j < k → checkClust (storedEntry fs.fatsize (fatTable d fs) (c + j)) fs.fatsize = false
  needed : k = 0 ∨ a + (k - 1) * bytesPerClust fs < m
  all : how = .all → m ≤ a + k * bytesPerClust fs
  more : how ≠ .all → a + k * bytesPerClust fs < m
  invalid : how = .invalid → checkClust (storedEntry fs.fatsize (fatTable d fs) (c + k)) fs.fatsize = true

theorem Searched.none {a : Nat} (hall : how = .all → m ≤ a) (hmore : how ≠ .all → a < m)
    (hinvalid : how = .invalid → checkClust (storedEntry fs.fatsize (fatTable d fs) c) fs.fatsize = true) :
    Searched d fs m a c cs 0 how where
  within := Nat.zero_le _
  run := rfl
  passed j hj := absurd hj (Nat.not_lt_zero j)
  needed := .inl rfl
  all h := by simpa using hall h
  more h := by simpa using hmore h
  invalid := hinvalid

theorem Searched.cons {a k : Nat} (ha : a < m)
    (hpass : checkClust (storedEntry fs.fatsize (fatTable d fs) c) fs.fatsize = false)
    (h : Searched d fs m (a + bytesPerClust fs) (c + 1) cs k how) :
    Searched d fs m a c ((c + 1) :: cs) (k + 1) how where
  within := Nat.succ_le_succ h.within
  run := by
    rw [List.range'_succ, ← h.run]
    rfl
  passed j hj := by
    cases j with
    | zero => exact hpass
    | succ j =>
      have hj' := h.passed j (by omega)
      rw [add_right_comm] at hj'
      exact hj'
  needed := by
    right
    rcases h.needed with hk | hk
    · rw [hk]
      simpa using ha
    · obtain ⟨i, hi⟩ : ∃ i, k = i + 1 ∨ k = 0 := ⟨k - 1, by omega⟩
      rcases hi with rfl | rfl
      · rw [Nat.add_sub_cancel, Nat.succ_mul]
        rw [Nat.add_sub_cancel] at hk
        omega
      · simpa using ha
  all hh := by
    have := h.all hh
    rw [Nat.succ_mul]
    omega
  more hh := by
    have := h.more hh
    rw [Nat.succ_mul]
    omega
  invalid hh := by
    have := h.invalid hh
    rw [add_right_comm] at this
    exact this

theorem consecutive_searched (hv : Volume d fs count) (hr : Readable d fs count) (hm : m < 2147483648)
    {a : Nat} (hst : Cached d fs st) (hchain : FileChain d fs count c (c :: cs))
    (hlong : m ≤ a + cs.length * bytesPerClust fs) :
    ∃ st' k how, (Comp.loop (fun s => Comp.pure (consecutiveRound d fs m s)) (st, c, a)).Returns
        ((st', c + k, a + k * bytesPerClust fs), how) ∧
      Cached d fs st' ∧ Kept st st' ∧ Searched d fs m a c cs k how := by
  have hbytes := hv.bytes_pos
  induction cs generalizing c a st with
  | nil =>
    refine ⟨st, 0, .all, loop_done ?_, hst, Kept.refl st, Searched.none ?_ ?_ ?_⟩
    · rw [returns_pure_iff]
      unfold consecutiveRound
      rw [if_neg (by simpa using hlong)]
      simp
    · intro _
      simpa using hlong
    · intro h
      exact absurd rfl h
    · intro h
      cases h
  | cons c' cs ih =>
    have hc := hchain.clusters c (mem_cons_self ..)
    have hlink : fatEntry fs.fatsize (fatTable d fs) c = c' := (isChain_cons_cons.mp hchain.links).1
    by_cases ha : a < m
    · obtain ⟨st', hget, hst', hkept⟩ := getFatent_cached hv hr hc hst
      have hlt := storedEntry_lt fs.fatsize (fatTable d fs) c
      have hround : consecutiveRound d fs m (st, c, a) =
          if (storedEntry fs.fatsize (fatTable d fs) c + 4294967295) % 4294967296 ≠ c then
            .inr ((st', c, a), .jump)
          else if checkClust (storedEntry fs.fatsize (fatTable d fs) c) fs.fatsize then
            .inr ((st', c, a), .invalid)
          else .inl (st', storedEntry fs.fatsize (fatTable d fs) c, (a + bytesPerClust fs) % 4294967296) := by
        unfold consecutiveRound
        rw [if_pos ha]
        rw [hget]
      split at hround
      next hjump =>
        refine ⟨st', 0, .jump, loop_done ?_, hst', hkept, Searched.none ?_ ?_ ?_⟩
        · rw [returns_pure_iff, hround]
          simp
        · intro h; cases h
        · intro _; exact ha
        · intro h; cases h
      next hnext =>
        split at hround
        next hbad =>
          refine ⟨st', 0, .invalid, loop_done ?_, hst', hkept, Searched.none ?_ ?_ ?_⟩
          · rw [returns_pure_iff, hround]
            simp
          · intro h; cases h
          · intro _; exact ha
          · intro _; exact hbad
        next hpass =>
          rw [Bool.not_eq_true] at hpass
          have hsucc : storedEntry fs.fatsize (fatTable d fs) c = c + 1 := by
            have hlast := hv.cluster_lt hc
            have hbad := badCluster_le fs.fatsize
            omega
          have hc' : c' = c + 1 := by
            rw [← hlink, fatEntry_of_passes hpass, hsucc]
          subst hc'
          have htail := hchain.tail rfl
          obtain ⟨st'', k, how, hrun, hst'', hkept', hsearched⟩ := ih (a := a + bytesPerClust fs) hst' htail (by
            rw [length_cons, Nat.succ_mul] at hlong
            omega)
          refine ⟨st'', k + 1, how, ?_, hst'', hkept.trans hkept', hsearched.cons ha hpass⟩
          rw [Nat.succ_mul, show c + (k + 1) = c + 1 + k by omega,
            show a + (k * bytesPerClust fs + bytesPerClust fs) = a + bytesPerClust fs + k * bytesPerClust fs by omega]
          refine Comp.loop_again ?_ hrun
          rw [returns_pure_iff, hround, hsucc, Nat.mod_eq_of_lt (by omega)]
    · refine ⟨st, 0, .all, loop_done ?_, hst, Kept.refl st, Searched.none ?_ ?_ ?_⟩
      · rw [returns_pure_iff]
        unfold consecutiveRound
        rw [if_neg ha]
        simp
      · intro _; omega
      · intro h; exact absurd rfl h
      · intro h; cases h

theorem minus_eq {a b : Nat} (hb : b ≤ a) (ha : a < 4294967296) : minus a b = a - b := by
  unfold minus
  omega

theorem Reading.got_eq (h : g.gotsize < 2147483648) : g.got = g.gotsize := by
  unfold Reading.got
  rw [Int.bmod_def]
  omega

def Reading.after (g : Reading) (reads : Nat) (bs : List UInt8) : Reading where
  store := { g.store with reads := reads, mem := FlashCells.store g.store.mem g.buffer bs }
  curclust := g.curclust
  filesize := g.filesize - bs.length
  gotsize := g.gotsize + bs.length
  buffer := g.buffer + bs.length

theorem Reading.after_mem (g : Reading) (n : Nat) (bs : List UInt8) :
    (g.after n bs).store.mem = FlashCells.store g.store.mem g.buffer bs := rfl

theorem Reading.after_after (g : Reading) (n n' : Nat) (bs bs' : List UInt8) :
    (g.after n bs).after n' bs' = g.after n' (bs ++ bs') := by
  unfold Reading.after
  rw [store_append, length_append, Nat.sub_sub, add_assoc, add_assoc]

theorem takeCluster_eq (hv : Volume d fs count) (hr : Readable d fs count) (g : Reading) {actsize : Nat}
    (hc : actsize = 0 ∨ IsCluster count c ∧ actsize ≤ (count + 2 - c) * bytesPerClust fs)
    (hsize : actsize ≤ g.filesize) (hgot : g.gotsize + g.filesize < 2147483648) :
    ∃ n, takeCluster d fs g c actsize =
      (true, g.after n (read d.bytes (clusterSector d fs c * 512) actsize)) := by
  have hcopy : ∃ n, getCluster d fs g.store.reads c g.store.mem g.buffer actsize =
      (true, n, store g.store.mem g.buffer (read d.bytes (clusterSector d fs c * 512) actsize)) := by
    rcases hc with rfl | ⟨hc, hroom⟩
    · obtain ⟨n, hn⟩ := getCluster_nothing hr g.store.reads c g.store.mem g.buffer
      refine ⟨n, hn.trans ?_⟩
      rw [store_read]
      exact congrArg (fun b => (true, n, b)) (funext fun x => (patch_outside (by omega)).symm)
    · refine getCluster_bytes hv hr hc ?_ _ _ _
      rw [mul_assoc]
      exact hroom
  obtain ⟨n, hn⟩ := hcopy
  refine ⟨n, ?_⟩
  unfold takeCluster Reading.after
  rw [hn, minus_eq hsize (by omega), Nat.mod_eq_of_lt (by omega), read_length]

/-- What reading the rest of a file comes to. -/
structure Outcome (d : Disk) (fs : Fsdata) (g : Reading) (cs : List Nat) (r : Int × Store) : Prop where
  passed : LinksPass d fs g.filesize cs → r.1 = (g.gotsize + g.filesize : Nat) ∧
    r.2.mem = store g.store.mem g.buffer ((cs.flatMap (clusterBytes d fs)).take g.filesize)
  stopped : ¬LinksPass d fs g.filesize cs → r.1 < (g.gotsize + g.filesize : Nat)

theorem Searched.at {k : Nat} {a : Nat} (h : Searched d fs m a c cs k how) {j : Nat} (hj : j ≤ k) :
    (c :: cs)[j]? = some (c + j) := by
  have hrun := congrArg (fun l : List Nat => l[j]?) h.run
  rw [List.getElem?_take_of_lt (by omega), List.getElem?_range' (by omega), one_mul] at hrun
  exact hrun

theorem Searched.linksPass {k : Nat} (h : Searched d fs m (bytesPerClust fs) c cs k .all) :
    LinksPass d fs m (c :: cs) := by
  intro j x hx hj
  have hlt : j < k := by
    by_contra hge
    have hall := h.all rfl
    have hmul := Nat.mul_le_mul_right (bytesPerClust fs) (show k + 1 ≤ j + 1 by omega)
    rw [Nat.succ_mul k] at hmul
    omega
  rw [h.at hlt.le] at hx
  rw [← Option.some.inj hx]
  exact h.passed j hlt

theorem Searched.linksPass_iff {k : Nat} (h : Searched d fs m (bytesPerClust fs) c cs k how)
    (hhow : how ≠ .all) : LinksPass d fs m (c :: cs) ↔
      checkClust (storedEntry fs.fatsize (fatTable d fs) (c + k)) fs.fatsize = false ∧
        LinksPass d fs (m - (bytesPerClust fs + k * bytesPerClust fs)) ((c :: cs).drop (k + 1)) := by
  have hmore := h.more hhow
  constructor
  · intro hpass
    refine ⟨hpass k _ (h.at (le_refl k)) (by rw [Nat.succ_mul]; omega), fun j x hx hj => ?_⟩
    rw [List.getElem?_drop] at hx
    refine hpass _ x hx ?_
    rw [show k + 1 + j + 1 = j + 1 + (k + 1) by omega, add_mul, Nat.succ_mul k]
    omega
  · rintro ⟨hlast, hrest⟩ j x hx hj
    rcases lt_trichotomy j k with hlt | rfl | hgt
    · rw [h.at hlt.le] at hx
      rw [← Option.some.inj hx]
      exact h.passed j hlt
    · rw [h.at (le_refl j)] at hx
      rw [← Option.some.inj hx]
      exact hlast
    · obtain ⟨i, rfl⟩ : ∃ i, j = k + 1 + i := ⟨j - (k + 1), by omega⟩
      refine hrest i x ?_ ?_
      · rw [List.getElem?_drop]
        exact hx
      · rw [show k + 1 + i + 1 = i + 1 + (k + 1) by omega, add_mul, Nat.succ_mul k] at hj
        omega

theorem Searched.room {k a : Nat} (h : Searched d fs m a c cs k how)
    (hchain : FileChain d fs count c (c :: cs)) : IsCluster count (c + k) ∧ c + k ≤ count + 1 := by
  have hmem : c + k ∈ c :: cs := mem_of_getElem? (h.at (le_refl k))
  exact ⟨hchain.clusters _ hmem, (hchain.clusters _ hmem).2⟩

theorem Searched.bytes {k a : Nat} (h : Searched d fs m a c cs k how) (hc : 2 ≤ c) :
    (c :: cs).flatMap (clusterBytes d fs) =
      read d.bytes (clusterSector d fs c * 512) ((k + 1) * bytesPerClust fs) ++
        ((c :: cs).drop (k + 1)).flatMap (clusterBytes d fs) := by
  have hsplit := take_append_drop (k + 1) (c :: cs)
  rw [h.run] at hsplit
  conv_lhs => rw [← hsplit]
  rw [flatMap_append, consecutive_bytes d fs hc]
  rfl

theorem cluster_room {k : Nat} (hk : c + k ≤ count + 2) :
    k * bytesPerClust fs ≤ (count + 2 - c) * bytesPerClust fs :=
  Nat.mul_le_mul_right _ (by omega)

theorem contentsRound_all (hv : Volume d fs count) (hr : Readable d fs count) {k : Nat}
    (hrun : (Comp.loop (fun s => Comp.pure (consecutiveRound d fs g.filesize s))
    (g.store, g.curclust, bytesPerClust fs)).Returns
    ((st', g.curclust + k, bytesPerClust fs + k * bytesPerClust fs), .all))
    (hgot : g.gotsize + g.filesize < 2147483648)
    (hall : g.filesize ≤ bytesPerClust fs + k * bytesPerClust fs) (hless : k * bytesPerClust fs ≤ g.filesize)
    (hroom : g.filesize = 0 ∨ IsCluster count g.curclust ∧ IsCluster count (g.curclust + k)) :
    ∃ n, (contentsRound d fs g).Returns (.inr ((g.gotsize + g.filesize : Nat),
      (({ g with store := st' } : Reading).after n
        (read d.bytes (clusterSector d fs g.curclust * 512) g.filesize)).store)) := by
  have hbytes := hv.bytes_pos
  have hactsize : minus (bytesPerClust fs + k * bytesPerClust fs) (bytesPerClust fs) = k * bytesPerClust fs := by
    rw [minus_eq (by omega) (by omega)]
    omega
  have hfirst : k * bytesPerClust fs = 0 ∨ IsCluster count g.curclust ∧
      k * bytesPerClust fs ≤ (count + 2 - g.curclust) * bytesPerClust fs := by
    rcases hroom with hzero | ⟨hc, hlast⟩
    · left
      omega
    · right
      have hend := hlast.2
      exact ⟨hc, cluster_room (by omega)⟩
  have hsecond : g.filesize - k * bytesPerClust fs = 0 ∨ IsCluster count (g.curclust + k) ∧
      g.filesize - k * bytesPerClust fs ≤ (count + 2 - (g.curclust + k)) * bytesPerClust fs := by
    rcases hroom with hzero | ⟨hc, hlast⟩
    · left
      omega
    · right
      have hend := hlast.2
      have hle : 1 * bytesPerClust fs ≤ (count + 2 - (g.curclust + k)) * bytesPerClust fs := cluster_room (by omega)
      exact ⟨hlast, by omega⟩
  obtain ⟨n, ht⟩ := takeCluster_eq hv hr { g with store := st' } hfirst hless hgot
  have hlen : ((({ g with store := st' } : Reading).after n (read d.bytes (clusterSector d fs g.curclust * 512)
      (k * bytesPerClust fs))).filesize) = g.filesize - k * bytesPerClust fs := by
    simp only [Reading.after, read_length]
  have hlen' : ((({ g with store := st' } : Reading).after n (read d.bytes (clusterSector d fs g.curclust * 512)
      (k * bytesPerClust fs))).gotsize) = g.gotsize + k * bytesPerClust fs := by
    simp only [Reading.after, read_length]
  obtain ⟨n', hu⟩ := takeCluster_eq hv hr (({ g with store := st' } : Reading).after n
    (read d.bytes (clusterSector d fs g.curclust * 512) (k * bytesPerClust fs))) hsecond
    (by rw [hlen]) (by rw [hlen, hlen']; omega)
  have hjoin : read d.bytes (clusterSector d fs g.curclust * 512) (k * bytesPerClust fs) ++
      read d.bytes (clusterSector d fs (g.curclust + k) * 512) (g.filesize - k * bytesPerClust fs) =
      read d.bytes (clusterSector d fs g.curclust * 512) g.filesize := by
    rcases hroom with hzero | ⟨hc, hlast⟩
    · rw [hzero, show k * bytesPerClust fs = 0 by omega]
      rfl
    · rw [clusterSector_add d fs hc.1, show fs.clustSize * 512 = bytesPerClust fs from rfl, ← read_append,
        show k * bytesPerClust fs + (g.filesize - k * bytesPerClust fs) = g.filesize by omega]
  rw [Reading.after_after, hjoin] at hu
  refine ⟨n', returns_bind.mpr ⟨_, hrun, ?_⟩⟩
  dsimp only
  rw [hactsize, ht, if_neg Bool.noConfusion]
  rw [hlen, hu, if_neg Bool.noConfusion, returns_pure_iff, Reading.got_eq]
  · simp only [Reading.after, read_length]
  · simp only [Reading.after, read_length]
    exact hgot

theorem contentsRound_jump (hv : Volume d fs count) (hr : Readable d fs count) {k : Nat}
    (hrun : (Comp.loop (fun s => Comp.pure (consecutiveRound d fs g.filesize s))
    (g.store, g.curclust, bytesPerClust fs)).Returns
    ((st', g.curclust + k, bytesPerClust fs + k * bytesPerClust fs), .jump))
    (hst : Cached d fs st') (hgot : g.gotsize + g.filesize < 2147483648)
    (hmore : bytesPerClust fs + k * bytesPerClust fs < g.filesize)
    (hc : IsCluster count g.curclust) (hlast : IsCluster count (g.curclust + k)) :
    ∃ n st'', Cached d fs st'' ∧ Kept (({ g with store := st' } : Reading).after n
        (read d.bytes (clusterSector d fs g.curclust * 512) ((k + 1) * bytesPerClust fs))).store st'' ∧
      (contentsRound d fs g).Returns
        (if checkClust (storedEntry fs.fatsize (fatTable d fs) (g.curclust + k)) fs.fatsize then
          .inr ((g.gotsize + (k + 1) * bytesPerClust fs : Nat), st'')
        else .inl ⟨st'', storedEntry fs.fatsize (fatTable d fs) (g.curclust + k),
          g.filesize - (k + 1) * bytesPerClust fs, g.gotsize + (k + 1) * bytesPerClust fs,
          g.buffer + (k + 1) * bytesPerClust fs⟩) := by
  have hend := hlast.2
  have hsum : bytesPerClust fs + k * bytesPerClust fs = (k + 1) * bytesPerClust fs := by
    rw [Nat.succ_mul, add_comm]
  rw [hsum] at hmore hrun
  obtain ⟨n, ht⟩ := takeCluster_eq hv hr { g with store := st' }
    (.inr ⟨hc, cluster_room (k := k + 1) (by omega)⟩) hmore.le hgot
  have hcached : Cached d fs (({ g with store := st' } : Reading).after n
      (read d.bytes (clusterSector d fs g.curclust * 512) ((k + 1) * bytesPerClust fs))).store :=
    hst.congr rfl rfl
  obtain ⟨st'', hget, hst'', hkept⟩ := getFatent_cached hv hr hlast hcached
  refine ⟨n, st'', hst'', hkept, returns_bind.mpr ⟨_, hrun, ?_⟩⟩
  dsimp only
  rw [ht, if_neg Bool.noConfusion]
  rw [hget]
  split
  next hbad =>
    rw [returns_pure_iff, Reading.got_eq]
    · simp only [Reading.after, read_length]
    · simp only [Reading.after, read_length]
      omega
  next hpass =>
    rw [returns_pure_iff]
    simp only [Reading.after, read_length]

theorem contentsRound_invalid {endclust actsize : Nat}
    (hrun : (Comp.loop (fun s => Comp.pure (consecutiveRound d fs g.filesize s))
    (g.store, g.curclust, bytesPerClust fs)).Returns ((st', endclust, actsize), .invalid)) :
    (contentsRound d fs g).Returns (.inr (g.got, st')) :=
  returns_bind.mpr ⟨_, hrun, Comp.returns_pure _⟩

theorem contents_outcome (hv : Volume d fs count) (hr : Readable d fs count)
    (hst : Cached d fs g.store) (hchain : FileChain d fs count g.curclust cs)
    (hlong : g.filesize ≤ cs.length * bytesPerClust fs) (hsome : 0 < g.filesize)
    (hgot : g.gotsize + g.filesize < 2147483648) :
    ∃ r, (Comp.loop (contentsRound d fs) g).Returns r ∧ Outcome d fs g cs r := by
  induction hn : cs.length using Nat.strong_induction_on generalizing g cs with
  | _ n ih =>
    cases cs with
    | nil =>
      rw [length_nil, zero_mul] at hlong
      omega
    | cons c cs =>
      obtain rfl : c = g.curclust := hchain.start c rfl
      have hc := hchain.clusters _ (mem_cons_self ..)
      obtain ⟨st', k, how, hrun, hst', hkept, hs⟩ := consecutive_searched (m := g.filesize) (a := bytesPerClust fs) hv hr
        (by omega) hst hchain (by
        rw [length_cons, Nat.succ_mul, add_comm (cs.length * _)] at hlong
        exact hlong)
      obtain ⟨hlast, -⟩ := hs.room hchain
      have hbytes' := hs.bytes hc.1
      have hsucc : bytesPerClust fs + k * bytesPerClust fs = (k + 1) * bytesPerClust fs := by
        rw [Nat.succ_mul, add_comm]
      cases how with
      | all =>
        have hless : k * bytesPerClust fs ≤ g.filesize := by
          rcases hs.needed with rfl | hk
          · rw [zero_mul]
            exact Nat.zero_le _
          · cases k with
            | zero =>
              rw [zero_mul]
              exact Nat.zero_le _
            | succ k =>
              rw [Nat.add_sub_cancel] at hk
              rw [Nat.succ_mul]
              omega
        obtain ⟨n', hround⟩ := contentsRound_all hv hr hrun hgot (hs.all rfl) hless (.inr ⟨hc, hlast⟩)
        refine ⟨_, loop_done hround, fun _ => ⟨rfl, ?_⟩, fun hnot => absurd hs.linksPass hnot⟩
        have hall := hs.all rfl
        rw [hsucc] at hall
        have htake : (List.drop 0 (read d.bytes (clusterSector d fs g.curclust * 512)
            ((k + 1) * bytesPerClust fs))).take g.filesize =
            read d.bytes (clusterSector d fs g.curclust * 512 + 0) g.filesize :=
          take_drop_read _ (by omega)
        simp only [drop_zero, add_zero] at htake
        rw [hbytes', take_append_of_le_length (by rw [read_length]; exact hall), htake, ← hkept.mem]
        rw [Reading.after_mem]
      | invalid =>
        refine ⟨_, loop_done (contentsRound_invalid hrun), fun hpass => ?_, fun _ => ?_⟩
        · have hbad := hs.invalid rfl
          have hgood := ((hs.linksPass_iff (fun h => by cases h)).mp hpass).1
          rw [hbad] at hgood
          cases hgood
        · rw [Reading.got_eq (by omega)]
          omega
      | jump =>
        have hmore := hs.more nofun
        obtain ⟨n', st'', hst'', hkept', hround⟩ := contentsRound_jump hv hr hrun hst' hgot hmore hc hlast
        rw [hsucc] at hmore
        have hiff := hs.linksPass_iff nofun
        rw [hsucc] at hiff
        have hmem : st''.mem = store g.store.mem g.buffer
            (read d.bytes (clusterSector d fs g.curclust * 512) ((k + 1) * bytesPerClust fs)) := by
          rw [hkept'.mem, ← hkept.mem]
          rfl
        by_cases hbad : checkClust (storedEntry fs.fatsize (fatTable d fs) (g.curclust + k)) fs.fatsize = true
        · rw [if_pos hbad] at hround
          refine ⟨_, loop_done hround, fun hpass => ?_, fun _ => ?_⟩
          · have hgood := (hiff.mp hpass).1
            rw [hbad] at hgood
            cases hgood
          · dsimp only
            omega
        · rw [if_neg hbad] at hround
          rw [Bool.not_eq_true] at hbad
          have hmany : k + 1 < (g.curclust :: cs).length :=
            Nat.lt_of_mul_lt_mul_right (lt_of_lt_of_le hmore hlong)
          have hc' := List.getElem?_eq_getElem hmany
          have hnext : storedEntry fs.fatsize (fatTable d fs) (g.curclust + k) = (g.curclust :: cs)[k + 1] := by
            rw [← fatEntry_of_passes hbad]
            exact hchain.next (hs.at (le_refl k)) hc'
          rw [hnext] at hround
          have hrest : ((g.curclust :: cs).drop (k + 1)).length * bytesPerClust fs =
              (g.curclust :: cs).length * bytesPerClust fs - (k + 1) * bytesPerClust fs := by
            rw [length_drop, Nat.sub_mul]
          obtain ⟨r, hr', hout⟩ := ih ((g.curclust :: cs).drop (k + 1)).length
            (by rw [length_drop]; omega)
            (g := ⟨st'', (g.curclust :: cs)[k + 1], g.filesize - (k + 1) * bytesPerClust fs,
              g.gotsize + (k + 1) * bytesPerClust fs, g.buffer + (k + 1) * bytesPerClust fs⟩)
            hst'' (hchain.drop (k + 1) _ hc') (by rw [hrest]; dsimp only; omega) (by dsimp only; omega)
            (by dsimp only; omega) rfl
          refine ⟨r, Comp.loop_again hround hr', fun hpass => ?_, fun hnot => ?_⟩
          · obtain ⟨hvalue, hcopied⟩ := hout.passed (hiff.mp hpass).2
            refine ⟨hvalue.trans (congrArg Nat.cast ?_), ?_⟩
            · dsimp only
              omega
            · have hfront := read_length d.bytes (clusterSector d fs g.curclust * 512) ((k + 1) * bytesPerClust fs)
              have hstored := store_append g.store.mem g.buffer
                (read d.bytes (clusterSector d fs g.curclust * 512) ((k + 1) * bytesPerClust fs))
                ((((g.curclust :: cs).drop (k + 1)).flatMap (clusterBytes d fs)).take
                  (g.filesize - (k + 1) * bytesPerClust fs))
              rw [hfront, ← hmem] at hstored
              have hfirst := take_of_length_le (hfront.trans_le hmore.le)
              rw [hcopied, ← hstored, hbytes', take_append, hfront, hfirst]
          · have hless := hout.stopped fun hpass => hnot (hiff.mpr ⟨hbad, hpass⟩)
            dsimp only at hless
            omega

theorem contents_nothing (hv : Volume d fs count) (hr : Readable d fs count)
    (hnone : g.filesize = 0) (hgot : g.gotsize < 2147483648) :
    ∃ r, (Comp.loop (contentsRound d fs) g).Returns r ∧ r.1 = g.gotsize ∧ r.2.mem = g.store.mem := by
  have hrun : (Comp.loop (fun s => Comp.pure (consecutiveRound d fs g.filesize s))
      (g.store, g.curclust, bytesPerClust fs)).Returns
        ((g.store, g.curclust + 0, bytesPerClust fs + 0 * bytesPerClust fs), .all) := by
    refine loop_done (returns_pure_iff.mpr ?_)
    unfold consecutiveRound
    rw [if_neg (by rw [hnone]; exact Nat.not_lt_zero _), add_zero, zero_mul, add_zero]
  obtain ⟨n, hround⟩ := contentsRound_all hv hr hrun (by omega) (by omega) (by omega) (.inl hnone)
  refine ⟨_, loop_done hround, ?_, ?_⟩
  · rw [hnone, add_zero]
  · rw [hnone]
    exact funext fun x => store_outside (by rw [read_length]; omega)

theorem contentsRound_value {r : Int × Store} (h : (contentsRound d fs g).Returns (.inr r)) :
    r.1 = -1 ∨ ∃ g' : Reading, r.1 = g'.got := by
  obtain ⟨⟨s, how⟩, -, h⟩ := returns_bind.mp h
  cases how with
  | invalid =>
    rw [Sum.inr.inj (returns_pure_iff.mp h)]
    dsimp only
    exact .inr ⟨_, rfl⟩
  | all =>
    dsimp only at h
    split at h
    · rw [Sum.inr.inj (returns_pure_iff.mp h)]
      exact .inl rfl
    · split at h
      · rw [Sum.inr.inj (returns_pure_iff.mp h)]
        exact .inl rfl
      · rw [Sum.inr.inj (returns_pure_iff.mp h)]
        dsimp only
        exact .inr ⟨_, rfl⟩
  | jump =>
    dsimp only at h
    split at h
    · rw [Sum.inr.inj (returns_pure_iff.mp h)]
      exact .inl rfl
    · split at h
      · rw [Sum.inr.inj (returns_pure_iff.mp h)]
        dsimp only
        exact .inr ⟨_, rfl⟩
      · cases returns_pure_iff.mp h

theorem getContents_lt {e : DirEntry} {buffer maxsize : Nat} {r : Int × Store}
    (h : (getContents d fs st e buffer maxsize).Returns r) : r.1 < 2147483648 := by
  refine Comp.loop_returns (fun _ => True) (Q := fun r : Int × Store => r.1 < 2147483648)
    (fun _ _ _ _ => trivial) ?_ trivial h
  intro g r _ hround
  rcases contentsRound_value hround with hvalue | ⟨g', hvalue⟩
  · omega
  · unfold Reading.got at hvalue
    rw [Int.bmod_def] at hvalue
    omega

/-- A file whose chain is long enough is read exactly if its size, cut to the limit, is below 2 GiB and
`CHECK_CLUST` passes the entries that lead to the clusters that are needed. -/
theorem get_contents_iff (hv : Volume d fs count) (hr : Readable d fs count) (hst : Cached d fs st)
    {e : DirEntry} (buffer maxsize : Nat) (hchain : FileChain d fs count (startCluster fs e) cs)
    (hlong : e.size ≤ cs.length * bytesPerClust fs) :
    ReadsFile d fs st e buffer maxsize cs ↔
      readSize e maxsize < 2147483648 ∧ LinksPass d fs (readSize e maxsize) cs := by
  have hsize : readSize e maxsize ≤ cs.length * bytesPerClust fs := by
    unfold readSize
    split <;> omega
  have hcontents : getContents d fs st e buffer maxsize =
      Comp.loop (contentsRound d fs) ⟨st, startCluster fs e, readSize e maxsize, 0, buffer⟩ := rfl
  unfold ReadsFile
  rw [hcontents]
  constructor
  · rintro ⟨st', hret, -⟩
    have hlt : readSize e maxsize < 2147483648 := by
      have hvalue := getContents_lt hret
      omega
    refine ⟨hlt, ?_⟩
    by_contra hnot
    have hsome : 0 < readSize e maxsize := by
      by_contra hzero
      exact hnot fun j c _ hj => absurd hj (by omega)
    obtain ⟨r, hr', hout⟩ := contents_outcome hv hr
      (g := ⟨st, startCluster fs e, readSize e maxsize, 0, buffer⟩) hst hchain hsize hsome (by dsimp only; omega)
    have hless := hout.stopped hnot
    rw [← hret.unique hr'] at hless
    dsimp only at hless
    omega
  · rintro ⟨hlt, hpass⟩
    by_cases hzero : readSize e maxsize = 0
    · obtain ⟨r, hr', hvalue, hmem⟩ := contents_nothing hv hr
        (g := ⟨st, startCluster fs e, readSize e maxsize, 0, buffer⟩) hzero (by dsimp only; omega)
      refine ⟨r.2, ?_, ?_⟩
      · rw [hzero]
        rw [hzero] at hr'
        rw [← hvalue]
        exact hr'
      · rw [hzero, take_zero, hmem]
        exact funext fun x => (store_outside (by simp; omega)).symm
    · obtain ⟨r, hr', hout⟩ := contents_outcome hv hr
        (g := ⟨st, startCluster fs e, readSize e maxsize, 0, buffer⟩) hst hchain hsize (by dsimp only; omega)
        (by dsimp only; omega)
      obtain ⟨hvalue, hmem⟩ := hout.passed hpass
      rw [zero_add] at hvalue
      refine ⟨r.2, ?_, hmem⟩
      rw [← hvalue]
      exact hr'

/-- A volume of FAT32 with two clusters, the first leading to the second by an entry with these reserved
bits. -/
def linkedDisk (reserved : UInt8) : Disk where
  size := 16
  bytes x := if x = 520 then 3 else if x = 523 then reserved else if x < 524 then 0 else 0xff
  ok _ s c := c == 0 || s + c ≤ 16
  spoilt _ _ b := b
  partOffset := 0
  size_lt := sixteen_sectors_lt
  beyond := @sixteen_sectors_beyond

def linkedFsdata : Fsdata := ⟨32, 6, 1, 7, 1, 5⟩

theorem linkedDisk_volume (reserved : UInt8) : Volume (linkedDisk reserved) linkedFsdata 2 where
  width := .inr (.inr rfl)
  fits := by change 0 + 1 + 6 ≤ 16; omega
  clusters := by decide
  data := by decide
  onDisk := by change 0 + 7 + 2 * 1 ≤ 16; omega
  entries := by unfold InTable; decide
  numbers := by decide

theorem linkedDisk_readable (reserved : UInt8) : Readable (linkedDisk reserved) linkedFsdata 2 where
  table n b hb := by
    change b * 6 < 6 at hb
    change (6 == 0 || decide (0 + 1 + b * 6 + 6 ≤ 16)) = true
    simp only [Bool.or_eq_true, decide_eq_true_eq]
    right
    omega
  data n s k _ hk := by
    change s + k ≤ 0 + 7 + 2 * 1 at hk
    change (k == 0 || decide (s + k ≤ 16)) = true
    simp only [Bool.or_eq_true, decide_eq_true_eq]
    right
    omega
  nothing n s := rfl

theorem linkedDisk_chain (reserved : UInt8)
    (h : fatEntry 32 (fatTable (linkedDisk reserved) linkedFsdata) 2 = 3) :
    FileChain (linkedDisk reserved) linkedFsdata 2 2 [2, 3] where
  clusters c hc := by
    rcases mem_cons.mp hc with rfl | hc
    · exact ⟨by omega, by omega⟩
    · rw [mem_singleton.mp hc]
      exact ⟨by omega, by omega⟩
  links := isChain_cons_cons.mpr ⟨h, isChain_singleton _⟩
  start c hc := (Option.some.inj hc).symm

theorem two_clusters_read : ReadsFile (linkedDisk 0) linkedFsdata powerOn ⟨32, 0, 2, 700⟩ 0 0 [2, 3] := by
  refine (get_contents_iff (e := ⟨32, 0, 2, 700⟩) (linkedDisk_volume 0) (linkedDisk_readable 0) (cached_of_none rfl)
    0 0 (linkedDisk_chain 0 (by decide)) (by decide)).mpr ⟨by decide, fun j c hc hj => ?_⟩
  have hj' : (j + 1) * 512 < 700 := hj
  obtain rfl : j = 0 := by omega
  rw [← Option.some.inj hc]
  decide

/-- With reserved bits set in the entry the reading stops behind the first cluster. -/
theorem reserved_bits_cut_off :
    ¬∀ (d : Disk) (fs : Fsdata) (count : Nat) (st : Store) (e : DirEntry) (buffer maxsize : Nat) (cs : List Nat),
      Volume d fs count → Readable d fs count → Cached d fs st →
      FileChain d fs count (startCluster fs e) cs → e.size ≤ cs.length * bytesPerClust fs →
      ReadsFile d fs st e buffer maxsize cs := by
  intro h
  obtain ⟨st', hret, -⟩ := h (linkedDisk 16) linkedFsdata 2 powerOn ⟨32, 0, 2, 700⟩ 0 0 [2, 3]
    (linkedDisk_volume 16) (linkedDisk_readable 16) (cached_of_none rfl) (linkedDisk_chain 16 (by decide)) (by decide)
  obtain ⟨r, hr, hout⟩ := contents_outcome (g := ⟨powerOn, 2, 700, 0, 0⟩) (linkedDisk_volume 16)
    (linkedDisk_readable 16) (cached_of_none rfl) (linkedDisk_chain 16 (by decide)) (by decide) (by decide) (by decide)
  have hless := hout.stopped fun hpass => absurd (hpass 0 2 rfl (by decide)) (by decide)
  rw [← hret.unique hr] at hless
  have hsame : (700 : Int) < 700 := hless
  omega

end UBoot.Fat
