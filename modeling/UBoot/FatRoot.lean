import UBoot.FatSubdirectory

namespace UBoot.Fat

open FlashCells List Loops Words

/-- The sectors of the root directory: with a FAT of 32 bits those of the clusters of its chain, else those from
its start up to the first cluster. -/
structure RootDirectory (d : Disk) (fs : Fsdata) (count rootCluster : Nat) (sects : List Nat) : Prop where
  fixed : fs.fatsize ≠ 32 → d.partOffset + fs.rootdirSect ≤ dataStart d fs ∧
    sects = List.range' (d.partOffset + fs.rootdirSect) (dataStart d fs - (d.partOffset + fs.rootdirSect))
  chained : fs.fatsize = 32 → dataStart d fs = d.partOffset + fs.rootdirSect ∧
    ∃ cs, Subdirectory d fs count rootCluster cs ∧
      sects = cs.flatMap fun c => List.range' (clusterSector d fs c) fs.clustSize

def rootEntries (d : Disk) (sects : List Nat) : Flash := fun x =>
  d.bytes (sects.getD (x / 512) 0 * 512 + x % 512)

/-- The sector from which on the search reads its `j`-th block. -/
def rootSectorAt (d : Disk) (fs : Fsdata) (j : Nat) : Nat := (fs.rootdirSect + j + d.partOffset) % 4294967296

/-- The sectors whose entries the search goes through, one after the other. -/
inductive WalksRoot (d : Disk) (fs : Fsdata) (filename : Text) : Store × Nat → List Nat → Store × Scan → Prop
  | failed {s r} : d.ok s.1.reads (rootSector d s) fs.clustSize = false →
      rootRound d fs filename false false s = some (.inr r) → WalksRoot d fs filename s [] r
  | done {s r} : d.ok s.1.reads (rootSector d s) fs.clustSize = true →
      rootRound d fs filename false false s = some (.inr r) → WalksRoot d fs filename s [rootSector d s] r
  | next {s s' l r} : rootRound d fs filename false false s = some (.inl s') →
      WalksRoot d fs filename s' l r → WalksRoot d fs filename s (rootSector d s :: l) r

def Scan.entry : Scan → Option DirEntry
  | .found e => some e
  | _ => none

/-- The sectors of a directory behind one of them that follow it on the disk, too. -/
def Adjoining (sects : List Nat) (q t : Nat) : Prop := ∀ u, u < t → sects[q + u]? = sects[q]?.map (· + u)

/-- Up to the end mark or the name, what looks like the end mark has no attribute of a volume, and what is
taken for a long name is one inside the block that begins with its sector, or none at all. -/
def TidyRoot (d : Disk) (fs : Fsdata) (filename : Text) (sects : List Nat) : Prop :=
  ∀ q r, q < sects.length → r < 16 → Missed (rootEntries d sects) filename 0 (q * 16 + r) →
    (rootEntries d sects (32 * (q * 16 + r)) = 0 →
      isVolume (entryAttr (rootEntries d sects) (32 * (q * 16 + r))) = false) ∧
    (Flagged (rootEntries d sects) (q * 16 + r) → ∃ t, t ≤ fs.clustSize ∧ Adjoining sects q t ∧
      TidySlot (rootEntries d sects) filename (q * 16 + t * 16) (q * 16 + r))

/-- The search goes through the sectors of the directory in order, up to the one with the end mark or with the
name, or the set of slots that belongs to it, or through all of them, and finds the name exactly if the
directory has it. -/
def SearchesRoot (d : Disk) (fs : Fsdata) (st : Store) (filename : Text) (sects : List Nat) : Prop :=
  ∃ l st' scan, WalksRoot d fs filename (st, fs.rootdirSect) l (st', scan) ∧
    (∃ k, k ≤ sects.length ∧ l = sects.take k ∧ Missed (rootEntries d sects) filename 0 ((k - 1) * 16) ∧
      (k = sects.length ∨ ¬Missed (rootEntries d sects) filename 0 (k * 16))) ∧
    FindsName (rootEntries d sects) (sects.length * 16) filename scan.entry

/-- The blocks that begin with the sectors of the directory up to the end mark or the name can be read, and with a
FAT of 32 bits these sectors are the ones from its start on; or so it is with all of its sectors, and then nothing
more can be read. -/
def InReach (d : Disk) (fs : Fsdata) (st : Store) (filename : Text) (sects : List Nat) : Prop :=
  ∃ k, k ≤ sects.length ∧ (∀ j, j < k → d.ok (st.reads + j) (rootSectorAt d fs j) fs.clustSize = true) ∧
    (fs.fatsize = 32 → ∀ j, j < k → sects[j]? = some (rootSectorAt d fs j)) ∧
    (¬Missed (rootEntries d sects) filename 0 (k * 16) ∨
      k = sects.length ∧ d.ok (st.reads + k) (rootSectorAt d fs k) fs.clustSize = false)

variable {d : Disk} {fs : Fsdata} {count rootCluster : Nat} {st : Store} {filename : Text} {sects : List Nat}
  {s : Store × Nat} {l : List Nat} {found : Store × Scan}
variable {q : Nat}

theorem rootScan_scanned {b : Flash} {o n k : Nat} {P : Nat → Prop} (hne : filename ≠ [])
    (hP : ∀ m, P m → m ≤ fs.clustSize * 16 ∧ o + m ≤ n) (hsector : P 16)
    (htidy : ∀ r, r < 16 → Missed b filename 0 (o + r) →
      (b (32 * (o + r)) = 0 → isVolume (entryAttr b (32 * (o + r))) = false) ∧
      (Flagged b (o + r) → ∃ m, P m ∧ r < m ∧ TidySlot b filename (o + m) (o + r)))
    (hk : k ≤ 16) (hmirror : ∀ m, P m → Mirrors b st.rootBlock o (16 - k) m)
    (hmiss : Missed b filename 0 (o + (16 - k))) :
    ∃ block s, rootScan d fs filename false false k st = some ({ st with rootBlock := block }, s) ∧
      Scanned b filename n (o + 16) s := by
  induction k generalizing st with
  | zero => exact ⟨st.rootBlock, .exhausted, rfl, hmiss⟩
  | succ k ih =>
    obtain ⟨r, hr⟩ : ∃ r, 16 - (k + 1) = r := ⟨_, rfl⟩
    have hnext : 16 - k = r + 1 := by omega
    have hlt : r < 16 := by omega
    rw [hr] at hmirror hmiss
    rw [hnext] at ih
    obtain ⟨hend, hslot⟩ := htidy r hlt hmiss
    have hfirst := (hmirror 16 hsector).first hlt
    have hattr := (hmirror 16 hsector).attr hlt
    have hlong : longNameStart st.rootBlock (32 * r) = longNameStart b (32 * (o + r)) := by
      unfold longNameStart
      rw [hattr, hfirst]
    unfold rootScan
    simp only [hr, hfirst, hattr, hlong, Bool.false_eq_true, if_false, false_and]
    refine entry_scanned (j := o + 16) (w := fun block => { st with rootBlock := block })
      (g := fun block => rootScan d fs filename false false k { st with rootBlock := block })
      hne hmiss (by omega) (fun block hblock hlive hno => ?_) hend (fun hflag => ?_) (hmirror 16 hsector) hlt
      (hP 16 hsector).2
    · refine ih (by omega) (fun m hm x hx hxm => ?_) (hmiss.trans (Missed.single hlive hno))
      exact (hblock x hx).trans (hmirror m hm x (by omega) hxm)
    · obtain ⟨m, hm, hrm, htidy⟩ := hslot hflag
      obtain ⟨v, hv, hstore, hcompared⟩ : ∃ v, getVfatname d fs st 0 st.rootBlock r = some v ∧ v.store = st ∧
          Compared b st.rootBlock filename o r m v.block v.name :=
        htidy.compared hflag hne (hmirror m hm) hrm (hP m hm).1
      refine ⟨m, v.block, v.name, (hP m hm).2, hcompared, ?_⟩
      simp only [hv, Option.bind_eq_bind, Option.bind_some, hstore]

theorem adjoining_one (sects : List Nat) (q : Nat) : Adjoining sects q 1 := by
  intro u hu
  obtain rfl : u = 0 := by omega
  cases sects[q]? <;> rfl

theorem Adjoining.within {t : Nat} (h : Adjoining sects q t) (hq : q < sects.length) : q + t ≤ sects.length := by
  cases t with
  | zero => omega
  | succ t =>
    have hlast := h t (Nat.lt_succ_self t)
    rw [List.getElem?_eq_getElem hq, Option.map_some] at hlast
    have hlt := (List.getElem?_eq_some_iff.mp hlast).1
    omega

theorem TidySlot.lt {b : Flash} {z i : Nat} (h : TidySlot b filename z i) : i < z := by
  rcases h with ⟨k, name, -, hin, -⟩ | ⟨hdown, -⟩
  · omega
  · by_contra hge
    exact hdown fun j _ hj => absurd hj (by omega)

theorem rootEntries_mirrored {t sector n : Nat} (hq : sects[q]? = some sector) (h : Adjoining sects q t) (hn : t ≤ n)
    (buf : Flash) : Mirrors (rootEntries d sects)
      (patch buf 0 (n * 512) fun x => d.bytes (sector * 512 + (x - 0))) (q * 16) 0 (t * 16) := by
  intro x _ hx
  have hsector := h (x / 512) (by omega)
  rw [hq, Option.map_some] at hsector
  unfold rootEntries
  rw [patch_inside (Nat.zero_le x) (by omega), show (32 * (q * 16) + x) / 512 = q + x / 512 by omega,
    show (32 * (q * 16) + x) % 512 = x % 512 by omega, getD_eq_getElem?_getD, hsector, Option.getD_some]
  exact congrArg d.bytes (by omega)

theorem rootRound_failed (filename : Text) (hv : Volume d fs count) (hok : d.ok s.1.reads (rootSector d s) fs.clustSize = false) :
    ∃ st', rootRound d fs filename false false s = some (.inr (st', .stop (-1))) := by
  have hclusters := hv.clusters
  have hread : (diskRead d s.1.reads s.2 fs.clustSize s.1.rootBlock 0).1 = false := by
    unfold diskRead
    rw [if_neg]
    unfold rootSector at hok
    rw [hok]
    exact Bool.noConfusion
  unfold rootRound
  rw [if_neg (by omega)]
  rw [if_pos hread]
  exact ⟨_, rfl⟩

theorem rootRound_read (filename : Text) (hv : Volume d fs count) (hq : sects[q]? = some (rootSector d s))
    (hok : d.ok s.1.reads (rootSector d s) fs.clustSize = true) : ∃ st', st'.reads = s.1.reads + 1 ∧
      (∀ t, t ≤ fs.clustSize → Adjoining sects q t →
        Mirrors (rootEntries d sects) st'.rootBlock (q * 16) 0 (t * 16)) ∧
      rootRound d fs filename false false s = (rootScan d fs filename false false 16 st').map fun
        | (st, .exhausted) => .inl (st, (s.2 + 1) % 4294967296)
        | (st, scan) => .inr (st, scan) := by
  have hclusters := hv.clusters
  have hread : diskRead d s.1.reads s.2 fs.clustSize s.1.rootBlock 0 = (true,
      patch s.1.rootBlock 0 (fs.clustSize * 512) fun x => d.bytes (rootSector d s * 512 + (x - 0))) := by
    unfold rootSector at hok
    unfold diskRead
    rw [if_pos hok]
    rfl
  refine ⟨{ s.1 with
    reads := s.1.reads + 1
    rootBlock := patch s.1.rootBlock 0 (fs.clustSize * 512) fun x => d.bytes (rootSector d s * 512 + (x - 0)) },
    rfl, fun t ht hadj => rootEntries_mirrored hq hadj ht s.1.rootBlock, ?_⟩
  unfold rootRound
  rw [if_neg (by omega)]
  rw [hread]
  exact if_neg Bool.noConfusion

theorem rootRound_scanned (hv : Volume d fs count) (hne : filename ≠ []) (htidy : TidyRoot d fs filename sects)
    (hq : sects[q]? = some (rootSector d s)) (hok : d.ok s.1.reads (rootSector d s) fs.clustSize = true)
    (hmiss : Missed (rootEntries d sects) filename 0 (q * 16)) : ∃ st', st'.reads = s.1.reads + 1 ∧
      (Missed (rootEntries d sects) filename 0 ((q + 1) * 16) ∧
          rootRound d fs filename false false s = some (.inl (st', (s.2 + 1) % 4294967296)) ∨
        ¬Missed (rootEntries d sects) filename 0 ((q + 1) * 16) ∧
          ∃ scan, rootRound d fs filename false false s = some (.inr (st', scan)) ∧
            FindsName (rootEntries d sects) (sects.length * 16) filename scan.entry) := by
  have hclusters := hv.clusters
  have hlt := (List.getElem?_eq_some_iff.mp hq).1
  obtain ⟨st', hreads, hmirror, hround⟩ := rootRound_read filename hv hq hok
  obtain ⟨block, scan, hscan, hscanned⟩ : ∃ block scan, rootScan d fs filename false false 16 st' =
      some ({ st' with rootBlock := block }, scan) ∧
      Scanned (rootEntries d sects) filename (sects.length * 16) (q * 16 + 16) scan := by
    refine rootScan_scanned (P := fun m => ∃ t, m = t * 16 ∧ t ≤ fs.clustSize ∧ Adjoining sects q t) hne ?_
      ⟨1, rfl, hclusters.1, adjoining_one sects q⟩ ?_ (le_refl 16) ?_ hmiss
    · rintro m ⟨t, rfl, ht, hadj⟩
      have hwithin := hadj.within hlt
      omega
    · intro r hr hmiss
      obtain ⟨hend, hslot⟩ := htidy q r hlt hr hmiss
      refine ⟨hend, fun hflag => ?_⟩
      obtain ⟨t, ht, hadj, htidy⟩ := hslot hflag
      exact ⟨t * 16, ⟨t, rfl, ht, hadj⟩, by have := htidy.lt; omega, htidy⟩
    · rintro m ⟨t, rfl, ht, hadj⟩
      exact hmirror t ht hadj
  rw [hscan, Option.map_some] at hround
  rw [← Nat.succ_mul] at hscanned
  have hreads' : ({ st' with rootBlock := block } : Store).reads = s.1.reads + 1 := hreads
  cases scan with
  | found e => exact ⟨_, hreads', .inr ⟨hscanned.1, .found e, hround, hscanned.2⟩⟩
  | stop ret =>
    obtain ⟨i, hi, hclear, hend⟩ := hscanned
    refine ⟨_, hreads', .inr ⟨fun h => (h i (Nat.zero_le i) hi).1 hend, .stop ret, hround, ?_⟩⟩
    exact hclear.contains_of_end hend
  | exhausted => exact ⟨_, hreads', .inl ⟨hscanned, hround⟩⟩

/-- Where the search stands when it has gone through `q` sectors. -/
structure AtSector (d : Disk) (fs : Fsdata) (st : Store) (q : Nat) (s : Store × Nat) : Prop where
  reads : s.1.reads = st.reads + q
  sector : rootSector d s = rootSectorAt d fs q

theorem atSector_start : AtSector d fs st 0 (st, fs.rootdirSect) := ⟨rfl, rfl⟩

theorem AtSector.next (h : AtSector d fs st q s) {st' : Store} (hreads : st'.reads = s.1.reads + 1) :
    AtSector d fs st (q + 1) (st', (s.2 + 1) % 4294967296) := by
  refine ⟨by rw [hreads, h.reads, add_assoc], ?_⟩
  have hsector := h.sector
  unfold rootSector rootSectorAt at hsector ⊢
  omega

theorem AtSector.ok (h : AtSector d fs st q s) :
    d.ok s.1.reads (rootSector d s) fs.clustSize = d.ok (st.reads + q) (rootSectorAt d fs q) fs.clustSize := by
  rw [h.reads, h.sector]

theorem InReach.walks (hv : Volume d fs count) (hne : filename ≠ []) (htidy : TidyRoot d fs filename sects) {k : Nat}
    (hk : k ≤ sects.length) (hok : ∀ j, j < k → d.ok (st.reads + j) (rootSectorAt d fs j) fs.clustSize = true)
    (hsects : ∀ j, j < k → sects[j]? = some (rootSectorAt d fs j))
    (hstop : ¬Missed (rootEntries d sects) filename 0 (k * 16) ∨
    k = sects.length ∧ d.ok (st.reads + k) (rootSectorAt d fs k) fs.clustSize = false)
    {m : Nat} (hq : q + m = k) (hat : AtSector d fs st q s)
    (hmiss : Missed (rootEntries d sects) filename 0 (q * 16)) :
    ∃ l st' scan, WalksRoot d fs filename s l (st', scan) ∧
      (∃ k, q ≤ k ∧ k ≤ sects.length ∧ l = (sects.take k).drop q ∧
        Missed (rootEntries d sects) filename 0 ((k - 1) * 16) ∧
        (k = sects.length ∨ ¬Missed (rootEntries d sects) filename 0 (k * 16))) ∧
      FindsName (rootEntries d sects) (sects.length * 16) filename scan.entry := by
  induction m generalizing q s with
  | zero =>
    obtain rfl : q = k := hq
    obtain ⟨hall, hfail⟩ := hstop.resolve_left fun h => h hmiss
    rw [← hat.ok] at hfail
    obtain ⟨st', hround⟩ := rootRound_failed filename hv hfail
    refine ⟨[], st', _, .failed hfail hround, ⟨q, le_refl q, hk, ?_, ?_, .inl hall⟩, ?_⟩
    · rw [drop_eq_nil_of_le]
      rw [length_take]
      omega
    · intro u hu hlt
      exact hmiss u hu (by omega)
    · rw [← hall]
      exact hmiss.clear.contains
  | succ m ih =>
    have hsect := hsects q (by omega)
    have hread := hok q (by omega)
    rw [← hat.ok] at hread
    rw [← hat.sector] at hsect
    obtain ⟨st', hreads, ⟨hmissed, hround⟩ | ⟨hseen, scan, hround, hfinds⟩⟩ :=
      rootRound_scanned hv hne htidy hsect hread hmiss
    · obtain ⟨l, st'', scan, hwalk, ⟨k', hqk, hk', hl, hrest⟩, hfinds⟩ := ih (by omega) (hat.next hreads) hmissed
      refine ⟨rootSector d s :: l, st'', scan, .next hround hwalk, ⟨k', by omega, hk', ?_, hrest⟩, hfinds⟩
      rw [drop_take_cons hsect (by omega), hl]
    · refine ⟨[rootSector d s], st', scan, .done hread hround, ⟨q + 1, by omega, by omega, ?_, ?_, .inr hseen⟩, hfinds⟩
      · rw [drop_take_cons hsect (by omega), drop_eq_nil_of_le]
        rw [length_take]
        omega
      · exact hmiss

theorem WalksRoot.reach (h : WalksRoot d fs filename s l found) (hv : Volume d fs count) (hne : filename ≠ [])
    (htidy : TidyRoot d fs filename sects) {k : Nat} (hat : AtSector d fs st q s) (hqk : q ≤ k)
    (hk : k ≤ sects.length) (hmiss : Missed (rootEntries d sects) filename 0 (q * 16))
    (hl : l = (sects.take k).drop q)
    (hend : k = sects.length ∨ ¬Missed (rootEntries d sects) filename 0 (k * 16)) :
    (∀ j, q ≤ j → j < k → sects[j]? = some (rootSectorAt d fs j) ∧
      d.ok (st.reads + j) (rootSectorAt d fs j) fs.clustSize = true) ∧
    (¬Missed (rootEntries d sects) filename 0 (k * 16) ∨
      k = sects.length ∧ d.ok (st.reads + k) (rootSectorAt d fs k) fs.clustSize = false) := by
  induction h generalizing q with
  | @failed s r hfail hround =>
    have hlen := congrArg List.length hl
    rw [length_nil, length_drop, length_take] at hlen
    obtain rfl : q = k := by omega
    rw [hat.ok] at hfail
    exact ⟨fun j hj hlt => absurd hj (by omega), .inr ⟨hend.resolve_right fun h => h hmiss, hfail⟩⟩
  | @done s r hread hround =>
    have hlen := congrArg List.length hl
    rw [length_singleton, length_drop, length_take] at hlen
    obtain rfl : k = q + 1 := by omega
    have hsect := getElem?_of_drop_take hl
    refine ⟨fun j hj hlt => ?_, .inl fun hmissed => ?_⟩
    · obtain rfl : j = q := by omega
      rw [← hat.ok, ← hat.sector]
      exact ⟨hsect, hread⟩
    · obtain ⟨st', -, ⟨-, hround'⟩ | ⟨hseen, -⟩⟩ := rootRound_scanned hv hne htidy hsect hread hmiss
      · cases hround.symm.trans hround'
      · exact hseen hmissed
  | @next s s' l r hround hwalk ih =>
    have hlen := congrArg List.length hl
    rw [length_cons, length_drop, length_take] at hlen
    have hsect := getElem?_of_drop_take hl
    have hread : d.ok s.1.reads (rootSector d s) fs.clustSize = true := by
      rw [← Bool.not_eq_false]
      intro hfail
      obtain ⟨st', hround'⟩ := rootRound_failed filename hv hfail
      cases hround.symm.trans hround'
    obtain ⟨st', hreads, ⟨hmissed, hround'⟩ | ⟨-, scan, hround', -⟩⟩ :=
      rootRound_scanned hv hne htidy hsect hread hmiss
    · obtain rfl : s' = (st', (s.2 + 1) % 4294967296) :=
        Sum.inl.inj (Option.some.inj (hround.symm.trans hround'))
      rw [drop_take_cons hsect (by omega), List.cons.injEq] at hl
      obtain ⟨hall, hstop⟩ := ih (hat.next hreads) (by omega) hmissed hl.2
      refine ⟨fun j hj hlt => ?_, hstop⟩
      rcases eq_or_lt_of_le hj with rfl | hgt
      · rw [← hat.ok, ← hat.sector]
        exact ⟨hsect, hread⟩
      · exact hall j hgt hlt
    · cases hround.symm.trans hround'

theorem RootDirectory.sectors (h : RootDirectory d fs count rootCluster sects) (hv : Volume d fs count)
    (hfixed : fs.fatsize ≠ 32) {j : Nat} (hj : j < sects.length) : sects[j]? = some (rootSectorAt d fs j) := by
  obtain ⟨hstart, rfl⟩ := h.fixed hfixed
  have honDisk := hv.onDisk
  have hsize := d.size_lt
  rw [length_range'] at hj
  rw [List.getElem?_range' hj, one_mul]
  unfold rootSectorAt
  rw [Nat.mod_eq_of_lt (by omega)]
  exact congrArg some (by omega)

theorem SearchesRoot.inReach (h : SearchesRoot d fs st filename sects) (hv : Volume d fs count) (hne : filename ≠ [])
    (htidy : TidyRoot d fs filename sects) : InReach d fs st filename sects := by
  obtain ⟨l, st', scan, hwalk, ⟨k, hk, hl, -, hend⟩, -⟩ := h
  obtain ⟨hall, hstop⟩ := hwalk.reach hv hne htidy (q := 0) (k := k) atSector_start (Nat.zero_le k) hk
    (fun m _ hm => absurd hm (by omega)) hl hend
  exact ⟨k, hk, fun j hj => (hall j (Nat.zero_le j) hj).2, fun _ j hj => (hall j (Nat.zero_le j) hj).1, hstop⟩

/-- In a tidy root directory the search goes through its sectors exactly if these are the ones from its start on up
to the end mark or the name, and can be read, or nothing can be read behind the last one of them. -/
theorem root_search_iff (d : Disk) (fs : Fsdata) (count rootCluster : Nat) (st : Store) (filename : Text)
    (sects : List Nat) (hv : Volume d fs count) (hroot : RootDirectory d fs count rootCluster sects)
    (hne : filename ≠ []) (htidy : TidyRoot d fs filename sects) :
    SearchesRoot d fs st filename sects ↔ InReach d fs st filename sects := by
  constructor
  · intro h
    exact h.inReach hv hne htidy
  · rintro ⟨k, hk, hok, hsects, hstop⟩
    have hall : ∀ j, j < k → sects[j]? = some (rootSectorAt d fs j) := by
      intro j hj
      by_cases hwidth : fs.fatsize = 32
      · exact hsects hwidth j hj
      · exact hroot.sectors hv hwidth (by omega)
    obtain ⟨l, st', scan, hwalk, ⟨k', -, hk', hl, hrest⟩, hfinds⟩ :=
      InReach.walks hv hne htidy hk hok hall hstop (zero_add k) atSector_start fun m _ hm => absurd hm (by omega)
    exact ⟨l, st', scan, hwalk, ⟨k', hk', hl, hrest⟩, hfinds⟩

def oneSectorFsdata (rootdirSect : Nat) : Fsdata := ⟨16, 1, 1, rootdirSect, 1, (rootdirSect : Int) - 1⟩

theorem oneSector_start (rootdirSect : Nat) :
    dataStart fullDisk (oneSectorFsdata rootdirSect) = rootdirSect + 1 := by
  change 0 + (((rootdirSect : Int) - 1) + 2 * ((1 : Nat) : Int)).toNat = rootdirSect + 1
  omega

theorem oneSector_volume {rootdirSect : Nat} (h : rootdirSect ≤ 14) :
    Volume fullDisk (oneSectorFsdata rootdirSect) 1 where
  width := .inr (.inl rfl)
  fits := show 0 + 1 + 1 ≤ 16 by decide
  clusters := show 0 < 1 ∧ 1 ≤ 128 by decide
  data := by
    change 0 ≤ ((rootdirSect : Int) - 1) + 2 * ((1 : Nat) : Int)
    omega
  onDisk := by
    rw [oneSector_start]
    change rootdirSect + 1 + 1 * 1 ≤ 16
    omega
  entries := show entryEnd 16 2 ≤ 1 * 512 by decide
  numbers := show 2 < badCluster 16 by decide

theorem oneSector_directory (rootdirSect : Nat) :
    RootDirectory fullDisk (oneSectorFsdata rootdirSect) 1 0 [rootdirSect] where
  fixed _ := by
    rw [oneSector_start]
    change 0 + rootdirSect ≤ rootdirSect + 1 ∧ [rootdirSect] = List.range' (0 + rootdirSect) (rootdirSect + 1 - (0 + rootdirSect))
    rw [zero_add, Nat.add_sub_cancel_left]
    exact ⟨Nat.le_succ _, rfl⟩
  chained h := absurd (show 16 = 32 from h) (by decide)

/-- A root directory of two sectors with the files `a` to `t`. -/
def lettersDisk : Disk :=
  { fullDisk with
    bytes := fun x =>
      if 1024 ≤ x ∧ x < 1664 then
        if x % 32 = 0 then 65 + UInt8.ofNat ((x - 1024) / 32) else 32
      else 0 }

def lettersFsdata : Fsdata := ⟨16, 1, 1, 2, 1, 2⟩

theorem letters_volume : Volume lettersDisk lettersFsdata 1 where
  width := .inr (.inl rfl)
  fits := show 0 + 1 + 1 ≤ 16 by decide
  clusters := show 0 < 1 ∧ 1 ≤ 128 by decide
  data := show (0 : Int) ≤ 2 + 2 * 1 by decide
  onDisk := show 4 + 1 * 1 ≤ 16 by decide
  entries := show entryEnd 16 2 ≤ 1 * 512 by decide
  numbers := show 2 < badCluster 16 by decide

theorem letters_directory : RootDirectory lettersDisk lettersFsdata 1 0 [2, 3] where
  fixed _ := show 0 + 2 ≤ 4 ∧ [2, 3] = List.range' (0 + 2) (4 - (0 + 2)) by decide
  chained h := absurd (show 16 = 32 from h) (by decide)

theorem letters_contain_r : Contains (rootEntries lettersDisk [2, 3]) 32 [114] 17 :=
  ⟨by decide, by decide, ⟨by decide, by decide⟩, .inl (by decide)⟩

/-- `r` is found in the second sector, behind seventeen other files. -/
theorem letters_root_searched : ∃ l st' e,
    WalksRoot lettersDisk lettersFsdata [114] (powerOn, 2) l (st', .found e) ∧ l <+: [2, 3] ∧
      ∃ i, Contains (rootEntries lettersDisk [2, 3]) 32 [114] i ∧
        e = dirEntry (rootEntries lettersDisk [2, 3]) (32 * i) := by
  have hfile : ∀ i, i < 32 → isVolume (entryAttr (rootEntries lettersDisk [2, 3]) (32 * i)) = false := by decide
  have hseen : ¬Missed (rootEntries lettersDisk [2, 3]) [114] 0 32 := fun h =>
    (h 17 (by decide) (by decide)).2 _ (.inl ⟨⟨by decide, by decide⟩, by decide, rfl⟩)
  obtain ⟨l, st', scan, hwalk, ⟨k, -, hl, -⟩, hfinds⟩ := (root_search_iff lettersDisk lettersFsdata 1 0 powerOn [114]
    [2, 3] letters_volume letters_directory (cons_ne_nil _ _) fun q r hq hr _ => by
      have hi : q * 16 + r < 32 := by
        have : q < 2 := hq
        omega
      refine ⟨fun _ => hfile _ hi, fun hflag => ?_⟩
      have hvolume := hflag.1
      rw [hfile _ hi] at hvolume
      cases hvolume).mpr ⟨2, le_refl 2, by decide, fun h => absurd (show 16 = 32 from h) (by decide), .inl hseen⟩
  have hprefix : l <+: [2, 3] := hl ▸ take_prefix k _
  cases scan with
  | found e => exact ⟨l, st', e, hwalk, hprefix, hfinds⟩
  | stop ret => exact absurd letters_contain_r (hfinds 17)
  | exhausted => exact absurd letters_contain_r (hfinds 17)

theorem fullDisk_root_missed : Missed (rootEntries fullDisk [3]) [120] 0 16 := by
  have hdeleted : ∀ m, m < 16 → rootEntries fullDisk [3] (32 * m) = 0xe5 := by decide
  intro m _ hm
  refine ⟨by rw [hdeleted m hm]; decide, fun e hhit => ?_⟩
  rcases hhit with ⟨hfile, -⟩ | ⟨k, name, hset, -⟩
  · exact hfile.1 (hdeleted m hm)
  · exact hset.flagged.2 (hdeleted m hm)

/-- Behind a root directory that is full the search goes on with the first cluster. -/
theorem end_of_root_passed :
    ¬∀ (d : Disk) (fs : Fsdata) (count rootCluster : Nat) (st : Store) (filename : Text) (sects : List Nat),
      Volume d fs count → RootDirectory d fs count rootCluster sects → (∀ n s k, s + k ≤ d.size → d.ok n s k = true) →
      filename ≠ [] → SearchesRoot d fs st filename sects := by
  intro h
  have hread : ∀ n s k, s + k ≤ fullDisk.size → fullDisk.ok n s k = true := by
    intro n s k hk
    change (k == 0 || decide (s + k ≤ 16)) = true
    rw [Bool.or_eq_true, decide_eq_true_eq]
    exact .inr hk
  have htidy : TidyRoot fullDisk (oneSectorFsdata 3) [120] [3] := by
    intro q r hq hr hmiss
    obtain rfl : q = 0 := Nat.lt_one_iff.mp hq
    have hlive : ∀ m, m < 16 → rootEntries fullDisk [3] (32 * m) ≠ 0 ∧
        isVolume (entryAttr (rootEntries fullDisk [3]) (32 * m)) = false := by decide
    obtain ⟨hne, hfile⟩ := hlive r hr
    rw [zero_mul, zero_add]
    refine ⟨fun h => absurd h hne, fun hflag => ?_⟩
    rw [hflag.1] at hfile
    cases hfile
  have hsearch := h fullDisk (oneSectorFsdata 3) 1 0 powerOn [120] [3] (oneSector_volume (by decide))
    (oneSector_directory 3) hread (cons_ne_nil _ _)
  obtain ⟨k, hk, -, -, hseen | ⟨hall, hfail⟩⟩ :=
    hsearch.inReach (oneSector_volume (by decide)) (cons_ne_nil _ _) htidy
  · exact hseen fun m hm hlt => fullDisk_root_missed m hm (by
      have hone : k ≤ 1 := hk
      omega)
  · obtain rfl : k = 1 := hall
    exact absurd hfail (by decide)

end UBoot.Fat
