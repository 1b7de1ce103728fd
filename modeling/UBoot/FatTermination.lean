import UBoot.FatEnds

namespace UBoot.Fat

open FlashCells Words Loops

/-- The file that a path leads to. -/
inductive Leads (d : Disk) (fs : Fsdata) (st : Store) (path : Path) (dols lsRoot : Bool) : DirEntry → Prop
  | root {st' e} : path.isdir = false →
      (rootSearch d fs path.name lsRoot path.isdir st).Returns (some (st', .found e)) →
      Leads d fs st path dols lsRoot e
  | below {st' st'' e e'} : path.isdir = true →
      (rootSearch d fs path.name lsRoot path.isdir st).Returns (some (st', .found e)) →
      (followPath d fs dols ⟨st', e, path.rest, true⟩).Returns (some (st'', .inr e')) →
      Leads d fs st path dols lsRoot e'

/-- The directories that a path leads through. -/
inductive Through (d : Disk) (fs : Fsdata) (st : Store) (path : Path) (dols lsRoot : Bool) : DirEntry → Prop
  | intro {st' e v} : path.isdir = true →
      (rootSearch d fs path.name lsRoot path.isdir st).Returns (some (st', .found e)) →
      Visited d fs dols ⟨st', e, path.rest, true⟩ v → Through d fs st path dols lsRoot v.entry

def readSize (e : DirEntry) (maxsize : Nat) : Nat :=
  if 0 < maxsize ∧ maxsize < e.size then maxsize else e.size

/-- A medium on which the walks along a path end: clusters have sectors, the chains of the directories
end, and so does that of the file unless its size is away from the end of 32 bits. -/
structure Sound (d : Disk) (fs : Fsdata) (st : Store) (path : Path) (maxsize : Nat)
    (dols lsRoot : Bool) : Prop where
  clusters : fs.clustSize ≠ 0
  directories : ∀ e, Through d fs st path dols lsRoot e → ChainEnds d fs st.fatbuf (startCluster fs e)
  file : ∀ e, Leads d fs st path dols lsRoot e →
    readSize e maxsize + bytesPerClust fs ≤ 4294967296 ∨ ChainEnds d fs st.fatbuf (startCluster fs e)

variable {d : Disk} {fs : Fsdata} {st : Store} {path : Path} {buffer maxsize : Nat} {dols lsRoot : Bool}

theorem getContents_ends {st' : Store} {e : DirEntry} (hq : d.Quiet) (hc : fs.clustSize ≠ 0)
    (h : Coherent d fs st.fatbuf st')
    (hfile : readSize e maxsize + bytesPerClust fs ≤ 4294967296 ∨
      ChainEnds d fs st.fatbuf (startCluster fs e)) :
    (getContents d fs st' e buffer maxsize).Ends := by
  rcases hfile with hsize | hchain
  · refine contents_ends_size hq ?_ h hsize
    unfold bytesPerClust
    omega
  · exact contents_ends_chain hq h hchain

theorem readPath_ends (hq : d.Quiet) (hn : st.fatbufnum = none)
    (h : Sound d fs st path maxsize dols lsRoot) :
    (readPath d fs st path buffer maxsize dols lsRoot).Ends := by
  have hstart : Coherent d fs st.fatbuf st := .inl ⟨hn, rfl⟩
  refine Comp.Ends.andThen (rootSearch_ends h.clusters _ _ _) fun r hr => ?_
  obtain ⟨st', scan⟩ := r
  have hst' := rootSearch_coherent hq hstart hr
  cases scan with
  | stop ret => exact Comp.ends_pure _
  | exhausted => exact Comp.ends_pure _
  | found e =>
    dsimp only
    split
    next hdir =>
      refine Comp.Ends.andThen
        (followPath_ends hq hst' fun v hv => h.directories v.entry (.intro hdir hr hv)) fun r hw => ?_
      obtain ⟨st'', ret | e'⟩ := r
      · exact Comp.ends_pure _
      · exact Comp.Ends.bind
          (getContents_ends hq h.clusters (followPath_coherent hq hst' hw) (h.file e' (.below hdir hr hw)))
          fun _ _ => Comp.ends_pure _
    next hdir =>
      exact Comp.Ends.bind
        (getContents_ends hq h.clusters hst' (h.file e (.root (Bool.eq_false_iff.mpr hdir) hr)))
        fun _ _ => Comp.ends_pure _

def booted (st : Store) : Store := { st with reads := st.reads + 1, fatbufnum := none }

/-- `do_fat_read` returns on every medium that is sound for the path. -/
theorem do_fat_read_ends (d : Disk) (st : Store) (filename : Text) (buffer maxsize : Nat) (dols : Bool)
    (hq : d.Quiet)
    (h : ∀ fs, bootFsdata (diskRead d st.reads 0 1 (fun _ => 0) 0).2 = some fs →
      Sound d fs (booted st) (parsePath filename dols) maxsize dols
        (filename.dropWhile isDelim).isEmpty) :
    (doFatRead d st filename buffer maxsize dols).Ends := by
  unfold doFatRead
  dsimp only
  split
  · exact Comp.ends_pure _
  · split
    · exact Comp.ends_pure _
    next fs hfs =>
      split
      · exact Comp.ends_pure _
      · split
        · exact Comp.ends_pure _
        · exact readPath_ends hq rfl (h fs hfs)

/-- A small medium: `bytes` by their address, and a directory `d` in cluster 2 with deleted entries
only, whose entry in the table is the word of `lo` and `hi`. -/
def smallDisk (lo hi : UInt8) : Disk where
  size := 16
  bytes x :=
    if 1536 ≤ x ∧ x < 2048 then 0xe5
    else
      (([(13, 1), (14, 1), (16, 1), (17, 16), (22, 1), (54, 70), (55, 65), (56, 84), (57, 49), (58, 54),
        (59, 32), (60, 32), (61, 32), (516, lo), (517, hi), (1024, 68), (1025, 32), (1035, 16),
        (1050, 2)] : List (Nat × UInt8)).lookup x).getD 0
  ok _ s c := decide (s + c ≤ 16)
  spoilt _ _ b := b
  partOffset := 0
  size_lt := sixteen_sectors_lt
  beyond h := Or.inr (of_decide_eq_true h)

def powerOn : Store := ⟨0, fun _ => 0, none, fun _ => 0, fun _ => 0, fun _ => 0, fun _ => 0⟩

def smallFsdata : Fsdata := ⟨16, 1, 1, 2, 1, 1⟩

theorem smallDisk_root {lo hi : UInt8}
    (h : (((rootSearch (smallDisk lo hi) smallFsdata [100] false true (booted powerOn)).run 1).map fun r =>
      r.map Prod.snd) = some (some (.found ⟨16, 0, 2, 0⟩))) :
    ∃ st', (rootSearch (smallDisk lo hi) smallFsdata [100] false true (booted powerOn)).Returns
      (some (st', .found ⟨16, 0, 2, 0⟩)) := by
  obtain ⟨r, hr, h⟩ := Option.map_eq_some_iff.mp h
  obtain ⟨⟨st', scan⟩, rfl, h⟩ := Option.map_eq_some_iff.mp h
  cases h
  exact ⟨st', 1, hr⟩

theorem smallDisk_quiet (lo hi : UInt8) : (smallDisk lo hi).Quiet := fun _ _ _ => rfl

theorem smallDisk_visited {w v : Walk} (hw : w.subname = [120])
    (h : Visited d fs false w v) : v = w := by
  induction h with
  | first => rfl
  | @next v v' _ hr ih =>
    subst ih
    have hdir := pathRound_isdir hr
    unfold pathStage at hdir
    rw [hw, show splitDelim [120] = none by decide] at hdir
    cases hdir

theorem smallDisk_missing {st' : Store} {x : Store × (Int ⊕ DirEntry)}
    (hroot : (rootSearch (smallDisk 0xff 0xff) smallFsdata [100] false true (booted powerOn)).Returns
      (some (st', .found ⟨16, 0, 2, 0⟩)))
    (h : (followPath (smallDisk 0xff 0xff) smallFsdata false ⟨st', ⟨16, 0, 2, 0⟩, [120], true⟩).Returns
      (some x)) : x.2 = .inl (-1) := by
  have hrun : (((rootSearch (smallDisk 0xff 0xff) smallFsdata [100] false true (booted powerOn)).andThen
      fun p => followPath (smallDisk 0xff 0xff) smallFsdata false
        ⟨p.1, ⟨16, 0, 2, 0⟩, [120], true⟩).run 2).map (fun r => r.map Prod.snd) =
      some (some (.inl (-1))) := by decide
  obtain ⟨r, hr, heq⟩ := Option.map_eq_some_iff.mp hrun
  obtain ⟨y, rfl, heq⟩ := Option.map_eq_some_iff.mp heq
  obtain ⟨a, ha, hy⟩ := Comp.returns_bind.mp ⟨2, hr⟩
  cases ha.unique hroot
  cases hy.unique h
  exact Option.some.inj heq

theorem do_fat_read_ends_small : (doFatRead (smallDisk 0xff 0xff) powerOn [100, 47, 120] 0 0 false).Ends := by
  refine do_fat_read_ends (smallDisk 0xff 0xff) powerOn [100, 47, 120] 0 0 false (smallDisk_quiet _ _) ?_
  intro fs hfs
  have hboot : bootFsdata (diskRead (smallDisk 0xff 0xff) 0 0 1 (fun _ => 0) 0).2 = some smallFsdata := by
    decide
  cases hboot.symm.trans hfs
  rw [show parsePath [100, 47, 120] false = ⟨[100], [120], true⟩ by decide]
  obtain ⟨st', hroot⟩ := @smallDisk_root 0xff 0xff (by decide)
  have hchain : ChainEnds (smallDisk 0xff 0xff) smallFsdata (booted powerOn).fatbuf 2 :=
    ⟨0, 0, le_refl 0, by decide⟩
  refine ⟨by decide, ?_, ?_⟩
  · intro e he
    obtain ⟨-, hr, hv⟩ := he
    cases hr.unique hroot
    rw [smallDisk_visited rfl hv]
    exact hchain
  · intro e he
    rcases he with ⟨hdir, -⟩ | ⟨-, hr, hw⟩
    · cases hdir
    · cases hr.unique hroot
      have hmissing := smallDisk_missing hroot hw
      cases hmissing

theorem dirScan_deleted {c n k : Nat} {filename : Text}
    (h : ∀ i, i < n → st.dirBlock (32 * i) = 0xe5) (hk : k ≤ n) :
    dirScan d fs c filename dols n k st = some (st, .exhausted) := by
  induction k with
  | zero => rfl
  | succ k ih =>
    unfold dirScan
    rw [if_pos (h (n - (k + 1)) (by omega))]
    exact ih (by omega)

theorem smallDisk_next {lo hi : UInt8}
    (h : Coherent (smallDisk lo hi) smallFsdata (fun _ => 0) st) :
    (getFatent (smallDisk lo hi) smallFsdata st 2).1 =
      tableEntry (smallDisk lo hi) smallFsdata (fun _ => 0) 2 := by
  by_cases hsame : st.fatbufnum = some 0
  · have hcached : (getFatent (smallDisk lo hi) smallFsdata st 2).1 = bufEntry 16 st.fatbuf 2 := by
      unfold getFatent
      rw [hsame]
      rfl
    rcases h with ⟨hn, -⟩ | ⟨n, hn, hb⟩
    · rw [hn] at hsame
      cases hsame
    · rw [hn] at hsame
      cases hsame
      rw [hcached, hb]
      rfl
  · have hread : (getFatent (smallDisk lo hi) smallFsdata st 2).1 =
        bufEntry 16 (patch st.fatbuf 0 (fatGetsize smallFsdata * 512)
          fun x => (smallDisk lo hi).bytes (1 * 512 + (x - 0))) 2 := by
      have hsize : fatGetsize smallFsdata = 6 := by decide
      have hdisk : ∀ n buf, diskRead (smallDisk lo hi) n 1 6 buf 0 =
          (true, patch buf 0 (6 * 512) fun x => (smallDisk lo hi).bytes (1 * 512 + (x - 0))) := by
        intro n buf
        have hok : (smallDisk lo hi).ok n ((1 + (smallDisk lo hi).partOffset) % 4294967296) 6 = true := rfl
        unfold diskRead
        rw [if_pos hok]
        rfl
      unfold getFatent
      rw [if_neg (by decide)]
      rw [if_pos (fun heq => hsame heq.symm), hsize,
        show (2 / fatBufSize smallFsdata.fatsize * 6 + smallFsdata.fatSect) % 4294967296 = 1 by decide,
        hdisk]
      rfl
    rw [hread, h.patch]
    rfl

theorem smallDisk_cyclic (h : Coherent (smallDisk 2 0) smallFsdata (fun _ => 0) st) :
    ∃ st', dirRound (smallDisk 2 0) smallFsdata [120] false (st, 2) = some (.inl (st', 2)) ∧
      Coherent (smallDisk 2 0) smallFsdata (fun _ => 0) st' := by
  have hdeleted : ∀ i, i < 16 → patch st.dirBlock 0 512
      (fun x => (smallDisk 2 0).bytes (3 * 512 + (x - 0))) (32 * i) = 0xe5 := by
    intro i hi
    rw [patch_inside (by omega) (by omega)]
    change (if 1536 ≤ 3 * 512 + (32 * i - 0) ∧ 3 * 512 + (32 * i - 0) < 2048 then _ else _) = _
    rw [if_pos (by omega)]
  have hentry : tableEntry (smallDisk 2 0) smallFsdata (fun _ => 0) 2 = 2 := by decide
  have hblock : Coherent (smallDisk 2 0) smallFsdata (fun _ => 0) { st with
      reads := st.reads + 1
      dirBlock := patch st.dirBlock 0 512 fun x => (smallDisk 2 0).bytes (3 * 512 + (x - 0)) } :=
    h.congr rfl rfl
  have hnext := smallDisk_next hblock
  rw [hentry] at hnext
  refine ⟨_, ?_, (getFatent_spec (smallDisk_quiet 2 0) hblock 2).2⟩
  have hcluster : getCluster (smallDisk 2 0) smallFsdata st.reads 2 st.dirBlock 0 (1 * 512) =
      (true, st.reads + 1, patch st.dirBlock 0 512 fun x => (smallDisk 2 0).bytes (3 * 512 + (x - 0))) := rfl
  unfold dirRound
  rw [if_neg (by decide)]
  rw [show smallFsdata.clustSize = 1 from rfl, hcluster, if_neg (by simp)]
  rw [dirScan_deleted hdeleted (le_refl 16), Option.map_some]
  dsimp only
  rw [hnext, if_neg (by decide)]

/-- With cluster 2 as its own successor the directory `d` never comes to an end. -/
theorem cyclic_directory_never_ends :
    ∃ (d : Disk) (st : Store) (filename : Text) (buffer maxsize : Nat) (dols : Bool),
      d.Quiet ∧ ¬(doFatRead d st filename buffer maxsize dols).Ends := by
  refine ⟨smallDisk 2 0, powerOn, [100, 47, 120], 0, 0, false, smallDisk_quiet _ _, fun h => ?_⟩
  have hboot : bootFsdata (diskRead (smallDisk 2 0) 0 0 1 (fun _ => 0) 0).2 = some smallFsdata := by
    decide
  obtain ⟨st', hroot⟩ := @smallDisk_root 2 0 (by decide)
  have hstart : Coherent (smallDisk 2 0) smallFsdata (fun _ => 0) (booted powerOn) := .inl ⟨rfl, rfl⟩
  have hst' := rootSearch_coherent (smallDisk_quiet _ _) hstart hroot
  have hpath : parsePath [100, 47, 120] false = ⟨[100], [120], true⟩ := by decide
  have hread : doFatRead (smallDisk 2 0) powerOn [100, 47, 120] 0 0 false =
      readPath (smallDisk 2 0) smallFsdata (booted powerOn) ⟨[100], [120], true⟩ 0 0 false false := by
    unfold doFatRead
    rw [← hpath]
    rw [if_neg (by decide)]
    split
    next hnone => cases hboot.symm.trans hnone
    next fs hfs =>
      cases hboot.symm.trans hfs
      have hname : ([100, 47, 120] : Text).dropWhile isDelim = [100, 47, 120] := by decide
      rw [hname, if_neg (by simp), if_neg (by simp)]
      rfl
  rw [hread] at h
  have hfollow := (Comp.Ends.right h hroot).left
  have hsearch := hfollow.round.left
  refine Comp.loop_for_ever
    (fun s => s.2 = 2 ∧ Coherent (smallDisk 2 0) smallFsdata (fun _ => 0) s.1) ?_ ⟨rfl, hst'⟩ hsearch
  rintro ⟨st, c⟩ ⟨rfl, hst⟩
  obtain ⟨st'', hround, hst''⟩ := smallDisk_cyclic hst
  exact ⟨(st'', 2), Comp.returns_round_again.mpr hround, rfl, hst''⟩

end UBoot.Fat
