import UBoot.Fat
import UBoot.Loops

namespace UBoot.Fat

open FlashCells Words Loops

def longNameStart (b : Flash) (o : Nat) : Bool :=
  entryAttr b o &&& 0x0f ≠ 0 && (b o).toNat &&& 0x40 ≠ 0

/-- What the search in one block comes to. -/
inductive Scan where
  | found (e : DirEntry)
  | stop (ret : Int)
  | exhausted
deriving DecidableEq

/-- The entries of one block in the root search, with `k` of the 16 left. -/
def rootScan (d : Disk) (fs : Fsdata) (filename : Text) (lsRoot isdir : Bool) :
    Nat → Store → Option (Store × Scan)
  | 0, st => some (st, .exhausted)
  | k + 1, st =>
    let i := 16 - (k + 1)
    let compare (st : Store) (name : Text) : Option (Store × Scan) :=
      if filename ≠ getName st.rootBlock (32 * i) ∧ filename ≠ name then
        rootScan d fs filename lsRoot isdir k st
      else if isdir ∧ ¬isDirectory (entryAttr st.rootBlock (32 * i)) then some (st, .stop (-1))
      else some (st, .found (dirEntry st.rootBlock (32 * i)))
    if isVolume (entryAttr st.rootBlock (32 * i)) then
      if longNameStart st.rootBlock (32 * i) then do
        let v ← getVfatname d fs st 0 st.rootBlock i
        let st := { v.store with rootBlock := v.block }
        if lsRoot then rootScan d fs filename lsRoot isdir k st else compare st v.name
      else rootScan d fs filename lsRoot isdir k st
    else if st.rootBlock (32 * i) = 0 then some (st, .stop (if lsRoot then 0 else -1))
    else if lsRoot then rootScan d fs filename lsRoot isdir k st
    else compare st []

/-- One block of the root search. -/
def rootRound (d : Disk) (fs : Fsdata) (filename : Text) (lsRoot isdir : Bool) (s : Store × Nat) :
    Option (Store × Nat ⊕ Store × Scan) :=
  if fs.clustSize * 512 > 65536 then none
  else
    let r := diskRead d s.1.reads s.2 fs.clustSize s.1.rootBlock 0
    let st := { s.1 with reads := s.1.reads + 1, rootBlock := r.2 }
    if r.1 = false then some (.inr (st, .stop (-1)))
    else
      (rootScan d fs filename lsRoot isdir 16 st).map fun
        | (st, .exhausted) => .inl (st, (s.2 + 1) % 4294967296)
        | (st, scan) => .inr (st, scan)

/-- The entries of one cluster of a directory, with `k` of `n` left. -/
def dirScan (d : Disk) (fs : Fsdata) (curclust : Nat) (filename : Text) (dols : Bool) (n : Nat) :
    Nat → Store → Option (Store × Scan)
  | 0, st => some (st, .exhausted)
  | k + 1, st =>
    let i := n - (k + 1)
    let compare (st : Store) (name : Text) : Option (Store × Scan) :=
      if st.dirBlock (32 * i) = 0 then some (st, .stop 0)
      else if dols then dirScan d fs curclust filename dols n k st
      else if filename ≠ getName st.dirBlock (32 * i) ∧ filename ≠ name then
        dirScan d fs curclust filename dols n k st
      else some (st, .found (dirEntry st.dirBlock (32 * i)))
    if st.dirBlock (32 * i) = 0xe5 then dirScan d fs curclust filename dols n k st
    else if isVolume (entryAttr st.dirBlock (32 * i)) then
      if longNameStart st.dirBlock (32 * i) then do
        let v ← getVfatname d fs st curclust st.dirBlock i
        let st := { v.store with dirBlock := v.block }
        if dols then dirScan d fs curclust filename dols n k st else compare st v.name
      else dirScan d fs curclust filename dols n k st
    else compare st []

/-- One cluster in `get_dentfromdir`; the result is the entry, or `none` for NULL. -/
def dirRound (d : Disk) (fs : Fsdata) (filename : Text) (dols : Bool) (s : Store × Nat) :
    Option (Store × Nat ⊕ Store × Option DirEntry) :=
  if fs.clustSize * 512 > 65536 then none
  else
    let c := getCluster d fs s.1.reads s.2 s.1.dirBlock 0 (fs.clustSize * 512)
    let st := { s.1 with reads := c.2.1, dirBlock := c.2.2 }
    if c.1 = false then some (.inr (st, none))
    else
      (dirScan d fs s.2 filename dols (fs.clustSize * 16) (fs.clustSize * 16) st).map fun
        | (st, .found e) => .inr (st, some e)
        | (st, .stop _) => .inr (st, none)
        | (st, .exhausted) =>
          let next := getFatent d fs st s.2
          if checkClust next.1 fs.fatsize then .inr (next.2, none) else .inl (next.2, next.1)

/-- `get_dentfromdir` for the directory that starts at `curclust`. -/
def getDentfromdir (d : Disk) (fs : Fsdata) (st : Store) (curclust : Nat) (filename : Text) (dols : Bool) :
    Comp (Option (Store × Option DirEntry)) :=
  Comp.loop (fun s => Comp.round (dirRound d fs filename dols s)) (st, curclust)

def isDelim (c : UInt8) : Bool := c == 47 || c == 92

/-- `dirdelim`, with the name in front of the delimiter and, past all of them, what follows. -/
def splitDelim (s : Text) : Option (Text × Text) :=
  if s.any isDelim then
    some (s.takeWhile fun c => !isDelim c, (s.dropWhile fun c => !isDelim c).dropWhile isDelim)
  else none

/-- The state of the walk along the path. -/
structure Walk where
  store : Store
  entry : DirEntry
  subname : Text
  firsttime : Bool

/-- One directory of the path: what it is searched for, and with which flags. -/
structure Stage where
  name : Text
  rest : Option Text
  isdir : Bool
  firsttime : Bool

def pathStage (dols : Bool) (w : Walk) : Stage :=
  match splitDelim w.subname with
  | some (name, rest) => ⟨name, some rest, true, w.firsttime && !(dols && rest == [])⟩
  | none => ⟨w.subname, none, dols && w.firsttime, false⟩

def pathRound (d : Disk) (fs : Fsdata) (dols : Bool) (w : Walk) :
    Comp (Walk ⊕ Option (Store × (Int ⊕ DirEntry))) :=
  let g := pathStage dols w
  (getDentfromdir d fs w.store (startCluster fs w.entry) g.name (!g.isdir && dols)).bind fun
    | none => Comp.pure (.inr none)
    | some (st, none) => Comp.pure (.inr (some (st, .inl (if dols && !g.isdir then 0 else -1))))
    | some (st, some e) =>
      if g.rest ≠ none ∧ ¬isDirectory e.attr then Comp.pure (.inr (some (st, .inl (-1))))
      else if g.isdir then Comp.pure (.inl ⟨st, e, g.rest.getD w.subname, g.firsttime⟩)
      else Comp.pure (.inr (some (st, .inr e)))

/-- Where `get_contents` stands. -/
structure Reading where
  store : Store
  curclust : Nat
  filesize : Nat
  gotsize : Nat
  buffer : Nat

/-- How the search for consecutive clusters ends. -/
inductive Reach where
  | all
  | jump
  | invalid

def bytesPerClust (fs : Fsdata) : Nat := fs.clustSize * 512

def consecutiveRound (d : Disk) (fs : Fsdata) (filesize : Nat) (s : Store × Nat × Nat) :
    Store × Nat × Nat ⊕ (Store × Nat × Nat) × Reach :=
  if s.2.2 < filesize then
    let new := getFatent d fs s.1 s.2.1
    if (new.1 + 4294967295) % 4294967296 ≠ s.2.1 then .inr ((new.2, s.2.1, s.2.2), .jump)
    else if checkClust new.1 fs.fatsize then .inr ((new.2, s.2.1, s.2.2), .invalid)
    else .inl (new.2, new.1, (s.2.2 + bytesPerClust fs) % 4294967296)
  else .inr (s, .all)

/-- A difference of `unsigned long`. -/
def minus (a b : Nat) : Nat := (a + 4294967296 - b) % 4294967296

/-- `get_cluster` at the end of what has been read, with the variables moved on. -/
def takeCluster (d : Disk) (fs : Fsdata) (g : Reading) (clustnum actsize : Nat) : Bool × Reading :=
  let c := getCluster d fs g.store.reads clustnum g.store.mem g.buffer actsize
  (c.1,
    { store := { g.store with reads := c.2.1, mem := c.2.2 }
      curclust := g.curclust
      filesize := minus g.filesize actsize
      gotsize := (g.gotsize + actsize) % 4294967296
      buffer := g.buffer + actsize })

/-- `gotsize` as a `long`. -/
def Reading.got (g : Reading) : Int := (g.gotsize : Int).bmod 4294967296

/-- One round of the outer loop of `get_contents`. -/
def contentsRound (d : Disk) (fs : Fsdata) (g : Reading) : Comp (Reading ⊕ Int × Store) :=
  (Comp.loop (fun s => Comp.pure (consecutiveRound d fs g.filesize s))
    (g.store, g.curclust, bytesPerClust fs)).bind fun r =>
    let g := { g with store := r.1.1 }
    let endclust := r.1.2.1
    let actsize := r.1.2.2
    match r.2 with
    | .invalid => Comp.pure (.inr (g.got, g.store))
    | .all =>
      let t := takeCluster d fs g g.curclust (minus actsize (bytesPerClust fs))
      if t.1 = false then Comp.pure (.inr (-1, t.2.store))
      else
        let u := takeCluster d fs t.2 endclust t.2.filesize
        if u.1 = false then Comp.pure (.inr (-1, u.2.store))
        else Comp.pure (.inr (u.2.got, u.2.store))
    | .jump =>
      let t := takeCluster d fs g g.curclust actsize
      if t.1 = false then Comp.pure (.inr (-1, t.2.store))
      else
        let next := getFatent d fs t.2.store endclust
        if checkClust next.1 fs.fatsize then Comp.pure (.inr (t.2.got, next.2))
        else Comp.pure (.inl { t.2 with store := next.2, curclust := next.1 })

def getContents (d : Disk) (fs : Fsdata) (st : Store) (e : DirEntry) (buffer maxsize : Nat) :
    Comp (Int × Store) :=
  let filesize := if 0 < maxsize ∧ maxsize < e.size then maxsize else e.size
  Comp.loop (contentsRound d fs) ⟨st, startCluster fs e, filesize, 0, buffer⟩

/-- `read_bootsectandvi` and the constants that `do_fat_read` derives from it, from the first sector. -/
def bootFsdata (block : Flash) : Option Fsdata :=
  let fatLength := le16 block 22
  let clustSize := (block 13).toNat
  let sign := read block (if fatLength = 0 then 82 else 54) 8
  let fatsize :=
    if fatLength = 0 then if sign = [70, 65, 84, 51, 50, 32, 32, 32] then 32 else 0
    else if sign = [70, 65, 84, 49, 50, 32, 32, 32] then 12
    else if sign = [70, 65, 84, 49, 54, 32, 32, 32] then 16 else 0
  let fatlength := if fatLength = 0 then le32 block 36 % 65536 else fatLength
  let rootdirSect := (le16 block 14 + fatlength * (block 16).toNat) % 65536
  let rootdirSize := if fatLength = 0 then 0 else le16 block 17 * 32 / 512
  if fatsize = 0 then none
  else
    some ⟨fatsize, fatlength, le16 block 14, rootdirSect, clustSize,
      ((rootdirSect + rootdirSize : Nat) - (clustSize * 2 : Nat) : Int).bmod 65536⟩

/-- The search in the root directory, from its first sector on. -/
def rootSearch (d : Disk) (fs : Fsdata) (filename : Text) (lsRoot isdir : Bool) (st : Store) :
    Comp (Option (Store × Scan)) :=
  Comp.loop (fun s => Comp.round (rootRound d fs filename lsRoot isdir s)) (st, fs.rootdirSect)

def followPath (d : Disk) (fs : Fsdata) (dols : Bool) (w : Walk) :
    Comp (Option (Store × (Int ⊕ DirEntry))) :=
  Comp.loop (pathRound d fs dols) w

/-- What `do_fat_read` looks for: the name in the root directory, the rest of the path, and `isdir`. -/
structure Path where
  name : Text
  rest : Text
  isdir : Bool
deriving DecidableEq

def parsePath (filename : Text) (dols : Bool) : Path :=
  let fnamecopy := downcase (filename.dropWhile isDelim)
  match splitDelim fnamecopy with
  | some (name, rest) => ⟨name, rest, true⟩
  | none => ⟨fnamecopy, [], dols && fnamecopy != []⟩

/-- `do_fat_read` behind the boot sector; `lsRoot` for the path of the root itself. -/
def readPath (d : Disk) (fs : Fsdata) (st : Store) (path : Path) (buffer maxsize : Nat)
    (dols lsRoot : Bool) : Comp (Option (Int × Store)) :=
  (rootSearch d fs path.name lsRoot path.isdir st).andThen fun
    | (st, .found e) =>
      if path.isdir then
        (followPath d fs dols ⟨st, e, path.rest, true⟩).andThen fun
          | (st, .inl ret) => Comp.pure (some (ret, st))
          | (st, .inr e) => (getContents d fs st e buffer maxsize).bind fun r => Comp.pure (some r)
      else (getContents d fs st e buffer maxsize).bind fun r => Comp.pure (some r)
    | (st, .stop ret) => Comp.pure (some (ret, st))
    | (st, .exhausted) => Comp.pure (some (-1, st))

/-- `do_fat_read`, with what the static arrays, the stack and memory hold before; `buffer` is where the
file goes. The result is the return value and the store. -/
def doFatRead (d : Disk) (st : Store) (filename : Text) (buffer maxsize : Nat) (dols : Bool) :
    Comp (Option (Int × Store)) :=
  let r := diskRead d st.reads 0 1 (fun _ => 0) 0
  let st := { st with reads := st.reads + 1, fatbufnum := none }
  if r.1 = false then Comp.pure (some (-1, st))
  else
    match bootFsdata r.2 with
    | none => Comp.pure (some (-1, st))
    | some fs =>
      let lsRoot := (filename.dropWhile isDelim).isEmpty
      if 2048 ≤ (filename.dropWhile isDelim).length then Comp.pure none
      else if lsRoot && !dols then Comp.pure (some (-1, st))
      else readPath d fs st (parsePath filename dols) buffer maxsize dols lsRoot

def Disk.Quiet (d : Disk) : Prop := ∀ n i b, d.spoilt n i b = b

def window (d : Disk) (fs : Fsdata) (junk : Flash) (bufnum : Nat) : Flash :=
  let start := ((bufnum * 6 + fs.fatSect) % 4294967296 + d.partOffset) % 4294967296
  patch junk 0 (fatGetsize fs * 512) fun x => d.bytes (start * 512 + (x - 0))

def tableEntry (d : Disk) (fs : Fsdata) (junk : Flash) (c : Nat) : Nat :=
  bufEntry fs.fatsize (window d fs junk (c / fatBufSize fs.fatsize))
    (c - c / fatBufSize fs.fatsize * fatBufSize fs.fatsize)

/-- Following the table leads from a cluster to an entry that is not a cluster, in at most `n` steps
after the first. -/
def EndsIn (d : Disk) (fs : Fsdata) (junk : Flash) (n c : Nat) : Prop :=
  ∃ k, k ≤ n ∧ checkClust ((tableEntry d fs junk)^[k + 1] c) fs.fatsize = true

def ChainEnds (d : Disk) (fs : Fsdata) (junk : Flash) (c : Nat) : Prop :=
  ∃ n, EndsIn d fs junk n c

/-- The buffer holds what it held at first, or the part of the table that it should. -/
def Coherent (d : Disk) (fs : Fsdata) (junk : Flash) (st : Store) : Prop :=
  st.fatbufnum = none ∧ st.fatbuf = junk ∨ ∃ n, st.fatbufnum = some n ∧ st.fatbuf = window d fs junk n

variable {d : Disk} {fs : Fsdata} {junk : Flash} {st st' : Store}

theorem EndsIn.step {n c : Nat} (h : EndsIn d fs junk n c)
    (hgo : checkClust (tableEntry d fs junk c) fs.fatsize ≠ true) :
    ∃ m, m < n ∧ EndsIn d fs junk m (tableEntry d fs junk c) := by
  obtain ⟨k, hk, hend⟩ := h
  cases k with
  | zero => exact absurd hend hgo
  | succ k => exact ⟨k, by omega, k, le_refl k, hend⟩

theorem EndsIn.mono {m n c : Nat} (h : EndsIn d fs junk m c) (hm : m ≤ n) : EndsIn d fs junk n c := by
  obtain ⟨k, hk, hend⟩ := h
  exact ⟨k, hk.trans hm, hend⟩

theorem Coherent.congr (h : Coherent d fs junk st) (hb : st'.fatbuf = st.fatbuf)
    (hn : st'.fatbufnum = st.fatbufnum) : Coherent d fs junk st' := by
  unfold Coherent
  rw [hb, hn]
  exact h

theorem patch_self (m : Flash) (a n : Nat) : patch m a n m = m := by
  funext x
  simp only [patch]
  split
  · rfl
  · rfl

theorem diskRead_failed (hq : d.Quiet) {n s c a : Nat} {buf : Flash}
    (h : (diskRead d n s c buf a).1 = false) : (diskRead d n s c buf a).2 = buf := by
  unfold diskRead at h ⊢
  dsimp only at h ⊢
  split at h
  · cases h
  next hok =>
    rw [if_neg hok]
    rw [funext fun x => hq n (x - a) (buf x)]
    exact patch_self buf a (c * 512)

theorem patch_patch (m f g : Flash) (a n : Nat) : patch (patch m a n f) a n g = patch m a n g := by
  funext x
  by_cases hx : a ≤ x ∧ x < a + n
  · rw [patch_inside hx.1 hx.2, patch_inside hx.1 hx.2]
  · rw [patch_outside (by omega), patch_outside (by omega), patch_outside (by omega)]

theorem Coherent.patch (h : Coherent d fs junk st) (g : Flash) :
    FlashCells.patch st.fatbuf 0 (fatGetsize fs * 512) g =
      FlashCells.patch junk 0 (fatGetsize fs * 512) g := by
  rcases h with ⟨-, hb⟩ | ⟨n, -, hb⟩
  · rw [hb]
  · rw [hb]
    exact patch_patch _ _ _ _ _

theorem getFatent_spec (hq : d.Quiet) (h : Coherent d fs junk st) (c : Nat) :
    ((getFatent d fs st c).1 = 0 ∨ (getFatent d fs st c).1 = tableEntry d fs junk c) ∧
      Coherent d fs junk (getFatent d fs st c).2 := by
  unfold getFatent
  split
  · exact ⟨.inl rfl, h⟩
  · dsimp only
    split
    next hother =>
      split
      next hok =>
        have hbuf : (diskRead d st.reads
            ((c / fatBufSize fs.fatsize * 6 + fs.fatSect) % 4294967296) (fatGetsize fs) st.fatbuf 0).2 =
            window d fs junk (c / fatBufSize fs.fatsize) := by
          unfold diskRead at hok ⊢
          dsimp only at hok ⊢
          split at hok
          next hread =>
            rw [if_pos hread]
            exact h.patch _
          · cases hok
        rw [hbuf]
        exact ⟨.inr rfl, .inr ⟨_, rfl, rfl⟩⟩
      next hbad =>
        exact ⟨.inl rfl, h.congr (diskRead_failed hq (Bool.eq_false_iff.mpr hbad)) rfl⟩
    next hsame =>
      rw [not_not] at hsame
      rcases h with ⟨hn, -⟩ | ⟨n, hn, hb⟩
      · rw [hn] at hsame
        cases hsame
      · rw [hn] at hsame
        cases hsame
        refine ⟨.inr ?_, .inr ⟨_, hn, hb⟩⟩
        rw [hb]
        rfl

theorem checkClust_zero (fatsize : Nat) : checkClust 0 fatsize = true := rfl

theorem getFatent_chain (hq : d.Quiet) (h : Coherent d fs junk st) {c : Nat}
    (hgo : checkClust (getFatent d fs st c).1 fs.fatsize ≠ true) :
    (getFatent d fs st c).1 = tableEntry d fs junk c := by
  refine (getFatent_spec hq h c).1.resolve_left fun hzero => hgo ?_
  rw [hzero]
  exact checkClust_zero fs.fatsize

theorem finishName_store {block real : Flash} {r i j : Nat} {name : Text} {v : VfatName}
    (h : finishName st block real r i j name = some v) : v.store = st := by
  unfold finishName at h
  obtain ⟨n, -, h⟩ := Option.bind_eq_some_iff.mp h
  split at h
  · cases h
  · cases h
    rfl

theorem getVfatname_coherent (hq : d.Quiet) (h : Coherent d fs junk st) {c r : Nat} {block : Flash}
    {v : VfatName} (hv : getVfatname d fs st c block r = some v) : Coherent d fs junk v.store := by
  have hnext := (getFatent_spec hq h c).2
  unfold getVfatname at hv
  dsimp only at hv
  split at hv
  · cases hv; exact h
  next i _ =>
    split at hv
    · rw [finishName_store hv]
      exact h
    · split at hv
      · cases hv; exact hnext
      · split at hv
        · cases hv
        · split at hv
          · cases hv; exact hnext.congr rfl rfl
          · obtain ⟨j, -, hv⟩ := Option.bind_eq_some_iff.mp hv
            split at hv
            · cases hv
            · obtain ⟨name, -, hv⟩ := Option.bind_eq_some_iff.mp hv
              rw [finishName_store hv]
              exact hnext.congr rfl rfl

end UBoot.Fat
