import UBoot.Jffs2Lists

namespace UBoot.Jffs2

open FlashCells

structure Found where
  inode : Nat
  version : Nat
  readbuf : Flash

/-- One round of the loop of `jffs2_1pass_find_inode`; `name` is the text before the final 0. -/
def findStep (f : Flash) (name : List UInt8) (pino : Nat) (s : Found) (b : BNode) : Found :=
  let readbuf := getNodeMem f b.offset s.readbuf
  let jDir := rawDirent readbuf 0
  if pino = jDir.pino ∧ name.length = jDir.nsize ∧ jDir.ino ≠ 0 ∧
      read readbuf rawDirentSize name.length = name ∧ ¬jDir.version < s.version then
    ⟨jDir.ino, jDir.version, readbuf⟩
  else { s with readbuf := readbuf }

def findInode (f : Flash) (dir : List BNode) (name : List UInt8) (pino : Nat) (readbuf : Flash) : Nat :=
  (dir.foldl (findStep f name pino) ⟨0, 0, readbuf⟩).inode

/-- A directory entry as the scan finds it, with what `strncmp` gives for it and each entry in the
list while it is inserted. -/
structure Scanned where
  node : BNode
  names : BNode → Int

def insertDirent (sort : Bool) (f : Flash) (l : BList) (e : Scanned) : BList :=
  insertNode (if sort then some (compareDirents f e.names) else none) l e.node

/-- The entries in the order in which the scan of the flash inserted them, with and without
`CONFIG_SYS_JFFS2_SORT_FRAGMENTS`. -/
def dirList (sort : Bool) (f : Flash) (scanned : List Scanned) : BList :=
  scanned.foldl (insertDirent sort f) BList.empty

def direntVersion (f : Flash) (b : BNode) : Nat := (rawDirent f b.offset).version

def direntIno (f : Flash) (b : BNode) : Nat := (rawDirent f b.offset).ino

def named (f : Flash) (name : List UInt8) (pino : Nat) (b : BNode) : Bool :=
  (rawDirent f b.offset).pino = pino ∧ (rawDirent f b.offset).nsize = name.length ∧
    read f (b.offset + rawDirentSize) name.length = name

def alive (f : Flash) (name : List UInt8) (pino : Nat) (b : BNode) : Bool :=
  named f name pino b && decide (direntIno f b ≠ 0)

def newestNamed (f : Flash) (name : List UInt8) (pino : Nat) (nodes : List BNode) : Option BNode :=
  KeyOrder.newest (direntVersion f) (named f name pino) nodes

variable {f : Flash} {name : List UInt8} {pino : Nat} {nodes : List BNode}

theorem dirList_perm (sort : Bool) (f : Flash) (scanned : List Scanned) :
    (dirList sort f scanned).nodes.Perm (scanned.map Scanned.node) := by
  induction scanned using List.reverseRecOn with
  | nil => exact List.Perm.refl _
  | append_singleton scanned e ih =>
    have hstep : dirList sort f (scanned ++ [e]) = insertDirent sort f (dirList sort f scanned) e := by
      unfold dirList
      rw [List.foldl_append]
      rfl
    rw [hstep, List.map_append]
    exact (insertNode_perm _ _ _).trans ((ih.cons e.node).trans
      (List.perm_append_singleton e.node _).symm)

/-- What the search keeps of the newest live entry it has seen. -/
def Found.Of (f : Flash) (s : Found) (newest : Option BNode) : Prop :=
  s.inode = newest.elim 0 (direntIno f) ∧ s.version = newest.elim 0 (direntVersion f)

theorem findStep_of {s : Found} {newest : Option BNode} (h : s.Of f newest) {b : BNode}
    (hw : RawDirent.Whole f b.offset) :
    (findStep f name pino s b).Of f
      (KeyOrder.keep (direntVersion f) (alive f name pino) newest b) := by
  have hlater : newest.all (fun n => direntVersion f n ≤ direntVersion f b) = true ↔
      ¬(rawDirent f b.offset).version < s.version := by
    rw [h.2]
    cases newest with
    | none => simp
    | some n => exact decide_eq_true_iff.trans not_lt.symm
  have hname : ∀ {buf : Flash}, name.length = (rawDirent f b.offset).nsize →
      read (getNodeMem f b.offset buf) rawDirentSize name.length =
        read f (b.offset + rawDirentSize) name.length := by
    intro buf hlen
    apply read_congr
    intro i hi
    exact hw.name buf (by omega)
  have htake : (pino = (rawDirent f b.offset).pino ∧ name.length = (rawDirent f b.offset).nsize ∧
      (rawDirent f b.offset).ino ≠ 0 ∧
      read (getNodeMem f b.offset s.readbuf) rawDirentSize name.length = name ∧
      ¬(rawDirent f b.offset).version < s.version) ↔
      (alive f name pino b = true ∧ newest.all (fun n => direntVersion f n ≤ direntVersion f b) = true) := by
    rw [hlater]
    simp only [alive, named, direntIno, Bool.and_eq_true, decide_eq_true_eq]
    constructor
    · rintro ⟨hpino, hlen, hino, hread, hver⟩
      rw [hname hlen] at hread
      exact ⟨⟨⟨hpino.symm, hlen.symm, hread⟩, decide_eq_true hino⟩, hver⟩
    · rintro ⟨⟨⟨hpino, hlen, hread⟩, hino⟩, hver⟩
      rw [← hname hlen.symm] at hread
      exact ⟨hpino.symm, hlen.symm, of_decide_eq_true hino, hread, hver⟩
  unfold findStep KeyOrder.keep
  dsimp only
  rw [hw.dirent]
  by_cases hc : alive f name pino b = true ∧
      newest.all (fun n => direntVersion f n ≤ direntVersion f b) = true
  · rw [if_pos hc, if_pos (htake.mpr hc)]
    exact ⟨rfl, rfl⟩
  · rw [if_neg hc, if_neg fun h => hc (htake.mp h)]
    exact h

theorem find_spec (hw : ∀ b ∈ nodes, RawDirent.Whole f b.offset)
    (h : KeyOrder.Apart (direntVersion f) (alive f name pino) nodes) (readbuf : Flash) :
    findInode f nodes name pino readbuf =
      (KeyOrder.newest (direntVersion f) (alive f name pino) nodes).elim 0 (direntIno f) := by
  have hrun : ∀ (s : Found) (newest : Option BNode), s.Of f newest →
      (nodes.foldl (findStep f name pino) s).Of f
        (nodes.foldl (KeyOrder.keep (direntVersion f) (alive f name pino)) newest) := by
    clear h
    induction nodes with
    | nil => exact fun _ _ h => h
    | cons b nodes ih =>
      intro s newest h
      exact ih (fun b hb => hw b (List.mem_cons_of_mem _ hb)) _ _
        (findStep_of h (hw b List.mem_cons_self))
  have hend := hrun ⟨0, 0, readbuf⟩ none ⟨rfl, rfl⟩
  rw [KeyOrder.foldl_keep h] at hend
  exact hend.1

theorem alive_of_named {b : BNode} (h : newestNamed f name pino nodes = some b)
    (hb : direntIno f b ≠ 0)
    (ha : KeyOrder.Apart (direntVersion f) (named f name pino) nodes) :
    KeyOrder.newest (direntVersion f) (alive f name pino) nodes = some b := by
  obtain ⟨hmem, hnamed⟩ := KeyOrder.newest_mem h
  have halive : alive f name pino b = true := by
    simp [alive, hnamed, hb]
  have hsub : ∀ {n : BNode}, alive f name pino n = true → named f name pino n = true := by
    intro n hn
    simp only [alive, Bool.and_eq_true] at hn
    exact hn.1
  cases hn : KeyOrder.newest (direntVersion f) (alive f name pino) nodes with
  | none =>
    rw [KeyOrder.newest_eq_none.mp hn b hmem] at halive
    cases halive
  | some n =>
    obtain ⟨hnmem, hnalive⟩ := KeyOrder.newest_mem hn
    have hle := KeyOrder.le_newest h hnmem (hsub hnalive)
    have hge := KeyOrder.le_newest hn hmem halive
    exact congrArg some (ha.eq hnmem hmem (hsub hnalive) hnamed (le_antisymm hle hge))

/-- A name resolves to its newest entry, for any order on the flash and whatever the sorting does
to the list, just when that entry is no deletion or every entry of the name is one. -/
theorem find_inode_newest_iff {scanned : List Scanned} (sort : Bool) (readbuf : Flash)
    (hw : ∀ e ∈ scanned, RawDirent.Whole f e.node.offset)
    (ha : KeyOrder.Apart (direntVersion f) (named f name pino) (scanned.map Scanned.node)) :
    findInode f (dirList sort f scanned).nodes name pino readbuf =
        (newestNamed f name pino (scanned.map Scanned.node)).elim 0 (direntIno f) ↔
      ∀ b, newestNamed f name pino (scanned.map Scanned.node) = some b → direntIno f b = 0 →
        ∀ e ∈ scanned, named f name pino e.node = true → direntIno f e.node = 0 := by
  have hperm := dirList_perm sort f scanned
  have hwhole : ∀ b ∈ (dirList sort f scanned).nodes, RawDirent.Whole f b.offset := by
    intro b hb
    obtain ⟨e, he, rfl⟩ := List.mem_map.mp (hperm.mem_iff.mp hb)
    exact hw e he
  have halive : KeyOrder.Apart (direntVersion f) (alive f name pino) (scanned.map Scanned.node) := by
    apply ha.mono
    intro n _ hn
    simp only [alive, Bool.and_eq_true] at hn
    exact hn.1
  rw [find_spec hwhole (halive.perm hperm.symm), KeyOrder.newest_perm (halive.perm hperm.symm) hperm]
  cases hn : newestNamed f name pino (scanned.map Scanned.node) with
  | none =>
    have hnone : KeyOrder.newest (direntVersion f) (alive f name pino)
        (scanned.map Scanned.node) = none := by
      apply KeyOrder.newest_eq_none.mpr
      intro b hb
      have := KeyOrder.newest_eq_none.mp hn b hb
      simp [alive, this]
    rw [hnone]
    exact ⟨fun _ b hb => (by cases hb), fun _ => rfl⟩
  | some b =>
    by_cases hb : direntIno f b = 0
    · dsimp only [Option.elim_some]
      rw [hb]
      constructor
      · intro hzero c hc _ e he hnamed
        by_contra hne
        cases hl : KeyOrder.newest (direntVersion f) (alive f name pino)
            (scanned.map Scanned.node) with
        | none =>
          have := KeyOrder.newest_eq_none.mp hl e.node (List.mem_map_of_mem he)
          simp [alive, hnamed, hne] at this
        | some n =>
          obtain ⟨_, hnalive⟩ := KeyOrder.newest_mem hl
          rw [hl] at hzero
          simp only [alive, Bool.and_eq_true, decide_eq_true_eq] at hnalive
          exact hnalive.2 hzero
      · intro hall
        have hnone : KeyOrder.newest (direntVersion f) (alive f name pino)
            (scanned.map Scanned.node) = none := by
          apply KeyOrder.newest_eq_none.mpr
          intro n hnmem
          obtain ⟨e, he, rfl⟩ := List.mem_map.mp hnmem
          cases hnamed : named f name pino e.node with
          | false => simp [alive, hnamed]
          | true => simp [alive, hall b rfl hb e he hnamed]
        rw [hnone]
        rfl
    · rw [alive_of_named hn hb ha]
      refine ⟨fun _ c hc hzero => ?_, fun _ => rfl⟩
      cases hc
      exact absurd hzero hb

/-- A file `a` in the root directory, and behind it the entry that unlinks it. -/
def unlinked : Flash := fun x =>
  ([0x85, 0x19, 1, 0xe0, 41, 0, 0, 0, 109, 166, 47, 215, 1, 0, 0, 0, 1, 0, 0, 0, 5, 0, 0, 0,
    0, 0, 0, 0, 1, 8, 0, 0, 26, 235, 3, 229, 206, 81, 181, 58, 97, 0xff, 0xff, 0xff,
    0x85, 0x19, 1, 0xe0, 41, 0, 0, 0, 109, 166, 47, 215, 1, 0, 0, 0, 2, 0, 0, 0, 0, 0, 0, 0,
    0, 0, 0, 0, 1, 8, 0, 0, 248, 40, 104, 84, 206, 81, 181, 58, 97] : List UInt8).getD x 0xff

def unlinkedScan : List Scanned :=
  [⟨⟨0, crcUnknown⟩, fun _ => 0⟩, ⟨⟨44, crcUnknown⟩, fun _ => 0⟩]

theorem find_inode_newest_unlinked :
    findInode unlinked (dirList true unlinked unlinkedScan).nodes [97] 1 (fun _ => 0) =
        (newestNamed unlinked [97] 1 (unlinkedScan.map Scanned.node)).elim 0 (direntIno unlinked) ↔
      ∀ b, newestNamed unlinked [97] 1 (unlinkedScan.map Scanned.node) = some b → direntIno unlinked b = 0 →
        ∀ e ∈ unlinkedScan, named unlinked [97] 1 e.node = true → direntIno unlinked e.node = 0 :=
  find_inode_newest_iff true (fun _ => 0) (by decide +kernel) (by unfold KeyOrder.Apart; decide +kernel)

/-- The unlinked name is found again, with and without the sorting. -/
theorem unlinked_name_found :
    (∀ sort, findInode unlinked (dirList sort unlinked unlinkedScan).nodes [97] 1 (fun _ => 0) = 5) ∧
      newestNamed unlinked [97] 1 (unlinkedScan.map Scanned.node) = some ⟨44, crcUnknown⟩ ∧
      direntIno unlinked ⟨44, crcUnknown⟩ = 0 := by
  decide +kernel

end UBoot.Jffs2
