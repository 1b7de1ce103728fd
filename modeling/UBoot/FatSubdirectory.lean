import UBoot.FatContents
import UBoot.FatDirectory

namespace UBoot.Fat

open FlashCells List Loops Words

def direntsPerClust (fs : Fsdata) : Nat := fs.clustSize * 16

def dirEntries (d : Disk) (fs : Fsdata) (cs : List Nat) : Flash := fun x =>
  d.bytes (clusterSector d fs (cs.getD (x / bytesPerClust fs) 0) * 512 + x % bytesPerClust fs)

/-- A chain of clusters that is closed by a mark for its end; for a FAT of 32 bits the upper four do not
matter. -/
structure Subdirectory (d : Disk) (fs : Fsdata) (count start : Nat) (cs : List Nat) : Prop
    extends FileChain d fs count start cs where
  filled : cs ≠ []
  ends : ∀ c ∈ cs.getLast?, badCluster fs.fatsize < fatEntry fs.fatsize (fatTable d fs) c

/-- The clusters that the search asks for, one after the other. -/
inductive Walks (d : Disk) (fs : Fsdata) (filename : Text) :
    Store × Nat → List Nat → Store × Option DirEntry → Prop
  | done {s r} : dirRound d fs filename false s = some (.inr r) → Walks d fs filename s [s.2] r
  | next {s s' l r} : dirRound d fs filename false s = some (.inl s') → Walks d fs filename s' l r →
      Walks d fs filename s (s.2 :: l) r

/-- Up to the end mark or the name, what looks like the end mark has no attribute of a volume, and what is
taken for a long name is one inside a cluster or none at all. -/
def TidyDirectory (d : Disk) (fs : Fsdata) (filename : Text) (cs : List Nat) : Prop :=
  ∀ j i, j < cs.length → i < direntsPerClust fs →
    Clear (dirEntries d fs cs) filename 0 (j * direntsPerClust fs + i) →
    (dirEntries d fs cs (32 * (j * direntsPerClust fs + i)) = 0 →
      isVolume (entryAttr (dirEntries d fs cs) (32 * (j * direntsPerClust fs + i))) = false) ∧
    (dirEntries d fs cs (32 * (j * direntsPerClust fs + i)) ≠ 0xe5 →
      Flagged (dirEntries d fs cs) (j * direntsPerClust fs + i) →
      TidySlot (dirEntries d fs cs) filename (j * direntsPerClust fs + direntsPerClust fs)
        (j * direntsPerClust fs + i))

/-- The search goes through the clusters of the directory in order, up to the one with the end mark or the
name or through all of them, and finds the name exactly if the directory has it. -/
def SearchesChain (d : Disk) (fs : Fsdata) (st : Store) (filename : Text) (start : Nat) (cs : List Nat) : Prop :=
  ∃ l st' found, Walks d fs filename (st, start) l (st', found) ∧
    (∃ k, k < cs.length ∧ l = cs.take (k + 1) ∧ Clear (dirEntries d fs cs) filename 0 (k * direntsPerClust fs) ∧
      (k + 1 = cs.length ∨ ¬Clear (dirEntries d fs cs) filename 0 ((k + 1) * direntsPerClust fs))) ∧
    FindsName (dirEntries d fs cs) (cs.length * direntsPerClust fs) filename found

/-- `CHECK_CLUST` takes the last cluster that is reached, and no other one, for the end of the chain. -/
def StopsAtEnd (d : Disk) (fs : Fsdata) (filename : Text) (cs : List Nat) : Prop :=
  ∀ j c, cs[j]? = some c → Clear (dirEntries d fs cs) filename 0 ((j + 1) * direntsPerClust fs) →
    (checkClust (storedEntry fs.fatsize (fatTable d fs) c) fs.fatsize = true ↔ j + 1 = cs.length)

variable {d : Disk} {fs : Fsdata} {count curclust start : Nat} {st : Store} {filename : Text} {cs : List Nat}
  {s : Store × Nat} {l : List Nat} {found : Store × Option DirEntry}

theorem dirScan_scanned {b : Flash} {o n k : Nat} (hne : filename ≠ []) (hn : n = direntsPerClust fs)
    (htidy : ∀ i, i < n → Clear b filename 0 (o + i) →
      (b (32 * (o + i)) = 0 → isVolume (entryAttr b (32 * (o + i))) = false) ∧
      (b (32 * (o + i)) ≠ 0xe5 → Flagged b (o + i) → TidySlot b filename (o + n) (o + i)))
    (hk : k ≤ n) (hmirror : Mirrors b st.dirBlock o (n - k) n) (hmiss : Missed b filename 0 (o + (n - k))) :
    ∃ block s, dirScan d fs curclust filename false n k st = some ({ st with dirBlock := block }, s) ∧
      Scanned b filename (o + n) (o + n) s := by
  induction k generalizing st with
  | zero => exact ⟨st.dirBlock, .exhausted, rfl, hmiss⟩
  | succ k ih =>
    obtain ⟨r, hr⟩ : ∃ r, n - (k + 1) = r := ⟨_, rfl⟩
    have hnext : n - k = r + 1 := by omega
    have hlt : r < n := by omega
    rw [hr] at hmirror hmiss
    rw [hnext] at ih
    obtain ⟨hend, hslot⟩ := htidy r hlt hmiss.clear
    have hfirst := hmirror.first hlt
    have hattr := hmirror.attr hlt
    have hlong : longNameStart st.dirBlock (32 * r) = longNameStart b (32 * (o + r)) := by
      unfold longNameStart
      rw [hattr, hfirst]
    have hgo : ∀ block, (∀ x, 32 * (r + 1) ≤ x → block x = st.dirBlock x) → b (32 * (o + r)) ≠ 0 →
        (∀ e, ¬Hit b filename (o + r) e) → ∃ block' s,
        dirScan d fs curclust filename false n k { st with dirBlock := block } =
          some ({ st with dirBlock := block' }, s) ∧ Scanned b filename (o + n) (o + n) s := by
      intro block hblock hlive hno
      refine ih (by omega) (fun x hx hxn => ?_) (hmiss.trans (Missed.single hlive hno))
      exact (hblock x hx).trans (hmirror x (by omega) hxn)
    unfold dirScan
    simp only [hr, hfirst, hattr, hlong, Bool.false_eq_true, if_false]
    split
    next hdeleted =>
      refine hgo st.dirBlock (fun x _ => rfl) (by rw [hdeleted]; decide) fun e hhit => ?_
      rcases hhit with ⟨hfile, -⟩ | ⟨k, name, hset, -⟩
      · exact hfile.1 hdeleted
      · exact hset.flagged.2 hdeleted
    next hdeleted =>
      refine entry_scanned (w := fun block => { st with dirBlock := block })
        (g := fun block => dirScan d fs curclust filename false n k { st with dirBlock := block })
        hne hmiss (by omega) hgo hend (fun hflag => ?_) hmirror hlt le_rfl
      obtain ⟨v, hv, hstore, hcompared⟩ : ∃ v, getVfatname d fs st curclust st.dirBlock r = some v ∧
          v.store = st ∧ Compared b st.dirBlock filename o r n v.block v.name :=
        (hslot hdeleted hflag).compared hflag hne hmirror hlt hn.le
      refine ⟨n, v.block, v.name, le_rfl, hcompared, ?_⟩
      simp only [hv, Option.bind_eq_bind, Option.bind_some, hstore, if_neg hcompared.live]

theorem dirEntries_mirrored (hv : Volume d fs count) {j c : Nat} (hc : cs[j]? = some c) (buf : Flash) :
    Mirrors (dirEntries d fs cs) (store buf 0 (read d.bytes (clusterSector d fs c * 512) (fs.clustSize * 512)))
      (j * direntsPerClust fs) 0 (direntsPerClust fs) := by
  intro x _ hx
  have hclusters := hv.clusters.1
  have hbytes : bytesPerClust fs = 32 * direntsPerClust fs := by
    unfold bytesPerClust direntsPerClust
    omega
  have hsize : x < fs.clustSize * 512 := by
    unfold direntsPerClust at hx
    omega
  unfold dirEntries
  rw [store_read, patch_inside (Nat.zero_le x) (by omega), hbytes, show 32 * (j * direntsPerClust fs) =
    32 * direntsPerClust fs * j by ring, Nat.mul_add_div (by omega), Nat.mul_add_mod, Nat.div_eq_of_lt hx,
    Nat.mod_eq_of_lt hx, add_zero, getD_eq_getElem?_getD, hc, Nat.sub_zero]
  rfl

theorem dirRound_read (filename : Text) (hv : Volume d fs count) (hr : Readable d fs count) (hst : Cached d fs st) {j c : Nat}
    (hc : cs[j]? = some c) (hcluster : IsCluster count c) :
    ∃ st', Cached d fs st' ∧
      Mirrors (dirEntries d fs cs) st'.dirBlock (j * direntsPerClust fs) 0 (direntsPerClust fs) ∧
      dirRound d fs filename false (st, c) =
        (dirScan d fs c filename false (direntsPerClust fs) (direntsPerClust fs) st').map fun
          | (st, .found e) => .inr (st, some e)
          | (st, .stop _) => .inr (st, none)
          | (st, .exhausted) =>
            let next := getFatent d fs st c
            if checkClust next.1 fs.fatsize then .inr (next.2, none) else .inl (next.2, next.1) := by
  have hclusters := hv.clusters
  have hroom : fs.clustSize * 512 ≤ (count + 2 - c) * fs.clustSize * 512 :=
    Nat.mul_le_mul_right 512 (Nat.le_mul_of_pos_left _ (by have := hcluster.2; omega))
  obtain ⟨n', hread⟩ := getCluster_bytes hv hr hcluster hroom st.reads st.dirBlock 0
  refine ⟨{ st with
    reads := n'
    dirBlock := store st.dirBlock 0 (read d.bytes (clusterSector d fs c * 512) (fs.clustSize * 512)) },
    hst.congr rfl rfl, dirEntries_mirrored hv hc st.dirBlock, ?_⟩
  unfold dirRound
  rw [if_neg (by omega)]
  rw [hread]
  rfl

theorem dirRound_scanned (hv : Volume d fs count) (hr : Readable d fs count) (hst : Cached d fs st)
    (hsub : Subdirectory d fs count start cs) (hne : filename ≠ []) (htidy : TidyDirectory d fs filename cs)
    {j c : Nat} (hc : cs[j]? = some c) (hmiss : Missed (dirEntries d fs cs) filename 0 (j * direntsPerClust fs)) :
    ∃ st', Cached d fs st' ∧ (Missed (dirEntries d fs cs) filename 0 ((j + 1) * direntsPerClust fs) ∧
          dirRound d fs filename false (st, c) =
            some (if checkClust (storedEntry fs.fatsize (fatTable d fs) c) fs.fatsize then .inr (st', none)
              else .inl (st', storedEntry fs.fatsize (fatTable d fs) c)) ∨
        ¬Clear (dirEntries d fs cs) filename 0 ((j + 1) * direntsPerClust fs) ∧
          ∃ found, dirRound d fs filename false (st, c) = some (.inr (st', found)) ∧
            FindsName (dirEntries d fs cs) (cs.length * direntsPerClust fs) filename found) := by
  obtain ⟨hj, -⟩ := List.getElem?_eq_some_iff.mp hc
  have hcluster : IsCluster count c := hsub.clusters c (mem_of_getElem? hc)
  obtain ⟨st₁, hst₁, hmirror, hround⟩ := dirRound_read filename hv hr hst hc hcluster
  obtain ⟨block, scan, hscan, hscanned⟩ : ∃ block scan,
      dirScan d fs c filename false (direntsPerClust fs) (direntsPerClust fs) st₁ =
        some ({ st₁ with dirBlock := block }, scan) ∧
      Scanned (dirEntries d fs cs) filename (j * direntsPerClust fs + direntsPerClust fs)
        (j * direntsPerClust fs + direntsPerClust fs) scan :=
    dirScan_scanned hne rfl (fun i hi => htidy j i hj hi) le_rfl (by rw [Nat.sub_self]; exact hmirror)
      (by rw [Nat.sub_self]; exact hmiss)
  have hst₂ : Cached d fs { st₁ with dirBlock := block } := hst₁.congr rfl rfl
  rw [hscan, Option.map_some] at hround
  rw [← Nat.succ_mul] at hscanned
  cases scan with
  | found e =>
    obtain ⟨-, i, hi, he⟩ := hscanned
    have hwithin := Nat.mul_le_mul_right (direntsPerClust fs) (Nat.succ_le_of_lt hj)
    refine ⟨_, hst₂, .inr ⟨fun hclear => hclear.contains i hi, some e, hround, i, ⟨?_, hi.2⟩, he⟩⟩
    exact lt_of_lt_of_le hi.1 hwithin
  | stop ret =>
    obtain ⟨i, hi, hclear, hend⟩ := hscanned
    exact ⟨_, hst₂, .inr ⟨fun h => (h i (Nat.zero_le i) hi).1 hend, none, hround, hclear.contains_of_end hend⟩⟩
  | exhausted =>
    dsimp only at hround
    obtain ⟨st', hget, hst', -⟩ := getFatent_cached hv hr hcluster hst₂
    rw [hget] at hround
    exact ⟨st', hst', .inl ⟨hscanned, hround⟩⟩

theorem Walks.head (h : Walks d fs filename s l found) : ∃ l', l = s.2 :: l' := by
  cases h with
  | done => exact ⟨[], rfl⟩
  | next => exact ⟨_, rfl⟩

theorem drop_take_cons {j k c : Nat} (hc : cs[j]? = some c) (hk : j < k) :
    (cs.take k).drop j = c :: (cs.take k).drop (j + 1) := by
  obtain ⟨hj, rfl⟩ := List.getElem?_eq_some_iff.mp hc
  rw [drop_eq_getElem_cons (by rw [length_take]; omega), getElem_take]

theorem getElem?_of_drop_take {j k c : Nat} (h : c :: l = (cs.take k).drop j) : cs[j]? = some c := by
  have hhead := congrArg List.head? h
  rw [List.head?_cons, List.head?_drop, List.getElem?_take] at hhead
  split at hhead
  · exact hhead.symm
  · cases hhead

theorem StopsAtEnd.walks (h : StopsAtEnd d fs filename cs) (hv : Volume d fs count) (hr : Readable d fs count)
    (hsub : Subdirectory d fs count start cs) (hne : filename ≠ []) (htidy : TidyDirectory d fs filename cs)
    {j c m : Nat} (hm : j + m = cs.length) (hc : cs[j]? = some c) (hst : Cached d fs st)
    (hmiss : Missed (dirEntries d fs cs) filename 0 (j * direntsPerClust fs)) :
    ∃ l st' found, Walks d fs filename (st, c) l (st', found) ∧
      (∃ k, j ≤ k ∧ k < cs.length ∧ l = (cs.take (k + 1)).drop j ∧
        Clear (dirEntries d fs cs) filename 0 (k * direntsPerClust fs) ∧
        (k + 1 = cs.length ∨ ¬Clear (dirEntries d fs cs) filename 0 ((k + 1) * direntsPerClust fs))) ∧
      FindsName (dirEntries d fs cs) (cs.length * direntsPerClust fs) filename found := by
  induction m generalizing j c st with
  | zero =>
    have hj := (List.getElem?_eq_some_iff.mp hc).1
    omega
  | succ m ih =>
    have hlast : ∀ k, k = j → [c] = (cs.take (k + 1)).drop j := by
      rintro k rfl
      rw [drop_take_cons hc (by omega), drop_eq_nil_of_le]
      rw [length_take]
      omega
    obtain ⟨st', hst', ⟨hmissed, hround⟩ | ⟨hstop, found, hround, hfinds⟩⟩ :=
      dirRound_scanned hv hr hst hsub hne htidy hc hmiss
    · have hcheck := h j c hc hmissed.clear
      by_cases hend : j + 1 = cs.length
      · rw [if_pos (hcheck.mpr hend)] at hround
        refine ⟨[c], st', none, .done hround, ⟨j, le_refl j, by omega, hlast j rfl, hmiss.clear, .inl hend⟩, ?_⟩
        rw [← hend]
        exact hmissed.clear.contains
      · have hpass := Bool.eq_false_iff.mpr fun htrue => hend (hcheck.mp htrue)
        obtain ⟨c', hc'⟩ : ∃ c', cs[j + 1]? = some c' := ⟨_, List.getElem?_eq_getElem (by omega)⟩
        have hnext : storedEntry fs.fatsize (fatTable d fs) c = c' :=
          (fatEntry_of_passes hpass).symm.trans (hsub.next hc hc')
        rw [if_neg (by rw [hpass]; exact Bool.noConfusion), hnext] at hround
        obtain ⟨l, st'', found, hwalk, ⟨k, hjk, hk, hl, hrest⟩, hfinds⟩ := ih (by omega) hc' hst' hmissed
        refine ⟨c :: l, st'', found, .next hround hwalk, ⟨k, by omega, hk, ?_, hrest⟩, hfinds⟩
        rw [drop_take_cons hc (by omega), hl]
    · exact ⟨[c], st', found, .done hround, ⟨j, le_refl j, by omega, hlast j rfl, hmiss.clear, .inr hstop⟩, hfinds⟩

theorem Walks.stops (h : Walks d fs filename s l found) (hv : Volume d fs count) (hr : Readable d fs count)
    (hsub : Subdirectory d fs count start cs) (hne : filename ≠ []) (htidy : TidyDirectory d fs filename cs)
    {i k : Nat} (hc : cs[i]? = some s.2) (hst : Cached d fs s.1)
    (hmiss : Missed (dirEntries d fs cs) filename 0 (i * direntsPerClust fs)) (hl : l = (cs.take (k + 1)).drop i)
    (hk : k < cs.length) {j c : Nat} (hi : i ≤ j) (hj : j ≤ k) (hcj : cs[j]? = some c)
    (hclear : Clear (dirEntries d fs cs) filename 0 ((j + 1) * direntsPerClust fs)) :
    checkClust (storedEntry fs.fatsize (fatTable d fs) c) fs.fatsize = true ↔ j = k := by
  induction h generalizing i with
  | @done s r hround =>
    have hlen := congrArg List.length hl
    rw [length_singleton, length_drop, length_take] at hlen
    obtain rfl : i = k := by omega
    obtain rfl : j = i := by omega
    obtain rfl : c = s.2 := Option.some.inj (hcj.symm.trans hc)
    obtain ⟨st', -, ⟨-, hround'⟩ | ⟨hstop, -⟩⟩ := dirRound_scanned hv hr hst hsub hne htidy hc hmiss
    · refine iff_of_true ?_ rfl
      by_contra hpass
      rw [if_neg hpass] at hround'
      cases hround.symm.trans hround'
    · exact absurd hclear hstop
  | @next s s' l r hround hwalk ih =>
    obtain ⟨st', hst', ⟨hmissed, hround'⟩ | ⟨-, found, hround', -⟩⟩ := dirRound_scanned hv hr hst hsub hne htidy hc hmiss
    · have heq := hround.symm.trans hround'
      split at heq
      · cases heq
      next hpass =>
        obtain rfl : s' = (st', storedEntry fs.fatsize (fatTable d fs) s.2) := Sum.inl.inj (Option.some.inj heq)
        obtain ⟨l', rfl⟩ := hwalk.head
        have hik : i < k + 1 := by omega
        rw [drop_take_cons hc hik, List.cons.injEq] at hl
        have hrest := hl.2
        have hnext := getElem?_of_drop_take hrest
        have hlen := congrArg List.length hrest
        rw [length_cons, length_drop, length_take] at hlen
        rcases eq_or_lt_of_le hi with rfl | hlt
        · obtain rfl : c = s.2 := Option.some.inj (hcj.symm.trans hc)
          exact iff_of_false hpass (by omega)
        · exact ih hnext hst' hmissed hrest hlt
    · cases hround.symm.trans hround'

theorem Subdirectory.first (h : Subdirectory d fs count start cs) : cs[0]? = some start := by
  obtain ⟨c, cs', rfl⟩ := exists_cons_of_ne_nil h.filled
  rw [List.getElem?_cons_zero, h.start c rfl]

theorem missed_none (b : Flash) (filename : Text) : Missed b filename 0 (0 * direntsPerClust fs) := by
  intro m _ hm
  omega

theorem SearchesChain.stopsAtEnd (h : SearchesChain d fs st filename start cs) (hv : Volume d fs count)
    (hr : Readable d fs count) (hst : Cached d fs st) (hsub : Subdirectory d fs count start cs)
    (hne : filename ≠ []) (htidy : TidyDirectory d fs filename cs) : StopsAtEnd d fs filename cs := by
  obtain ⟨l, st', found, hwalk, ⟨k, hk, hl, -, hend⟩, -⟩ := h
  intro j c hcj hclear
  have hj := (List.getElem?_eq_some_iff.mp hcj).1
  by_cases hjk : j ≤ k
  · rw [hwalk.stops hv hr hsub hne htidy (i := 0) (k := k) hsub.first hst (missed_none _ _) hl hk (Nat.zero_le j)
      hjk hcj hclear]
    constructor
    · rintro rfl
      exact hend.resolve_right fun h => h hclear
    · intro hlast
      omega
  · have hle := Nat.mul_le_mul_right (direntsPerClust fs) (show k + 1 ≤ j + 1 by omega)
    have hlast := hend.resolve_right fun h => h fun m hm hlt => hclear m hm (by omega)
    omega

/-- In a tidy directory the search goes through the chain exactly if `CHECK_CLUST` is right about the clusters
that are reached. -/
theorem get_dentfromdir_iff (d : Disk) (fs : Fsdata) (count : Nat) (st : Store) (filename : Text) (start : Nat)
    (cs : List Nat) (hv : Volume d fs count) (hr : Readable d fs count) (hst : Cached d fs st)
    (hsub : Subdirectory d fs count start cs) (hne : filename ≠ []) (htidy : TidyDirectory d fs filename cs) :
    SearchesChain d fs st filename start cs ↔ StopsAtEnd d fs filename cs := by
  constructor
  · intro h
    exact h.stopsAtEnd hv hr hst hsub hne htidy
  · intro h
    obtain ⟨l, st', found, hwalk, ⟨k, -, hk, hl, hrest⟩, hfinds⟩ :=
      h.walks hv hr hsub hne htidy (zero_add _) hsub.first hst (missed_none _ _)
    exact ⟨l, st', found, hwalk, ⟨k, hk, hl, hrest⟩, hfinds⟩

def fullDisk : Disk where
  size := 16
  bytes x := if 1536 ≤ x ∧ x < 2048 then 0xe5 else if 515 ≤ x ∧ x < 518 then 0xff else 0
  ok _ s c := c == 0 || s + c ≤ 16
  spoilt _ _ b := b
  partOffset := 0
  size_lt := sixteen_sectors_lt
  beyond := @sixteen_sectors_beyond

def fullFsdata (fatsize : Nat) : Fsdata := ⟨fatsize, 1, 1, 2, 1, 1⟩

theorem fullDisk_volume {fatsize : Nat} (h : fatsize = 12 ∨ fatsize = 16) : Volume fullDisk (fullFsdata fatsize) 1 where
  width := h.imp_right .inl
  fits := show 0 + 1 + 1 ≤ 16 by decide
  clusters := show 0 < 1 ∧ 1 ≤ 128 by decide
  data := show (0 : Int) ≤ 1 + 2 * 1 by decide
  onDisk := show 3 + 1 * 1 ≤ 16 by decide
  entries := by
    rcases h with rfl | rfl
    · unfold InTable; decide
    · unfold InTable; decide
  numbers := by rcases h with rfl | rfl <;> decide

theorem fullDisk_readable (fatsize : Nat) : Readable fullDisk (fullFsdata fatsize) 1 where
  table n b hb := by
    change b * 6 < 1 at hb
    obtain rfl : b = 0 := by omega
    rfl
  data n s k _ hk := by
    change s + k ≤ 0 + 3 + 1 * 1 at hk
    change (k == 0 || decide (s + k ≤ 16)) = true
    simp only [Bool.or_eq_true, decide_eq_true_eq]
    right
    omega
  nothing n s := rfl

theorem fullDisk_subdirectory {fatsize : Nat} (h : fatsize = 12 ∨ fatsize = 16) :
    Subdirectory fullDisk (fullFsdata fatsize) 1 2 [2] where
  clusters c hc := by
    rw [mem_singleton] at hc
    subst hc
    exact ⟨le_refl 2, le_refl 2⟩
  links := isChain_singleton 2
  start c hc := (Option.some.inj hc).symm
  filled := cons_ne_nil 2 []
  ends c hc := by
    obtain rfl : c = 2 := (Option.some.inj hc).symm
    rcases h with rfl | rfl <;> decide

theorem fullDisk_deleted (fatsize : Nat) {i : Nat} (hi : i < 16) :
    dirEntries fullDisk (fullFsdata fatsize) [2] (32 * i) = 0xe5 := by
  have hbytes : bytesPerClust (fullFsdata fatsize) = 512 := one_mul 512
  have hsector : clusterSector fullDisk (fullFsdata fatsize) 2 = 3 := rfl
  unfold dirEntries
  rw [hbytes, Nat.div_eq_of_lt (by omega), Nat.mod_eq_of_lt (by omega), getD_cons_zero, hsector]
  change (if 1536 ≤ 3 * 512 + 32 * i ∧ 3 * 512 + 32 * i < 2048 then _ else _) = _
  rw [if_pos (by omega)]

theorem fullDisk_tidy (fatsize : Nat) : TidyDirectory fullDisk (fullFsdata fatsize) [120] [2] := by
  intro j i hj hi _
  obtain rfl : j = 0 := Nat.lt_one_iff.mp hj
  rw [zero_mul, zero_add, fullDisk_deleted fatsize hi]
  exact ⟨fun h => absurd h (by decide), fun h => absurd rfl h⟩

theorem full_directory_searched : SearchesChain fullDisk (fullFsdata 16) powerOn [120] 2 [2] := by
  refine (get_dentfromdir_iff fullDisk (fullFsdata 16) 1 powerOn [120] 2 [2] (fullDisk_volume (.inr rfl))
    (fullDisk_readable 16) (cached_of_none rfl) (fullDisk_subdirectory (.inr rfl)) (cons_ne_nil _ _)
    (fullDisk_tidy 16)).mpr ?_
  intro j c hc _
  cases j with
  | zero =>
    obtain rfl : c = 2 := (Option.some.inj hc).symm
    exact iff_of_true (by decide) rfl
  | succ j => cases hc

/-- Of a full directory on a FAT of 12 bits the end is not seen. -/
theorem end_of_directory_passed :
    ¬∀ (d : Disk) (fs : Fsdata) (count : Nat) (st : Store) (filename : Text) (start : Nat) (cs : List Nat),
      Volume d fs count → Readable d fs count → Cached d fs st → Subdirectory d fs count start cs →
      filename ≠ [] → SearchesChain d fs st filename start cs := by
  intro h
  have hsearch := h fullDisk (fullFsdata 12) 1 powerOn [120] 2 [2] (fullDisk_volume (.inl rfl))
    (fullDisk_readable 12) (cached_of_none rfl) (fullDisk_subdirectory (.inl rfl)) (cons_ne_nil _ _)
  have hstops := hsearch.stopsAtEnd (fullDisk_volume (.inl rfl)) (fullDisk_readable 12) (cached_of_none rfl)
    (fullDisk_subdirectory (.inl rfl)) (cons_ne_nil _ _) (fullDisk_tidy 12)
  have hclear : Clear (dirEntries fullDisk (fullFsdata 12) [2]) [120] 0 16 := by
    intro m _ hm
    have hdeleted := fullDisk_deleted 12 hm
    refine ⟨by rw [hdeleted]; decide, fun hname => hname.1.1 hdeleted⟩
  have hend := (hstops 0 2 rfl hclear).mpr rfl
  exact absurd hend (by decide)

end UBoot.Fat
