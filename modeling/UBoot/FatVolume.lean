import Mathlib.Tactic.Ring
import UBoot.FatEntries

namespace UBoot.Fat

open FlashCells Words

def badCluster (fatsize : Nat) : Nat :=
  if fatsize = 32 then 0xffffff7 else if fatsize = 16 then 0xfff7 else 0xff7

def dataStart (d : Disk) (fs : Fsdata) : Nat := d.partOffset + (fs.dataBegin + 2 * fs.clustSize).toNat

def clusterSector (d : Disk) (fs : Fsdata) (c : Nat) : Nat := dataStart d fs + (c - 2) * fs.clustSize

def IsCluster (count c : Nat) : Prop := 2 ≤ c ∧ c ≤ count + 1

/-- A volume of `count` clusters. -/
structure Volume (d : Disk) (fs : Fsdata) (count : Nat) : Prop extends HasTable d fs where
  clusters : 0 < fs.clustSize ∧ fs.clustSize ≤ 128
  data : 0 ≤ fs.dataBegin + 2 * fs.clustSize
  onDisk : dataStart d fs + count * fs.clustSize ≤ d.size
  entries : InTable fs (count + 1)
  numbers : count + 1 < badCluster fs.fatsize

/-- Blocks of the table and sectors of the clusters can be read, and so can nothing at all. -/
structure Readable (d : Disk) (fs : Fsdata) (count : Nat) : Prop where
  table : ∀ n b, b * 6 < fs.fatlength → d.ok n (d.partOffset + fs.fatSect + b * 6) 6 = true
  data : ∀ n s k, dataStart d fs ≤ s → s + k ≤ dataStart d fs + count * fs.clustSize → d.ok n s k = true
  nothing : ∀ n s, d.ok n s 0 = true

def Cached (d : Disk) (fs : Fsdata) (st : Store) : Prop :=
  ∀ n, st.fatbufnum = some n → Holds d fs st.fatbuf n

def clusterBytes (d : Disk) (fs : Fsdata) (c : Nat) : List UInt8 :=
  read d.bytes (clusterSector d fs c * 512) (fs.clustSize * 512)

/-- The stores differ in the buffer of the table only. -/
structure Kept (st st' : Store) : Prop where
  dirBlock : st'.dirBlock = st.dirBlock
  rootBlock : st'.rootBlock = st.rootBlock
  nameBlock : st'.nameBlock = st.nameBlock
  mem : st'.mem = st.mem

variable {d : Disk} {fs : Fsdata} {count c : Nat} {st st' : Store}

theorem Kept.refl (st : Store) : Kept st st := ⟨rfl, rfl, rfl, rfl⟩

theorem Kept.trans {st'' : Store} (h : Kept st st') (h' : Kept st' st'') : Kept st st'' :=
  ⟨h'.dirBlock.trans h.dirBlock, h'.rootBlock.trans h.rootBlock, h'.nameBlock.trans h.nameBlock,
    h'.mem.trans h.mem⟩

theorem Cached.congr (h : Cached d fs st) (hb : st'.fatbuf = st.fatbuf)
    (hn : st'.fatbufnum = st.fatbufnum) : Cached d fs st' := by
  intro n hnum
  rw [hb]
  exact h n (hn.symm.trans hnum)

theorem cached_of_none (h : st.fatbufnum = none) : Cached d fs st := by
  intro n hn
  rw [h] at hn
  cases hn

theorem Volume.inTable (h : Volume d fs count) (hc : IsCluster count c) : InTable fs c := by
  have hentries := h.entries
  have hle := hc.2
  unfold InTable entryEnd at hentries ⊢
  rcases h.width with hw | hw | hw
  · simp only [hw, Nat.reduceEqDiff, if_false] at hentries ⊢
    omega
  · simp only [hw, Nat.reduceEqDiff, if_false, if_true] at hentries ⊢
    omega
  · simp only [hw, if_true] at hentries ⊢
    omega

theorem Volume.cluster_lt (h : Volume d fs count) (hc : IsCluster count c) : c < badCluster fs.fatsize :=
  lt_of_le_of_lt hc.2 h.numbers

theorem badCluster_le (fatsize : Nat) : badCluster fatsize ≤ 268435447 := by
  unfold badCluster
  split
  · omega
  · split <;> omega

theorem getFatent_cached (hv : Volume d fs count) (hr : Readable d fs count) (hc : IsCluster count c)
    (h : Cached d fs st) :
    ∃ st', getFatent d fs st c = (storedEntry fs.fatsize (fatTable d fs) c, st') ∧ Cached d fs st' ∧
      Kept st st' := by
  have hin := hv.inTable hc
  by_cases hhit : st.fatbufnum = some (blockOf fs c)
  · refine ⟨st, ?_, h, Kept.refl st⟩
    rw [getFatent_buffered hv.toHasTable hhit, bufEntry_of_holds hv.toHasTable (h _ hhit)]
  · have hok : blockRead d fs st.reads c = true := hr.table _ _ (hv.blockOf_lt hin)
    obtain ⟨b, hb, heq⟩ := getFatent_read hv.toHasTable hin hhit hok
    refine ⟨_, heq, ?_, ⟨rfl, rfl, rfl, rfl⟩⟩
    intro n hn
    cases hn
    exact hb

theorem storedEntry_lt (fatsize : Nat) (t : Flash) (c : Nat) : storedEntry fatsize t c < 4294967296 := by
  have hword := le16_lt t (c + c / 2)
  have hword' := le16_lt t (2 * c)
  have hlow := le16_lt t (4 * c)
  have hhigh := le16_lt t (4 * c + 2)
  unfold storedEntry le32
  split
  · omega
  · split
    · omega
    · split <;> omega

theorem fatEntry_of_passes (h : checkClust (storedEntry fs.fatsize (fatTable d fs) c) fs.fatsize = false) :
    fatEntry fs.fatsize (fatTable d fs) c = storedEntry fs.fatsize (fatTable d fs) c := by
  unfold fatEntry
  split
  next hw =>
    apply Nat.mod_eq_of_lt
    rw [hw] at h ⊢
    simp only [checkClust, if_true, Bool.or_eq_false_iff, decide_eq_false_iff_not] at h
    omega
  · rfl

theorem Volume.startsect (h : Volume d fs count) (hc : IsCluster count c) {i : Nat}
    (hi : i < (count + 2 - c) * fs.clustSize) :
    ((Fat.startsect fs c + i) % 4294967296 + d.partOffset) % 4294967296 = clusterSector d fs c + i := by
  have hdata := h.data
  have honDisk := h.onDisk
  have hsize := d.size_lt
  obtain ⟨k, rfl⟩ : ∃ k, c = k + 2 := ⟨c - 2, by have := hc.1; omega⟩
  obtain ⟨rest, hrest⟩ : ∃ rest, count = k + rest := ⟨count - k, by have := hc.2; omega⟩
  rw [show count + 2 - (k + 2) = rest by omega] at hi
  rw [hrest, add_mul] at honDisk
  have hint : fs.dataBegin + ((k + 2 : Nat) : Int) * (fs.clustSize : Int) =
      (fs.dataBegin + 2 * fs.clustSize) + ((k * fs.clustSize : Nat) : Int) := by
    push_cast
    ring
  obtain ⟨b, hb⟩ : ∃ b : Nat, fs.dataBegin + 2 * (fs.clustSize : Int) = b := Int.eq_ofNat_of_zero_le hdata
  unfold dataStart at honDisk
  unfold clusterSector dataStart Fat.startsect
  rw [if_pos (by omega), hint, Nat.add_sub_cancel, hb]
  rw [hb] at honDisk
  simp only [Int.toNat_natCast] at honDisk ⊢
  omega

theorem diskRead_data (hv : Volume d fs count) (hr : Readable d fs count) (hc : IsCluster count c)
    {i k : Nat} (hi : i < (count + 2 - c) * fs.clustSize) (hk : i + k ≤ (count + 2 - c) * fs.clustSize)
    (n : Nat) (buf : Flash) (dest : Nat) :
    diskRead d n ((Fat.startsect fs c + i) % 4294967296) k buf dest =
      (true, patch buf dest (k * 512) fun x => d.bytes ((clusterSector d fs c + i) * 512 + (x - dest))) := by
  have hsector := hv.startsect hc hi
  have hend : (count + 2 - c) * fs.clustSize + (c - 2) * fs.clustSize = count * fs.clustSize := by
    rw [← add_mul, show count + 2 - c + (c - 2) = count by have := hc.1; have := hc.2; omega]
  have hok : d.ok n (clusterSector d fs c + i) k = true := by
    apply hr.data
    · unfold clusterSector
      omega
    · unfold clusterSector
      omega
  unfold diskRead
  rw [hsector]
  exact if_pos hok

theorem getCluster_bytes (hv : Volume d fs count) (hr : Readable d fs count) (hc : IsCluster count c)
    {size : Nat} (hsize : size ≤ (count + 2 - c) * fs.clustSize * 512) (n : Nat) (buf : Flash) (dest : Nat) :
    ∃ n', getCluster d fs n c buf dest size =
      (true, n', store buf dest (read d.bytes (clusterSector d fs c * 512) size)) := by
  have hroom : 0 < (count + 2 - c) * fs.clustSize := Nat.mul_pos (by have := hc.2; omega) hv.clusters.1
  have hstart : Fat.startsect fs c < 4294967296 := by
    unfold Fat.startsect
    rw [if_pos (by have := hc.1; omega)]
    omega
  have hwhole := diskRead_data hv hr hc (k := size / 512) hroom (by omega) n buf dest
  rw [add_zero, Nat.mod_eq_of_lt hstart, add_zero] at hwhole
  unfold getCluster
  rw [hwhole]
  dsimp only
  rw [if_neg Bool.noConfusion, ← store_read]
  split
  next hmod =>
    rw [show size / 512 * 512 = size by omega]
    exact ⟨_, rfl⟩
  next hmod =>
    have hlast := diskRead_data hv hr hc (i := size / 512) (k := 1) (by omega) (by omega) (n + 1) (fun _ => 0) 0
    rw [hlast]
    rw [if_neg Bool.noConfusion]
    refine ⟨n + 2, ?_⟩
    have hrest : read (patch (fun _ => 0) 0 (1 * 512) fun x =>
        d.bytes ((clusterSector d fs c + size / 512) * 512 + (x - 0))) 0 (size % 512) =
        read d.bytes (clusterSector d fs c * 512 + size / 512 * 512) (size % 512) := by
      apply read_congr
      intro j hj
      rw [patch_inside (by omega) (by omega)]
      exact congrArg d.bytes (by omega)
    rw [hrest, show dest + size / 512 * 512 = dest +
      (read d.bytes (clusterSector d fs c * 512) (size / 512 * 512)).length by rw [read_length],
      ← store_append, ← read_append, show size / 512 * 512 + size % 512 = size by omega]

theorem getCluster_nothing (hr : Readable d fs count) (n c : Nat) (buf : Flash) (dest : Nat) :
    ∃ n', getCluster d fs n c buf dest 0 = (true, n', buf) := by
  have hread : diskRead d n (Fat.startsect fs c) 0 buf dest = (true, buf) := by
    unfold diskRead
    rw [if_pos (hr.nothing _ _)]
    refine congrArg (Prod.mk true) (funext fun x => ?_)
    exact patch_outside (by omega)
  refine ⟨n + 1, ?_⟩
  unfold getCluster
  rw [Nat.zero_div, hread]
  rfl

theorem clusterSector_add (d : Disk) (fs : Fsdata) (hc : 2 ≤ c) (k : Nat) :
    clusterSector d fs (c + k) * 512 = clusterSector d fs c * 512 + k * (fs.clustSize * 512) := by
  unfold clusterSector
  rw [show c + k - 2 = (c - 2) + k by omega]
  ring

theorem consecutive_bytes (d : Disk) (fs : Fsdata) (hc : 2 ≤ c) (k : Nat) :
    (List.range' c k).flatMap (clusterBytes d fs) =
      read d.bytes (clusterSector d fs c * 512) (k * (fs.clustSize * 512)) := by
  induction k generalizing c with
  | zero => simp [FlashCells.read]
  | succ k ih =>
    rw [List.range'_succ, List.flatMap_cons, ih (by omega), Nat.succ_mul, add_comm (k * _), read_append]
    unfold clusterBytes
    rw [clusterSector_add d fs hc, one_mul]

end UBoot.Fat
