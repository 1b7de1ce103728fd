import UBoot.Jffs2ScanNodes

namespace UBoot.Jffs2

open FlashCells Words Loops

variable (g : ListSetup) (p : PartInfo) {s s' : Scan}

def Scan.Sound (s : Scan) : Prop :=
  match s.phase with
  | .sector => s.i ≤ nrSectors p
  | .start k => s.i < nrSectors p ∧ k % 4 = 0 ∧ k < emptyScanSize p.sectorSize + 4 ∧
      s.bufOfs = s.sectorOfs p ∧ s.bufLen = emptyScanSize p.sectorSize ∧
      ∀ i, i < emptyScanSize p.sectorSize → s.buf i = p.bytes (s.sectorOfs p + i)
  | .more => s.Window p
  | .empty e => s.Window p ∧ e ≤ s.bufLen ∧ s.prevofs < s.ofs

/-- What a round takes from; a sector counts more than all its rounds. -/
def Scan.ahead (s : Scan) : Nat :=
  (nrSectors p - s.i) * 68719476736 +
    match s.phase with
    | .sector => 68719476735
    | .start k => 34359738368 + (4100 - k)
    | .more => 4 * (4294967304 - s.ofs) + if s.ofs = s.prevofs then 0 else 1
    | .empty e => 4 * (4294967304 - s.ofs) + if s.place < e then 2 else 3

/-- The nodes of the sector that the scan has seen, and where the rest of them is. -/
def Scan.Ahead (nodes done : List Nat) (s : Scan) : Prop :=
  match s.phase with
  | .sector => done = []
  | .start k => done = [] ∧ (EmptyStart p s.i ∧ nodes = [] ∨ ¬EmptyStart p s.i ∧
      (∀ j, j < k → j < emptyScanSize p.sectorSize → p.bytes (s.sectorOfs p + j) = 0xff) ∧
      NodesTo p (s.sectorEnd p) (s.sectorOfs p + k) nodes)
  | .more => ∃ rest, done ++ rest = nodes ∧ s.ofs ≠ s.prevofs ∧ NodesTo p (s.sectorEnd p) s.ofs rest
  | .empty _ => ∃ rest, done ++ rest = nodes ∧ NodesTo p (s.sectorEnd p) s.ofs rest

def BLists.empty : BLists := ⟨BList.empty, BList.empty, 0⟩

/-- The lists hold the nodes of the sectors before and what the scan has seen of this one. -/
def Scan.Found (nodes : Nat → List Nat) (s : Scan) : Prop :=
  ∃ done, Listed p ((List.range s.i).flatMap nodes ++ done) BLists.empty s.lists ∧ s.Ahead p (nodes s.i) done

/-- What one step makes of a sound state. -/
structure Scan.Steps (s s' : Scan) : Prop where
  sound : s'.Sound p
  ahead : s'.ahead p < s.ahead p
  found : ∀ nodes : Nat → List Nat, (∀ i, i < nrSectors p → SectorNodes p i (nodes i)) →
    s.Found p nodes → s'.Found p nodes

variable {g p}

theorem ValidNode.word {a : Nat} (h : ValidNode p a) : le32 p.bytes a ≠ 0xffffffff := by
  have hmagic := h.magic
  change le16 p.bytes a = 0x1985 at hmagic
  unfold le32
  omega

theorem NodesTo.short {e a : Nat} {nodes : List Nat} (h : NodesTo p e a nodes) (he : e < a + 12) :
    nodes = [] := by
  induction h with
  | stop h => rfl
  | gap h hff rest ih => exact ih (by omega)
  | node h hfits rest ih =>
    have hlen := h.header
    unfold unknownNodeSize at hlen
    omega

theorem NodesTo.blank {e a : Nat} {nodes : List Nat} (h : NodesTo p e a nodes)
    (hff : a + 4 ≤ e → le32 p.bytes a = 0xffffffff) : NodesTo p e (a + 4) nodes := by
  cases h with
  | stop h => exact .stop (by omega)
  | gap h hff rest => exact rest
  | node h hfits rest =>
    have hlen := h.header
    unfold unknownNodeSize at hlen
    exact absurd (hff (by omega)) h.word

theorem Scan.Leaves.found {nodes : Nat → List Nat} {done : List Nat} (h : s.Leaves s')
    (hlisted : Listed p ((List.range s.i).flatMap nodes ++ done) BLists.empty s.lists)
    (hdone : done = nodes s.i) : s'.Found p nodes := by
  refine ⟨[], ?_, ?_⟩
  · rw [h.i, h.lists, List.range_succ, List.flatMap_append, List.append_nil, List.flatMap_singleton, ← hdone]
    exact hlisted
  · unfold Scan.Ahead
    rw [h.phase]

theorem Scan.Leaves.steps (h : s.Leaves s') (hi : s.i < nrSectors p)
    (hfound : ∀ nodes : Nat → List Nat, (∀ i, i < nrSectors p → SectorNodes p i (nodes i)) →
      s.Found p nodes → s'.Found p nodes) : s.Steps p s' := by
  refine ⟨?_, ?_, hfound⟩
  · unfold Scan.Sound
    rw [h.phase, h.i]
    exact hi
  · have hmore : nrSectors p - s.i = nrSectors p - (s.i + 1) + 1 := by omega
    unfold Scan.ahead
    rw [h.phase, h.i, hmore]
    dsimp only
    omega

theorem Scan.InGap.sound (h : s.InGap p s') : s'.Sound p := by
  obtain ⟨e, he, hlen⟩ := h.phase
  unfold Scan.Sound
  rw [he]
  exact ⟨h.window, hlen, h.prevofs⟩

theorem sectorEnd_congr (h : s'.i = s.i) : s'.sectorEnd p = s.sectorEnd p := by
  unfold Scan.sectorEnd
  rw [h]

theorem Scan.InGap.found {nodes : Nat → List Nat} {done rest : List Nat} (h : s.InGap p s')
    (hlisted : Listed p ((List.range s.i).flatMap nodes ++ done) BLists.empty s.lists)
    (hall : done ++ rest = nodes s.i) (hrest : NodesTo p (s.sectorEnd p) s'.ofs rest) :
    s'.Found p nodes := by
  obtain ⟨e, he, -⟩ := h.phase
  refine ⟨done, by rwa [h.i, h.lists], ?_⟩
  unfold Scan.Ahead
  rw [he, h.i, sectorEnd_congr h.i]
  exact ⟨rest, hall, hrest⟩

theorem word_of_bytes {m : Flash} {a : Nat} (h : ∀ i, i < 4 → m (a + i) = 0xff) : le32 m a = 0xffffffff := by
  have h₀ : m a = 0xff := h 0 (by omega)
  have h₃ : m (a + 2 + 1) = 0xff := h 3 (by omega)
  unfold le32 le16
  rw [h₀, h 1 (by omega), h 2 (by omega), h₃]
  rfl

theorem start_word {n k : Nat} (heven : k % 4 = 0) (hk : k < emptyScanSize n + 4)
    (hne : k ≠ emptyScanSize n) (hin : k + 4 ≤ n) : k + 4 ≤ emptyScanSize n := by
  unfold emptyScanSize defaultEmptyScanSize at *
  split at hk
  next hsmall =>
    rw [if_pos hsmall]
    exact hin
  next hlarge =>
    rw [if_neg hlarge] at hne ⊢
    omega

theorem NodesTo.start {e b k : Nat} {nodes : List Nat} (h : NodesTo p e (b + k) nodes)
    (he : e = b + p.sectorSize) (hk : k < emptyScanSize p.sectorSize) (heven : k % 4 = 0)
    (hff : ∀ j, k ≤ j → j < k + 4 → j < emptyScanSize p.sectorSize → p.bytes (b + j) = 0xff) :
    NodesTo p e (b + k + 4) nodes := by
  apply h.blank
  intro hin
  have hsize : k + 4 ≤ emptyScanSize p.sectorSize := start_word heven (by omega) (by omega) (by omega)
  apply word_of_bytes
  intro i hi
  rw [add_assoc]
  exact hff (k + i) (by omega) (by omega) (by omega)

end UBoot.Jffs2
