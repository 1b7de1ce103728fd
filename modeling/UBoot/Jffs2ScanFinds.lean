import Mathlib.Logic.Relation
import UBoot.Jffs2ScanRuns

namespace UBoot.Jffs2

open FlashCells Words Loops

variable {g : ListSetup} {p : PartInfo} {buf : Flash} {s s' : Scan}

def Reached (g : ListSetup) (p : PartInfo) (buf : Flash) (s : Scan) : Prop :=
  Relation.ReflTransGen (fun s s' => scanStep g p s = some (.inl s')) (scanInit buf) s

theorem NodesTo.sorted {e a : Nat} {nodes : List Nat} (h : NodesTo p e a nodes) :
    nodes.Pairwise (· < ·) ∧ ∀ x ∈ nodes, a ≤ x ∧ x < e := by
  induction h with
  | stop h => exact ⟨List.Pairwise.nil, fun x hx => (by cases hx)⟩
  | gap h hff rest ih =>
    refine ⟨ih.1, fun x hx => ?_⟩
    have hbounds := ih.2 x hx
    omega
  | @node a nodes h hfits rest ih =>
    have hlen := h.header
    unfold unknownNodeSize at hlen
    constructor
    · refine List.pairwise_cons.mpr ⟨fun x hx => ?_, ih.1⟩
      have hbounds := ih.2 x hx
      omega
    · intro x hx
      rcases List.mem_cons.mp hx with rfl | hx
      · omega
      · have hbounds := ih.2 x hx
        omega

theorem SectorNodes.sorted {i : Nat} {nodes : List Nat} (h : SectorNodes p i nodes) : nodes.Pairwise (· < ·) ∧
      ∀ x ∈ nodes, i * p.sectorSize ≤ x ∧ x < i * p.sectorSize + p.sectorSize := by
  rcases h with ⟨-, rfl⟩ | ⟨-, hnodes⟩
  · exact ⟨List.Pairwise.nil, fun x hx => (by cases hx)⟩
  · exact hnodes.sorted

theorem Reached.step (h : Reached g p buf s) (hs : scanStep g p s = some (.inl s')) :
    Reached g p buf s' := Relation.ReflTransGen.tail h hs

instance : Decidable (s.Looks p) :=
  decidable_of_iff (s.i < nrSectors p ∧ s.phase = .more ∧ s.ofs + unknownNodeSize ≤ s.sectorEnd p ∧
      s.ofs ≠ s.prevofs)
    ⟨fun ⟨h₁, h₂, h₃, h₄⟩ => ⟨h₁, h₂, h₃, h₄⟩, fun h => ⟨h.sector, h.more, h.fits, h.fresh⟩⟩

instance : Decidable (s.Accepts p) :=
  decidable_of_iff (s.Looks p ∧ magic (s.seen p).buf (s.seen p).place = jffs2MagicBitmask ∧
      hdrCrc (s.seen p).buf (s.seen p).place = true)
    ⟨fun ⟨h₁, h₂, h₃⟩ => ⟨h₁, h₂, h₃⟩, fun h => ⟨h.toLooks, h.magic, h.hdrCrc⟩⟩

instance : Decidable (s.Takes p) :=
  decidable_of_iff (s.Accepts p ∧ s.ofs + totlen (s.seen p).buf (s.seen p).place ≤ s.sectorEnd p)
    ⟨fun ⟨h₁, h₂⟩ => ⟨h₁, h₂⟩, fun h => ⟨h.toAccepts, h.inside⟩⟩

instance : Decidable (s.TakesInode p) := inferInstanceAs (Decidable (_ ∧ _))

instance : Decidable (s.TakesDirent p) := inferInstanceAs (Decidable (_ ∧ _))

instance (len : Nat) : Decidable (s.RunsOver p len) := inferInstanceAs (Decidable (_ ∧ _))

/-- What a clean step asks, by its phase. -/
def Scan.CleanStep (p : PartInfo) (s : Scan) : Prop :=
  match s.phase with
  | .sector => True
  | .start k => k + s.sectorOfs p < 4294967296
  | .empty e => if s.place < e then s.ofs + 4 < 4294967296 else s.ofs ≤ s.sectorEnd p
  | .more =>
    (s.ofs < s.sectorEnd p → s.ofs + unknownNodeSize < 4294967296) ∧
    (s.Looks p → s.bufOfs + s.bufLen < 4294967296) ∧
    (s.Accepts p → s.ofs + (totlen (s.seen p).buf (s.seen p).place + 3) < 4294967296) ∧
    (s.TakesInode p → s.ofs + rawInodeSize < 4294967296 ∧ ¬s.RunsOver p rawInodeSize) ∧
    (s.TakesDirent p → s.ofs + s.direntLength p < 4294967296 ∧
      (s.seen p).place + 29 ≤ defaultEmptyScanSize ∧ ¬s.RunsOver p (s.direntLength p))

instance : Decidable (s.CleanStep p) := by
  unfold Scan.CleanStep
  cases s.phase <;> infer_instance

theorem Scan.CleanStep.clean (h : s.CleanStep p) : s.Clean p := by
  unfold Scan.CleanStep at h
  by_cases hmore : s.phase = .more
  · rw [hmore] at h
    obtain ⟨hheader, hbuffer, hround, hinode, hdirent⟩ := h
    refine ⟨fun hw => ?_, fun hc => ?_, fun hi => (hinode hi).2, fun hd => (hdirent hd).2.2⟩
    · cases hw with
      | start k h => cases hmore.symm.trans h
      | seen _ ho _ hw =>
        have hlt := hheader ho
        unfold unknownNodeSize at hlt
        omega
      | header _ ho _ hw => exact absurd (hheader ho) (by omega)
      | buffer h hw => exact absurd (hbuffer h) (by omega)
      | totlen h hw => exact absurd (hround h) (by omega)
      | round h hw => exact absurd (hround h.toAccepts) (by omega)
      | inode h hw => exact absurd (hinode h).1 (by omega)
      | dirent h hw => exact absurd (hdirent h).1 (by omega)
      | gap e h => cases hmore.symm.trans h
      | left e h => cases hmore.symm.trans h
    · exact absurd (hdirent hc.1).2.1 (not_le.mpr hc.2)
  · have hlooks : ¬s.Looks p := fun h => hmore h.more
    refine ⟨fun hw => ?_, fun hc => hlooks hc.1.1.toLooks, fun hi => absurd hi.1.toLooks hlooks,
      fun hd => absurd hd.1.toLooks hlooks⟩
    cases hw with
    | start k hp hw =>
      rw [hp] at h
      exact absurd h (not_lt.mpr hw)
    | seen h => exact hmore h
    | header h => exact hmore h
    | buffer h => exact hlooks h
    | totlen h => exact hlooks h.toLooks
    | round h => exact hlooks h.toLooks
    | inode h => exact hlooks h.1.toLooks
    | dirent h => exact hlooks h.1.toLooks
    | gap e hp hin hw =>
      rw [hp] at h
      dsimp only at h
      rw [if_pos hin] at h
      omega
    | left e hp hout hw =>
      rw [hp] at h
      dsimp only at h
      rw [if_neg (not_lt.mpr hout)] at h
      omega

def dataNode : List UInt8 :=
  [0x85, 0x19, 2, 0xe0, 68, 0, 0, 0, 29, 251, 247, 152, 2, 0, 0, 0, 1, 0, 0, 0] ++ List.replicate 40 0 ++
    [0, 0, 0, 0, 218, 225, 75, 81]

def entryNode : List UInt8 :=
  [0x85, 0x19, 1, 0xe0, 44, 0, 0, 0, 95, 86, 241, 224, 1, 0, 0, 0, 1, 0, 0, 0, 2, 0, 0, 0, 0, 0, 0, 0,
    4, 8, 0, 0, 167, 242, 69, 166, 216, 113, 169, 103, 98, 111, 111, 116]

def twoSectors : PartInfo where
  dev := {
    size := 320
    data := store (store (store (fun _ => 0xff) 0 dataNode) 80 entryNode) 164 dataNode
    beyond := fun _ _ buf => buf
    size_lt := by decide }
  offset := 0
  size := 320
  sectorSize := 160
  inside := by decide

end UBoot.Jffs2
