import UBoot.PartAmigaEnds

namespace UBoot.Part

open Loops
open Loops.Comp (returns_bind returns_pure returns_pure_iff safe_bind safe_pure)

variable {o : ByteOrder} {d : BlockDev} {limit part : Int} {b : Block}

theorem printPartAmiga_safe : (printPartAmiga o d limit).Safe ↔ d.WordsFit o amigaIdRdisk limit ∧
    ∀ rdb, getRdisk o d limit = some (some rdb) → d.WordsFit o amigaIdBoot limit ∧
      d.ListEnds o (rdb.partitionList o) ∧ ∀ y p, d.Listed o (rdb.partitionList o) y → d.PartBlock o y p →
        sumBlock o p = some false := by
  unfold printPartAmiga
  rw [safe_bind, ← findBlock_scanned, ← findBlock_scanned]
  simp only [returns_pure_iff]
  constructor
  · rintro ⟨rdb, hrdb, hsafe⟩
    refine ⟨⟨rdb, hrdb.symm⟩, fun rdb' hrdb' => ?_⟩
    cases hrdb.trans hrdb'
    obtain ⟨names, hnames, hboot⟩ := safe_bind.mp hsafe
    obtain ⟨r, hr⟩ := safe_pure.mp hboot
    obtain ⟨boot, hboot, -⟩ := Option.map_eq_some_iff.mp hr
    exact ⟨⟨boot, hboot⟩, print_list_iff.mp ⟨names, loop_returns_some.mp hnames⟩⟩
  · rintro ⟨⟨rdb, hrdb⟩, hlist⟩
    refine ⟨rdb, hrdb.symm, ?_⟩
    cases rdb with
    | none => exact safe_pure.mpr ⟨_, rfl⟩
    | some rdb =>
      obtain ⟨⟨boot, hboot⟩, hends⟩ := hlist rdb hrdb
      obtain ⟨names, hnames⟩ := print_list_iff.mpr hends
      refine safe_bind.mpr ⟨names, loop_returns_some.mpr hnames, safe_pure.mpr ⟨(names, boot.isSome), ?_⟩⟩
      unfold getBootcode
      rw [hboot]
      rfl

theorem amigaInfo_some (o : ByteOrder) (rdb : Block) {p : Block} : (∃ info, amigaInfo o rdb p = some info) ↔ p.driveName.length ≤ 31 := by
  unfold amigaInfo
  constructor
  · rintro ⟨info, h⟩
    obtain ⟨name, hname, -⟩ := Option.bind_eq_some_iff.mp h
    unfold Field.write at hname
    split at hname
    next hfits =>
      rw [List.length_append, List.length_singleton] at hfits
      omega
    · cases hname
  · intro h
    have hfits : (p.driveName ++ [0]).length ≤ 32 := by
      rw [List.length_append, List.length_singleton]
      omega
    rw [Field.write_fits hfits]
    exact ⟨_, rfl⟩

theorem getPartitionInfoAmiga_safe (hrdisk : d.WordsFit o amigaIdRdisk limit)
    (hlist : ∀ rdb, getRdisk o d limit = some (some rdb) → d.ListEnds o (rdb.partitionList o) ∧
      ∀ y p, d.Listed o (rdb.partitionList o) y → d.PartBlock o y p → sumBlock o p = some false) :
    (∀ part, (getPartitionInfoAmiga o d limit part).Safe) ↔ ∀ rdb, getRdisk o d limit = some (some rdb) →
      ∀ y p, d.Listed o (rdb.partitionList o) y → d.PartBlock o y p → p.driveName.length ≤ 31 := by
  constructor
  · intro h rdb hrdb y p hy hp
    obtain ⟨k, hk⟩ := find_listed (hlist rdb hrdb).2 hy hp
    obtain ⟨info, hinfo⟩ := h ((k : Int) + 1)
    have hfound : (findPartition o d limit ((k : Int) + 1 - 1)).Returns (some (some (rdb, p))) := by
      rw [Int.add_sub_cancel]
      refine returns_bind.mpr ⟨some (some rdb), returns_pure_iff.mpr hrdb.symm, ?_⟩
      exact returns_bind.mpr ⟨some (some p), loop_returns_some.mpr hk, returns_pure _⟩
    obtain ⟨x, hx, hrest⟩ := returns_bind.mp hinfo
    rw [hx.unique hfound] at hrest
    obtain ⟨info', hinfo', -⟩ := Option.map_eq_some_iff.mp (returns_pure_iff.mp hrest).symm
    exact (amigaInfo_some o rdb).mp ⟨info', hinfo'⟩
  · intro h part
    obtain ⟨rdb, hrdb⟩ := findBlock_scanned.mpr hrdisk
    change getRdisk o d limit = some rdb at hrdb
    unfold getPartitionInfoAmiga findPartition
    rw [hrdb]
    cases rdb with
    | none =>
      refine safe_bind.mpr ⟨none, returns_bind.mpr ⟨some none, returns_pure _, returns_pure _⟩, ?_⟩
      exact safe_pure.mpr ⟨_, rfl⟩
    | some rdb =>
      obtain ⟨hends, hsums⟩ := hlist rdb hrdb
      obtain ⟨r, hr, hfound⟩ := find_list hends hsums (part - 1)
      refine safe_bind.mpr ⟨r.map fun p => (rdb, p), ?_, ?_⟩
      · refine returns_bind.mpr ⟨some (some rdb), returns_pure _, ?_⟩
        exact returns_bind.mpr ⟨some r, loop_returns_some.mpr hr, returns_pure _⟩
      · cases r with
        | none => exact safe_pure.mpr ⟨_, rfl⟩
        | some p =>
          obtain ⟨y, hy, hp⟩ := hfound p rfl
          obtain ⟨info, hinfo⟩ := (amigaInfo_some o rdb).mpr (h rdb hrdb y p hy hp)
          refine safe_pure.mpr ⟨some info, ?_⟩
          rw [hinfo]
          rfl

theorem readPartitionMap_lt {i : UInt32} (h : readPartitionMap o d i = some b) : i < d.lba := by
  rw [← UInt32.not_le]
  intro hle
  unfold readPartitionMap at h
  rw [d.beyond i hle] at h
  cases h

theorem divide_some {a n : Nat} : (∃ q, divide a n = some q) ↔ n ≠ 0 := by
  unfold divide
  constructor
  · rintro ⟨q, h⟩ rfl
    cases h
  · exact fun h => ⟨_, if_neg h⟩

theorem mac_finishes {blkSize : Nat} (hpos : blkSize ≠ 0) (hle : blkSize ≤ 1024) (s : UInt32 × UInt32) :
    Finishes (macRound o d blkSize) s () := by
  obtain ⟨n, hn⟩ : ∃ n, n = d.lba.toNat - s.1.toNat := ⟨_, rfl⟩
  induction n using Nat.strong_induction_on generalizing s with
  | _ n ih =>
    have hperKb : 1024 / blkSize ≠ 0 := by
      rw [Nat.div_ne_zero_iff]
      omega
    by_cases hmore : s.1 ≤ s.2
    · cases hread : readPartitionMap o d s.1 with
      | none =>
        refine .done ?_
        unfold macRound
        rw [if_pos hmore, hread]
      | some mpart =>
        have hlt : s.1.toNat < d.lba.toNat := readPartitionMap_lt hread
        have hlba := d.lba.toNat_lt
        have hnext : (s.1 + 1).toNat = s.1.toNat + 1 := by
          rw [UInt32.toNat_add]
          exact Nat.mod_eq_of_lt (by change s.1.toNat + 1 < _; omega)
        refine .again (t := (s.1 + 1, mpart.long o 1)) ?_ (ih _ ?_ _ rfl)
        · unfold macRound
          rw [if_pos hmore, hread]
          dsimp only
          rw [divide, if_neg hpos, Option.bind_some, divide, if_neg hperKb]
          rfl
        · dsimp only
          omega
    · exact .done (if_neg hmore)

theorem printPartMac_safe : (printPartMac o d).Safe ↔ ∀ ddb, partMacReadDdb o d = some ddb →
    ddb.blkSize o ≠ 0 ∧ (ddb.blkSize o ≤ 1024 ∨ readPartitionMap o d 1 = none) := by
  unfold printPartMac
  cases hddb : partMacReadDdb o d with
  | none => exact iff_of_true (safe_pure.mpr ⟨(), rfl⟩) fun ddb h => by cases h
  | some ddb =>
    rw [safe_bind]
    have hsize := (ddb.half o 1).toNat_lt
    have hperMb : ddb.blkSize o ≠ 0 → 1024 * 1024 / ddb.blkSize o ≠ 0 := by
      intro hpos
      rw [Nat.div_ne_zero_iff]
      change _ ∧ (ddb.half o 1).toNat ≤ _
      omega
    constructor
    · rintro ⟨q, hq, hloop⟩ ddb' hddb'
      cases hddb'
      have hpos : ddb.blkSize o ≠ 0 := by
        obtain ⟨perMb, hperMb, -⟩ := Option.bind_eq_some_iff.mp (returns_pure_iff.mp hq).symm
        exact divide_some.mp ⟨perMb, hperMb⟩
      refine ⟨hpos, ?_⟩
      rcases lt_or_ge 1024 (ddb.blkSize o) with hlarge | hle
      · right
        cases hread : readPartitionMap o d 1 with
        | none => rfl
        | some mpart =>
          exfalso
          have hround : macRound o d (ddb.blkSize o) (1, 1) = none := by
            unfold macRound
            rw [if_pos (by decide)]
            rw [hread]
            dsimp only
            rw [divide, if_neg hpos, Option.bind_some, Nat.div_eq_of_lt hlarge]
            rfl
          obtain ⟨u, hu⟩ := hloop
          cases loop_returns_some.mp hu with
          | done h => cases hround.symm.trans h
          | again h => cases hround.symm.trans h
      · exact .inl hle
    · intro h
      obtain ⟨hpos, hsmall⟩ := h ddb rfl
      refine ⟨(ddb.long o 1).toNat / (1024 * 1024 / ddb.blkSize o), ?_, (), loop_returns_some.mpr ?_⟩
      · rw [returns_pure_iff, divide, if_neg hpos, Option.bind_some, divide, if_neg (hperMb hpos)]
      · rcases hsmall with hle | hnone
        · exact mac_finishes hpos hle _
        · refine .done ?_
          unfold macRound
          rw [if_pos (by decide), hnone]

theorem partMacReadPdb_ends (o : ByteOrder) (d : BlockDev) (part : Int) : (partMacReadPdb o d part).Ends := by
  have hpart : (Comp.loop (fun n => Comp.pure (pdbRound o d part n)) part).Ends := by
    cases hround : pdbRound o d part part with
    | inl n =>
      unfold pdbRound at hround
      split at hround
      · cases hround
      · rw [if_pos rfl] at hround
        cases hround
    | inr r => exact ⟨r, Comp.loop_done (returns_pure_iff.mpr hround.symm)⟩
  cases hround : pdbRound o d part 1 with
  | inl n =>
    obtain ⟨r, hr⟩ := hpart
    have hn : n = part := by
      unfold pdbRound at hround
      split at hround
      · cases hround
      · split at hround
        · cases hround
        · split at hround
          · cases hround
          · cases hround
            rfl
    rw [hn] at hround
    exact ⟨r, Comp.loop_again (returns_pure_iff.mpr hround.symm) hr⟩
  | inr r => exact ⟨r, Comp.loop_done (returns_pure_iff.mpr hround.symm)⟩

theorem bytes_length {start len : Nat} (h : start + len ≤ 512) : (b.bytes start len h).length = len :=
  List.length_ofFn

theorem macInfo_some (ddb mpart : Block) : ∃ info, macInfo o ddb mpart = some info := by
  have htype : (mpart.bytes 48 32 (by decide)).length ≤ 32 := le_of_eq (bytes_length _)
  have hname : (mpart.bytes 16 32 (by decide)).length ≤ 32 := le_of_eq (bytes_length _)
  unfold macInfo
  rw [Field.write_fits htype, Field.write_fits hname]
  exact ⟨_, rfl⟩

theorem getPartitionInfoMac_safe : (getPartitionInfoMac o d part).Safe := by
  unfold getPartitionInfoMac
  cases partMacReadDdb o d with
  | none => exact safe_pure.mpr ⟨none, rfl⟩
  | some ddb =>
    obtain ⟨pdb, hpdb⟩ := partMacReadPdb_ends o d part
    cases pdb with
    | none => exact ⟨none, returns_bind.mpr ⟨none, hpdb, returns_pure _⟩⟩
    | some mpart =>
      obtain ⟨info, hinfo⟩ := macInfo_some (o := o) ddb mpart
      refine ⟨some info, returns_bind.mpr ⟨some mpart, hpdb, returns_pure_iff.mpr ?_⟩⟩
      rw [hinfo]
      rfl

/-- The listings and the lookups end, and nothing fails in them: no read outside a block, no text longer than
its field and no division by zero. -/
structure Total (o : ByteOrder) (d : BlockDev) (limit : Int) : Prop where
  printDos : (printPartDos d).Ends
  lookupDos : ∀ part, (getPartitionInfoDos d part).Safe
  printAmiga : (printPartAmiga o d limit).Safe
  lookupAmiga : ∀ part, (getPartitionInfoAmiga o d limit part).Safe
  printMac : (printPartMac o d).Safe
  lookupMac : ∀ part, (getPartitionInfoMac o d part).Safe

/-- A disk none of whose tables leads the drivers astray. -/
structure BlockDev.Sound (d : BlockDev) (o : ByteOrder) (limit : Int) : Prop where
  records : Acc (fun t s => d.MbrLink s t) root
  firstRecords : Acc (fun t s => d.FirstLink s t) root
  rdisk : d.WordsFit o amigaIdRdisk limit
  boot : ∀ rdb, getRdisk o d limit = some (some rdb) → d.WordsFit o amigaIdBoot limit
  list : ∀ rdb, getRdisk o d limit = some (some rdb) → d.ListEnds o (rdb.partitionList o)
  blocks : ∀ rdb, getRdisk o d limit = some (some rdb) → ∀ y p, d.Listed o (rdb.partitionList o) y →
    d.PartBlock o y p → sumBlock o p = some false ∧ p.driveName.length ≤ 31
  blkSize : ∀ ddb, partMacReadDdb o d = some ddb →
    ddb.blkSize o ≠ 0 ∧ (ddb.blkSize o ≤ 1024 ∨ readPartitionMap o d 1 = none)

/-- The partition drivers are total exactly on the sound disks. -/
theorem partition_drivers_total_iff (o : ByteOrder) (d : BlockDev) (limit : Int) :
    Total o d limit ↔ d.Sound o limit := by
  constructor
  · intro h
    obtain ⟨hrdisk, hfound⟩ := printPartAmiga_safe.mp h.printAmiga
    have hnames := (getPartitionInfoAmiga_safe hrdisk fun rdb hrdb => (hfound rdb hrdb).2).mp h.lookupAmiga
    exact {
      records := printPartDos_ends.mp h.printDos
      firstRecords := getPartitionInfoDos_ends.mp fun part => getPartitionInfoDos_safe.mp (h.lookupDos part)
      rdisk := hrdisk
      boot := fun rdb hrdb => (hfound rdb hrdb).1
      list := fun rdb hrdb => (hfound rdb hrdb).2.1
      blocks := fun rdb hrdb y p hy hp => ⟨(hfound rdb hrdb).2.2 y p hy hp, hnames rdb hrdb y p hy hp⟩
      blkSize := printPartMac_safe.mp h.printMac }
  · intro h
    have hlist : ∀ rdb, getRdisk o d limit = some (some rdb) → d.ListEnds o (rdb.partitionList o) ∧
        ∀ y p, d.Listed o (rdb.partitionList o) y → d.PartBlock o y p → sumBlock o p = some false :=
      fun rdb hrdb => ⟨h.list rdb hrdb, fun y p hy hp => (h.blocks rdb hrdb y p hy hp).1⟩
    exact {
      printDos := printPartDos_ends.mpr h.records
      lookupDos := fun part => getPartitionInfoDos_safe.mpr (getPartitionInfoDos_ends.mpr h.firstRecords part)
      printAmiga := printPartAmiga_safe.mpr ⟨h.rdisk, fun rdb hrdb => ⟨h.boot rdb hrdb, hlist rdb hrdb⟩⟩
      lookupAmiga := (getPartitionInfoAmiga_safe h.rdisk hlist).mpr
        fun rdb hrdb y p hy hp => (h.blocks rdb hrdb y p hy hp).2
      printMac := printPartMac_safe.mpr h.blkSize
      lookupMac := fun _ => getPartitionInfoMac_safe }

def zeroBlkSizeDdb : Block := blockOf [(0, 0x52), (1, 0x45)]

def zeroBlkSize : BlockDev where
  ifType := .ide
  dev := 0
  lba := 1
  blockRead s := if s = 0 then some zeroBlkSizeDdb else none
  beyond s hs := by
    refine if_neg ?_
    rintro rfl
    exact absurd hs (by decide)

/-- The Macintosh listing divides by the block size on the disk. -/
theorem zero_block_size_divides : ¬∀ o d limit, Total o d limit := by
  intro h
  have hddb : partMacReadDdb .little zeroBlkSize = some zeroBlkSizeDdb := by
    change (if zeroBlkSizeDdb.half .little 0 = 0x4552 then some zeroBlkSizeDdb else none) = _
    rw [if_pos (by decide)]
  obtain ⟨hpos, -⟩ := printPartMac_safe.mp (h .little zeroBlkSize 16).printMac zeroBlkSizeDdb hddb
  exact hpos (by decide)

end UBoot.Part
