import Mathlib.Algebra.GroupWithZero.Nat
import UBoot.NandErase

namespace UBoot

/-- `struct nand_bbt_descr` of a table in memory, whose pattern is all 0xff. -/
structure BbtDescr where
  scan2ndPage : Bool
  offs : Nat
  len : Nat

def largepageMemorybased : BbtDescr := ⟨false, 0, 2⟩

/-- A scan of the device: whether memory is got, the descriptor, the table in the flash of a chip that keeps
one there, and what `read_oob` makes of a page. -/
structure BbtScan where
  kzalloc : Bool
  vmalloc : Bool
  td : Option (List Bool)
  bd : BbtDescr
  size : Nat
  readOob : Nat → Int × List UInt8

/-- What stays the same of the device. -/
structure EraseChip where
  erasesize : Nat
  writesize : Nat
  oobavail : Nat
  hasBlocks : 0 < erasesize
  isUint32 : erasesize < 2 ^ 32

/-- What the methods of the device return for a block. -/
structure EraseOutcomes where
  isbad : Nat → Int
  erase : Nat → Int
  writeOob : Nat → Int

/-- The fields of the chip, the local variable `nand_block_bad_old`, and the blocks that were erased. A
method has the type `μ`. -/
structure ScrubState (μ : Type) where
  blockBad : μ
  bbt : Option (List Bool)
  nandBlockBadOld : Option μ
  erased : List Nat

/-- `struct nand_erase_options` with its words of the machine. -/
structure UlongOptions where
  length : UInt32
  offset : UInt32
  jffs2 : Bool
  scrub : Bool

def UlongOptions.toNat (opts : UlongOptions) : NandEraseOptions :=
  ⟨opts.length.toNat, opts.offset.toNat, opts.jffs2, opts.scrub⟩

def checkShortPattern (bd : BbtDescr) (buf : List UInt8) : Bool :=
  (List.range bd.len).any fun i => buf.getD (bd.offs + i) 0 ≠ 0xff

def scanBlockFast (c : EraseChip) (scan : BbtScan) : Nat → Nat → Int
  | 0, _ => 0
  | len + 1, offs =>
    match scan.readOob offs with
    | (ret, buf) =>
      if ret ≠ 0 then ret
      else if checkShortPattern scan.bd buf then 1
      else scanBlockFast c scan len (offs + c.writesize)

def createBbt (c : EraseChip) (scan : BbtScan) : List Nat → Option (List Bool)
  | [] => some []
  | block :: rest =>
    let ret := scanBlockFast c scan (if scan.bd.scan2ndPage then 2 else 1) block
    if ret < 0 then none else (createBbt c scan rest).map (decide (ret ≠ 0) :: ·)

/-- The table behind `nand_scan_bbt`. -/
def nandScanBbt (c : EraseChip) (scan : BbtScan) : Option (List Bool) :=
  if scan.kzalloc then
    match scan.td with
    | none => createBbt c scan (blocks c.erasesize 0 scan.size)
    | some table => if scan.vmalloc then some table else none
  else none

variable {μ : Type} (c : EraseChip) (o : EraseOutcomes) (nandBlockBadScrub : μ) (scan : BbtScan)

def EraseChip.device : EraseDevice (ScrubState μ) where
  erasesize := c.erasesize
  oobavail := c.oobavail
  blockIsbad _ a := o.isbad (a / c.erasesize)
  erase s a :=
    let result := o.erase (a / c.erasesize)
    (some result, if result = 0 then { s with erased := a / c.erasesize :: s.erased } else s)
  setOps _ s := s
  writeOob s a := (some (o.writeOob (a / c.erasesize)), s)
  beginScrub s := { s with nandBlockBadOld := some s.blockBad, blockBad := nandBlockBadScrub, bbt := none }
  endScrub s :=
    match s.nandBlockBadOld with
    | none => s
    | some old => { s with blockBad := old, bbt := nandScanBbt c scan }

/-- `nand_erase_opts`, where `offset + erase_length` is a word of the machine. -/
def nandEraseOptsUlong {σ : Type} (d : EraseDevice σ) (opts : NandEraseOptions) (s : σ) : Option Int × σ :=
  let s := if opts.scrub then d.beginScrub s else s
  let length := if opts.length < d.erasesize then d.erasesize else opts.length
  match eraseLoop d opts (blocks d.erasesize opts.offset ((opts.offset + length) % 2 ^ 32 - opts.offset)) s with
  | (some 0, s) => (some 0, if opts.scrub then d.endScrub s else s)
  | r => r

def UlongOptions.InRange (opts : UlongOptions) (c : EraseChip) (b : Nat) : Prop :=
  ∃ x, opts.offset.toNat ≤ x ∧ x < opts.offset.toNat + opts.length.toNat ∧ x / c.erasesize = b

/-- A block that the loop goes through. The end of the range does not wrap. -/
def UlongOptions.Reaches (opts : UlongOptions) (c : EraseChip) (b : Nat) : Prop :=
  opts.offset.toNat + max opts.length.toNat c.erasesize < 2 ^ 32 ∧
    ∃ k, b = opts.offset.toNat / c.erasesize + k ∧ k * c.erasesize < max opts.length.toNat c.erasesize

def UlongOptions.Wants (opts : UlongOptions) (o : EraseOutcomes) (b : Nat) : Prop := opts.scrub = true ∨ o.isbad b = 0

instance (opts : UlongOptions) (o : EraseOutcomes) (b : Nat) : Decidable (opts.Wants o b) :=
  inferInstanceAs (Decidable (_ ∨ _))

/-- The return code and the chip tell what happened to the blocks. -/
structure Truthful (opts : UlongOptions) (s : ScrubState μ) (r : Option Int × ScrubState μ) : Prop where
  erased : r.1 = some 0 → ∀ b, opts.InRange c b → opts.Wants o b → b ∈ r.2.erased
  blockBad : r.2.blockBad = s.blockBad
  bbt : s.bbt.isSome → r.2.bbt.isSome

variable {c o nandBlockBadScrub scan} {opts : UlongOptions} {s : ScrubState μ} {a b : Nat} {as : List Nat}

theorem mem_loop_iff : (∃ a ∈ blocks c.erasesize opts.offset.toNat
      ((opts.offset.toNat + max opts.length.toNat c.erasesize) % 2 ^ 32 - opts.offset.toNat), a / c.erasesize = b) ↔
    opts.Reaches c b := by
  have hpos := c.hasBlocks
  have hbound := c.isUint32
  have hlength := opts.length.toNat_lt
  have hblock : ∀ k, (opts.offset.toNat + k * c.erasesize) / c.erasesize = opts.offset.toNat / c.erasesize + k :=
    fun k => Nat.add_mul_div_right _ k hpos
  unfold UlongOptions.Reaches
  by_cases hwrap : opts.offset.toNat + max opts.length.toNat c.erasesize < 2 ^ 32
  · rw [Nat.mod_eq_of_lt hwrap, Nat.add_sub_cancel_left]
    constructor
    · rintro ⟨a, ha, hb⟩
      obtain ⟨k, rfl, hk⟩ := (mem_blocks hpos).mp ha
      exact ⟨hwrap, k, by rw [← hb, hblock], hk⟩
    · rintro ⟨_, k, rfl, hk⟩
      exact ⟨_, (mem_blocks hpos).mpr ⟨k, rfl, hk⟩, hblock k⟩
  · refine iff_of_false ?_ fun h => hwrap h.1
    rintro ⟨a, ha, _⟩
    obtain ⟨k, _, hk⟩ := (mem_blocks hpos).mp ha
    omega

theorem eraseLoop_round : (opts.scrub = false ∧ o.isbad (a / c.erasesize) < 0 ∧
      eraseLoop (c.device o nandBlockBadScrub scan) opts.toNat (a :: as) s = (some (-1), s)) ∨
    (¬(opts.scrub = false ∧ o.isbad (a / c.erasesize) < 0) ∧
      ∃ s', eraseLoop (c.device o nandBlockBadScrub scan) opts.toNat (a :: as) s =
          eraseLoop (c.device o nandBlockBadScrub scan) opts.toNat as s' ∧
        s' = if opts.Wants o (a / c.erasesize) ∧ o.erase (a / c.erasesize) = 0 then
          { s with erased := a / c.erasesize :: s.erased } else s) := by
  by_cases hfail : opts.scrub = false ∧ o.isbad (a / c.erasesize) < 0
  · left
    refine ⟨hfail.1, hfail.2, ?_⟩
    unfold eraseLoop
    have hret : (if opts.toNat.scrub then 0 else (c.device o nandBlockBadScrub scan).blockIsbad s a) =
        o.isbad (a / c.erasesize) := if_neg (by rw [show opts.toNat.scrub = opts.scrub from rfl, hfail.1]; decide)
    rw [hret, if_neg (by omega), if_pos hfail.2]
  · refine .inr ⟨hfail, ?_⟩
    obtain ⟨ret, hret⟩ : ∃ ret : Int, ret = if opts.scrub then 0 else o.isbad (a / c.erasesize) := ⟨_, rfl⟩
    have hcases : (opts.scrub = true ∧ ret = 0) ∨ (opts.scrub = false ∧ ret = o.isbad (a / c.erasesize)) := by
      cases hscrub : opts.scrub with
      | true => exact .inl ⟨rfl, hret.trans (if_pos hscrub)⟩
      | false => exact .inr ⟨rfl, hret.trans (if_neg (by rw [hscrub]; decide))⟩
    have hwants : opts.Wants o (a / c.erasesize) ↔ ret = 0 := by
      unfold UlongOptions.Wants
      rcases hcases with ⟨hscrub, hzero⟩ | ⟨hscrub, hisbad⟩
      · exact iff_of_true (.inl hscrub) hzero
      · rw [hisbad, hscrub, or_iff_right Bool.false_ne_true]
    have hnonneg : ¬ret < 0 := by
      rcases hcases with ⟨_, hzero⟩ | ⟨hscrub, hisbad⟩
      · omega
      · exact fun h => hfail ⟨hscrub, hisbad ▸ h⟩
    have hskip : (if opts.toNat.scrub then 0 else (c.device o nandBlockBadScrub scan).blockIsbad s a) = ret := hret.symm
    have herase : (c.device o nandBlockBadScrub scan).erase s a = (some (o.erase (a / c.erasesize)),
      if o.erase (a / c.erasesize) = 0 then { s with erased := a / c.erasesize :: s.erased } else s) := rfl
    rw [eraseLoop, hskip, herase]
    dsimp only
    by_cases hbad : 0 < ret
    · rw [if_pos hbad]
      exact ⟨s, rfl, (if_neg fun h => absurd (hwants.mp h.1) (by omega)).symm⟩
    · rw [if_neg hbad, if_neg hnonneg]
      have hzero : ret = 0 := by omega
      by_cases he : o.erase (a / c.erasesize) = 0
      · rw [if_neg (not_not.mpr he), if_pos he]
        -- the code of `write_oob` is only printed
        exact ⟨_, ite_self _, (if_pos ⟨hwants.mpr hzero, he⟩).symm⟩
      · rw [if_pos he, if_neg he]
        exact ⟨s, rfl, (if_neg fun h => he h.2).symm⟩

variable (c o nandBlockBadScrub scan opts s as) in
theorem eraseLoop_device : ∃ rc erased,
    eraseLoop (c.device o nandBlockBadScrub scan) opts.toNat as s = (some rc, { s with erased := erased }) ∧
      ((opts.scrub = false ∧ (∃ a ∈ as, o.isbad (a / c.erasesize) < 0) ∧ rc = -1) ∨
        (¬(opts.scrub = false ∧ ∃ a ∈ as, o.isbad (a / c.erasesize) < 0) ∧ rc = 0 ∧
          ∀ b, b ∈ erased ↔ b ∈ s.erased ∨ (∃ a ∈ as, a / c.erasesize = b) ∧ opts.Wants o b ∧ o.erase b = 0)) := by
  induction as generalizing s with
  | nil =>
    refine ⟨0, s.erased, rfl, .inr ⟨?_, rfl, fun b => ?_⟩⟩
    · rintro ⟨_, a, ha, _⟩
      cases ha
    · simp
  | cons a as ih =>
    rcases eraseLoop_round with ⟨hscrub, hfail, hrun⟩ | ⟨hgood, s', hrun, hs'⟩
    · exact ⟨-1, s.erased, hrun, .inl ⟨hscrub, ⟨a, List.mem_cons_self, hfail⟩, rfl⟩⟩
    · obtain ⟨rc, erased, hloop, hcases⟩ := ih s'
      have hkeep : ({ s' with erased := erased } : ScrubState μ) = { s with erased := erased } := by
        rw [hs']
        split
        · rfl
        · rfl
      refine ⟨rc, erased, by rw [hrun, hloop, hkeep], ?_⟩
      rcases hcases with ⟨hscrub, ⟨x, hx, hlt⟩, hrc⟩ | ⟨hgoods, hrc, hmem⟩
      · exact .inl ⟨hscrub, ⟨x, List.mem_cons_of_mem a hx, hlt⟩, hrc⟩
      · refine .inr ⟨?_, hrc, fun b => ?_⟩
        · rintro ⟨hscrub, x, hx, hlt⟩
          rcases List.mem_cons.mp hx with rfl | hx
          · exact hgood ⟨hscrub, hlt⟩
          · exact hgoods ⟨hscrub, x, hx, hlt⟩
        · have hfirst : b ∈ s'.erased ↔
              b ∈ s.erased ∨ a / c.erasesize = b ∧ opts.Wants o b ∧ o.erase b = 0 := by
            rw [hs']
            split
            next h =>
              rw [List.mem_cons, or_comm, eq_comm]
              exact or_congr_right ⟨fun hb => ⟨hb, hb ▸ h⟩, And.left⟩
            next h => exact ⟨.inl, fun hb => hb.elim id fun ⟨hab, hb⟩ => absurd (hab ▸ hb) h⟩
          rw [hmem, hfirst, or_assoc, List.exists_mem_cons_iff, or_and_right]

theorem nandEraseOptsUlong_ends {σ : Type} {d : EraseDevice σ} {opts : NandEraseOptions} {s s' : σ} {rc : Int}
    (hloop : eraseLoop d opts (blocks d.erasesize opts.offset
      ((opts.offset + max opts.length d.erasesize) % 2 ^ 32 - opts.offset))
      (if opts.scrub then d.beginScrub s else s) = (some rc, s')) :
    nandEraseOptsUlong d opts s = (some rc, if rc = 0 then if opts.scrub then d.endScrub s' else s' else s') := by
  have hmax : (if opts.length < d.erasesize then d.erasesize else opts.length) = max opts.length d.erasesize := by
    split <;> omega
  unfold nandEraseOptsUlong
  dsimp only
  rw [hmax, hloop]
  split
  next heq =>
    cases heq
    rfl
  next hne =>
    rw [if_neg]
    rintro rfl
    exact hne s' rfl

/-- `nand_erase_opts` tells what happened exactly if it stops at a block whose test fails, or it reaches each
block that it is asked to erase, all of them are erased, and the scan after a scrub gets its table. -/
theorem nand_erase_opts_truthful_iff :
    Truthful c o opts s (nandEraseOptsUlong (c.device o nandBlockBadScrub scan) opts.toNat { s with erased := [] }) ↔
      (opts.scrub = false ∧ ∃ b, opts.Reaches c b ∧ o.isbad b < 0) ∨
        ((∀ b, opts.InRange c b → opts.Wants o b → opts.Reaches c b ∧ o.erase b = 0) ∧
          (opts.scrub = true → s.bbt.isSome → (nandScanBbt c scan).isSome)) := by
  obtain ⟨as, has⟩ : ∃ as, as = blocks c.erasesize opts.offset.toNat
      ((opts.offset.toNat + max opts.length.toNat c.erasesize) % 2 ^ 32 - opts.offset.toNat) := ⟨_, rfl⟩
  have hreach : ∀ b, (∃ a ∈ as, a / c.erasesize = b) ↔ opts.Reaches c b := fun b => has ▸ mem_loop_iff
  have hstop : (∃ a ∈ as, o.isbad (a / c.erasesize) < 0) ↔ ∃ b, opts.Reaches c b ∧ o.isbad b < 0 := by
    constructor
    · rintro ⟨a, ha, hlt⟩
      exact ⟨_, (hreach _).mp ⟨a, ha, rfl⟩, hlt⟩
    · rintro ⟨b, hb, hlt⟩
      obtain ⟨a, ha, rfl⟩ := (hreach b).mpr hb
      exact ⟨a, ha, hlt⟩
  have herased : ∀ erased : List Nat, (∀ b, b ∈ erased ↔
      b ∈ [] ∨ (∃ a ∈ as, a / c.erasesize = b) ∧ opts.Wants o b ∧ o.erase b = 0) →
      ((∀ b, opts.InRange c b → opts.Wants o b → b ∈ erased) ↔
        ∀ b, opts.InRange c b → opts.Wants o b → opts.Reaches c b ∧ o.erase b = 0) := by
    intro erased hmem
    refine forall_congr' fun b => imp_congr_right fun _ => imp_congr_right fun hwants => ?_
    rw [hmem, or_iff_right List.not_mem_nil, hreach, and_iff_right hwants]
  obtain ⟨length, offset, jffs2, scrub⟩ := opts
  cases scrub with
  | false =>
    obtain ⟨rc, erased, hloop, hcases⟩ := eraseLoop_device c o nandBlockBadScrub scan ⟨length, offset, jffs2, false⟩
      { s with erased := [] } as
    have hrun : nandEraseOptsUlong (c.device o nandBlockBadScrub scan) (UlongOptions.toNat ⟨length, offset, jffs2, false⟩)
        { s with erased := [] } = (some rc, { s with erased := erased }) := by
      rw [has] at hloop
      rw [nandEraseOptsUlong_ends hloop]
      exact Prod.ext rfl (ite_self _)
    rw [hrun]
    rcases hcases with ⟨_, hneg, rfl⟩ | ⟨hgood, rfl, hmem⟩
    · exact iff_of_true ⟨fun h => absurd (Option.some.inj h) (by decide), rfl, id⟩ (.inl ⟨rfl, hstop.mp hneg⟩)
    · rw [or_iff_right fun h => hgood ⟨rfl, hstop.mpr h.2⟩, ← herased erased hmem]
      exact ⟨fun h => ⟨h.erased rfl, Bool.noConfusion⟩, fun h => ⟨fun _ => h.1, rfl, id⟩⟩
  | true =>
    obtain ⟨rc, erased, hloop, hcases⟩ := eraseLoop_device c o nandBlockBadScrub scan ⟨length, offset, jffs2, true⟩
      ⟨nandBlockBadScrub, none, some s.blockBad, []⟩ as
    rcases hcases with ⟨hscrub, _⟩ | ⟨_, rfl, hmem⟩
    · cases hscrub
    have hrun : nandEraseOptsUlong (c.device o nandBlockBadScrub scan) (UlongOptions.toNat ⟨length, offset, jffs2, true⟩)
        { s with erased := [] } = (some 0, ⟨s.blockBad, nandScanBbt c scan, some s.blockBad, erased⟩) := by
      rw [has] at hloop
      rw [nandEraseOptsUlong_ends hloop]
      rfl
    rw [hrun, or_iff_right fun h => Bool.noConfusion h.1, ← herased erased hmem]
    exact ⟨fun h => ⟨h.erased rfl, fun _ => h.bbt⟩, fun h => ⟨fun _ => h.1, rfl, h.2 rfl⟩⟩

/-- A block whose erase fails is reported on the console, and the code is still 0. -/
theorem failed_erase_returns_zero :
    ¬Truthful ⟨131072, 2048, 0, by decide, by decide⟩ ⟨fun _ => 0, fun _ => -5, fun _ => 0⟩ ⟨131072, 0, false, false⟩
      ⟨(), none, none, []⟩
      (nandEraseOptsUlong (EraseChip.device ⟨131072, 2048, 0, by decide, by decide⟩
        ⟨fun _ => 0, fun _ => -5, fun _ => 0⟩ () ⟨true, true, none, largepageMemorybased, 0, fun _ => (0, [])⟩)
        (UlongOptions.toNat ⟨131072, 0, false, false⟩) ⟨(), none, none, []⟩) := by
  intro h
  have hmem := h.erased rfl 0 ⟨0, le_refl 0, by decide, rfl⟩ (.inr rfl)
  cases hmem

end UBoot
