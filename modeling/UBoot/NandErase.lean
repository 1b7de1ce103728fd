import Mathlib.Data.List.Range

namespace UBoot

inductive OobMode
  | place
  | auto
  | raw
deriving DecidableEq

/-- `struct mtd_oob_ops`, as far as the callers fill it in. -/
structure MtdOobOps where
  mode : OobMode
  ooblen : Nat
  ooboffs : Nat
  datbuf : Option (List UInt8)
  oobbuf : Option (List UInt8)
deriving DecidableEq

def cleanmarker : List UInt8 := [0x85, 0x19, 0x03, 0x20, 8, 0, 0, 0]

structure NandEraseOptions where
  length : Nat
  offset : Nat
  jffs2 : Bool
  scrub : Bool

/-- What `nand_erase_opts` asks of a device. An operation without a return code is
one that power fails in. -/
structure EraseDevice (σ : Type) where
  erasesize : Nat
  oobavail : Nat
  blockIsbad : σ → Nat → Int
  erase : σ → Nat → Option Int × σ
  setOps : MtdOobOps → σ → σ
  writeOob : σ → Nat → Option Int × σ
  /-- Installs `nand_block_bad_scrub` and drops the table of bad blocks. -/
  beginScrub : σ → σ
  /-- Restores `block_bad` and scans the device. -/
  endScrub : σ → σ

/-- The addresses that a loop from `offset` in steps of `erasesize` goes through. -/
def blocks (erasesize offset length : Nat) : List Nat :=
  (List.range ((length + erasesize - 1) / erasesize)).map fun k => offset + k * erasesize

variable {σ : Type}

def eraseLoop (d : EraseDevice σ) (opts : NandEraseOptions) : List Nat → σ → Option Int × σ
  | [], s => (some 0, s)
  | a :: as, s =>
    let ret := if opts.scrub then 0 else d.blockIsbad s a
    if 0 < ret then eraseLoop d opts as s
    else if ret < 0 then (some (-1), s)
    else
      match d.erase s a with
      | (none, s) => (none, s)
      | (some result, s) =>
        -- a block that does not erase is reported on the console only
        if result ≠ 0 then eraseLoop d opts as s
        else if opts.jffs2 ∧ 8 ≤ d.oobavail then
          match d.writeOob (d.setOps ⟨.auto, 8, 0, none, some cleanmarker⟩ s) a with
          | (none, s) => (none, s)
          | (some _, s) => eraseLoop d opts as s
        else eraseLoop d opts as s

def nandEraseOpts (d : EraseDevice σ) (opts : NandEraseOptions) (s : σ) : Option Int × σ :=
  let s := if opts.scrub then d.beginScrub s else s
  let length := if opts.length < d.erasesize then d.erasesize else opts.length
  match eraseLoop d opts (blocks d.erasesize opts.offset length) s with
  | (some 0, s) => (some 0, if opts.scrub then d.endScrub s else s)
  | r => r

theorem nandEraseOpts_eq {d : EraseDevice σ} {opts : NandEraseOptions}
    (hbegin : ∀ s, (if opts.scrub then d.beginScrub s else s) = s)
    (hend : ∀ s, (if opts.scrub then d.endScrub s else s) = s) (s : σ) :
    nandEraseOpts d opts s =
      eraseLoop d opts (blocks d.erasesize opts.offset (max opts.length d.erasesize)) s := by
  have hlen : (if opts.length < d.erasesize then d.erasesize else opts.length) =
      max opts.length d.erasesize := by
    split <;> omega
  unfold nandEraseOpts
  simp only [hlen, hbegin, hend]
  split
  next h => exact h.symm
  · rfl

theorem eraseLoop_keeps {d : EraseDevice σ} {opts : NandEraseOptions} {q : σ → Prop} {as : List Nat}
    (hset : ∀ ops s, q s → q (d.setOps ops s)) (herase : ∀ a ∈ as, ∀ s, q s → q (d.erase s a).2)
    (hoob : ∀ a ∈ as, ∀ s, q s → q (d.writeOob s a).2) {s : σ} (hs : q s) :
    q (eraseLoop d opts as s).2 := by
  induction as generalizing s with
  | nil => exact hs
  | cons a as ih =>
    have ih' {s : σ} (hs : q s) : q (eraseLoop d opts as s).2 :=
      ih (fun x hx => herase x (List.mem_cons_of_mem a hx))
        (fun x hx => hoob x (List.mem_cons_of_mem a hx)) hs
    have he := herase a List.mem_cons_self s hs
    have ho (s : σ) (hs : q s) := hoob a List.mem_cons_self s hs
    rw [eraseLoop]
    generalize (if opts.scrub then 0 else d.blockIsbad s a) = ret
    split
    · exact ih' hs
    · split
      · exact hs
      · split
        next h =>
          rw [h] at he
          exact he
        next h =>
          rw [h] at he
          split
          · exact ih' he
          · split
            · split
              next h' =>
                have := ho _ (hset ⟨.auto, 8, 0, none, some cleanmarker⟩ _ he)
                rwa [h'] at this
              next h' =>
                have := ho _ (hset ⟨.auto, 8, 0, none, some cleanmarker⟩ _ he)
                rw [h'] at this
                exact ih' this
            · exact ih' he

theorem mem_blocks {erasesize offset length a : Nat} (he : 0 < erasesize) :
    a ∈ blocks erasesize offset length ↔ ∃ k, a = offset + k * erasesize ∧ k * erasesize < length := by
  simp only [blocks, List.mem_map, List.mem_range]
  constructor
  · rintro ⟨k, hk, rfl⟩
    refine ⟨k, rfl, ?_⟩
    have h := (Nat.le_div_iff_mul_le he).mp (Nat.succ_le_of_lt hk)
    rw [Nat.succ_mul] at h
    omega
  · rintro ⟨k, rfl, hk⟩
    refine ⟨k, Nat.lt_of_succ_le ((Nat.le_div_iff_mul_le he).mpr ?_), rfl⟩
    rw [Nat.succ_mul]
    omega

theorem blocks_spaced (erasesize offset length : Nat) :
    (blocks erasesize offset length).Pairwise fun a b => a + erasesize ≤ b := by
  rw [blocks, List.pairwise_map]
  refine List.pairwise_lt_range.imp fun {j k} h => ?_
  have hm := Nat.mul_le_mul_right erasesize (Nat.succ_le_of_lt h)
  rw [Nat.succ_mul] at hm
  omega

end UBoot
