import UBoot.NandCmd
import UBoot.NandRoundTrip

namespace UBoot

open GoodSpace List NandInfo

def Access.Inside (x : Access) (chip : Nat) (part : PartInfo) : Prop :=
  x.chip = chip ∧ part.offset ≤ x.first ∧ x.last ≤ part.offset + part.size

def PartInfo.capacity (part : PartInfo) (n : NandInfo) : Nat :=
  (goods n.good part.offset (part.offset + part.size)).length

/-- The purpose of a command that names a partition `part` of the device `dev`, by its result with so much fuel. A
size that the partition cannot hold is answered with an error, and nothing is done to the chip. -/
structure PartitionSafe (b : NandBoard) (dev : MtdDevice) (part : PartInfo) (verb : NandVerb)
    (rest : List (List UInt8)) (r : Nat → (Nat → Option NandEntry) × Option NandRun) : Prop where
  table : ∀ fuel, (r fuel).1 = b.table
  inside : ∀ fuel run, (r fuel).2 = some run → ∀ x ∈ run.log, x.Inside dev.num part
  refused : verb.Transfers → ∀ e size, b.table dev.num = some e → part.request rest = some size →
    part.capacity e.info < size →
      (∃ fuel run, (r fuel).2 = some run) ∧ ∀ fuel run, (r fuel).2 = some run → run.rc ≠ 0 ∧ run.log = []

variable {e : NandEntry} {w : Nat → Int × Nat} {part : PartInfo} {size fuel : Nat} {run : NandRun}

theorem access_inside {op : AccessOp} {ofs len : Nat} (hp : part.Valid e.info) (h₁ : part.offset ≤ ofs)
    (h₂ : ofs + len ≤ part.offset + part.size) : (e.access op ofs len).Inside e.chip part := by
  have hws : 0 < e.info.writesize := Nat.pos_of_dvd_of_pos e.info.wholePages e.info.erasable
  obtain ⟨j, hj⟩ := Nat.dvd_trans e.info.wholePages hp.startAligned
  obtain ⟨k, hk⟩ := Nat.dvd_trans e.info.wholePages (Nat.dvd_add hp.startAligned hp.sizeAligned)
  refine ⟨rfl, ?_, ?_⟩
  · have : j ≤ ofs / e.info.writesize := (Nat.le_div_iff_mul_le hws).mpr (by rw [mul_comm]; omega)
    rw [hj, mul_comm]
    exact Nat.mul_le_mul_right _ this
  · have : (ofs + len + e.info.writesize - 1) / e.info.writesize < k + 1 := by
      rw [Nat.div_lt_iff_lt_mul hws, Nat.succ_mul, mul_comm k]
      omega
    rw [hk, mul_comm e.info.writesize k]
    exact Nat.mul_le_mul_right _ (by omega)

theorem of_rc_ne {ret : Int} {log : List Access} (h : ret ≠ 0) : (NandRun.of ret log).rc ≠ 0 := by
  simp [NandRun.of, h]

section Transfer

variable {op : AccessOp} {whole : List Int} {ofs len p : Nat} {log : List Access}

theorem transfer_past (h : e.info.size < ofs + len) :
    e.transfer op whole w ofs len p log = ((-EINVAL, len), log) := by
  rw [NandEntry.transfer, if_pos h]

theorem transfer_whole (h : (e.transfer op whole w ofs len p log).1.1 ∈ whole) :
    (e.transfer op whole w ofs len p log).1.2 = len := by
  unfold NandEntry.transfer at *
  split
  next => rfl
  next h₁ =>
    split
    next => rfl
    next h₂ =>
      rw [if_neg h₁, if_neg h₂] at h
      exact if_pos h

theorem transfer_log : (e.transfer op whole w ofs len p log).2 = log ∨
    (e.transfer op whole w ofs len p log).2 = log ++ [e.access op ofs len] := by
  unfold NandEntry.transfer
  split
  next => exact .inl rfl
  next => split
          next => exact .inl rfl
          next => exact .inr rfl

end Transfer

/-- The device of the two commands that carry data, as the write loop takes it. -/
def NandEntry.device (e : NandEntry) (verb : NandVerb) (w : Nat → Int × Nat) : NandWrite (List Access) :=
  if verb = .read then accepting (e.read w) else e.write w

section Device

variable {verb : NandVerb} {ofs len p : Nat} {log : List Access}

theorem device_whole (h : (e.device verb w ofs len p log).1.1 = 0) :
    (e.device verb w ofs len p log).1.2 = len := by
  unfold NandEntry.device at *
  split
  next hv =>
    rw [if_pos hv] at h
    refine @transfer_whole e w .fetched [0, -EUCLEAN] ofs len p log ?_
    rw [accepting_rc] at h
    by_cases he : (e.read w ofs len p log).1.1 = -EUCLEAN
    · exact mem_cons_of_mem _ (mem_singleton.mpr he)
    · rw [if_neg he] at h
      exact mem_cons.mpr (.inl h)
  next hv =>
    rw [if_neg hv] at h
    exact @transfer_whole e w .programmed [0] ofs len p log (by simpa [NandEntry.write] using h)

theorem device_past (h : e.info.size < ofs + len) :
    (e.device verb w ofs len p log).1.1 ≠ 0 ∧ (e.device verb w ofs len p log).2 = log := by
  unfold NandEntry.device
  split
  · simp only [accepting, NandEntry.read, transfer_past h]
    exact ⟨by decide, trivial⟩
  · simp only [NandEntry.write, transfer_past h]
    exact ⟨by decide, trivial⟩

theorem device_log : (e.device verb w ofs len p log).2 = log ∨
    ∃ op, (e.device verb w ofs len p log).2 = log ++ [e.access op ofs len] := by
  unfold NandEntry.device
  split
  next => exact (@transfer_log e w .fetched [0, -EUCLEAN] ofs len p log).imp id fun h => ⟨_, h⟩
  next => exact (@transfer_log e w .programmed [0] ofs len p log).imp id fun h => ⟨_, h⟩

theorem device_fails (hlen : 0 < len) : (e.device verb (fun _ => (-EINVAL, 0)) ofs len p log).1.1 ≠ 0 ∧
      (ofs + len ≤ e.info.size → (e.device verb (fun _ => (-EINVAL, 0)) ofs len p log).2 ≠ []) := by
  have htransfer (op : AccessOp) (whole : List Int) :
      (e.transfer op whole (fun _ => (-EINVAL, 0)) ofs len p log).1.1 = -EINVAL ∧
        (ofs + len ≤ e.info.size → (e.transfer op whole (fun _ => (-EINVAL, 0)) ofs len p log).2 ≠ []) := by
    unfold NandEntry.transfer
    split
    next h => exact ⟨rfl, fun h' => absurd h' (by omega)⟩
    · rw [if_neg (by omega)]
      exact ⟨rfl, fun _ => by simp⟩
  unfold NandEntry.device
  split
  · obtain ⟨h₁, h₂⟩ := htransfer .fetched [0, -EUCLEAN]
    refine ⟨?_, h₂⟩
    simp only [accepting, NandEntry.read, h₁]
    decide
  · obtain ⟨h₁, h₂⟩ := htransfer .programmed [0]
    refine ⟨?_, h₂⟩
    simp only [NandEntry.write, h₁]
    decide

/-- What `nand write` asks of an offset and a size; `nand read` asks nothing. -/
def NandEntry.aligned (e : NandEntry) (verb : NandVerb) (off size : Nat) : Prop :=
  verb = .write → off % e.info.writesize = 0 ∧ size % e.info.writesize = 0

theorem command_eq (hv : verb.Transfers) (hn : e.info.Idle) {off : Nat} (ha : e.aligned verb off size) :
    e.command w fuel verb off size =
      (skipWrite e.info (e.device verb w) fuel off size []).map fun r => .of r.rc r.state := by
  rcases hv with rfl | rfl
  · simp only [NandEntry.command, nandReadSkipBad_eq hn, Option.map_map]
    rfl
  · have ha := ha rfl
    simp only [NandEntry.command, nandWriteSkipBad, hn.rwOob]
    rw [if_neg (by decide), if_neg (by omega)]
    rfl

theorem command_unaligned_eq (hn : e.info.Idle) {off : Nat} (ha : ¬e.aligned .write off size) :
    e.command w fuel .write off size = some (.of (-EINVAL) []) := by
  unfold NandEntry.aligned at ha
  simp only [NandEntry.command, nandWriteSkipBad, hn.rwOob]
  rw [if_neg (by decide), if_pos (by simp only [forall_const] at ha; omega)]
  rfl

theorem command_unaligned (hn : e.info.Idle) {off : Nat} (ha : ¬e.aligned .write off size)
    (h : e.command w fuel .write off size = some run) : run.rc ≠ 0 ∧ run.log = [] := by
  rw [command_unaligned_eq hn ha] at h
  cases Option.some.inj h
  exact ⟨of_rc_ne (show (-EINVAL : Int) ≠ 0 by decide), rfl⟩

/-- A chip on which all accesses succeed. -/
theorem device_works (h : ofs + len ≤ e.info.size) :
    (e.device verb (fun _ => (0, 0)) ofs len p log).1 = (0, len) := by
  have htransfer (op : AccessOp) {whole : List Int} (hwhole : 0 ∈ whole) :
      (e.transfer op whole (fun _ => (0, 0)) ofs len p log).1 = (0, len) := by
    unfold NandEntry.transfer
    rw [if_neg (by omega), if_pos hwhole]
    split
    next => rfl
    next => rfl
  unfold NandEntry.device
  split
  · have hread := @htransfer .fetched [0, -EUCLEAN] mem_cons_self
    simp [accepting, NandEntry.read, hread]
  next => exact htransfer .programmed mem_cons_self

end Device

theorem erase_inside {clean : Bool} (hp : part.Valid e.info) (hsize : size ≤ part.size)
    (h : e.command w fuel (.erase clean) part.offset size = some run) :
    ∀ x ∈ run.log, x.Inside e.chip part := by
  have hblock : ∀ a ∈ blocks e.info.erasesize part.offset (max size e.info.erasesize),
      part.offset ≤ a ∧ a + e.info.erasesize ≤ part.offset + part.size := by
    intro a ha
    obtain ⟨k, rfl, hk⟩ := (mem_blocks e.info.erasable).mp ha
    obtain ⟨q, hq⟩ := hp.sizeAligned
    have hlarge : e.info.erasesize ≤ part.size := Nat.le_of_dvd hp.nonempty hp.sizeAligned
    have hlt : k * e.info.erasesize < q * e.info.erasesize := by
      rw [mul_comm q, ← hq]
      omega
    have hle := Nat.mul_le_mul_right e.info.erasesize (Nat.succ_le_of_lt (Nat.lt_of_mul_lt_mul_right hlt))
    rw [mul_comm q, ← hq, Nat.succ_mul] at hle
    omega
  have hpage : e.info.writesize ≤ e.info.erasesize := Nat.le_of_dvd e.info.erasable e.info.wholePages
  have hlog {log : List Access} {op : AccessOp} {a len : Nat} (hlen : len ≤ e.info.erasesize)
      (ha : a ∈ blocks e.info.erasesize part.offset (max size e.info.erasesize))
      (hs : ∀ x ∈ log, x.Inside e.chip part) :
      ∀ x ∈ log ++ [e.access op a len], x.Inside e.chip part := by
    intro x hx
    rcases mem_append.mp hx with hx | hx
    · exact hs x hx
    · rw [mem_singleton.mp hx]
      have := hblock a ha
      exact access_inside hp this.1 (by omega)
  have hloop : ∀ x ∈ (eraseLoop (e.eraseDevice w) ⟨size, part.offset, clean, false⟩
      (blocks e.info.erasesize part.offset (max size e.info.erasesize)) []).2, x.Inside e.chip part :=
    eraseLoop_keeps (q := fun log : List Access => ∀ x ∈ log, x.Inside e.chip part) (fun _ _ hs => hs)
    (fun a ha log hs => by
      simp only [NandEntry.eraseDevice]
      split
      next => exact hs
      next => exact hlog le_rfl ha hs)
    (fun a ha log hs => hlog hpage ha hs) (by simp)
  simp only [NandEntry.command] at h
  obtain ⟨ret, log, hr⟩ : ∃ ret log,
    nandEraseOpts (e.eraseDevice w) ⟨size, part.offset, clean, false⟩ [] = (ret, log) := ⟨_, _, rfl⟩
  rw [hr] at h
  obtain ⟨rc, -, rfl⟩ := Option.map_eq_some_iff.mp h
  rw [nandEraseOpts_eq (fun _ => rfl) (fun _ => rfl)] at hr
  have hlog' : (eraseLoop (e.eraseDevice w) ⟨size, part.offset, clean, false⟩
      (blocks e.info.erasesize part.offset (max size e.info.erasesize)) []).2 = log := by
    exact congrArg Prod.snd hr
  rwa [hlog'] at hloop

theorem transfer_inside {verb : NandVerb} (hv : verb.Transfers) (hn : e.info.Idle) (hp : part.Valid e.info)
    (hroom : size ≤ part.capacity e.info) (h : e.command w fuel verb part.offset size = some run) :
    ∀ x ∈ run.log, x.Inside e.chip part := by
  by_cases ha : e.aligned verb part.offset size
  · rw [command_eq hv hn ha] at h
    obtain ⟨r, hr, rfl⟩ := Option.map_eq_some_iff.mp h
    refine skipWrite_keeps (q := fun log => ∀ x ∈ log, x.Inside e.chip part)
      (e := part.offset + part.size) hn (fun _ _ _ _ => device_whole) ?_
      (Nat.dvd_add hp.startAligned hp.sizeAligned) hp.inside (Nat.le_add_right ..) hroom (by simp) hr
    intro ofs len p log h₁ h₂ hs
    rcases @device_log e w verb ofs len p log with h | ⟨op, h⟩
    · rwa [h]
    · rw [h]
      intro x hx
      rcases mem_append.mp hx with hx | hx
      · exact hs x hx
      · rw [mem_singleton.mp hx]
        exact access_inside hp h₁ h₂
  · rcases hv with rfl | rfl
    · exact absurd nofun ha
    · rw [(command_unaligned hn ha h).2]
      exact fun x hx => absurd hx not_mem_nil

/-- The transfers that the code gets right: the good blocks of the partition hold the size, or
the request is refused for its alignment, or no good block is left from the start of the
partition to the end of the device, the size does not reach to that end, and the search for a
good block ends behind it. -/
def NandEntry.Serves (e : NandEntry) (verb : NandVerb) (part : PartInfo) (size : Nat) : Prop :=
  size ≤ part.capacity e.info ∨ ¬e.aligned verb part.offset size ∨
    (goods e.info.good part.offset e.info.size = [] ∧ part.offset + size ≠ e.info.size ∧ e.info.GoodBehind)

theorem transfer_refused {verb : NandVerb} (hv : verb.Transfers) (hn : e.info.Idle)
    (hp : part.Valid e.info) (hroom : part.capacity e.info < size) (hs : e.Serves verb part size)
    (h : e.command w fuel verb part.offset size = some run) : run.rc ≠ 0 ∧ run.log = [] := by
  by_cases ha : e.aligned verb part.offset size
  · have hlost := (hs.resolve_left (Nat.not_le_of_lt hroom)).resolve_left (not_not.mpr ha)
    rw [command_eq hv hn ha] at h
    obtain ⟨r, hr, rfl⟩ := Option.map_eq_some_iff.mp h
    have hstart : part.offset < e.info.size := by
      have := hp.nonempty
      have := hp.inside
      omega
    obtain ⟨hrc, hlog⟩ := skipWrite_lost hn hstart (by omega) hlost.1 hlost.2.1
      (fun _ _ _ _ => device_past) hr
    exact ⟨of_rc_ne hrc, hlog⟩
  · rcases hv with rfl | rfl
    · exact absurd nofun ha
    · exact command_unaligned hn ha h

theorem transfer_answered {verb : NandVerb} (hv : verb.Transfers) (hn : e.info.Idle)
    (hp : part.Valid e.info) (hroom : part.capacity e.info < size) (hs : e.Serves verb part size) :
    ∃ fuel run, e.command w fuel verb part.offset size = some run := by
  by_cases ha : e.aligned verb part.offset size
  · obtain ⟨hnone, hend, hbehind⟩ := (hs.resolve_left (Nat.not_le_of_lt hroom)).resolve_left (not_not.mpr ha)
    have hstart : part.offset < e.info.size := by
      have := hp.nonempty
      have := hp.inside
      omega
    have hinside (ofs len p : Nat) (log : List Access) (h : (e.device verb w ofs len p log).1.1 = 0) :
        ofs + len ≤ e.info.size := by
      by_contra hpast
      exact (device_past (by omega)).1 h
    obtain ⟨f, r, hr⟩ := @skipWrite_behind e.info part.offset size _ (e.device verb w) [] hn
      (fun _ _ _ _ => device_whole) hinside hstart (by rw [hnone, length_nil]; omega) hend hbehind
    exact ⟨f, .of r.rc r.state, by rw [command_eq hv hn ha, hr]; rfl⟩
  · rcases hv with rfl | rfl
    · exact absurd nofun ha
    · exact ⟨0, _, command_unaligned_eq hn ha⟩

theorem transfer_not_refused {verb : NandVerb} (hv : verb.Transfers) (hn : e.info.Idle)
    (hp : part.Valid e.info) (hs : ¬e.Serves verb part size) :
    part.capacity e.info < size ∧
      ((∀ fuel, e.command (fun _ => (0, 0)) fuel verb part.offset size = none) ∨ ∃ fuel run,
        e.command (fun _ => (-EINVAL, 0)) fuel verb part.offset size = some run ∧ run.log ≠ []) := by
  unfold NandEntry.Serves at hs
  rw [not_or, not_or, not_not, not_le] at hs
  obtain ⟨hroom, ha, hlost⟩ := hs
  refine ⟨hroom, ?_⟩
  have hstart : part.offset < e.info.size := by
    have := hp.nonempty
    have := hp.inside
    omega
  by_cases hnever : goods e.info.good part.offset e.info.size = [] ∧ part.offset + size ≠ e.info.size
  · left
    obtain ⟨hnone, hend⟩ := hnever
    intro fuel
    have hbad (k : Nat) (hk : e.info.size ≤ k * e.info.erasesize) :
        e.info.isbad (e.info.blockStart (k * e.info.erasesize)) = true := by
      rw [← Bool.not_eq_false]
      exact fun hgood => hlost ⟨hnone, hend, k, hk, hgood⟩
    have hshort : (goods e.info.good part.offset e.info.size).length < size := by
      rw [hnone, length_nil]
      omega
    have hnever : skipWriteFuel e.info (e.device verb fun _ => (0, 0)) size fuel part.offset size 0 0 [] = none :=
      skipWriteFuel_never (fun _ _ _ _ => device_works) hbad (.inl hstart.le) hshort
    rw [command_eq hv hn ha, skipWrite_loop hn hstart hshort hend, hnever, Option.map_none]
  · right
    obtain ⟨f, r, ofs, len, hr, hlen, hin, hstate⟩ := skipWrite_reaches
      (l := size) (s := []) hn hstart (by omega)
      (fun hnil => by
        by_contra hne
        exact hnever ⟨hnil, hne⟩)
      (fun _ _ _ _ h => (device_fails h).1)
    refine ⟨f, .of r.rc r.state, by rw [command_eq hv hn ha, hr]; rfl, ?_⟩
    rw [NandRun.of, hstate]
    exact (device_fails hlen).2 hin

theorem request_le {rest : List (List UInt8)} (h : part.request rest = some size) : size ≤ part.size := by
  cases rest with
  | nil =>
    cases Option.some.inj h
    exact le_refl _
  | cons s rest =>
    obtain ⟨n, -, rfl⟩ := Option.map_eq_some_iff.mp h
    split <;> omega

section Command

variable {b : NandBoard} {ds : List MtdDevice} {dev : MtdDevice} {name : List UInt8}
  {rest : List (List UInt8)} {verb : NandVerb} {nand : NandEntry}

theorem doNand_part (hds : b.devices = some ds) (hname : str2long name = none)
    (hpart : findDevAndPart ds name = some (dev, part)) (hnand : dev.type = .nand)
    (he : b.table dev.num = some e) (hcur : b.table b.nandCurrDevice = some nand) :
    doNand b w fuel verb (name :: rest) =
      match part.request rest with
      | none => (b.table, some ⟨1, []⟩)
      | some size => (fun i => if i = b.nandCurrDevice then some e else b.table i,
          e.command w fuel verb part.offset size) := by
  unfold doNand argOffSize
  simp only [hcur, hname, hds, Option.bind_some, hpart, hnand, ne_eq, not_true_eq_false, if_false]
  cases part.request rest with
  | none => rfl
  | some size => simp only [he, if_true, Option.bind_some]

theorem table_kept_iff (he : b.table dev.num = some e) :
    (fun i => if i = b.nandCurrDevice then some e else b.table i) = b.table ↔ dev.num = b.nandCurrDevice := by
  constructor
  · intro h
    have hsame := congrFun h b.nandCurrDevice
    rw [if_pos rfl] at hsame
    rw [← b.own _ _ he, b.own _ _ hsame.symm]
  · intro h
    funext i
    split
    next hi => rw [hi, ← h, he]
    next => rfl

end Command

/-- A command that names a NAND partition does what it is for, on every chip and in every run,
exactly where the partition is on the current device and, for a transfer, the code serves the
size. -/
theorem nand_partition_iff (b : NandBoard) (verb : NandVerb) (rest : List (List UInt8))
    {ds : List MtdDevice} {dev : MtdDevice} {part : PartInfo} {e : NandEntry} {name : List UInt8}
    (hds : b.devices = some ds) (hname : str2long name = none)
    (hpart : findDevAndPart ds name = some (dev, part)) (hnand : dev.type = .nand)
    (he : b.table dev.num = some e) :
    (∀ w, PartitionSafe b dev part verb rest fun fuel => doNand b w fuel verb (name :: rest)) ↔
      (b.table b.nandCurrDevice ≠ none → ∀ size, part.request rest = some size →
        dev.num = b.nandCurrDevice ∧ (verb.Transfers → e.Serves verb part size)) := by
  have hvalid : part.Valid e.info := by
    obtain ⟨e', he', hall⟩ := b.valid ds hds dev (findDevAndPart_mem hpart).1 hnand
    cases Option.some.inj (he.symm.trans he')
    exact hall part (findDevAndPart_mem hpart).2
  have hidle := b.idle _ _ he
  cases hcur : b.table b.nandCurrDevice with
  | none =>
    refine ⟨fun _ h => absurd rfl h, fun _ w => ?_⟩
    have hrun (fuel : Nat) : doNand b w fuel verb (name :: rest) = (b.table, some ⟨1, []⟩) := by rw [doNand, hcur]
    simp only [hrun]
    exact ⟨fun _ => rfl, by simp, by simp⟩
  | some nand =>
    simp only [doNand_part hds hname hpart hnand he hcur]
    cases hreq : part.request rest with
    | none => exact ⟨fun _ _ _ h => (by cases h), fun _ _ => ⟨fun _ => rfl, by simp, by simp⟩⟩
    | some size =>
      constructor
      · intro hsafe _ size' hsize
        cases Option.some.inj hsize
        refine ⟨(table_kept_iff he).mp ((hsafe fun _ => (0, 0)).table 0), fun hv => ?_⟩
        by_contra hserves
        obtain ⟨hroom, hnever | ⟨fuel, run, hrun, hlog⟩⟩ := transfer_not_refused hv hidle hvalid hserves
        · obtain ⟨⟨fuel, run, hrun⟩, -⟩ := (hsafe fun _ => (0, 0)).refused hv e size he hreq hroom
          cases (hnever fuel).symm.trans hrun
        · exact hlog (((hsafe _).refused hv e size he hreq hroom).2 fuel run hrun).2
      · intro hcond w
        obtain ⟨hnum, hserves⟩ := hcond (by simp) size rfl
        refine ⟨fun _ => (table_kept_iff he).mpr hnum, fun fuel run hrun => ?_, fun hv e' size' he' hreq' hroom => ?_⟩
        · rw [← b.own _ _ he]
          by_cases hv : verb.Transfers
          · by_cases hroom : size ≤ part.capacity e.info
            · exact transfer_inside hv hidle hvalid hroom hrun
            · rw [(transfer_refused hv hidle hvalid (Nat.lt_of_not_le hroom) (hserves hv) hrun).2]
              exact fun x hx => absurd hx not_mem_nil
          · cases verb with
            | erase clean => exact @erase_inside e w part size fuel run clean hvalid (request_le hreq) hrun
            | read => exact absurd (.inl rfl) hv
            | write => exact absurd (.inr rfl) hv
        · cases Option.some.inj (he.symm.trans he')
          cases Option.some.inj (hreq.symm.trans hreq')
          exact ⟨transfer_answered hv hidle hvalid hroom (hserves hv),
            fun fuel run => transfer_refused hv hidle hvalid hroom (hserves hv)⟩

section Param

def paramPart : PartInfo := ⟨ascii ['p', 'a', 'r', 'a', 'm'], 0x80000, 0x80000⟩

def nand0 : MtdDevice := ⟨.nand, 0, [⟨ascii ['u', '-', 'b', 'o', 'o', 't'], 0, 0x80000⟩, paramPart]⟩

/-- `mtdparts=NAND:512k(u-boot),512k(param)`, where `param` starts with the bad block. -/
def paramBoard : NandBoard where
  table i := if i = 0 then some ⟨largePage, 38, 0⟩ else none
  nandCurrDevice := 0
  devices := some [nand0]
  own i e h := by
    split at h
    next hi => rw [hi, ← Option.some.inj h]
    next => cases h
  idle i e h := by
    split at h
    next hi =>
      rw [← Option.some.inj h]
      exact ⟨rfl, rfl⟩
    next => cases h
  valid ds hds d hd _ := by
    cases Option.some.inj hds
    rw [mem_singleton] at hd
    subst hd
    refine ⟨_, rfl, fun p hp => ?_⟩
    simp only [nand0, mem_cons, not_mem_nil, or_false] at hp
    rcases hp with rfl | rfl <;> constructor <;> decide

/-- `nand read param 60000` takes the three blocks behind the bad one. -/
theorem nand_read_param_served :
    PartitionSafe paramBoard nand0 paramPart .read [ascii ['6', '0', '0', '0', '0']] fun fuel =>
      doNand paramBoard (fun _ => (0, 0x20000)) fuel .read [paramPart.name, ascii ['6', '0', '0', '0', '0']] := by
  refine (nand_partition_iff paramBoard .read [ascii ['6', '0', '0', '0', '0']] rfl (by decide) (by decide)
    rfl rfl).mpr (fun _ size hsize => ⟨rfl, fun _ => .inl ?_⟩) _
  have hsize' : size = 0x60000 := Option.some.inj (hsize.symm.trans (by decide))
  have hgood : ∀ x, 0xa0000 ≤ x → x < 0x100000 → largePage.good x = true := by
    intro x h₁ h₂
    have hne : x / 0x20000 * 0x20000 ≠ 0x80000 := by omega
    simpa [NandInfo.good, largePage] using hne
  have hbad : goods largePage.good 0x80000 (0x80000 + 0x80000) = List.range' 0xa0000 0x60000 := by
    have hnext : largePage.next 0x80000 = 0xa0000 := by decide
    have hfirst := goods_block_bad (n := largePage) (a := 0x80000) (by decide)
    rw [hnext] at hfirst
    rw [goods_append (b := 0xa0000) (by decide) (by decide), hfirst, nil_append, goods_all hgood]
  show size ≤ (goods largePage.good 0x80000 (0x80000 + 0x80000)).length
  rw [hbad, length_range', hsize']

/-- `nand write param` writes the block behind the partition. -/
theorem nand_write_param_spills : ¬∀ w, PartitionSafe paramBoard nand0 paramPart .write [] fun fuel =>
      doNand paramBoard w fuel .write [paramPart.name] := by
  intro h
  have hrun : (doNand paramBoard (fun _ => (0, 0)) 6 .write [paramPart.name]).2 =
      some ⟨0, [⟨.programmed, 0, 0xa0000, 0xc0000⟩, ⟨.programmed, 0, 0xc0000, 0xe0000⟩,
        ⟨.programmed, 0, 0xe0000, 0x100000⟩, ⟨.programmed, 0, 0x100000, 0x120000⟩]⟩ := by decide +kernel
  have hlast := (h _).inside 6 _ hrun ⟨.programmed, 0, 0x100000, 0x120000⟩ (by decide)
  exact absurd hlast.2.2 (by decide)

end Param

end UBoot
