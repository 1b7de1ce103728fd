import UBoot.MtdCommands
import UBoot.Runs

namespace UBoot.Mtd

open KeyOrder

variable {chips : Chips}

theorem parseIds_known {fuel : Nat} {ids ids' : List Id} {p : Str} {b : Bool}
    (h : ∀ id ∈ ids, Known chips id) (hp : parseIds chips fuel ids p = (b, ids')) :
    ∀ id ∈ ids', Known chips id := by
  induction fuel generalizing ids p with
  | zero =>
    obtain ⟨_, rfl⟩ := Prod.mk.inj hp
    exact h
  | succ fuel ih =>
    have hnone : ∀ id ∈ ([] : List Id), Known chips id := fun id hid => absurd hid List.not_mem_nil
    unfold parseIds at hp
    split at hp
    next type num c q hid =>
      split at hp
      · split at hp
        · obtain ⟨_, rfl⟩ := Prod.mk.inj hp
          exact h
        next mtd hmtd =>
          split at hp
          · obtain ⟨_, rfl⟩ := Prod.mk.inj hp
            exact hnone
          · have hnum : num < 256 := mtdIdParse_num_lt hid
            have hall : ∀ id ∈ ids ++ [⟨type, num, UInt32.ofNat mtd.size, q.takeWhile (· ≠ 44)⟩],
                Known chips id := by
              intro id hm
              rcases List.mem_append.mp hm with hm | hm
              · exact h id hm
              · rw [List.mem_singleton.mp hm]
                exact ⟨hnum, mtd, hmtd, rfl⟩
            split at hp
            · obtain ⟨_, rfl⟩ := Prod.mk.inj hp
              exact hall
            · split at hp
              · obtain ⟨_, rfl⟩ := Prod.mk.inj hp
                exact hall
              · exact ih hall hp
      · obtain ⟨_, rfl⟩ := Prod.mk.inj hp
        exact hnone
    · obtain ⟨_, rfl⟩ := Prod.mk.inj hp
      exact hnone

/-- The table is empty. -/
structure State.Empty (s : State) : Prop where
  devices : s.devices = []
  current : s.currentMtdDev = none

theorem State.Empty.tidy {s : State} (h : s.Empty) (hk : ∀ id ∈ s.mtdids, Known chips id) : s.Tidy chips := by
  obtain ⟨hd, hc⟩ := h
  refine ⟨hk, ?_, ?_, ?_, ?_, ?_, fun a ha => ?_⟩
  · simp [hd]
  · simp [hd]
  · simp [hd]
  · simp [hd]
  · simp [hd]
  · cases hc.symm.trans ha

/-- After `mtd_devices_init` -/
def State.cleared (s : State) : State :=
  { s with
    devices := []
    currentMtdDev := none
    lastParts := []
    lastPartition := []
    env := { s.env with partition := none } }

theorem mtdDevicesInit_eq (s : State) : mtdDevicesInit s = some s.cleared := rfl

theorem State.cleared_tidy {s : State} (hk : ∀ id ∈ s.mtdids, Known chips id) : s.cleared.Tidy chips :=
  State.Empty.tidy ⟨rfl, rfl⟩ hk

theorem parseMtdparts_spec {s t : State} {b : Bool} (hk : ∀ id ∈ s.mtdids, Known chips id)
    (h : parseMtdparts chips s = some (b, t)) :
    t.Tidy chips ∧ t.currentMtdDev = none ∧ t.mtdids = s.mtdids ∧ t.lastIds = s.lastIds ∧
      t.env.mtdids = s.env.mtdids ∧ t.env.mtdparts = s.env.mtdparts ∧
      ∃ parts, s.env.mtdparts = some parts ∧
        (b = true → parts ≠ [] ∧ ∀ d ∈ t.devices, d.parts.length ≤ parts.length) := by
  have htidy := s.cleared_tidy hk
  unfold parseMtdparts at h
  rw [mtdDevicesInit_eq] at h
  simp only [Option.bind_eq_bind, Option.bind_some, Option.bind_eq_some_iff] at h
  obtain ⟨parts, hparts, h⟩ := h
  split at h
  next hstarts =>
    have hne : parts ≠ [] := fun hnil => by
      rw [hnil] at hstarts
      cases hstarts
    split at h
    · cases h
      exact ⟨htidy, rfl, rfl, rfl, rfl, rfl, parts, hparts, nofun⟩
    · obtain ⟨n, devices, rfl, htidy', hall⟩ := parseDevices_spec htidy rfl h
      refine ⟨htidy', rfl, rfl, rfl, rfl, rfl, parts, hparts, fun hb => ⟨hne, fun d hd => ?_⟩⟩
      rcases hall hb d hd with hd | hlen
      · cases hd
      · rw [List.length_drop] at hlen
        omega
  · cases h
    exact ⟨htidy, rfl, rfl, rfl, rfl, rfl, parts, hparts, nofun⟩

theorem chosen_spec {s t : State} {tmpEp : Str} (h : s.Ready chips)
    (hp : (if tmpEp ≠ [] ∧ tmpEp ≠ s.lastPartition then
        match findDevAndPart s tmpEp with
        | none => some (true, s)
        | some (dev, pnum, _) => do
          let s ← currentSave { s with currentMtdDev := some dev.addr, currentMtdPartnum := pnum }
          some (true, s)
      else if s.env.partition = none then do
        let s ← currentSave s
        some (true, s)
      else some (true, s)) = some (true, t)) :
    t.Ready chips ∧ t.devices = s.devices ∧ t.mtdids = s.mtdids ∧ t.lastIds = s.lastIds := by
  split at hp
  · split at hp
    · cases hp
      exact ⟨h, rfl, rfl, rfl⟩
    next dev n part hfound =>
      obtain ⟨u, hsave, hp⟩ := Option.bind_eq_some_iff.mp hp
      cases hp
      obtain ⟨rfl, hpoints⟩ := currentSave_eq_some_iff.mp hsave
      have htidy := h.tidy.select (List.mem_map_of_mem (findDevAndPart_mem hfound).1) n
      refine ⟨⟨htidy.saved, ⟨htidy.settled_saved h.synced.settled.ids fun hn => ?_, h.synced.parts,
        h.synced.empty⟩, hpoints⟩, rfl, rfl, rfl⟩
      cases hn
  · split at hp
    · obtain ⟨u, hsave, hp⟩ := Option.bind_eq_some_iff.mp hp
      cases hp
      obtain ⟨rfl, hpoints⟩ := currentSave_eq_some_iff.mp hsave
      exact ⟨⟨h.tidy.saved, ⟨h.tidy.settled_saved h.synced.settled.ids h.synced.settled.current,
        h.synced.parts, h.synced.empty⟩, hpoints⟩, rfl, rfl, rfl⟩
    · cases hp
      exact ⟨h, rfl, rfl, rfl⟩

def Short (s : State) : Prop := ∀ d ∈ s.devices, d.parts.length ≤ 511

theorem initParts_spec {s t : State} {tmpEp : Str} (he : s.Empty) (hk : ∀ id ∈ s.mtdids, Known chips id)
    (hlast : s.lastParts = []) (hids : s.lastIds ≠ [] ∧ s.env.mtdids = some s.lastIds)
    (hlen : (s.env.mtdparts.getD []).length ≤ 511)
    (h : initParts chips s true tmpEp = some (true, t)) :
    (t.Ready chips ∧ Short t) ∧ t.mtdids = s.mtdids ∧ t.lastIds = s.lastIds := by
  unfold initParts at h
  cases hm : s.env.mtdparts with
  | none =>
    rw [hm] at h
    rw [if_neg (fun hne => hne hlast)] at h
    cases h
    have hsettled : s.Settled := ⟨hids, fun _ => he.devices, fun hne => absurd he.devices hne⟩
    refine ⟨⟨⟨he.tidy hk, ⟨hsettled, ⟨?_, ?_⟩, fun _ => hm⟩, points_of_none he.current⟩, fun d hd => ?_⟩,
      rfl, rfl⟩
    · rw [hm, hlast]
      rfl
    · rw [hm]
      exact nofun
    · rw [he.devices] at hd
      cases hd
  | some parts =>
    rw [hm] at h hlen
    simp only [or_true, if_true, Option.bind_eq_bind, Option.bind_eq_some_iff] at h
    obtain ⟨⟨ok, u⟩, ⟨⟨ok', v⟩, hparse, hrest⟩, h⟩ := h
    obtain ⟨htidy, _, hmtdids, hlastIds, henvIds, henvParts, parts', hparts', hall⟩ :=
      parseMtdparts_spec hk hparse
    obtain rfl : parts = parts' := Option.some.inj (hm.symm.trans hparts')
    cases ok with
    | false =>
      obtain ⟨hb, _⟩ := Prod.mk.inj (Option.some.inj h)
      cases hb
    | true =>
      split at hrest
      · obtain ⟨hb, _⟩ := Prod.mk.inj (Option.some.inj hrest)
        cases hb
      next dev devs hdevs =>
        cases ok' with
        | false =>
          obtain ⟨hb, _⟩ := Prod.mk.inj (Option.some.inj hrest)
          cases hb
        | true =>
          simp only [if_true, Option.bind_eq_some_iff] at hrest
          obtain ⟨w, hsave, hrest⟩ := hrest
          cases hrest
          obtain ⟨rfl, hpoints⟩ := currentSave_eq_some_iff.mp hsave
          obtain ⟨hne, hlens⟩ := hall rfl
          have hsel : State.Tidy chips { v with
              lastParts := parts
              currentMtdDev := some dev.addr
              currentMtdPartnum := 0 } := by
            have hmem : dev.addr ∈ v.devices.map Dev.addr := by
              rw [hdevs]
              exact List.mem_cons_self
            obtain ⟨hknown, hd, hi, hkeys, haddrs, hheap, hcur⟩ := htidy.select hmem 0
            exact ⟨hknown, hd, hi, hkeys, haddrs, hheap, hcur⟩
          have hsettled := hsel.settled_saved (by
            rw [hlastIds, henvIds]
            exact hids) nofun
          have hsynced : State.Synced (State.saved { v with
              lastParts := parts
              currentMtdDev := some dev.addr
              currentMtdPartnum := 0 }) := by
            refine ⟨hsettled, ⟨?_, ?_⟩, fun hnil => ?_⟩
            · change v.env.mtdparts.getD [] = parts
              rw [henvParts, hm]
              rfl
            · change v.env.mtdparts ≠ some []
              rw [henvParts, hm]
              exact fun hs => hne (Option.some.inj hs)
            · have hnil : v.devices = [] := hnil
              rw [hdevs] at hnil
              cases hnil
          obtain ⟨hready, hdevices, hsameIds, hsameLast⟩ := chosen_spec ⟨hsel.saved, hsynced, hpoints⟩ h
          refine ⟨⟨hready, fun d hd => ?_⟩, hsameIds.trans hmtdids, hsameLast.trans hlastIds⟩
          rw [hdevices] at hd
          have := hlens d hd
          rw [Option.getD_some] at hlen
          omega

/-- The ids are those that the kept text defines. -/
structure State.IdsRead (chips : Chips) (s : State) : Prop where
  short : s.lastIds.length ≤ 127
  read : parseIds chips (s.lastIds.length + 1) [] s.lastIds = (true, s.mtdids)

theorem State.IdsRead.congr {s t : State} (h : s.IdsRead chips) (hids : t.mtdids = s.mtdids)
    (hlast : t.lastIds = s.lastIds) : t.IdsRead chips := by
  obtain ⟨hshort, hread⟩ := h
  refine ⟨?_, ?_⟩
  · rw [hlast]
    exact hshort
  · rw [hlast, hids]
    exact hread

theorem mtdpartsInit_spec {mtdidsDefault : Option Str} {env : Env} {s : State}
    (h : mtdpartsInit chips mtdidsDefault (powerOn env) = some (true, s)) :
    (s.Ready chips ∧ Short s) ∧ s.IdsRead chips := by
  unfold mtdpartsInit at h
  split at h
  · obtain ⟨hb, _⟩ := Prod.mk.inj (Option.some.inj h)
    cases hb
  next ids _ =>
    dsimp only at h
    split at h
    · obtain ⟨hb, _⟩ := Prod.mk.inj (Option.some.inj h)
      cases hb
    next hidsLen =>
      split at h
      · obtain ⟨hb, _⟩ := Prod.mk.inj (Option.some.inj h)
        cases hb
      next hlen =>
        rw [if_neg (fun hlast => hlast.1 rfl)] at h
        split at h
        · obtain ⟨u, _, h⟩ := Option.map_eq_some_iff.mp h
          obtain ⟨hb, _⟩ := Prod.mk.inj h
          cases hb
        next u hids =>
          unfold parseMtdids at hids
          obtain ⟨hok, rfl⟩ := Prod.mk.inj hids
          have hne : ids ≠ [] := fun hnil => by
            rw [if_pos hnil] at hok
            cases hok
          rw [if_neg hne] at h
          have hknown : ∀ id ∈ (parseIds chips (ids.length + 1) [] ids).2, Known chips id :=
            parseIds_known (fun id hid => absurd hid List.not_mem_nil) rfl
          have hlen : ¬512 - 1 < (env.mtdparts.getD []).length := hlen
          have hlen : (env.mtdparts.getD []).length ≤ 511 := by omega
          obtain ⟨hs, hsameIds, hsameLast⟩ := initParts_spec ⟨rfl, rfl⟩ hknown rfl ⟨hne, rfl⟩ hlen h
          have hshort : ¬128 - 1 < ids.length := hidsLen
          have hread : (parseIds chips (ids.length + 1) [] ids).1 = true := by
            rw [if_neg hne] at hok
            exact hok
          have hidsRead : State.IdsRead chips { powerOn env with
              mtdids := (parseIds chips (ids.length + 1) [] ids).2
              lastIds := ids } := by
            refine ⟨?_, ?_⟩
            · dsimp only
              omega
            · exact Prod.ext hread rfl
          exact ⟨hs, hidsRead.congr hsameIds hsameLast⟩

theorem short_of_generate {s t : State} (h : (true, t) = generateMtdpartsSave s) : Short t := by
  intro d hd
  have hdevices := generateMtdpartsSave_devices s
  rw [← h] at hdevices
  rw [show t.devices = s.devices from hdevices] at hd
  unfold generateMtdpartsSave at h
  split at h
  · obtain ⟨hb, _⟩ := Prod.mk.inj h
    cases hb
  next text hg => exact generate_length hg hd

theorem mtdStep_short {mtdidsDefault : Option Str} {s t : State} {cmd : Cmd} (h : s.Ready chips)
    (hshort : Short s) (hstep : mtdStep chips mtdidsDefault s cmd = some (true, t)) : Short t := by
  rcases h.step mtdidsDefault cmd with he | he
  · obtain ⟨hb, _⟩ := Prod.mk.inj (Option.some.inj (he.symm.trans hstep))
    cases hb
  · rw [he] at hstep
    cases cmd with
    | add mtdDev size name opt =>
      rcases doAdd_cases mtdDev size name opt h.tidy h.points with ⟨_, _, _, hno⟩ | ⟨n, hno⟩ |
        ⟨n, dev, _, hiff⟩ | ⟨n, dev, dev', part, _, _, hiff⟩
      · cases hno.symm.trans hstep
      · obtain ⟨hb, _⟩ := Prod.mk.inj (Option.some.inj (hno.symm.trans hstep))
        cases hb
      · exact short_of_generate ((hiff _).mp hstep).2
      · exact short_of_generate ((hiff _).mp hstep).2
    | del id =>
      rcases doDel_eq_some hstep with ⟨_, hb, _⟩ | ⟨dev, n, part, _, _, hg⟩
      · cases hb
      · exact short_of_generate hg
    | chpart id =>
      rcases doChpart_eq_some hstep with ⟨_, hb, _⟩ | ⟨dev, n, part, _, _, rfl, _⟩
      · cases hb
      · exact hshort

/-- A device whose partitions are counted, in order and each in whole blocks of the device. -/
structure Dev.Sane (chips : Chips) (dev : Dev) : Prop where
  counted : dev.numParts.toNat = dev.parts.length
  ordered : dev.parts.Pairwise fun p q => p.start ≤ q.start
  oneFirst : (dev.parts.filter fun p => p.start = 0).length ≤ 1
  sound : ∃ mtd, chips dev.id.type dev.id.num = some mtd ∧ ∀ p ∈ dev.parts, p.Sound mtd

theorem State.Tidy.sane {s : State} (h : s.Tidy chips) (hshort : Short s) {dev : Dev}
    (hd : dev ∈ s.devices) : dev.Sane chips := by
  have ht := h.devs dev hd
  have hlen := hshort dev hd
  obtain ⟨_, mtd, hm, hsize⟩ := h.known_id hd
  refine ⟨?_, ht.sorted.order, ht.sorted.oneFirst, mtd, hm, fun p hp =>
    sound_of_validate hm hsize (ht.valid p hp)⟩
  rw [ht.numParts, UInt16.toNat_ofNat']
  omega

/-- What the parser accepts is sane, and stays so along every run of successful commands. -/
theorem mtdparts_stay_sane {mtdidsDefault : Option Str} {env : Env} {s t : State} {cmds : List Cmd}
    {bs : List Bool} (hinit : mtdpartsInit chips mtdidsDefault (powerOn env) = some (true, s))
    (hrun : Runs.run (mtdStep chips mtdidsDefault) s cmds = some (bs, t)) (hok : ∀ b ∈ bs, b = true) :
    ∀ dev ∈ t.devices, dev.Sane chips := by
  have hstep : ∀ u cmd b v, (u.Ready chips ∧ Short u) → b = true →
      mtdStep chips mtdidsDefault u cmd = some (b, v) → v.Ready chips ∧ Short v := by
    rintro u cmd b v ⟨hu, hsh⟩ rfl hstep
    exact ⟨mtdStep_keeps hu hstep, mtdStep_short hu hsh hstep⟩
  obtain ⟨hready, hshort⟩ := Runs.run_answers hstep (mtdpartsInit_spec hinit).1 hok hrun
  exact fun dev hd => hready.tidy.sane hshort hd

def sampleChips : Chips := fun type num =>
  if type = .nand ∧ num = 0 then some ⟨1048576, 16384, [], fun _ h => by cases h⟩ else none

def sampleEnv : Env where
  mtdids := some (ascii ['n', 'a', 'n', 'd', '0', '=', 'a'])
  mtdparts := some (mtdpartsPrefix ++ ascii ['a', ':', '6', '4', 'k', '(', 'x', ')', ',', '-', '(', 'y', ')'])
  partition := none

/-- `mtdparts del y`, `mtdparts add nand0 16k@128k z ro` and `chpart z` -/
def sampleCmds : List Cmd :=
  [.del (ascii ['y']),
    .add (ascii ['n', 'a', 'n', 'd', '0']) (ascii ['1', '6', 'k', '@', '1', '2', '8', 'k']) (ascii ['z'])
      (some (ascii ['r', 'o'])),
    .chpart (ascii ['z'])]

theorem mtdparts_stay_sane_edited :
    ∃ s t, mtdpartsInit sampleChips none (powerOn sampleEnv) = some (true, s) ∧
      Runs.run (mtdStep sampleChips none) s sampleCmds = some ([true, true, true], t) ∧
      t.devices.map (fun dev => dev.parts.map Part.start) = [[0, 131072]] ∧
      ∀ dev ∈ t.devices, dev.Sane sampleChips := by
  have hrun : ((mtdpartsInit sampleChips none (powerOn sampleEnv)).bind fun r =>
      (Runs.run (mtdStep sampleChips none) r.2 sampleCmds).map fun u =>
        (r.1, u.1, u.2.devices.map fun dev => dev.parts.map Part.start)) =
      some (true, [true, true, true], [[0, 131072]]) := by decide +kernel
  obtain ⟨⟨b, s⟩, hinit, hrun⟩ := Option.bind_eq_some_iff.mp hrun
  obtain ⟨⟨bs, t⟩, hrun, he⟩ := Option.map_eq_some_iff.mp hrun
  obtain ⟨rfl, hpair⟩ := Prod.mk.inj he
  obtain ⟨rfl, hstarts⟩ := Prod.mk.inj hpair
  refine ⟨s, t, hinit, hrun, hstarts, mtdparts_stay_sane hinit hrun fun b hb => ?_⟩
  simpa using hb

end UBoot.Mtd
