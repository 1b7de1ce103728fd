import UBoot.MtdBuffer
import UBoot.MtdCurrentRuns
import UBoot.MtdReread

namespace UBoot.Mtd

open KeyOrder List

variable {chips : Chips}

theorem findDevAndPart_reads {s : State} {id : Str} {dev : Dev} {n : UInt8} {part : Part}
    (h : findDevAndPart s id = some (dev, n, part)) : ∃ p, dev.parts[n.toNat]? = some p := by
  cases hnamed : partNamed id s.devices with
  | some r =>
    obtain ⟨dev', i⟩ := r
    unfold findDevAndPart at h
    rw [findName_eq, hnamed] at h
    obtain ⟨_, hlt⟩ := partNamed_lt hnamed
    simp only [Option.bind_some, List.getElem?_eq_getElem hlt, Option.map_some] at h
    obtain ⟨rfl, hpair⟩ := Prod.mk.inj (Option.some.inj h)
    obtain ⟨rfl, rfl⟩ := Prod.mk.inj hpair
    have hle : (UInt8.ofNat i).toNat ≤ i := by
      rw [UInt8.toNat_ofNat']
      exact Nat.mod_le _ _
    exact ⟨_, List.getElem?_eq_getElem (hle.trans_lt hlt)⟩
  | none =>
    rw [findDevAndPart_by_number hnamed] at h
    obtain ⟨⟨type, num, pnum⟩, _, h⟩ := Option.bind_eq_some_iff.mp h
    obtain ⟨dev', _, h⟩ := Option.bind_eq_some_iff.mp h
    obtain ⟨part', hinfo, h⟩ := Option.map_eq_some_iff.mp h
    obtain ⟨rfl, hpair⟩ := Prod.mk.inj h
    obtain ⟨rfl, rfl⟩ := Prod.mk.inj hpair
    exact ⟨_, (mtdPartInfo_eq_some hinfo).2⟩

theorem select_some {s : State} {dev : Dev} {part : Part} {n : UInt8} (h : s.Tidy chips) (hc : Counted s)
    (hd : dev ∈ s.devices) (hn : dev.parts[n.toNat]? = some part) :
    currentSave { s with currentMtdDev := some dev.addr, currentMtdPartnum := n } =
      some (State.saved { s with currentMtdDev := some dev.addr, currentMtdPartnum := n }) :=
  currentSave_eq_some_iff.mpr ⟨rfl, (points_of_part (s := State.saved { s with
    currentMtdDev := some dev.addr
    currentMtdPartnum := n }) dev rfl (h.at_mem hd) (hc dev hd) hn).1⟩

theorem initParts_of_parse {s t : State} {parts tmpEp : Str} {b : Bool}
    (hk : ∀ id ∈ s.mtdids, Known chips id) (hm : s.env.mtdparts = some parts) (hlen : parts.length ≤ 511)
    (h : parseMtdparts chips s = some (b, t)) :
    ∃ u, initParts chips s true tmpEp = some (decide (b = true ∧ t.devices ≠ []), u) ∧ u.devices = t.devices := by
  obtain ⟨htidy, _, _, _, _, _, parts', hparts', hall⟩ := parseMtdparts_spec hk h
  obtain rfl : parts = parts' := Option.some.inj (hm.symm.trans hparts')
  unfold initParts
  rw [hm]
  simp only [or_true, if_true, h, Option.bind_eq_bind, Option.bind_some]
  cases hdevs : t.devices with
  | nil =>
    refine ⟨t, ?_, hdevs⟩
    simp
  | cons dev devs =>
    cases b with
    | false =>
      refine ⟨t, ?_, hdevs⟩
      simp
    | true =>
      have hcounted : Counted t := fun d hd => by
        have hshort := (hall rfl).2 d hd
        rw [(htidy.devs d hd).numParts, UInt16.toNat_ofNat']
        omega
      have hmem : dev ∈ t.devices := by
        rw [hdevs]
        exact mem_cons_self
      obtain ⟨part, _, hfirst⟩ := (htidy.devs dev hmem).first
      -- the state with the first partition current
      have hsame : State.Tidy chips { t with lastParts := parts } :=
        ⟨htidy.known, htidy.devs, htidy.ids, htidy.keys, htidy.addrs, htidy.heap, htidy.current⟩
      have hsave : currentSave { t with
          lastParts := parts
          currentMtdDev := some dev.addr
          currentMtdPartnum := 0 } = some (State.saved { t with
          lastParts := parts
          currentMtdDev := some dev.addr
          currentMtdPartnum := 0 }) := select_some hsame hcounted hmem hfirst
      obtain ⟨v, hv⟩ : ∃ v, v = State.saved { t with
          lastParts := parts
          currentMtdDev := some dev.addr
          currentMtdPartnum := 0 } := ⟨_, rfl⟩
      have hdevices : v.devices = t.devices := by rw [hv]; rfl
      have htidy' : v.Tidy chips := by
        rw [hv]
        exact (hsame.select (mem_map_of_mem hmem) 0).saved
      have hcounted' : Counted v := fun d hd => hcounted d (by rwa [← hdevices])
      have hpartition : v.env.partition ≠ none := by
        have hat : t.at dev.addr = some dev := htidy.at_mem hmem
        have htext : v.env.partition = (t.at dev.addr).map fun d => partitionText d.id 0 := by
          rw [hv]
          rfl
        rw [htext, hat]
        exact Option.some_ne_none _
      simp only [if_true, ← hdevs, hsave, ← hv, hpartition, Option.bind_some, not_true_eq_false, if_false]
      split
      · split
        · exact ⟨v, by simp [hdevs], hdevices⟩
        next d n p hfound =>
          obtain ⟨q, hq⟩ := findDevAndPart_reads hfound
          rw [select_some htidy' hcounted' (findDevAndPart_mem hfound).1 hq]
          exact ⟨State.saved { v with currentMtdDev := some d.addr, currentMtdPartnum := n },
            by simp [hdevs], hdevices⟩
      · exact ⟨v, by simp [hdevs], hdevices⟩

theorem generate_ids (s : State) : (generateMtdpartsSave s).2.mtdids = s.mtdids ∧
    (generateMtdpartsSave s).2.lastIds = s.lastIds := by
  unfold generateMtdpartsSave
  split
  · exact ⟨rfl, rfl⟩
  · exact ⟨rfl, rfl⟩

theorem partCome_ids (s : State) (dev : Dev) (part : Part) :
    (s.partCome dev part).mtdids = s.mtdids ∧ (s.partCome dev part).lastIds = s.lastIds := by
  unfold State.partCome
  split
  · exact ⟨rfl, rfl⟩
  · exact ⟨rfl, rfl⟩

theorem devCome_ids (s : State) (dev : Dev) :
    (s.devCome dev).mtdids = s.mtdids ∧ (s.devCome dev).lastIds = s.lastIds := by
  unfold State.devCome
  split
  · exact ⟨rfl, rfl⟩
  · exact ⟨rfl, rfl⟩

theorem partGone_ids (s : State) (dev : Dev) (part : Part) :
    (s.partGone dev part).mtdids = s.mtdids ∧ (s.partGone dev part).lastIds = s.lastIds := by
  unfold State.partGone State.devGone
  split
  · split
    · exact ⟨rfl, rfl⟩
    · exact ⟨rfl, rfl⟩
  · split
    · exact ⟨rfl, rfl⟩
    · exact ⟨rfl, rfl⟩

theorem mtdStep_ids {mtdidsDefault : Option Str} {s t : State} {cmd : Cmd} {b : Bool} (h : s.Ready chips)
    (hstep : mtdStep chips mtdidsDefault s cmd = some (b, t)) :
    t.mtdids = s.mtdids ∧ t.lastIds = s.lastIds := by
  rcases h.step mtdidsDefault cmd with he | he
  · obtain ⟨_, rfl⟩ := Prod.mk.inj (Option.some.inj (he.symm.trans hstep))
    exact ⟨rfl, rfl⟩
  · rw [he] at hstep
    cases cmd with
    | add mtdDev size name opt =>
      rcases doAdd_cases mtdDev size name opt h.tidy h.points with ⟨_, _, _, hno⟩ | ⟨n, hno⟩ |
        ⟨n, dev, _, hiff⟩ | ⟨n, dev, dev', part, _, _, hiff⟩
      · cases hno.symm.trans hstep
      · obtain ⟨_, rfl⟩ := Prod.mk.inj (Option.some.inj (hno.symm.trans hstep))
        exact ⟨rfl, rfl⟩
      · obtain ⟨hids, hlast⟩ := generate_ids (State.devCome { s with heap := s.heap + n } dev)
        obtain ⟨hids', hlast'⟩ := devCome_ids { s with heap := s.heap + n } dev
        rw [show t = _ from (Prod.mk.inj ((hiff _).mp hstep).2).2]
        exact ⟨hids.trans hids', hlast.trans hlast'⟩
      · obtain ⟨hids, hlast⟩ := generate_ids (State.partCome { s with heap := s.heap + n } dev part)
        obtain ⟨hids', hlast'⟩ := partCome_ids { s with heap := s.heap + n } dev part
        rw [show t = _ from (Prod.mk.inj ((hiff _).mp hstep).2).2]
        exact ⟨hids.trans hids', hlast.trans hlast'⟩
    | del id =>
      rcases doDel_eq_some hstep with ⟨_, _, rfl⟩ | ⟨dev, n, part, _, _, hg⟩
      · exact ⟨rfl, rfl⟩
      · obtain ⟨hids, hlast⟩ := generate_ids (s.partGone dev part)
        obtain ⟨hids', hlast'⟩ := partGone_ids s dev part
        rw [show t = _ from (Prod.mk.inj hg).2]
        exact ⟨hids.trans hids', hlast.trans hlast'⟩
    | chpart id =>
      rcases doChpart_eq_some hstep with ⟨_, _, rfl⟩ | ⟨dev, n, part, _, _, rfl, _⟩
      · exact ⟨rfl, rfl⟩
      · exact ⟨rfl, rfl⟩

/-- The parsing succeeds with the devices of `s`, each with its partitions. -/
def State.ReadsBack (s : State) (r : Option (Bool × State)) : Prop :=
  ∃ t, r = some (true, t) ∧ t.devices.map Dev.view = s.devices.map Dev.view

def State.Legible (s : State) : Prop := ∀ d ∈ s.devices, FillsLast d.parts ∧ Mirrored d.parts

theorem view_iff_mirrored {devs backs : List Dev} (h : List.Forall₂ DevBack devs backs)
    (ht : ∀ d ∈ devs, d.Tidy chips) :
    backs.map Dev.view = devs.map Dev.view ↔ ∀ d ∈ devs, Mirrored d.parts := by
  induction h with
  | nil => simp
  | @cons d back devs backs hd _ ih =>
    obtain ⟨htd, hts⟩ := forall_mem_cons.mp ht
    rw [map_cons, map_cons, List.cons.injEq, hd.view_iff htd, ih hts, forall_mem_cons]

/-- A table whose text has every name and size. -/
structure State.Spelled (chips : Chips) (s : State) : Prop where
  tidy : s.Tidy chips
  counted : Counted s
  named : ∀ d ∈ s.devices, ∀ p ∈ d.parts, p.Named

theorem devices_length_le (devs : List Dev) : devs.length ≤ (tablePieces devs).flatten.length := by
  induction devs with
  | nil => exact Nat.zero_le _
  | cons d devs ih =>
    have hpos : 0 < (devPieces d).flatten.length := by
      unfold devPieces
      rw [flatten_cons, length_append, length_append]
      exact Nat.lt_add_right _ (Nat.lt_add_left _ Nat.zero_lt_one)
    rw [tablePieces_cons, length_append, length_cons]
    by_cases hnil : devs = []
    · rw [hnil, length_nil]
      omega
    · rw [if_neg hnil, length_cons]
      omega

theorem parseMtdparts_printed {s u : State} {text : Str} (h : s.Spelled chips) (hne : s.devices ≠ [])
    (hg : generateMtdparts s.devices mtdpartsMaxlen = some text) (hids : u.mtdids = s.mtdids)
    (hm : u.env.mtdparts = some text) :
    ∃ b t, parseMtdparts chips u = some (b, t) ∧ (b = true ↔ ∀ d ∈ s.devices, FillsLast d.parts) ∧
      (b = true → List.Forall₂ DevBack s.devices t.devices) := by
  have htext : text = mtdpartsPrefix ++ (tablePieces s.devices).flatten := by
    unfold generateMtdparts at hg
    rw [if_neg hne] at hg
    obtain ⟨t, ht, rfl⟩ := Option.map_eq_some_iff.mp hg
    rw [(emit_eq_some_iff.mp ht).1]
  have hdrop : text.drop 9 = (tablePieces s.devices).flatten := by
    rw [htext]
    rfl
  have hstarts : mtdpartsPrefix.isPrefixOf text = true := by
    rw [htext]
    exact isPrefixOf_iff_prefix.mpr (prefix_append _ _)
  have htidy : u.cleared.Tidy chips := by
    apply State.cleared_tidy
    rw [hids]
    exact h.tidy.known
  have hspelled : ∀ d ∈ s.devices, Spelled chips u.cleared d := by
    intro d hd
    obtain ⟨hid, hcolon⟩ := h.tidy.ids d hd
    refine ⟨h.tidy.devs d hd, h.counted d hd, h.named d hd, ?_, hcolon⟩
    rw [← hid]
    exact congrArg (List.find? fun id => id.mtdId = d.id.mtdId) hids
  have hfuel : s.devices.length ≤ (tablePieces s.devices).flatten.length + 1 :=
    (devices_length_le s.devices).trans (Nat.le_succ _)
  obtain ⟨n, b, devices, hparse, hiff, hback⟩ := parseDevices_printed hne hfuel htidy rfl hspelled h.tidy.keys
  refine ⟨b, { u.cleared with devices := devices, heap := u.cleared.heap + n }, ?_, hiff, fun hb => ?_⟩
  · have hparts : u.cleared.env.mtdparts = some text := hm
    unfold parseMtdparts
    rw [mtdDevicesInit_eq]
    simp only [Option.bind_eq_bind, Option.bind_some, hparts]
    rw [if_pos hstarts, hdrop, if_neg (tablePieces_ne_nil hne)]
    exact hparse
  · obtain ⟨back, rfl, hall⟩ := hback hb
    exact hall

theorem parseMtdparts_reads_iff {s u : State} {text : Str} (h : s.Spelled chips)
    (hg : generateMtdparts s.devices mtdpartsMaxlen = some text) (hids : u.mtdids = s.mtdids)
    (hm : u.env.mtdparts = some text) :
    s.ReadsBack (parseMtdparts chips u) ↔ s.devices ≠ [] ∧ s.Legible := by
  by_cases hne : s.devices = []
  · have htext : text = [] := by
      unfold generateMtdparts at hg
      rw [if_pos hne] at hg
      exact (Option.some.inj hg).symm
    have hparts : u.cleared.env.mtdparts = some [] := by
      rw [← htext]
      exact hm
    have hno : parseMtdparts chips u = some (false, u.cleared) := by
      unfold parseMtdparts
      rw [mtdDevicesInit_eq]
      simp only [Option.bind_eq_bind, Option.bind_some, hparts]
      rfl
    constructor
    · rintro ⟨t, ht, _⟩
      rw [hno] at ht
      cases ht
    · exact fun hl => absurd hne hl.1
  · obtain ⟨b, t, hparse, hiff, hback⟩ := parseMtdparts_printed h hne hg hids hm
    unfold State.ReadsBack State.Legible
    rw [hparse, and_iff_right hne]
    constructor
    · rintro ⟨t', ht', hview⟩
      cases ht'
      have hmirror := (view_iff_mirrored (hback rfl) h.tidy.devs).mp hview
      exact fun d hd => ⟨hiff.mp rfl d hd, hmirror d hd⟩
    · intro hl
      have hb := hiff.mpr fun d hd => (hl d hd).1
      refine ⟨t, by rw [hb], ?_⟩
      exact (view_iff_mirrored (hback hb) h.tidy.devs).mpr fun d hd => (hl d hd).2

theorem mtdpartsInit_powerOn {s : State} {env : Env} (mtdidsDefault : Option Str) (h : s.IdsRead chips)
    (hne : s.lastIds ≠ []) (henv : env.mtdids = some s.lastIds) :
    mtdpartsInit chips mtdidsDefault (powerOn env) =
      if mtdpartsMaxlen - 1 < (env.mtdparts.getD []).length then some (false, powerOn env)
      else initParts chips { powerOn env with mtdids := s.mtdids, lastIds := s.lastIds } true
        ((env.partition.getD []).take 16) := by
  have hlen : ¬mtdidsMaxlen - 1 < s.lastIds.length := by
    have := h.short
    unfold mtdidsMaxlen
    omega
  have hdef : ({ env with mtdids := some s.lastIds } : Env) = env := by
    rw [← henv]
  have hfresh : ¬(([] : Str) ≠ [] ∧ [] = s.lastIds) := fun hf => hf.1 rfl
  unfold mtdpartsInit powerOn
  simp only [henv, Option.some_or, if_neg hlen, hdef, if_neg hfresh, parseMtdids, if_neg hne, h.read]

theorem mtdpartsInit_saved {s : State} {text : Str} (mtdidsDefault : Option Str) (h : s.Spelled chips)
    (hready : s.Ready chips) (hread : s.IdsRead chips)
    (hg : generateMtdparts s.devices mtdpartsMaxlen = some text) :
    s.ReadsBack (mtdpartsInit chips mtdidsDefault (powerOn (generateMtdpartsSave s).2.env)) ↔
      text.length ≤ 511 ∧ s.Legible := by
  obtain ⟨hids_ne, hids⟩ := hready.synced.settled.ids
  obtain ⟨env, henv⟩ : ∃ env, env = (generateMtdpartsSave s).2.env := ⟨_, rfl⟩
  have henvIds : env.mtdids = some s.lastIds := by
    rw [henv, ← hids]
    unfold generateMtdpartsSave
    rw [hg]
  have henvParts : env.mtdparts = if text = [] then none else some text := by
    rw [henv]
    unfold generateMtdpartsSave
    rw [hg]
  have hinit := mtdpartsInit_powerOn mtdidsDefault hread hids_ne henvIds
  rw [← henv, hinit]
  by_cases hnil : s.devices = []
  · have htext : text = [] := by
      unfold generateMtdparts at hg
      rw [if_pos hnil] at hg
      exact (Option.some.inj hg).symm
    rw [htext, if_pos rfl] at henvParts
    have hleg : s.Legible := fun d hd => by
      rw [hnil] at hd
      cases hd
    rw [henvParts, htext]
    refine iff_of_true ?_ ⟨Nat.zero_le _, hleg⟩
    refine ⟨{ powerOn env with mtdids := s.mtdids, lastIds := s.lastIds }, ?_, ?_⟩
    · rw [Option.getD_none, if_neg (show ¬mtdpartsMaxlen - 1 < ([] : Str).length from Nat.not_lt_zero _)]
      unfold initParts
      rw [show (powerOn env).env.mtdparts = none from henvParts]
      exact if_neg fun hne => hne rfl
    · rw [hnil]
      rfl
  · have hne : text ≠ [] := by
      rintro rfl
      unfold generateMtdparts at hg
      rw [if_neg hnil] at hg
      obtain ⟨t, _, ht⟩ := Option.map_eq_some_iff.mp hg
      cases ht
    rw [if_neg hne] at henvParts
    rw [henvParts, Option.getD_some]
    by_cases hlen : text.length ≤ 511
    · obtain ⟨u, hu⟩ : ∃ u : State, u = { powerOn env with mtdids := s.mtdids, lastIds := s.lastIds } := ⟨_, rfl⟩
      have huIds : u.mtdids = s.mtdids := by rw [hu]
      have huParts : u.env.mtdparts = some text := by
        rw [hu]
        exact henvParts
      obtain ⟨b, t, hparse, _⟩ := parseMtdparts_printed h hnil hg huIds huParts
      have hiff := parseMtdparts_reads_iff h hg huIds huParts
      obtain ⟨v, hv, hdevices⟩ := initParts_of_parse
        (by rw [huIds]; exact h.tidy.known) huParts hlen hparse
      rw [if_neg (by unfold mtdpartsMaxlen; omega), ← hu, hv, and_iff_right hlen]
      rw [and_iff_right hnil, hparse] at hiff
      rw [← hiff]
      constructor
      · rintro ⟨w, hw, hview⟩
        obtain ⟨hb, rfl⟩ := Prod.mk.inj (Option.some.inj hw)
        rw [hdevices] at hview
        exact ⟨t, by rw [(of_decide_eq_true hb).1], hview⟩
      · rintro ⟨w, hw, hview⟩
        cases hw
        have htne : t.devices ≠ [] := fun h0 => by
          rw [h0] at hview
          exact hnil (map_eq_nil_iff.mp hview.symm)
        refine ⟨v, ?_, ?_⟩
        · rw [decide_eq_true ⟨rfl, htne⟩]
        · rw [hdevices]
          exact hview
    · rw [if_pos (by unfold mtdpartsMaxlen; omega)]
      constructor
      · rintro ⟨t, ht, _⟩
        obtain ⟨hb, _⟩ := Prod.mk.inj (Option.some.inj ht)
        cases hb
      · exact fun hl => absurd hl.1 hlen

/-- Which tables come back from their text: at once, and from the saved variables after a reset. -/
theorem mtdparts_round_trip {mtdidsDefault : Option Str} {env : Env} {s₀ s : State} {cmds : List Cmd}
    {bs : List Bool} {text : Str}
    (hinit : mtdpartsInit chips mtdidsDefault (powerOn env) = some (true, s₀))
    (hrun : Runs.run (mtdStep chips mtdidsDefault) s₀ cmds = some (bs, s))
    (hparts : ∀ d ∈ s.devices, ∀ p ∈ d.parts, p.autoName = false ∧ minPartSize ≤ p.size)
    (hg : generateMtdparts s.devices mtdpartsMaxlen = some text) :
    (∀ u : State, u.mtdids = s.mtdids → u.env.mtdparts = some text →
      (s.ReadsBack (parseMtdparts chips u) ↔ s.devices ≠ [] ∧ s.Legible)) ∧
    (s.ReadsBack (mtdpartsInit chips mtdidsDefault (powerOn (generateMtdpartsSave s).2.env)) ↔
      text.length ≤ 511 ∧ s.Legible) := by
  have hstep : ∀ u cmd b v, (u.Ready chips ∧ u.IdsRead chips) → True →
      mtdStep chips mtdidsDefault u cmd = some (b, v) → v.Ready chips ∧ v.IdsRead chips := by
    rintro u cmd b v ⟨hu, hread⟩ _ hstep
    obtain ⟨hids, hlast⟩ := mtdStep_ids hu hstep
    exact ⟨mtdStep_keeps hu hstep, hread.congr hids hlast⟩
  obtain ⟨⟨hready₀, _⟩, hread₀⟩ := mtdpartsInit_spec hinit
  obtain ⟨hready, hread⟩ := Runs.run_answers hstep ⟨hready₀, hread₀⟩ (fun _ _ => trivial) hrun
  have hspelled : s.Spelled chips := by
    refine ⟨hready.tidy, fun d hd => ?_, fun d hd p hp => ?_⟩
    · have hlen := generate_length hg hd
      rw [(hready.tidy.devs d hd).numParts, UInt16.toNat_ofNat']
      omega
    · obtain ⟨huser, hsize⟩ := hparts d hd p hp
      exact ⟨huser, hsize, (hready.tidy.devs d hd).written p hp⟩
  exact ⟨fun u hids hm => parseMtdparts_reads_iff hspelled hg hids hm,
    mtdpartsInit_saved mtdidsDefault hspelled hready hread hg⟩

/-- After `sampleCmds`: a gap and a partition that is only read. -/
def editedDevices : List Dev :=
  [⟨2, ⟨.nand, 0, 1048576, ascii ['a']⟩, 2, [⟨0, ascii ['x'], false, 65536, 0, 0⟩,
    ⟨3, ascii ['z'], false, 16384, 131072, 1⟩]⟩]

def editedText : Str :=
  mtdpartsPrefix ++ ascii ['a', ':', '6', '4', 'k', '(', 'x', ')', ',', '1', '6', 'k', '@', '1', '2', '8', 'k',
    '(', 'z', ')', 'r', 'o']

theorem mtdparts_round_trip_edited :
    ∃ s₀ s, mtdpartsInit sampleChips none (powerOn sampleEnv) = some (true, s₀) ∧
      Runs.run (mtdStep sampleChips none) s₀ sampleCmds = some ([true, true, true], s) ∧
      s.devices = editedDevices ∧
      s.ReadsBack (mtdpartsInit sampleChips none (powerOn (generateMtdpartsSave s).2.env)) := by
  have hrun : ((mtdpartsInit sampleChips none (powerOn sampleEnv)).bind fun r =>
      (Runs.run (mtdStep sampleChips none) r.2 sampleCmds).map fun u => (r.1, u.1, u.2.devices)) =
      some (true, [true, true, true], editedDevices) := by decide +kernel
  obtain ⟨⟨b, s₀⟩, hinit, hrun⟩ := Option.bind_eq_some_iff.mp hrun
  obtain ⟨⟨bs, s⟩, hrun, he⟩ := Option.map_eq_some_iff.mp hrun
  obtain ⟨rfl, hpair⟩ := Prod.mk.inj he
  obtain ⟨rfl, hdevices⟩ := Prod.mk.inj hpair
  have hdevices : s.devices = editedDevices := hdevices
  have hparts : ∀ d ∈ s.devices, ∀ p ∈ d.parts, p.autoName = false ∧ minPartSize ≤ p.size := by
    rw [hdevices]
    decide
  have hg : generateMtdparts s.devices mtdpartsMaxlen = some editedText := by
    rw [hdevices]
    decide +kernel
  have hlegible : s.Legible := by
    unfold State.Legible
    rw [hdevices]
    decide
  exact ⟨s₀, s, hinit, hrun, hdevices, (mtdparts_round_trip hinit hrun hparts hg).2.mpr ⟨by decide, hlegible⟩⟩

/-- What `generate_mtdparts` leaves in the buffer of `generate_mtdparts_save` where it returns 0, `parse_mtdparts`
reads back under the condition of the text. -/
theorem generated_buffer_reads {mtdidsDefault : Option Str} {env : Env} {s₀ s : State} {cmds : List Cmd}
    {bs : List Bool} {buf : List UInt8} {g : Generated}
    (hinit : mtdpartsInit chips mtdidsDefault (powerOn env) = some (true, s₀))
    (hrun : Runs.run (mtdStep chips mtdidsDefault) s₀ cmds = some (bs, s))
    (hparts : ∀ d ∈ s.devices, ∀ p ∈ d.parts, p.autoName = false ∧ minPartSize ≤ p.size)
    (hbuf : buf.length = mtdpartsMaxlen)
    (hg : generateMtdpartsTo s.devices s.lastParts buf mtdpartsMaxlen = some g) (hret : g.ret = 0) :
    ∃ text rest, g.buf = text ++ 0 :: rest ∧ ∀ u : State, u.mtdids = s.mtdids → u.env.mtdparts = some text →
        (s.ReadsBack (parseMtdparts chips u) ↔ s.devices ≠ [] ∧ s.Legible) := by
  have hready : s.Ready chips :=
    Runs.run_answers (fun _ _ _ _ hu _ hs => mtdStep_keeps hu hs) (mtdpartsInit_spec hinit).1.1 (fun _ _ => trivial) hrun
  have htext : generateMtdparts s.devices mtdpartsMaxlen = some (mtdpartsText s.devices) := by
    rw [generateMtdpartsTo_text hg, if_pos hret]
  have hspelled : s.Spelled chips := by
    refine ⟨hready.tidy, fun d hd => ?_, fun d hd p hp => ?_⟩
    · have hlen := generate_length htext hd
      rw [(hready.tidy.devs d hd).numParts, UInt16.toNat_ofNat']
      omega
    · obtain ⟨huser, hsize⟩ := hparts d hd p hp
      exact ⟨huser, hsize, (hready.tidy.devs d hd).written p hp⟩
  rw [← hbuf] at hg
  obtain ⟨rest, hrest⟩ := generateMtdpartsTo_buffer (by rw [hbuf]; decide) hg hret
  exact ⟨_, rest, hrest, fun u hids hm => parseMtdparts_reads_iff hspelled htext hids hm⟩

/-- The edited table, from a buffer that is full of sevens. -/
theorem generated_buffer_reads_edited :
    ∃ s₀ s g, mtdpartsInit sampleChips none (powerOn sampleEnv) = some (true, s₀) ∧
      Runs.run (mtdStep sampleChips none) s₀ sampleCmds = some ([true, true, true], s) ∧
      generateMtdpartsTo s.devices s.lastParts (List.replicate 512 7) mtdpartsMaxlen = some g ∧
      ∃ text rest, g.buf = text ++ 0 :: rest ∧ ∀ u : State, u.mtdids = s.mtdids → u.env.mtdparts = some text →
          (s.ReadsBack (parseMtdparts sampleChips u) ↔ s.devices ≠ [] ∧ s.Legible) := by
  have hrun : ((mtdpartsInit sampleChips none (powerOn sampleEnv)).bind fun r =>
      (Runs.run (mtdStep sampleChips none) r.2 sampleCmds).bind fun u =>
        (generateMtdpartsTo u.2.devices u.2.lastParts (List.replicate 512 7) mtdpartsMaxlen).map fun g =>
          (r.1, u.1, u.2.devices, g.ret)) = some (true, [true, true, true], editedDevices, 0) := by decide +kernel
  obtain ⟨⟨b, s₀⟩, hinit, hrun⟩ := Option.bind_eq_some_iff.mp hrun
  obtain ⟨⟨bs, s⟩, hrun, hrest⟩ := Option.bind_eq_some_iff.mp hrun
  obtain ⟨g, hg, he⟩ := Option.map_eq_some_iff.mp hrest
  simp only [Prod.mk.injEq] at he
  obtain ⟨rfl, rfl, hdevices, hret⟩ := he
  refine ⟨s₀, s, g, hinit, hrun, hg, generated_buffer_reads hinit hrun ?_ (length_replicate ..) hg hret⟩
  rw [hdevices]
  decide

/-- Behind w there are y and x at one offset: the text says y and x, which comes back as x and y. -/
theorem tie_comes_back_reversed : mtdpartsInit sampleChips none (powerOn tieEnv) = some (true, tieTable) ∧
      (∀ d ∈ tieTable.devices, ∀ p ∈ d.parts, p.autoName = false ∧ minPartSize ≤ p.size) ∧
      (generateMtdparts tieTable.devices mtdpartsMaxlen).isSome = true ∧
      generateMtdparts tieTable.devices mtdpartsMaxlen = (generateMtdpartsSave tieTable).2.env.mtdparts ∧
      ¬tieTable.ReadsBack (parseMtdparts sampleChips (generateMtdpartsSave tieTable).2) := by
  refine ⟨by decide +kernel, by decide, by decide +kernel, by decide +kernel, ?_⟩
  rintro ⟨t, ht, hview⟩
  have hnames : (parseMtdparts sampleChips (generateMtdpartsSave tieTable).2).map
      (fun r => r.2.devices.map fun d => d.parts.map Part.name) =
      some [[ascii ['w'], ascii ['x'], ascii ['y']]] := by decide +kernel
  rw [ht] at hnames
  have hback := congrArg (List.map fun v : Id × List PartView => v.2.map PartView.name) hview
  simp only [map_map] at hback
  have hsame : (fun v : Id × List PartView => v.2.map PartView.name) ∘ Dev.view =
      fun d => d.parts.map Part.name := by
    funext d
    unfold Dev.view
    simp only [Function.comp_apply, map_map]
    rfl
  rw [hsame] at hback
  have hnames : t.devices.map (fun d => d.parts.map Part.name) = _ := Option.some.inj hnames
  rw [hnames] at hback
  exact absurd hback (by decide)

end UBoot.Mtd
