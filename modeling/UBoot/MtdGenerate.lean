import UBoot.MtdDevices

namespace UBoot.Mtd

open KeyOrder List

variable {chips : Chips}

theorem emit_eq_some_iff {n : Nat} {pieces : List Str} {t : Str} :
    emit n pieces = some t ↔ t = pieces.flatten ∧ t.length ≤ n := by
  induction pieces generalizing n t with
  | nil =>
    simp only [emit, Option.some.injEq, flatten_nil]
    constructor
    · rintro rfl
      exact ⟨rfl, Nat.zero_le _⟩
    · rintro ⟨rfl, _⟩
      rfl
  | cons piece pieces ih =>
    unfold emit
    split
    next hfit =>
      rw [Option.map_eq_some_iff]
      constructor
      · rintro ⟨u, hu, rfl⟩
        obtain ⟨rfl, hlen⟩ := ih.mp hu
        refine ⟨rfl, ?_⟩
        rw [length_append]
        omega
      · rintro ⟨rfl, hlen⟩
        rw [flatten_cons, length_append] at hlen
        exact ⟨pieces.flatten, ih.mpr ⟨rfl, by omega⟩, rfl⟩
    next hfit =>
      constructor
      · intro h
        cases h
      · rintro ⟨rfl, hlen⟩
        rw [flatten_cons, length_append] at hlen
        omega

theorem decimalFuel_ne_nil (fuel n : Nat) : decimalFuel (fuel + 1) n ≠ [] := by
  unfold decimalFuel
  split
  · exact cons_ne_nil _ _
  · exact append_ne_nil_of_right_ne_nil _ (cons_ne_nil _ _)

theorem decimalFuel_length_le {fuel k n : Nat} (h : n < 10 ^ (k + 1)) :
    (decimalFuel fuel n).length ≤ k + 1 := by
  induction k generalizing fuel n with
  | zero =>
    cases fuel with
    | zero => exact Nat.zero_le _
    | succ fuel =>
      unfold decimalFuel
      rw [if_pos (by omega)]
      exact le_rfl
  | succ k ih =>
    cases fuel with
    | zero => exact Nat.zero_le _
    | succ fuel =>
      unfold decimalFuel
      split
      · simp only [length_singleton]
        omega
      · have hdiv : n / 10 < 10 ^ (k + 1) := by
          rw [pow_succ] at h
          omega
        have : (decimalFuel fuel (n / 10)).length ≤ k + 1 := ih hdiv
        rw [length_append, length_singleton]
        omega

theorem memsizeFormat_ne_nil (size : UInt32) : memsizeFormat size ≠ [] := by
  unfold memsizeFormat
  split
  · exact append_ne_nil_of_left_ne_nil (decimalFuel_ne_nil 9 _) _
  · split
    · exact append_ne_nil_of_left_ne_nil (decimalFuel_ne_nil 9 _) _
    · split
      · exact append_ne_nil_of_left_ne_nil (decimalFuel_ne_nil 9 _) _
      · exact decimalFuel_ne_nil 9 _

theorem parts_length_le (numParts cnt : Nat) (prev : Option Part) (parts : List Part) :
    parts.length ≤ (partsPieces numParts cnt prev parts).flatten.length := by
  induction parts generalizing cnt prev with
  | nil => exact Nat.zero_le _
  | cons part parts ih =>
    have hpos := length_pos_iff.mpr (memsizeFormat_ne_nil part.size)
    have hrest := ih (cnt + 1) (some part)
    simp only [partsPieces, partPieces, flatten_append, flatten_cons, flatten_nil,
      length_append, length_cons]
    omega

theorem devPieces_length_le {devs : List Dev} {dev : Dev} (h : dev ∈ devs) :
    (devPieces dev).flatten.length ≤ (tablePieces devs).flatten.length := by
  induction devs with
  | nil => cases h
  | cons d devs ih =>
    cases devs with
    | nil =>
      rw [mem_singleton.mp h]
      exact le_rfl
    | cons d' devs =>
      simp only [tablePieces, flatten_append, flatten_cons, length_append]
      rcases mem_cons.mp h with rfl | h
      · omega
      · have := ih h
        omega

theorem generate_length {devs : List Dev} {t : Str} (h : generateMtdparts devs mtdpartsMaxlen = some t)
    {dev : Dev} (hd : dev ∈ devs) : dev.parts.length ≤ 511 := by
  unfold generateMtdparts at h
  split at h
  next hnil =>
    rw [hnil] at hd
    cases hd
  · obtain ⟨u, hu, _⟩ := Option.map_eq_some_iff.mp h
    obtain ⟨rfl, hlen⟩ := emit_eq_some_iff.mp hu
    have hdev := devPieces_length_le hd
    have hparts := parts_length_le dev.numParts.toNat 0 none dev.parts
    unfold devPieces at hdev
    rw [flatten_cons, length_append] at hdev
    unfold mtdpartsMaxlen at hlen
    omega

theorem partitionText_length {id : Id} (h : id.num < 256) (n : UInt8) : (partitionText id n).length ≤ 16 := by
  have hnum : (decimal id.num).length ≤ 3 := decimalFuel_length_le (k := 2) (by omega)
  have hpart : (decimal n.toNat).length ≤ 3 := decimalFuel_length_le (k := 2) (by
    have := n.toNat_lt
    omega)
  have htype : (devTypeName id.type).length ≤ 7 := by
    cases id.type
    · decide
    · decide
    · decide
  have hcomma : (ascii [',']).length = 1 := rfl
  unfold partitionText
  simp only [length_append]
  omega

/-- The variables that the table does not come from are in step with it. -/
structure State.Settled (s : State) : Prop where
  ids : s.lastIds ≠ [] ∧ s.env.mtdids = some s.lastIds
  current : s.currentMtdDev = none → s.devices = []
  partition : s.devices ≠ [] → s.env.partition = some s.lastPartition ∧ s.lastPartition.length ≤ 16

theorem State.Tidy.at_some {s : State} (h : s.Tidy chips) {a : Nat} (ha : s.currentMtdDev = some a) :
    ∃ dev ∈ s.devices, dev.addr = a ∧ s.at a = some dev := by
  obtain ⟨d, hd, rfl⟩ := mem_map.mp (h.current a ha)
  cases hat : s.at d.addr with
  | none =>
    have := List.find?_eq_none.mp hat d hd
    simp at this
  | some dev => exact ⟨dev, mem_of_find?_eq_some hat, by simpa using List.find?_some hat, rfl⟩

theorem State.Tidy.known_id {s : State} (h : s.Tidy chips) {d : Dev} (hd : d ∈ s.devices) :
    Known chips d.id :=
  h.known d.id (mem_of_find?_eq_some (h.ids d hd).1)

theorem State.Tidy.settled_saved {s : State} (h : s.Tidy chips)
    (hids : s.lastIds ≠ [] ∧ s.env.mtdids = some s.lastIds)
    (hc : s.currentMtdDev = none → s.devices = []) : s.saved.Settled := by
  refine ⟨hids, hc, fun hne => ?_⟩
  cases hcur : s.currentMtdDev with
  | none => exact absurd (hc hcur) hne
  | some a =>
    obtain ⟨dev, hd, _, hat⟩ := h.at_some hcur
    have htext : s.currentText = some (partitionText dev.id s.currentMtdPartnum) := by
      simp [State.currentText, hcur, hat]
    refine ⟨?_, ?_⟩
    · change s.currentText = some (s.currentText.getD [])
      rw [htext]
      rfl
    · change (s.currentText.getD []).length ≤ 16
      rw [htext]
      exact partitionText_length (h.known_id hd).1 _

/-- The table can be read back from the variables, and a further `mtdparts_init` does nothing. -/
structure State.Synced (s : State) : Prop where
  settled : s.Settled
  parts : s.env.mtdparts.getD [] = s.lastParts ∧ s.env.mtdparts ≠ some []
  empty : s.devices = [] → s.env.mtdparts = none

theorem State.Synced.init {s : State} (h : s.Synced) (chips : Chips) (mtdidsDefault : Option Str) :
    ∃ b, mtdpartsInit chips mtdidsDefault s = some (b, s) := by
  obtain ⟨⟨⟨hids_ne, hids⟩, _, hpartition⟩, ⟨hparts, hparts_ne⟩, hempty⟩ := h
  have henv : { s with env := { s.env with mtdids := some s.lastIds } } = s := by
    rw [← hids]
  unfold mtdpartsInit
  rw [hids, Option.some_or]
  dsimp only
  split
  · exact ⟨false, by rw [henv]⟩
  split
  · exact ⟨false, by rw [henv]⟩
  rw [if_pos ⟨hids_ne, rfl⟩, henv]
  refine ⟨true, ?_⟩
  unfold initParts
  cases hm : s.env.mtdparts with
  | none =>
    rw [hm] at hparts
    rw [if_neg (fun hne => hne hparts.symm)]
  | some parts =>
    rw [hm] at hparts hparts_ne
    have hlast : s.lastParts = parts := hparts.symm
    have hne : s.lastParts ≠ [] := fun hnil => hparts_ne (by rw [← hlast, hnil])
    have hdevs : s.devices ≠ [] := fun hnil => by
      rw [hempty hnil] at hm
      cases hm
    obtain ⟨hpart, hlen⟩ := hpartition hdevs
    have hsame : ¬(s.lastParts = [] ∨ s.lastParts ≠ parts ∨ false = true) := by
      rintro (hnil | hother | hchanged)
      · exact hne hnil
      · exact hother hlast
      · cases hchanged
    dsimp only
    rw [if_neg hsame]
    simp only [Option.bind_eq_bind, Option.bind_some, not_true_eq_false, if_false, hpart,
      Option.getD_some, take_of_length_le hlen, ne_eq, and_false, reduceCtorEq]

theorem State.Settled.generate {s : State} (h : s.Settled) : (generateMtdpartsSave s).2.Synced := by
  unfold generateMtdpartsSave
  cases hg : generateMtdparts s.devices mtdpartsMaxlen with
  | none => exact ⟨⟨h.ids, h.current, h.partition⟩, ⟨rfl, nofun⟩, fun _ => rfl⟩
  | some buf =>
    refine ⟨⟨h.ids, h.current, h.partition⟩, ?_, fun hnil => ?_⟩
    · by_cases hb : buf = []
      · rw [hb]
        exact ⟨rfl, nofun⟩
      · simp only [if_neg hb]
        exact ⟨rfl, fun hs => hb (Option.some.inj hs)⟩
    · have hbuf : buf = [] := by
        unfold generateMtdparts at hg
        rw [if_pos hnil] at hg
        exact (Option.some.inj hg).symm
      rw [hbuf]
      rfl

theorem State.Tidy.generate {s : State} (h : s.Tidy chips) : (generateMtdpartsSave s).2.Tidy chips := by
  unfold generateMtdpartsSave
  split
  · exact ⟨h.known, h.devs, h.ids, h.keys, h.addrs, h.heap, h.current⟩
  · exact ⟨h.known, h.devs, h.ids, h.keys, h.addrs, h.heap, h.current⟩

theorem generateMtdpartsSave_devices (s : State) : (generateMtdpartsSave s).2.devices = s.devices := by
  unfold generateMtdpartsSave
  split
  · rfl
  · rfl

end UBoot.Mtd
