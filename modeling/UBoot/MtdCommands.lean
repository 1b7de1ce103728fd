import UBoot.MtdGenerate

namespace UBoot.Mtd

open KeyOrder

variable {chips : Chips}

theorem findName_mem {id : Str} {devs : List Dev} {dev : Dev} {n : UInt8} {part : Part}
    (h : findName id devs = some (dev, n, part)) : dev ∈ devs ∧ part ∈ dev.parts := by
  induction devs with
  | nil => cases h
  | cons d devs ih =>
    unfold findName at h
    split at h
    · obtain ⟨hd, hp⟩ := ih h
      exact ⟨List.mem_cons_of_mem _ hd, hp⟩
    next i _ =>
      obtain ⟨p, hp, h⟩ := Option.map_eq_some_iff.mp h
      obtain ⟨rfl, hpair⟩ := Prod.mk.inj h
      obtain ⟨_, rfl⟩ := Prod.mk.inj hpair
      exact ⟨List.mem_cons_self, List.mem_of_getElem? hp⟩

theorem mtdPartInfo_eq_some {dev : Dev} {n : UInt8} {part : Part} (h : mtdPartInfo dev n = some part) :
    n.toNat < dev.numParts.toNat ∧ dev.parts[n.toNat]? = some part := by
  unfold mtdPartInfo at h
  split at h
  next hlt => exact ⟨hlt, h⟩
  · cases h

theorem findDevAndPart_mem {s : State} {id : Str} {dev : Dev} {n : UInt8} {part : Part}
    (h : findDevAndPart s id = some (dev, n, part)) : dev ∈ s.devices ∧ part ∈ dev.parts := by
  unfold findDevAndPart at h
  split at h
  next hname =>
    rw [h] at hname
    exact findName_mem hname
  · split at h
    · split at h
      · cases h
      · split at h
        · obtain ⟨d, hd, h⟩ := Option.bind_eq_some_iff.mp h
          obtain ⟨p, hp, h⟩ := Option.bind_eq_some_iff.mp h
          obtain ⟨rfl, hpair⟩ := Prod.mk.inj (Option.some.inj h)
          obtain ⟨_, rfl⟩ := Prod.mk.inj hpair
          exact ⟨List.mem_of_find?_eq_some hd, List.mem_of_getElem? (mtdPartInfo_eq_some hp).2⟩
        · cases h
    · cases h

theorem doChpart_eq_some {s t : State} {id : Str} {b : Bool} (h : doChpart s id = some (b, t)) :
    (findDevAndPart s id = none ∧ b = false ∧ t = s) ∨
      ∃ dev n part, findDevAndPart s id = some (dev, n, part) ∧ b = true ∧
        t = { s with currentMtdDev := some dev.addr, currentMtdPartnum := n }.saved ∧ t.Points := by
  unfold doChpart at h
  split at h
  next hnone =>
    cases h
    exact .inl ⟨hnone, rfl, rfl⟩
  next dev n part hfound =>
    obtain ⟨u, hsave, h⟩ := Option.bind_eq_some_iff.mp h
    cases h
    obtain ⟨rfl, hpoints⟩ := currentSave_eq_some_iff.mp hsave
    exact .inr ⟨dev, n, part, hfound, rfl, rfl, hpoints⟩

theorem doDel_eq_some {s t : State} {id : Str} {b : Bool} (h : doDel s id = some (b, t)) :
    (findDevAndPart s id = none ∧ b = false ∧ t = s) ∨
      ∃ dev n part, findDevAndPart s id = some (dev, n, part) ∧ (s.partGone dev part).Points ∧
        (b, t) = generateMtdpartsSave (s.partGone dev part) := by
  unfold doDel at h
  split at h
  next hnone =>
    cases h
    exact .inl ⟨hnone, rfl, rfl⟩
  next dev n part hfound =>
    obtain ⟨u, hdel, h⟩ := Option.bind_eq_some_iff.mp h
    obtain ⟨rfl, hpoints⟩ := partDel_eq_some_iff.mp hdel
    exact .inr ⟨dev, n, part, hfound, hpoints, (Option.some.inj h).symm⟩

/-- A device that the list does not have comes to its end. -/
structure Joins (chips : Chips) (s : State) (n : Nat) (dev : Dev) : Prop where
  parsed : Parsed chips s n dev
  other : deviceFind s dev.id.type dev.id.num = none
  short : dev.parts.length ≤ 63

/-- A partition that comes into a device of the list, the first one of the device that was parsed. -/
structure Merges (chips : Chips) (s : State) (n : Nat) (dev dev' : Dev) (part : Part) : Prop where
  parsed : Parsed chips s n dev'
  found : deviceFind s dev'.id.type dev'.id.num = some dev
  first : ∃ p, dev'.parts.head? = some p ∧ partValidate chips dev.id p = some part
  fits : sortAdd part dev.parts ≠ none

/-- The id of the device that `mtdparts add` names. -/
def addId (s : State) (mtdDev : Str) : Option Id :=
  (mtdIdParse mtdDev).bind fun r => s.mtdids.find? fun id => id.type = r.1 ∧ id.num = r.2.1

/-- The device of the list that `mtdparts add` puts a partition into, and the partition. -/
def addedTo (chips : Chips) (s : State) (mtdDev size name : Str) (opt : Option Str) :
    Option (Dev × Part) := do
  let id ← addId s mtdDev
  let (id, parts, _) ← ← deviceText chips s (addText id size name opt)
  let parts ← sortAll [] parts
  let dev ← deviceFind s id.type id.num
  let part ← partValidate chips dev.id (← parts.head?)
  some (dev, part)

/-- A text that is counted as one that fits, and does not. -/
def Overruns (id : Id) (size name : Str) (opt : Option Str) : Prop :=
  (addLen id size name opt).toNat < partAddDescMaxlen ∧ partAddDescMaxlen ≤ (addText id size name opt).length

theorem mergeDevice_cases {s : State} {n : Nat} {dev : Dev} (hs : s.Tidy chips) (hp : s.Points)
    (hd : Parsed chips s n dev) (hlen : dev.parts.length ≤ 63) :
    mergeDevice chips { s with heap := s.heap + n } dev = some (false, { s with heap := s.heap + n }) ∨
      (Joins chips s n dev ∧ ∀ r, mergeDevice chips { s with heap := s.heap + n } dev = some r ↔
        (State.devCome { s with heap := s.heap + n } dev).Points ∧
          r = (true, State.devCome { s with heap := s.heap + n } dev)) ∨
      ∃ dev' p part, deviceFind s dev.id.type dev.id.num = some dev' ∧ dev.parts.head? = some p ∧
        partValidate chips dev'.id p = some part ∧ Merges chips s n dev' dev part ∧
        ∀ r, mergeDevice chips { s with heap := s.heap + n } dev = some r ↔
          (State.partCome { s with heap := s.heap + n } dev' part).Points ∧
            r = (true, State.partCome { s with heap := s.heap + n } dev' part) := by
  have hfresh := (hs.fresh hd.addr.1).heap (s.heap + n)
  have hdel : deviceDel { s with heap := s.heap + n } dev = some { s with heap := s.heap + n } :=
    deviceDel_eq_some_iff.mpr ⟨hfresh.devGone.symm, hp⟩
  have hsame : ∀ type num, deviceFind { s with heap := s.heap + n } type num = deviceFind s type num :=
    fun _ _ => rfl
  unfold mergeDevice
  rw [hsame]
  cases hfound : deviceFind s dev.id.type dev.id.num with
  | none =>
    refine .inr (.inl ⟨⟨hd, hfound, hlen⟩, fun r => ?_⟩)
    simp only [Option.bind_eq_bind, Option.bind_eq_some_iff, deviceAdd_eq_some_iff]
    constructor
    · rintro ⟨u, ⟨rfl, hpoints⟩, h⟩
      exact ⟨hpoints, (Option.some.inj h).symm⟩
    · rintro ⟨hpoints, rfl⟩
      exact ⟨_, ⟨rfl, hpoints⟩, rfl⟩
  | some dev' =>
    obtain ⟨p, ps, hps⟩ := List.exists_cons_of_ne_nil hd.tidy.parts_ne
    have hhead : dev.parts.head? = some p := by rw [hps, List.head?_cons]
    simp only [hhead, Option.bind_eq_bind, Option.bind_some]
    unfold partAdd
    cases hvalid : partValidate chips dev'.id p with
    | none =>
      left
      simp [hdel]
    | some part =>
      dsimp only
      by_cases hfits : sortAdd part dev'.parts = none
      · left
        have hnone := partSortAdd_eq_some_iff.mpr
          (.inl ⟨hfits, rfl, (rfl : State.mk _ _ _ _ _ _ _ _ _ = { s with heap := s.heap + n })⟩)
        rw [hnone]
        simp [hdel]
      · refine .inr (.inr ⟨dev', p, part, rfl, rfl, hvalid,
          ⟨hd, hfound, ⟨p, hhead, hvalid⟩, hfits⟩, fun r => ?_⟩)
        rw [Option.bind_eq_some_iff]
        constructor
        · rintro ⟨⟨added, u⟩, hadd, h⟩
          rcases partSortAdd_eq_some_iff.mp hadd with ⟨hno, _, _⟩ | ⟨_, rfl, rfl, hpoints⟩
          · exact absurd hno hfits
          · exact ⟨hpoints, (Option.some.inj h).symm⟩
        · rintro ⟨hpoints, rfl⟩
          exact ⟨_, partSortAdd_eq_some_iff.mpr (.inr ⟨hfits, rfl, rfl, hpoints⟩), rfl⟩

theorem doAdd_cases {s : State} (mtdDev size name : Str) (opt : Option Str) (hs : s.Tidy chips)
    (hp : s.Points) :
    (∃ id, addId s mtdDev = some id ∧ Overruns id size name opt ∧
        doAdd chips s mtdDev size name opt = none) ∨
      (∃ n, doAdd chips s mtdDev size name opt = some (false, { s with heap := s.heap + n })) ∨
      (∃ n dev, Joins chips s n dev ∧ ∀ r, doAdd chips s mtdDev size name opt = some r ↔
        (State.devCome { s with heap := s.heap + n } dev).Points ∧
          r = generateMtdpartsSave (State.devCome { s with heap := s.heap + n } dev)) ∨
      ∃ n dev dev' part, Merges chips s n dev dev' part ∧
        addedTo chips s mtdDev size name opt = some (dev, part) ∧
        ∀ r, doAdd chips s mtdDev size name opt = some r ↔
          (State.partCome { s with heap := s.heap + n } dev part).Points ∧
            r = generateMtdpartsSave (State.partCome { s with heap := s.heap + n } dev part) := by
  unfold doAdd
  split
  · exact .inr (.inl ⟨0, rfl⟩)
  next type num rest hparse =>
    have hid : addId s mtdDev = s.mtdids.find? fun id => id.type = type ∧ id.num = num := by
      unfold addId
      rw [hparse]
      rfl
    split
    · exact .inr (.inl ⟨0, rfl⟩)
    next id hfind =>
      rw [hfind] at hid
      split
      · exact .inr (.inl ⟨0, rfl⟩)
      next hcount =>
        split
        next hlong => exact .inl ⟨id, hid, ⟨by omega, hlong⟩, rfl⟩
        next hshort =>
          right
          obtain ⟨n, parsed, hdev, hparsed⟩ := deviceParse_spec (addText id size name opt) hs hp
          simp only [hdev, Option.bind_eq_bind, Option.bind_some]
          cases parsed with
          | none => exact .inl ⟨n, rfl⟩
          | some pair =>
            obtain ⟨dev, q⟩ := pair
            obtain ⟨hd, htext⟩ := hparsed dev q rfl
            have hlen := htext.short
            unfold partAddDescMaxlen at hshort
            dsimp only
            rcases mergeDevice_cases hs hp hd (by omega) with hno | ⟨hj, hmerge⟩ |
              ⟨dev', p, part, hfound, hhead, hvalid, hm, hmerge⟩
            · rw [hno]
              exact .inl ⟨n, rfl⟩
            · refine .inr (.inl ⟨n, dev, hj, fun r => ?_⟩)
              rw [Option.bind_eq_some_iff]
              constructor
              · rintro ⟨r', hr', h⟩
                obtain ⟨hpoints, rfl⟩ := (hmerge r').mp hr'
                exact ⟨hpoints, (Option.some.inj h).symm⟩
              · rintro ⟨hpoints, rfl⟩
                exact ⟨_, (hmerge _).mpr ⟨hpoints, rfl⟩, rfl⟩
            · have hadded : addedTo chips s mtdDev size name opt = some (dev', part) := by
                obtain ⟨parts, q', hdevText, hsort⟩ := htext.parsed
                unfold addedTo
                simp [hid, hdevText, hsort, hfound, hhead, hvalid]
              refine .inr (.inr ⟨n, dev', dev, part, hm, hadded, fun r => ?_⟩)
              rw [Option.bind_eq_some_iff]
              constructor
              · rintro ⟨r', hr', h⟩
                obtain ⟨hpoints, rfl⟩ := (hmerge r').mp hr'
                exact ⟨hpoints, (Option.some.inj h).symm⟩
              · rintro ⟨hpoints, rfl⟩
                exact ⟨_, (hmerge _).mpr ⟨hpoints, rfl⟩, rfl⟩

theorem State.Tidy.of_saved {s : State} (h : s.saved.Tidy chips) : s.Tidy chips :=
  ⟨h.known, h.devs, h.ids, h.keys, h.addrs, h.heap, h.current⟩

theorem State.Settled.put {s : State} (h : s.Settled) (dev : Dev) : (s.put dev).Settled := by
  refine ⟨h.ids, fun hn => ?_, fun hne => h.partition fun hnil => hne ?_⟩
  · unfold State.put
    rw [show s.devices = [] from h.current hn]
    rfl
  · unfold State.put
    rw [hnil]
    rfl

theorem State.Settled.devGone {s : State} {dev : Dev} (hs : s.Settled) (h : s.Tidy chips) :
    (s.devGone dev).Settled := by
  have htidy := h.devGone dev
  unfold State.devGone at htidy ⊢
  split at htidy
  next hc =>
    rw [if_pos hc]
    exact htidy.of_saved.settled_saved hs.ids fun hn =>
      List.head?_eq_none_iff.mp (Option.map_eq_none_iff.mp hn)
  next hc =>
    rw [if_neg hc]
    refine ⟨hs.ids, fun hn => ?_, fun hne => hs.partition fun hnil => hne ?_⟩
    · dsimp only
      rw [hs.current hn]
      rfl
    · dsimp only
      rw [hnil]
      rfl

theorem State.Settled.partGone {s : State} {dev : Dev} {part : Part} (hs : s.Settled)
    (h : s.Tidy chips) (hd : dev ∈ s.devices) (hp : part ∈ dev.parts) :
    (s.partGone dev part).Settled := by
  have htidy := h.partGone hd hp
  unfold State.partGone at htidy ⊢
  split at htidy
  next hone =>
    rw [if_pos hone]
    exact hs.devGone h
  next hone =>
    rw [if_neg hone]
    have hput := hs.put (dev.shrunk part)
    split at htidy
    · exact htidy.of_saved.settled_saved hput.ids hput.current
    · exact hput

theorem State.Settled.partCome {s : State} {dev : Dev} {part : Part} (hs : s.Settled)
    (htidy : (s.partCome dev part).Tidy chips) : (s.partCome dev part).Settled := by
  have hput := hs.put (dev.grown part)
  unfold State.partCome at htidy ⊢
  split at htidy
  next hshift =>
    rw [if_pos hshift]
    exact htidy.of_saved.settled_saved hput.ids hput.current
  next hshift =>
    rw [if_neg hshift]
    exact hput

theorem State.Settled.devCome {s : State} {dev : Dev} (hs : s.Settled)
    (htidy : (s.devCome dev).Tidy chips) : (s.devCome dev).Settled := by
  unfold State.devCome at htidy ⊢
  split at htidy
  next hnil =>
    rw [if_pos hnil]
    exact htidy.of_saved.settled_saved hs.ids nofun
  next hne =>
    rw [if_neg hne]
    exact ⟨hs.ids, fun hn => absurd (hs.current hn) hne, fun _ => hs.partition hne⟩

theorem State.Settled.heap {s : State} (h : s.Settled) (n : Nat) :
    State.Settled { s with heap := s.heap + n } :=
  ⟨h.ids, h.current, h.partition⟩

theorem State.Tidy.joins {s : State} {n : Nat} {dev : Dev} (h : s.Tidy chips)
    (hj : Joins chips s n dev) : (State.devCome { s with heap := s.heap + n } dev).Tidy chips :=
  (h.heap_le n).devCome hj.parsed.tidy hj.parsed.id hj.parsed.colon hj.other
    (h.fresh hj.parsed.addr.1).devices ⟨hj.parsed.addr.2, fun p hp => (hj.parsed.parts p hp).2⟩

theorem Merges.part {s : State} {n : Nat} {dev dev' : Dev} {part : Part}
    (hm : Merges chips s n dev dev' part) :
    dev ∈ s.devices ∧ partValidate chips dev.id part = some part ∧ part.Written ∧
      s.heap ≤ part.addr ∧ part.addr < s.heap + n := by
  obtain ⟨p, hp, hv⟩ := hm.first
  obtain ⟨⟨size, hform, _⟩, _⟩ := partValidate_eq_some hv
  have hmem : p ∈ dev'.parts := List.mem_of_mem_head? hp
  have hw := hm.parsed.tidy.written p hmem
  have haddr := hm.parsed.parts p hmem
  refine ⟨List.mem_of_find?_eq_some hm.found, partValidate_again hv, ?_, ?_⟩
  · rw [hform]
    exact ⟨hw.name, hw.maskFlags⟩
  · rw [hform]
    exact haddr

theorem State.Tidy.merges {s : State} {n : Nat} {dev dev' : Dev} {part : Part} (h : s.Tidy chips)
    (hm : Merges chips s n dev dev' part) :
    (State.partCome { s with heap := s.heap + n } dev part).Tidy chips := by
  obtain ⟨hd, hv, hw, hlow, hhigh⟩ := hm.part
  refine (h.heap_le n).partCome hd hv hm.fits hw (fun hmem => ?_) hhigh
  obtain ⟨p, hp, he⟩ := List.mem_map.mp hmem
  have := (h.heap dev hd).2 p hp
  omega

theorem State.Points.generate {s : State} (h : s.Points) : (generateMtdpartsSave s).2.Points := by
  unfold generateMtdpartsSave
  split
  · exact h
  · exact h

/-- What holds between commands. -/
structure State.Ready (chips : Chips) (s : State) : Prop where
  tidy : s.Tidy chips
  synced : s.Synced
  points : s.Points

theorem State.Ready.heap {s : State} (h : s.Ready chips) (n : Nat) :
    State.Ready chips { s with heap := s.heap + n } :=
  ⟨h.tidy.heap_le n, ⟨h.synced.settled.heap n, h.synced.parts, h.synced.empty⟩, h.points⟩

theorem State.Ready.generate {s : State} (h : s.Tidy chips) (hs : s.Settled) (hp : s.Points) :
    (generateMtdpartsSave s).2.Ready chips :=
  ⟨h.generate, hs.generate, hp.generate⟩

theorem State.Ready.step {s : State} (h : s.Ready chips) (mtdidsDefault : Option Str) (cmd : Cmd) :
    mtdStep chips mtdidsDefault s cmd = some (false, s) ∨ mtdStep chips mtdidsDefault s cmd =
        match cmd with
        | .add mtdDev size name opt => doAdd chips s mtdDev size name opt
        | .del id => doDel s id
        | .chpart id => doChpart s id := by
  obtain ⟨ok, hinit⟩ := h.synced.init chips mtdidsDefault
  unfold mtdStep
  rw [hinit]
  simp only [Option.bind_eq_bind, Option.bind_some]
  cases ok with
  | true => exact .inr (if_pos rfl)
  | false => exact .inl (if_neg Bool.false_ne_true)

theorem doAdd_keeps {s t : State} {mtdDev size name : Str} {opt : Option Str} {b : Bool}
    (h : s.Ready chips) (hstep : doAdd chips s mtdDev size name opt = some (b, t)) : t.Ready chips := by
  rcases doAdd_cases mtdDev size name opt h.tidy h.points with ⟨_, _, _, hno⟩ | ⟨n, he⟩ |
    ⟨n, dev, hj, hiff⟩ | ⟨n, dev, dev', part, hm, _, hiff⟩
  · cases hno.symm.trans hstep
  · obtain ⟨_, rfl⟩ := Prod.mk.inj (Option.some.inj (he.symm.trans hstep))
    exact h.heap n
  · obtain ⟨hpoints, hg⟩ := (hiff _).mp hstep
    have htidy := h.tidy.joins hj
    rw [show t = _ from (Prod.mk.inj hg).2]
    exact .generate htidy ((h.heap n).synced.settled.devCome htidy) hpoints
  · obtain ⟨hpoints, hg⟩ := (hiff _).mp hstep
    have htidy := h.tidy.merges hm
    rw [show t = _ from (Prod.mk.inj hg).2]
    exact .generate htidy ((h.heap n).synced.settled.partCome htidy) hpoints

theorem doDel_keeps {s t : State} {id : Str} {b : Bool} (h : s.Ready chips)
    (hstep : doDel s id = some (b, t)) : t.Ready chips := by
  rcases doDel_eq_some hstep with ⟨_, _, rfl⟩ | ⟨dev, n, part, hfound, hpoints, hg⟩
  · exact h
  · obtain ⟨hd, hp⟩ := findDevAndPart_mem hfound
    rw [show t = _ from (Prod.mk.inj hg).2]
    exact .generate (h.tidy.partGone hd hp) (h.synced.settled.partGone h.tidy hd hp) hpoints

theorem doChpart_keeps {s t : State} {id : Str} {b : Bool} (h : s.Ready chips)
    (hstep : doChpart s id = some (b, t)) : t.Ready chips := by
  rcases doChpart_eq_some hstep with ⟨_, _, rfl⟩ | ⟨dev, n, part, hfound, _, rfl, hpoints⟩
  · exact h
  · have htidy := h.tidy.select (List.mem_map_of_mem (findDevAndPart_mem hfound).1) n
    refine ⟨htidy.saved, ⟨htidy.settled_saved h.synced.settled.ids fun hn => ?_, h.synced.parts,
      h.synced.empty⟩, hpoints⟩
    cases hn

theorem mtdStep_keeps {mtdidsDefault : Option Str} {s t : State} {cmd : Cmd} {b : Bool}
    (h : s.Ready chips) (hstep : mtdStep chips mtdidsDefault s cmd = some (b, t)) : t.Ready chips := by
  rcases h.step mtdidsDefault cmd with he | he
  · obtain ⟨_, rfl⟩ := Prod.mk.inj (Option.some.inj (he.symm.trans hstep))
    exact h
  · rw [he] at hstep
    cases cmd with
    | add mtdDev size name opt => exact doAdd_keeps h hstep
    | del id => exact doDel_keeps h hstep
    | chpart id => exact doChpart_keeps h hstep

end UBoot.Mtd
