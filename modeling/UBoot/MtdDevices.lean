import UBoot.MtdParse

namespace UBoot.Mtd

open KeyOrder List

variable {chips : Chips}

theorem parsed_part {id : Id} {addr : Nat} {offset : UInt32} {p q : Str} {part₀ part : Part}
    (hp : partParse addr p = some (part₀, q))
    (hv : partValidate chips id
      (if part₀.offset = offsetNotSpecified then { part₀ with offset := offset } else part₀) = some part) :
    part.addr = addr ∧ partValidate chips id part = some part ∧ part.Written := by
  obtain ⟨haddr, hname, hmask⟩ := partParse_written hp
  obtain ⟨⟨size, hform, _⟩, _⟩ := partValidate_eq_some hv
  refine ⟨?_, partValidate_again hv, ?_, ?_⟩
  · rw [hform, ← haddr]
    split
    · rfl
    · rfl
  · rw [hform]
    split
    · exact hname
    · exact hname
  · rw [hform]
    split
    · exact hmask
    · exact hmask

theorem parseParts_succ_eq_some {id : Id} {fuel addr : Nat} {offset : UInt32} {p q : Str}
    {parts : List Part} (h : parseParts chips id (fuel + 1) addr offset p = some (parts, q)) :
    ∃ part₀ part q₁, partParse addr p = some (part₀, q₁) ∧ partValidate chips id
        (if part₀.offset = offsetNotSpecified then { part₀ with offset := offset } else part₀) =
        some part ∧
      ((AtEnd q₁ ∧ parts = [part] ∧ q = q₁) ∨ ¬AtEnd q₁ ∧ ∃ parts', parts = part :: parts' ∧
          parseParts chips id fuel (addr + 1) (part.offset + part.size) q₁ = some (parts', q)) := by
  obtain ⟨⟨part₀, q₁⟩, hp, h⟩ := Option.bind_eq_some_iff.mp h
  obtain ⟨part, hv, h⟩ := Option.bind_eq_some_iff.mp h
  refine ⟨part₀, part, q₁, hp, hv, ?_⟩
  split at h
  next hend =>
    cases h
    exact .inl ⟨hend, rfl, rfl⟩
  next hend =>
    obtain ⟨⟨parts', q'⟩, hr, h⟩ := Option.bind_eq_some_iff.mp h
    cases h
    exact .inr ⟨hend, parts', rfl, hr⟩

theorem parseParts_spec {id : Id} {fuel addr : Nat} {offset : UInt32} {p q : Str} {parts : List Part}
    (h : parseParts chips id fuel addr offset p = some (parts, q)) :
    parts ≠ [] ∧ parts.length ≤ fuel ∧ parts.map Part.addr = List.range' addr parts.length ∧
      (∀ part ∈ parts, partValidate chips id part = some part ∧ part.Written) ∧
      q.length < p.length := by
  induction fuel generalizing addr offset p parts with
  | zero => cases h
  | succ fuel ih =>
    obtain ⟨part₀, part, q₁, hp, hv, hrest⟩ := parseParts_succ_eq_some h
    obtain ⟨haddr, hok⟩ := parsed_part hp hv
    have hlt := partParse_shorter hp
    rcases hrest with ⟨_, rfl, rfl⟩ | ⟨_, parts', rfl, hr⟩
    · refine ⟨cons_ne_nil _ _, Nat.succ_le_succ (Nat.zero_le _), ?_, fun x hx => ?_, hlt⟩
      · simp [haddr]
      · rw [mem_singleton.mp hx]
        exact hok
    · obtain ⟨_, hlen, hmap, hall, hlt'⟩ := ih hr
      refine ⟨cons_ne_nil _ _, Nat.succ_le_succ hlen, ?_, fun x hx => ?_, hlt'.trans hlt⟩
      · rw [map_cons, haddr, hmap, length_cons, List.range'_succ]
      · rcases mem_cons.mp hx with rfl | hx
        · exact hok
        · exact hall x hx

def sortAll : List Part → List Part → Option (List Part)
  | acc, [] => some acc
  | acc, part :: parts =>
    if sortAdd part acc = none then none else sortAll (place Part.start part acc) parts

theorem sortAll_spec {acc parts l : List Part} (h : sortAll acc parts = some l) (ha : Sorted acc) :
    l.Perm (parts ++ acc) ∧ Sorted l := by
  induction parts generalizing acc with
  | nil =>
    cases h
    exact ⟨.refl _, ha⟩
  | cons part parts ih =>
    unfold sortAll at h
    split at h
    · cases h
    next hsome =>
      obtain ⟨hperm, hsorted⟩ := ih h (ha.place hsome)
      refine ⟨hperm.trans ?_, hsorted⟩
      exact ((perm_place part acc).append_left parts).trans perm_middle

/-- A device that is not in the list yet. -/
structure Fresh (s : State) (dev : Dev) : Prop where
  devices : dev.addr ∉ s.devices.map Dev.addr
  current : s.currentMtdDev ≠ some dev.addr

theorem Fresh.put {s : State} {dev : Dev} (h : Fresh s dev) (dev' : Dev)
    (ha : dev'.addr = dev.addr) : s.put dev' = s := by
  unfold State.put
  have hmap : (s.devices.map fun d => if d.addr = dev'.addr then dev' else d) = s.devices := by
    conv_rhs => rw [← map_id s.devices]
    apply map_congr_left
    intro d hd
    have hne : d.addr ≠ dev'.addr := fun he => h.devices (by
      rw [← ha, ← he]
      exact mem_map_of_mem hd)
    rw [if_neg hne]
    rfl
  rw [hmap]

theorem Fresh.partCome {s : State} {dev : Dev} (h : Fresh s dev) (part : Part) : s.partCome dev part = s := by
  have hshift : ¬s.shifts dev part = true := by
    simp [State.shifts, shiftsCurrent, h.current]
  unfold State.partCome
  rw [if_neg hshift, h.put (dev.grown part) rfl]

theorem Fresh.devGone {s : State} {dev : Dev} (h : Fresh s dev) : s.devGone dev = s := by
  have hfilter : (s.devices.filter fun d => d.addr ≠ dev.addr) = s.devices := by
    apply filter_eq_self.mpr
    intro d hd
    have hne : d.addr ≠ dev.addr := fun he => h.devices (he ▸ mem_map_of_mem hd)
    simpa using hne
  unfold State.devGone
  rw [if_neg h.current, hfilter]

theorem addAll_eq_some_iff {s t : State} {dev : Dev} {parts : List Part} {r : Option Dev}
    (h : Fresh s dev) :
    addAll s dev parts = some (r, t) ↔
      t = s ∧ (parts ≠ [] → s.Points) ∧ r = (sortAll dev.parts parts).map fun l =>
        { dev with parts := l, numParts := dev.numParts + UInt16.ofNat parts.length } := by
  induction parts generalizing dev with
  | nil => simp [addAll, sortAll, eq_comm, and_comm]
  | cons part parts ih =>
    have hgrown : Fresh s (dev.grown part) := ⟨h.devices, h.current⟩
    have hcount : (fun l : List Part => { dev.grown part with
          parts := l
          numParts := (dev.grown part).numParts + UInt16.ofNat parts.length }) =
        fun l => { dev with
          parts := l
          numParts := dev.numParts + UInt16.ofNat (part :: parts).length } := by
      funext l
      simp [Dev.grown, UInt16.ofNat_add, UInt16.add_assoc, UInt16.add_comm]
    rw [addAll, Option.bind_eq_bind, Option.bind_eq_some_iff]
    unfold sortAll
    constructor
    · rintro ⟨⟨r', u⟩, hadd, hrest⟩
      rcases partSortAdd_eq_some_iff.mp hadd with ⟨hnone, rfl, rfl⟩ | ⟨hsome, rfl, rfl, hpoints⟩
      · obtain ⟨v, hdel, hres⟩ := Option.map_eq_some_iff.mp hrest
        obtain ⟨rfl, hpoints⟩ := deviceDel_eq_some_iff.mp hdel
        obtain ⟨rfl, rfl⟩ := Prod.mk.inj hres
        rw [h.devGone] at hpoints ⊢
        rw [if_pos hnone]
        exact ⟨rfl, fun _ => hpoints, rfl⟩
      · rw [h.partCome] at hpoints hrest
        obtain ⟨rfl, _, rfl⟩ := (ih hgrown).mp hrest
        rw [if_neg hsome, hcount]
        exact ⟨rfl, fun _ => hpoints, rfl⟩
    · rintro ⟨rfl, hpoints, hr⟩
      have hpoints := hpoints (cons_ne_nil _ _)
      by_cases hsome : sortAdd part dev.parts = none
      · refine ⟨(none, t), partSortAdd_eq_some_iff.mpr (.inl ⟨hsome, rfl, rfl⟩), ?_⟩
        rw [if_pos hsome] at hr
        rw [hr]
        refine Option.map_eq_some_iff.mpr ⟨t, deviceDel_eq_some_iff.mpr ⟨h.devGone.symm, hpoints⟩, rfl⟩
      · refine ⟨(some (dev.grown part), t), partSortAdd_eq_some_iff.mpr
          (.inr ⟨hsome, rfl, (h.partCome part).symm, hpoints⟩), ?_⟩
        rw [if_neg hsome, ← hcount] at hr
        exact (ih hgrown).mpr ⟨rfl, fun _ => hpoints, hr⟩

theorem deviceText_eq_some {s : State} {text q : Str} {id : Id} {parts : List Part}
    (h : deviceText chips s text = some (some (id, parts, q))) :
    (idFindByMtdId s id.mtdId = some id ∧ (58 : UInt8) ∉ id.mtdId) ∧
      ∃ offset p, startOffset s id = some offset ∧ p.length < text.length ∧
        parseParts chips id (p.length + 1) s.heap offset p = some (parts, q) := by
  unfold deviceText at h
  split at h
  · cases h
  next c p hrest =>
    split at h
    · cases h
    next id' hid =>
      obtain ⟨offset, hoff, h⟩ := Option.bind_eq_some_iff.mp h
      split at h
      · cases h
      · obtain ⟨⟨parts', q'⟩, hparts, htriple⟩ := Option.map_eq_some_iff.mp (Option.some.inj h)
        obtain ⟨rfl, hpair⟩ := Prod.mk.inj htriple
        obtain ⟨rfl, rfl⟩ := Prod.mk.inj hpair
        have hname : id'.mtdId = text.takeWhile (· ≠ 58) := by
          have := List.find?_some hid
          simpa using this
        refine ⟨⟨by rw [hname]; exact hid, fun hm => ?_⟩, offset, p, hoff, ?_, hparts⟩
        · rw [hname] at hm
          have := mem_takeWhile_imp hm
          simp at this
        · have hsuffix := (dropWhile_suffix (fun c : UInt8 => decide (c ≠ 58)) (l := text)).length_le
          rw [hrest, length_cons] at hsuffix
          omega

/-- A device as `device_parse` makes it, in `n` bytes of the heap. -/
structure Parsed (chips : Chips) (s : State) (n : Nat) (dev : Dev) : Prop where
  tidy : dev.Tidy chips
  id : idFindByMtdId s dev.id.mtdId = some dev.id
  colon : (58 : UInt8) ∉ dev.id.mtdId
  addr : s.heap ≤ dev.addr ∧ dev.addr < s.heap + n
  parts : ∀ p ∈ dev.parts, s.heap ≤ p.addr ∧ p.addr < s.heap + n

theorem State.Tidy.heap_le {s : State} (h : s.Tidy chips) (n : Nat) :
    State.Tidy chips { s with heap := s.heap + n } := by
  refine ⟨h.known, h.devs, h.ids, h.keys, h.addrs, fun d hd => ?_, h.current⟩
  obtain ⟨haddr, hparts⟩ := h.heap d hd
  refine ⟨Nat.lt_add_right n haddr, fun p hp => Nat.lt_add_right n (hparts p hp)⟩

theorem State.Tidy.fresh {s : State} (h : s.Tidy chips) {dev : Dev} (ha : s.heap ≤ dev.addr) :
    Fresh s dev := by
  have hnew : dev.addr ∉ s.devices.map Dev.addr := fun hm => by
    obtain ⟨d, hd, he⟩ := mem_map.mp hm
    have := (h.heap d hd).1
    omega
  exact ⟨hnew, fun hc => hnew (h.current _ hc)⟩

theorem Fresh.heap {s : State} {dev : Dev} (h : Fresh s dev) (n : Nat) :
    Fresh { s with heap := n } dev := ⟨h.devices, h.current⟩

theorem State.Tidy.startOffset {s : State} (h : s.Tidy chips) (id : Id) :
    ∃ offset, startOffset s id = some offset := by
  unfold Mtd.startOffset
  cases hd : deviceFind s id.type id.num with
  | none => exact ⟨0, rfl⟩
  | some dev =>
    have hne := (h.devs dev (mem_of_find?_eq_some hd)).parts_ne
    dsimp only
    rw [List.getLast?_eq_some_getLast hne]
    exact ⟨_, rfl⟩

theorem State.Tidy.deviceText {s : State} (h : s.Tidy chips) (text : Str) :
    ∃ r, deviceText chips s text = some r := by
  unfold Mtd.deviceText
  split
  · exact ⟨_, rfl⟩
  · split
    · exact ⟨_, rfl⟩
    next id _ =>
      obtain ⟨offset, hoff⟩ := h.startOffset id
      simp only [hoff, Option.bind_eq_bind, Option.bind_some]
      split
      · exact ⟨_, rfl⟩
      · exact ⟨_, rfl⟩

/-- The device that a text defines. -/
structure FromText (chips : Chips) (s : State) (text q : Str) (dev : Dev) : Prop where
  parsed : ∃ parts q', deviceText chips s text = some (some (dev.id, parts, q')) ∧
    sortAll [] parts = some dev.parts
  rest : q.length < text.length
  short : dev.parts.length ≤ text.length

theorem deviceParse_spec {s : State} (text : Str) (h : s.Tidy chips) (hpoints : s.Points) :
    ∃ n r, deviceParse chips s text = some (r, { s with heap := s.heap + n }) ∧
      ∀ dev q, r = some (dev, q) → Parsed chips s n dev ∧ FromText chips s text q dev := by
  obtain ⟨parsed, htext⟩ := h.deviceText text
  unfold deviceParse
  simp only [htext, Option.bind_eq_bind, Option.bind_some]
  cases parsed with
  | none => exact ⟨0, none, rfl, fun dev q hr => by cases hr⟩
  | some triple =>
    obtain ⟨id, parts, q⟩ := triple
    obtain ⟨⟨hid, hcolon⟩, offset, p, _, hplen, hparts⟩ := deviceText_eq_some htext
    obtain ⟨hne, hlen, hmap, hok, hq⟩ := parseParts_spec hparts
    have hfresh : Fresh s ⟨s.heap + parts.length, id, 0, []⟩ := h.fresh (Nat.le_add_right _ _)
    have hadd : addAll { s with heap := s.heap + parts.length + 1 } ⟨s.heap + parts.length, id, 0, []⟩ parts =
        some (_, _) :=
      (addAll_eq_some_iff (hfresh.heap (s.heap + parts.length + 1))).mpr ⟨rfl, fun _ => hpoints, rfl⟩
    refine ⟨parts.length + 1, _, by simp only [hadd, Option.bind_some]; rfl, fun dev q' hr => ?_⟩
    obtain ⟨dev', hadded, hr⟩ := Option.map_eq_some_iff.mp hr
    obtain ⟨rfl, rfl⟩ := Prod.mk.inj hr
    obtain ⟨l, hsort, rfl⟩ := Option.map_eq_some_iff.mp hadded
    obtain ⟨hperm, hsorted⟩ := sortAll_spec hsort ⟨List.Pairwise.nil, Nat.zero_le _⟩
    rw [append_nil] at hperm
    have hmem : ∀ x ∈ l, x ∈ parts := fun x hx => hperm.mem_iff.mp hx
    have haddrs : (l.map Part.addr).Nodup := by
      rw [(hperm.map Part.addr).nodup_iff, hmap]
      exact nodup_range'
    refine ⟨⟨⟨?_, ?_, fun x hx => (hok x (hmem x hx)).1, hsorted, haddrs,
      fun x hx => (hok x (hmem x hx)).2⟩, hid, hcolon, ?_, fun x hx => ?_⟩,
      ⟨parts, q, htext, hsort⟩, ?_, ?_⟩
    · intro hnil
      dsimp only at hnil
      rw [hnil] at hperm
      exact hne hperm.symm.eq_nil
    · dsimp only
      rw [hperm.length_eq, UInt16.zero_add]
    · dsimp only
      omega
    · have hx' : x.addr ∈ parts.map Part.addr := mem_map_of_mem (hmem x hx)
      rw [hmap] at hx'
      have := mem_range'_1.mp hx'
      omega
    · rw [length_drop]
      omega
    · dsimp only
      rw [hperm.length_eq]
      omega

theorem points_of_none {s : State} (h : s.currentMtdDev = none) : s.Points := fun a ha => by
  cases h.symm.trans ha

theorem parseDevices_spec {s t : State} {fuel : Nat} {p : Str} {b : Bool} (h : s.Tidy chips)
    (hc : s.currentMtdDev = none) (hp : parseDevices chips fuel s p = some (b, t)) :
    ∃ n devices, t = { s with devices := devices, heap := s.heap + n } ∧ t.Tidy chips ∧
      (b = true → ∀ d ∈ devices, d ∈ s.devices ∨ d.parts.length ≤ p.length) := by
  induction fuel generalizing s p with
  | zero => cases hp
  | succ fuel ih =>
    have hempty : ∀ n, State.Tidy chips { s with devices := [], heap := s.heap + n } := fun n =>
      ⟨h.known, fun d hd => absurd hd not_mem_nil, fun d hd => absurd hd not_mem_nil,
        nodup_nil, nodup_nil, fun d hd => absurd hd not_mem_nil,
        fun a ha => absurd (hc.symm.trans ha) (Option.some_ne_none a).symm⟩
    obtain ⟨n, parsed, hdev, hparsed⟩ := deviceParse_spec p h (points_of_none hc)
    unfold parseDevices at hp
    simp only [hdev, Option.bind_eq_bind, Option.bind_some] at hp
    split at hp
    · cases hp
      exact ⟨n, [], rfl, hempty n, nofun⟩
    next dev q =>
      obtain ⟨hd, htext⟩ := hparsed dev q rfl
      have hq := htext.rest
      have hlen := htext.short
      split at hp
      · cases hp
        exact ⟨n, [], rfl, hempty n, nofun⟩
      next hkey =>
        have happend := (h.heap_le n).append hd.tidy hd.id hd.colon (Option.not_isSome_iff_eq_none.mp hkey)
          (h.fresh hd.addr.1).devices ⟨hd.addr.2, fun x hx => (hd.parts x hx).2⟩
        split at hp
        · cases hp
          refine ⟨n, s.devices ++ [dev], rfl, happend, fun _ d hm => ?_⟩
          rcases mem_append.mp hm with hm | hm
          · exact .inl hm
          · rw [mem_singleton.mp hm]
            exact .inr hlen
        · obtain ⟨m, devices, rfl, htidy, hall⟩ := ih happend hc hp
          refine ⟨n + m, devices, by dsimp only; rw [add_assoc], htidy, fun hb d hm => ?_⟩
          rcases hall hb d hm with hm | hm
          · rcases mem_append.mp hm with hm | hm
            · exact .inl hm
            · rw [mem_singleton.mp hm]
              exact .inr hlen
          · exact .inr (by omega)

end UBoot.Mtd
