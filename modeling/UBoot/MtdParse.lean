import Mathlib.Data.List.TakeWhile
import UBoot.MtdTidy

namespace UBoot.Mtd

open KeyOrder List

theorem filter_ne_eq_eraseIdx {α β : Type} [DecidableEq β] {f : α → β} {l : List α} {x : α} {i : Nat}
    (h : (l.map f).Nodup) (hi : l[i]? = some x) : l.filter (fun y => f y ≠ f x) = l.eraseIdx i := by
  induction l generalizing i with
  | nil => cases hi
  | cons y l ih =>
    obtain ⟨hy, hl⟩ := nodup_cons.mp h
    cases i with
    | zero =>
      obtain rfl : y = x := Option.some.inj hi
      rw [filter_cons_of_neg (by simp), eraseIdx_zero, tail_cons]
      apply filter_eq_self.mpr
      intro z hz
      have hzy : f z ≠ f y := fun he => hy (he ▸ mem_map_of_mem hz)
      simpa using hzy
    | succ i =>
      have hx : x ∈ l := mem_of_getElem? hi
      have hyx : f y ≠ f x := fun he => hy (he ▸ mem_map_of_mem hx)
      rw [filter_cons_of_pos (by simpa using hyx), ih hl hi, eraseIdx_cons_succ]

/-- What the parser makes of the texts of a partition. -/
structure Part.Written (part : Part) : Prop where
  name : part.autoName = false → part.name ≠ [] ∧ (41 : UInt8) ∉ part.name
  maskFlags : part.maskFlags = 0 ∨ part.maskFlags = mtdWriteableCmd

structure Dev.Tidy (chips : Chips) (dev : Dev) : Prop where
  parts_ne : dev.parts ≠ []
  numParts : dev.numParts = UInt16.ofNat dev.parts.length
  valid : ∀ p ∈ dev.parts, partValidate chips dev.id p = some p
  sorted : Sorted dev.parts
  addrs : (dev.parts.map Part.addr).Nodup
  written : ∀ p ∈ dev.parts, p.Written

/-- The ids that `mtdids` defines. -/
def Known (chips : Chips) (id : Id) : Prop :=
  id.num < 256 ∧ ∃ mtd, chips id.type id.num = some mtd ∧ id.size = UInt32.ofNat mtd.size

structure State.Tidy (chips : Chips) (s : State) : Prop where
  known : ∀ id ∈ s.mtdids, Known chips id
  devs : ∀ d ∈ s.devices, d.Tidy chips
  ids : ∀ d ∈ s.devices, idFindByMtdId s d.id.mtdId = some d.id ∧ (58 : UInt8) ∉ d.id.mtdId
  keys : (s.devices.map fun d => (d.id.type, d.id.num)).Nodup
  addrs : (s.devices.map Dev.addr).Nodup
  heap : ∀ d ∈ s.devices, d.addr < s.heap ∧ ∀ p ∈ d.parts, p.addr < s.heap
  current : ∀ a, s.currentMtdDev = some a → a ∈ s.devices.map Dev.addr

variable {chips : Chips}

theorem State.Tidy.saved {s : State} (h : s.Tidy chips) : s.saved.Tidy chips :=
  ⟨h.known, h.devs, h.ids, h.keys, h.addrs, h.heap, h.current⟩

theorem State.Tidy.renumber {s : State} (h : s.Tidy chips) (n : UInt8) :
    State.Tidy chips { s with currentMtdPartnum := n } :=
  ⟨h.known, h.devs, h.ids, h.keys, h.addrs, h.heap, h.current⟩

theorem put_devices_map {β : Type} {s : State} {dev dev' : Dev} {f : Dev → β} (hd : dev ∈ s.devices)
    (hnodup : (s.devices.map Dev.addr).Nodup) (haddr : dev'.addr = dev.addr) (hf : f dev' = f dev) :
    (s.put dev').devices.map f = s.devices.map f := by
  unfold State.put
  rw [map_map]
  apply map_congr_left
  intro d hd'
  by_cases he : d.addr = dev'.addr
  · have hsame : d = dev := inj_on_of_nodup_map hnodup hd' hd (he.trans haddr)
    change f (if d.addr = dev'.addr then dev' else d) = f d
    rw [if_pos he, hf, hsame]
  · simp [he]

theorem mem_put {s : State} {dev' d : Dev} (h : d ∈ (s.put dev').devices) :
    d = dev' ∨ (d ∈ s.devices ∧ d.addr ≠ dev'.addr) := by
  obtain ⟨e, he, rfl⟩ := mem_map.mp h
  by_cases ha : e.addr = dev'.addr
  · rw [if_pos ha]
    exact .inl rfl
  · rw [if_neg ha]
    exact .inr ⟨he, ha⟩

theorem State.Tidy.put {s : State} {dev dev' : Dev} (h : s.Tidy chips) (hd : dev ∈ s.devices)
    (haddr : dev'.addr = dev.addr) (hid : dev'.id = dev.id) (ht : dev'.Tidy chips)
    (hheap : ∀ p ∈ dev'.parts, p.addr < s.heap) : (s.put dev').Tidy chips := by
  refine ⟨h.known, fun d hm => ?_, fun d hm => ?_, ?_, ?_, fun d hm => ?_, fun a ha => ?_⟩
  · rcases mem_put hm with rfl | ⟨hm, _⟩
    · exact ht
    · exact h.devs d hm
  · rcases mem_put hm with rfl | ⟨hm, _⟩
    · rw [hid]
      exact h.ids dev hd
    · exact h.ids d hm
  · rw [put_devices_map hd h.addrs haddr (by rw [hid])]
    exact h.keys
  · rw [put_devices_map hd h.addrs haddr haddr]
    exact h.addrs
  · rcases mem_put hm with rfl | ⟨hm, _⟩
    · rw [haddr]
      exact ⟨(h.heap dev hd).1, hheap⟩
    · exact h.heap d hm
  · rw [put_devices_map hd h.addrs haddr haddr]
    exact h.current a ha

theorem Dev.Tidy.grown {dev : Dev} {part : Part} (h : dev.Tidy chips)
    (hv : partValidate chips dev.id part = some part) (hsort : sortAdd part dev.parts ≠ none)
    (hw : part.Written) (hnew : part.addr ∉ dev.parts.map Part.addr) : (dev.grown part).Tidy chips := by
  have hperm := @perm_place _ _ _ Part.start part dev.parts
  refine ⟨?_, ?_, fun p hp => ?_, h.sorted.place hsort, ?_, fun p hp => ?_⟩
  · apply ne_nil_of_length_pos
    change 0 < (KeyOrder.place _ _ _).length
    rw [length_place]
    omega
  · change dev.numParts + 1 = UInt16.ofNat (KeyOrder.place _ _ _).length
    rw [length_place, h.numParts, UInt16.ofNat_add]
    rfl
  · rcases mem_place.mp hp with rfl | hp
    · exact hv
    · exact h.valid p hp
  · have hmap := hperm.map Part.addr
    exact hmap.nodup_iff.mpr (nodup_cons.mpr ⟨hnew, h.addrs⟩)
  · rcases mem_place.mp hp with rfl | hp
    · exact hw
    · exact h.written p hp

theorem Dev.shrunk_parts {dev : Dev} {part : Part} {i : Nat} (h : (dev.parts.map Part.addr).Nodup)
    (hi : dev.parts[i]? = some part) : (dev.shrunk part).parts = dev.parts.eraseIdx i :=
  filter_ne_eq_eraseIdx h hi

theorem Dev.Tidy.shrunk {dev : Dev} {part : Part} (h : dev.Tidy chips) (hp : part ∈ dev.parts)
    (hone : dev.numParts ≠ 1) : (dev.shrunk part).Tidy chips := by
  obtain ⟨i, hi⟩ := mem_iff_getElem?.mp hp
  have hparts := Dev.shrunk_parts h.addrs hi
  have hlt := (List.getElem?_eq_some_iff.mp hi).1
  have hlen : (dev.shrunk part).parts.length = dev.parts.length - 1 := by
    rw [hparts, length_eraseIdx_of_lt hlt]
  have hsub : (dev.shrunk part).parts.Sublist dev.parts := filter_sublist
  have hpos : dev.parts.length ≠ 1 := fun h1 => hone (by rw [h.numParts, h1]; rfl)
  refine ⟨?_, ?_, fun p hp => h.valid p (hsub.subset hp), h.sorted.sublist hsub,
    h.addrs.sublist (hsub.map _), fun p hp => h.written p (hsub.subset hp)⟩
  · apply ne_nil_of_length_pos
    omega
  · change dev.numParts - 1 = _
    rw [hlen, h.numParts]
    obtain ⟨n, hn⟩ : ∃ n, dev.parts.length = n + 1 := ⟨dev.parts.length - 1, by omega⟩
    rw [hn, UInt16.ofNat_add, Nat.add_sub_cancel]
    exact UInt16.add_sub_cancel _ _

theorem State.Tidy.devGone {s : State} (h : s.Tidy chips) (dev : Dev) : (s.devGone dev).Tidy chips := by
  have hsub : (s.devices.filter fun d => d.addr ≠ dev.addr).Sublist s.devices := filter_sublist
  unfold State.devGone
  split
  · apply State.Tidy.saved
    refine ⟨h.known, fun d hd => h.devs d (hsub.subset hd), fun d hd => h.ids d (hsub.subset hd),
      h.keys.sublist (hsub.map _), h.addrs.sublist (hsub.map _), fun d hd => h.heap d (hsub.subset hd),
      fun a ha => ?_⟩
    obtain ⟨d, hd, rfl⟩ := Option.map_eq_some_iff.mp ha
    exact mem_map_of_mem (mem_of_mem_head? hd)
  next hc =>
    refine ⟨h.known, fun d hd => h.devs d (hsub.subset hd), fun d hd => h.ids d (hsub.subset hd),
      h.keys.sublist (hsub.map _), h.addrs.sublist (hsub.map _), fun d hd => h.heap d (hsub.subset hd),
      fun a ha => ?_⟩
    obtain ⟨d, hd, rfl⟩ := mem_map.mp (h.current a ha)
    refine mem_map_of_mem (mem_filter.mpr ⟨hd, ?_⟩)
    have hne : d.addr ≠ dev.addr := fun he => hc (ha.trans (congrArg some he))
    simpa using hne

theorem State.Tidy.partGone {s : State} {dev : Dev} {part : Part} (h : s.Tidy chips)
    (hd : dev ∈ s.devices) (hp : part ∈ dev.parts) : (s.partGone dev part).Tidy chips := by
  unfold State.partGone
  split
  · exact h.devGone dev
  next hone =>
    have hput : (s.put (dev.shrunk part)).Tidy chips :=
      h.put hd rfl rfl ((h.devs dev hd).shrunk hp hone) fun p hm =>
        (h.heap dev hd).2 p (mem_of_mem_filter hm)
    split
    · exact (hput.renumber _).saved
    · exact hput

theorem State.Tidy.partCome {s : State} {dev : Dev} {part : Part} (h : s.Tidy chips)
    (hd : dev ∈ s.devices) (hv : partValidate chips dev.id part = some part)
    (hsort : sortAdd part dev.parts ≠ none) (hw : part.Written)
    (hnew : part.addr ∉ dev.parts.map Part.addr) (hheap : part.addr < s.heap) :
    (s.partCome dev part).Tidy chips := by
  have hput : (s.put (dev.grown part)).Tidy chips := by
    refine h.put hd rfl rfl ((h.devs dev hd).grown hv hsort hw hnew) fun p hm => ?_
    rcases mem_place.mp hm with rfl | hm
    · exact hheap
    · exact (h.heap dev hd).2 p hm
  unfold State.partCome
  split
  · exact (hput.renumber _).saved
  · exact hput

theorem State.Tidy.select {s : State} {a : Nat} (h : s.Tidy chips) (ha : a ∈ s.devices.map Dev.addr)
    (n : UInt8) : State.Tidy chips { s with currentMtdDev := some a, currentMtdPartnum := n } := by
  refine ⟨h.known, h.devs, h.ids, h.keys, h.addrs, h.heap, fun b hb => ?_⟩
  cases hb
  exact ha

theorem State.Tidy.append {s : State} {dev : Dev} (h : s.Tidy chips) (ht : dev.Tidy chips)
    (hid : idFindByMtdId s dev.id.mtdId = some dev.id) (hcolon : (58 : UInt8) ∉ dev.id.mtdId)
    (hkey : deviceFind s dev.id.type dev.id.num = none) (hnew : dev.addr ∉ s.devices.map Dev.addr)
    (hheap : dev.addr < s.heap ∧ ∀ p ∈ dev.parts, p.addr < s.heap) :
    State.Tidy chips { s with devices := s.devices ++ [dev] } := by
  have hmem : ∀ d ∈ s.devices ++ [dev], d ∈ s.devices ∨ d = dev := fun d hd =>
    (mem_append.mp hd).imp_right mem_singleton.mp
  refine ⟨h.known, fun d hd => ?_, fun d hd => ?_, ?_, ?_, fun d hd => ?_, fun a ha => ?_⟩
  · rcases hmem d hd with hd | rfl
    · exact h.devs d hd
    · exact ht
  · rcases hmem d hd with hd | rfl
    · exact h.ids d hd
    · exact ⟨hid, hcolon⟩
  · simp only [map_append, map_cons, map_nil]
    refine nodup_append.mpr ⟨h.keys, nodup_singleton _, fun k hk k' hk' he => ?_⟩
    obtain ⟨d, hd, rfl⟩ := mem_map.mp hk
    rw [mem_singleton.mp hk'] at he
    have hother := List.find?_eq_none.mp hkey d hd
    exact hother (by simpa using Prod.mk.inj he)
  · simp only [map_append, map_cons, map_nil]
    refine nodup_append.mpr ⟨h.addrs, nodup_singleton _, fun a ha a' ha' he => ?_⟩
    rw [mem_singleton.mp ha'] at he
    exact hnew (he ▸ ha)
  · rcases hmem d hd with hd | rfl
    · exact h.heap d hd
    · exact hheap
  · simp only [map_append]
    exact mem_append_left _ (h.current a ha)

theorem State.Tidy.devCome {s : State} {dev : Dev} (h : s.Tidy chips) (ht : dev.Tidy chips)
    (hid : idFindByMtdId s dev.id.mtdId = some dev.id) (hcolon : (58 : UInt8) ∉ dev.id.mtdId)
    (hkey : deviceFind s dev.id.type dev.id.num = none) (hnew : dev.addr ∉ s.devices.map Dev.addr)
    (hheap : dev.addr < s.heap ∧ ∀ p ∈ dev.parts, p.addr < s.heap) : (s.devCome dev).Tidy chips := by
  have happend := h.append ht hid hcolon hkey hnew hheap
  unfold State.devCome
  split
  next hnil =>
    rw [hnil, nil_append] at happend
    exact (happend.select (mem_singleton_self _) 0).saved
  · exact happend

theorem strtoulDigits_length_le (base : Nat) (p : Str) (n : Nat) :
    (strtoulDigits base p n).2.length ≤ p.length := by
  induction p generalizing n with
  | nil => exact le_rfl
  | cons c p ih =>
    unfold strtoulDigits
    split
    · exact (ih _).trans (Nat.le_succ _)
    · exact le_rfl

theorem strtoulDigits_zero (base : Nat) (p : Str) :
    (strtoulDigits base p 0).2.length < p.length ∨ strtoulDigits base p 0 = (0, p) := by
  cases p with
  | nil => exact .inr rfl
  | cons c p =>
    unfold strtoulDigits
    split
    · exact .inl (Nat.lt_succ_of_le (strtoulDigits_length_le _ _ _))
    · exact .inr rfl

theorem simpleStrtoul_shorter (p : Str) :
    (simpleStrtoul p 0).2.length < p.length ∨ simpleStrtoul p 0 = (0, p) := by
  unfold simpleStrtoul
  split
  next c cs =>
    split
    · have := strtoulDigits_length_le 16 (c :: cs) 0
      simp only [length_cons] at this ⊢
      omega
    · have := strtoulDigits_length_le 8 (120 :: c :: cs) 0
      simp only [if_true, length_cons] at this ⊢
      omega
  next cs _ =>
    have := strtoulDigits_length_le 8 cs 0
    simp only [if_true, length_cons] at this ⊢
    omega
  · exact strtoulDigits_zero 10 p

theorem memsizeParse_length_le (p : Str) : (memsizeParse p).2.length ≤ p.length := by
  have hle : (simpleStrtoul p 0).2.length ≤ p.length := by
    rcases simpleStrtoul_shorter p with h | h
    · exact h.le
    · rw [h]
  unfold memsizeParse
  split
  · exact Nat.zero_le _
  next c rest hr =>
    rw [hr, length_cons] at hle
    split
    · exact Nat.le_of_succ_le hle
    · split
      · exact Nat.le_of_succ_le hle
      · split
        · exact Nat.le_of_succ_le hle
        · exact hle

theorem memsizeParse_shorter {p : Str} (h : ¬(memsizeParse p).1 < minPartSize) :
    (memsizeParse p).2.length < p.length := by
  rcases simpleStrtoul_shorter p with hlt | hzero
  · unfold memsizeParse
    split
    · exact Nat.zero_lt_of_lt hlt
    next c rest hr =>
      rw [hr, length_cons] at hlt
      split
      · exact Nat.lt_of_succ_lt hlt
      · split
        · exact Nat.lt_of_succ_lt hlt
        · split
          · exact Nat.lt_of_succ_lt hlt
          · exact hlt
  · have hval : (memsizeParse p).1 = 0 := by
      unfold memsizeParse
      rw [hzero]
      dsimp only
      split
      · rfl
      · split
        · rfl
        · split
          · rfl
          · split
            · rfl
            · rfl
    rw [hval] at h
    exact absurd (by decide) h

theorem partSize_shorter {p q : Str} {size : UInt32} (h : partSize p = some (size, q)) :
    q.length < p.length := by
  unfold partSize at h
  split at h
  next hd =>
    cases h
    cases p with
    | nil => cases hd
    | cons c p => exact Nat.lt_succ_self _
  · split at h
    · cases h
    next hmin =>
      rw [← (Prod.mk.inj (Option.some.inj h)).2]
      exact memsizeParse_shorter hmin

theorem partOffset_length_le (p : Str) : (partOffset p).2.length ≤ p.length := by
  unfold partOffset
  split
  · exact (memsizeParse_length_le _).trans (length_drop ▸ Nat.sub_le _ _)
  · exact le_rfl

theorem partName_length_le {p q : Str} {name : Option Str} (h : partName p = some (name, q)) :
    q.length ≤ p.length := by
  unfold partName at h
  split at h
  · split at h
    · cases h
    next c rest hrest =>
      dsimp only at h
      split at h
      · cases h
      · cases h
        have hsuffix := (dropWhile_suffix (fun c : UInt8 => decide (c ≠ 41)) (l := p.drop 1)).length_le
        rw [hrest, length_cons, length_drop] at hsuffix
        omega
  · cases h
    exact le_rfl

theorem partName_written {p q name : Str} (h : partName p = some (some name, q)) :
    name ≠ [] ∧ (41 : UInt8) ∉ name := by
  unfold partName at h
  split at h
  · split at h
    · cases h
    · dsimp only at h
      split at h
      · cases h
      next hne =>
        obtain ⟨hname, _⟩ := Prod.mk.inj (Option.some.inj h)
        cases hname
        refine ⟨hne, fun hm => ?_⟩
        have := mem_takeWhile_imp hm
        simp at this
  · obtain ⟨hname, _⟩ := Prod.mk.inj (Option.some.inj h)
    cases hname

theorem partOptions_length_le (p : Str) : (partOptions p).2.length ≤ p.length := by
  unfold partOptions
  split
  · exact length_drop ▸ Nat.sub_le _ _
  · exact le_rfl

theorem partEnd_length_le {p q : Str} {size : UInt32} (h : partEnd size p = some q) :
    q.length ≤ p.length := by
  unfold partEnd at h
  split at h
  · cases h
    exact le_rfl
  · split at h
    · split at h
      · cases h
      · cases h
        exact Nat.le_succ _
    · split at h
      · cases h
        exact le_rfl
      · cases h

theorem partParse_eq_some {addr : Nat} {p q : Str} {part : Part}
    (h : partParse addr p = some (part, q)) :
    ∃ size p₁ offset p₂ name p₃ maskFlags p₄, partSize p = some (size, p₁) ∧
      partOffset p₁ = (offset, p₂) ∧ partName p₂ = some (name, p₃) ∧
      partOptions p₃ = (maskFlags, p₄) ∧ partEnd size p₄ = some q ∧
      part = ⟨addr, name.getD (generatedName size offset), name.isNone, size, offset, maskFlags⟩ := by
  obtain ⟨⟨size, p₁⟩, h1, h⟩ := Option.bind_eq_some_iff.mp h
  obtain ⟨⟨name, p₃⟩, h3, h⟩ := Option.bind_eq_some_iff.mp h
  obtain ⟨r, h5, h⟩ := Option.bind_eq_some_iff.mp h
  cases h
  exact ⟨size, p₁, _, _, name, p₃, _, _, h1, rfl, h3, rfl, h5, rfl⟩

theorem partParse_shorter {addr : Nat} {p q : Str} {part : Part}
    (h : partParse addr p = some (part, q)) : q.length < p.length := by
  obtain ⟨size, p₁, offset, p₂, name, p₃, mask, p₄, h1, h2, h3, h4, h5, _⟩ := partParse_eq_some h
  have hsize := partSize_shorter h1
  have hoff := partOffset_length_le p₁
  have hname := partName_length_le h3
  have hopt := partOptions_length_le p₃
  have hend := partEnd_length_le h5
  rw [h2] at hoff
  rw [h4] at hopt
  dsimp only at hoff hopt
  omega

theorem partParse_written {addr : Nat} {p q : Str} {part : Part}
    (h : partParse addr p = some (part, q)) : part.addr = addr ∧ part.Written := by
  obtain ⟨size, p₁, offset, p₂, name, p₃, mask, p₄, _, _, h3, h4, _, rfl⟩ := partParse_eq_some h
  refine ⟨rfl, fun hn => ?_, ?_⟩
  · cases name with
    | none => cases hn
    | some name => exact partName_written h3
  · unfold partOptions at h4
    split at h4
    · obtain ⟨rfl, _⟩ := Prod.mk.inj h4
      exact .inr rfl
    · obtain ⟨rfl, _⟩ := Prod.mk.inj h4
      exact .inl rfl

end UBoot.Mtd
