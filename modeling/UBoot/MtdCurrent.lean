import UBoot.MtdSane

namespace UBoot.Mtd

open KeyOrder List

variable {chips : Chips}

def State.currentPart (s : State) : Option (Nat × Part) := do
  let addr ← s.currentMtdDev
  let dev ← s.at addr
  let part ← dev.parts[s.currentMtdPartnum.toNat]?
  some (addr, part)

def Dev.firstPart (dev : Dev) : Option (Nat × Part) := dev.parts.head?.map fun part => (dev.addr, part)

theorem Dev.Tidy.first {dev : Dev} (h : dev.Tidy chips) :
    ∃ part, dev.firstPart = some (dev.addr, part) ∧ dev.parts[0]? = some part := by
  obtain ⟨part, parts, hparts⟩ := exists_cons_of_ne_nil h.parts_ne
  refine ⟨part, ?_, ?_⟩
  · unfold Dev.firstPart
    rw [hparts]
    rfl
  · rw [hparts]
    rfl

theorem at_eq_some {s : State} {a : Nat} {dev : Dev} (h : s.at a = some dev) :
    dev ∈ s.devices ∧ dev.addr = a :=
  ⟨mem_of_find?_eq_some h, by simpa using List.find?_some h⟩

theorem State.Tidy.at_mem {s : State} (h : s.Tidy chips) {dev : Dev} (hd : dev ∈ s.devices) :
    s.at dev.addr = some dev := by
  cases hat : s.at dev.addr with
  | none =>
    have := List.find?_eq_none.mp hat dev hd
    simp at this
  | some dev' =>
    obtain ⟨hd', ha⟩ := at_eq_some hat
    rw [inj_on_of_nodup_map h.addrs hd' hd ha]

theorem State.Points.part {s : State} (h : s.Points) {a : Nat} (ha : s.currentMtdDev = some a) :
    ∃ dev part, s.at a = some dev ∧ s.currentMtdPartnum.toNat < dev.numParts.toNat ∧
      dev.parts[s.currentMtdPartnum.toNat]? = some part ∧ s.currentPart = some (a, part) := by
  obtain ⟨dev, part, hat, hpart⟩ := h a ha
  obtain ⟨hlt, hget⟩ := mtdPartInfo_eq_some hpart
  refine ⟨dev, part, hat, hlt, hget, ?_⟩
  simp [State.currentPart, ha, hat, hget]

theorem mtdPartInfo_of_get {dev : Dev} {n : UInt8} {part : Part}
    (hc : dev.numParts.toNat = dev.parts.length) (h : dev.parts[n.toNat]? = some part) :
    mtdPartInfo dev n = some part := by
  unfold mtdPartInfo
  rw [if_pos (by
    rw [hc]
    exact (List.getElem?_eq_some_iff.mp h).1)]
  exact h

theorem points_of_part {s : State} {a : Nat} (dev : Dev) {part : Part} (ha : s.currentMtdDev = some a)
    (hat : s.at a = some dev) (hc : dev.numParts.toNat = dev.parts.length)
    (hget : dev.parts[s.currentMtdPartnum.toNat]? = some part) :
    s.Points ∧ s.currentPart = some (a, part) := by
  refine ⟨fun b hb => ?_, by simp [State.currentPart, ha, hat, hget]⟩
  obtain rfl := Option.some.inj (ha.symm.trans hb)
  exact ⟨dev, part, hat, mtdPartInfo_of_get hc hget⟩

def Counted (s : State) : Prop := ∀ d ∈ s.devices, d.numParts.toNat = d.parts.length

theorem Counted.put {s : State} {dev : Dev} (h : Counted s)
    (hd : dev.numParts.toNat = dev.parts.length) : Counted (s.put dev) := by
  intro d hm
  rcases mem_put hm with rfl | ⟨hm, _⟩
  · exact hd
  · exact h d hm

def State.resetPart (s : State) (a : Nat) : Option (Nat × Part) :=
  ((s.at a).or s.devices.head?).bind Dev.firstPart

end UBoot.Mtd
