import Mathlib.Data.List.Palindrome
import UBoot.MtdPrinted

namespace UBoot.Mtd

open KeyOrder List

variable {chips : Chips}

/-- A partition as the user gave it. -/
structure PartView where
  name : Str
  offset : UInt32
  size : UInt32
  maskFlags : UInt32
deriving DecidableEq

def Part.view (p : Part) : PartView := ⟨p.name, p.offset, p.size, p.maskFlags⟩

def PartView.start (v : PartView) : Nat := v.offset.toNat

def Dev.view (dev : Dev) : Id × List PartView := (dev.id, dev.parts.map Part.view)

theorem atKey_view (o : Nat) (parts : List Part) :
    (atKey Part.start o parts).map Part.view = atKey PartView.start o (parts.map Part.view) := by
  unfold atKey
  rw [filter_map]
  rfl

theorem ordered_view {parts : List Part} (h : Ordered Part.start parts) :
    Ordered PartView.start (parts.map Part.view) :=
  pairwise_map.mpr h

theorem readdress_view (a : Nat) (parts : List Part) :
    (readdress a parts).map Part.view = parts.map Part.view := by
  induction parts generalizing a with
  | nil => rfl
  | cons part parts ih => exact congrArg (List.cons part.view) (ih (a + 1))

theorem sortAll_atKey {acc parts l : List Part} (ha : Sorted acc) (h : sortAll acc parts = some l)
    (o : Nat) : atKey Part.start o l = (atKey Part.start o parts).reverse ++ atKey Part.start o acc := by
  induction parts generalizing acc with
  | nil =>
    cases h
    rfl
  | cons part parts ih =>
    unfold sortAll at h
    split at h
    · cases h
    next hsome =>
      rw [ih (ha.place hsome) h, atKey_place ha.order]
      by_cases ho : part.start = o
      · simp [atKey, ho]
      · simp [atKey, ho]

theorem sortAll_some {acc parts : List Part} (ha : Sorted acc)
    (h : (atKey Part.start 0 parts).length + (atKey Part.start 0 acc).length ≤ 1) :
    ∃ l, sortAll acc parts = some l := by
  induction parts generalizing acc with
  | nil => exact ⟨acc, rfl⟩
  | cons part parts ih =>
    have hsome : sortAdd part acc ≠ none := by
      intro hnone
      obtain ⟨h0, hne⟩ := (sortAdd_eq_none_iff ha.order).mp hnone
      have hpos := length_pos_iff.mpr hne
      have hcons : atKey Part.start 0 (part :: parts) = part :: atKey Part.start 0 parts :=
        filter_cons_of_pos (decide_eq_true h0)
      rw [hcons, length_cons] at h
      omega
    unfold sortAll
    rw [if_neg hsome]
    apply ih (ha.place hsome)
    rw [atKey_place ha.order]
    by_cases h0 : part.start = 0
    · simp [atKey, h0] at h ⊢
      omega
    · simp [atKey, h0] at h ⊢
      omega

/-- The partitions of a device, read back in the order of the text. -/
structure Reread (parts back : List Part) : Prop where
  sorted : Sorted back
  reversed : ∀ o, (atKey Part.start o back).map Part.view = ((atKey Part.start o parts).map Part.view).reverse

/-- The partitions of each offset read the same backwards. -/
def Mirrored (parts : List Part) : Prop :=
  ∀ p ∈ parts, ((atKey Part.start p.start parts).map Part.view).Palindrome

instance (parts : List Part) : Decidable (Mirrored parts) := inferInstanceAs (Decidable (∀ _ ∈ _, _))

theorem mirrored_iff {parts : List Part} :
    Mirrored parts ↔ ∀ o, ((atKey Part.start o parts).map Part.view).reverse =
      (atKey Part.start o parts).map Part.view := by
  unfold Mirrored
  constructor
  · intro h o
    cases hl : atKey Part.start o parts with
    | nil => rfl
    | cons p l =>
      have hp : p ∈ atKey Part.start o parts := by
        rw [hl]
        exact mem_cons_self
      obtain ⟨hp, ho⟩ := mem_filter.mp hp
      have ho : p.start = o := of_decide_eq_true ho
      have hrev := (h p hp).reverse_eq
      rwa [ho, hl] at hrev
  · exact fun h p _ => .of_reverse_eq (h p.start)

theorem Reread.view_iff {parts back : List Part} (hr : Reread parts back) (h : Sorted parts) :
    back.map Part.view = parts.map Part.view ↔ Mirrored parts := by
  rw [mirrored_iff]
  constructor
  · intro he o
    rw [← hr.reversed o, atKey_view, atKey_view, he]
  · intro hm
    refine eq_of_atKey (ordered_view hr.sorted.order) (ordered_view h.order) fun o => ?_
    rw [← atKey_view, ← atKey_view, hr.reversed o, hm o]

theorem reread_sortAll {parts : List Part} (h : Sorted parts) (a : Nat) :
    ∃ back, sortAll [] (readdress a parts) = some back ∧ Reread parts back := by
  have hkey : ∀ o, (atKey Part.start o (readdress a parts)).map Part.view =
      (atKey Part.start o parts).map Part.view := fun o => by
    rw [atKey_view, atKey_view, readdress_view]
  have hnil : Sorted [] := ⟨List.Pairwise.nil, Nat.zero_le _⟩
  have hlen : (atKey Part.start 0 (readdress a parts)).length = (atKey Part.start 0 parts).length := by
    have := congrArg List.length (hkey 0)
    rwa [length_map, length_map] at this
  obtain ⟨back, hback⟩ := sortAll_some hnil (by
    rw [hlen]
    exact h.oneFirst)
  refine ⟨back, hback, (sortAll_spec hback hnil).2, fun o => ?_⟩
  rw [sortAll_atKey hnil hback o, ← hkey o, ← map_reverse]
  exact congrArg _ (append_nil _)

theorem Sorted.tail_ne_zero {parts : List Part} (h : Sorted parts) : ∀ p ∈ parts.tail, p.offset ≠ 0 := by
  cases parts with
  | nil => exact fun p hp => absurd hp not_mem_nil
  | cons q parts =>
    intro p hp hp0
    have hp : p ∈ parts := hp
    have hle := (pairwise_cons.mp h.order).1 p hp
    have hstart : p.start = 0 := congrArg UInt32.toNat hp0
    have hq : q.start = 0 := by omega
    have hone := h.oneFirst
    have hcons : atKey Part.start 0 (q :: parts) = q :: atKey Part.start 0 parts :=
      filter_cons_of_pos (decide_eq_true hq)
    have hmem : p ∈ atKey Part.start 0 parts := mem_filter.mpr ⟨hp, decide_eq_true hstart⟩
    have hpos := length_pos_of_mem hmem
    rw [hcons, length_cons] at hone
    omega

/-- A device whose text names it and all of its partitions. -/
structure Spelled (chips : Chips) (s : State) (dev : Dev) : Prop where
  tidy : dev.Tidy chips
  counted : dev.numParts.toNat = dev.parts.length
  named : ∀ p ∈ dev.parts, p.Named
  id : idFindByMtdId s dev.id.mtdId = some dev.id
  colon : (58 : UInt8) ∉ dev.id.mtdId

theorem deviceText_printed {s : State} {dev : Dev} {rest : Str} (h : Spelled chips s dev)
    (hnew : deviceFind s dev.id.type dev.id.num = none) (hrest : AtEnd rest) :
    deviceText chips s ((devPieces dev).flatten ++ rest) =
      some (if FillsLast dev.parts then some (dev.id, readdress s.heap dev.parts, rest) else none) := by
  have hall : ∀ c ∈ dev.id.mtdId, decide (c ≠ 58) = true := fun c hc =>
    decide_eq_true fun he => h.colon (he ▸ hc)
  obtain ⟨p, hp⟩ : ∃ p, p = (partsPieces dev.numParts.toNat 0 none dev.parts).flatten ++ rest := ⟨_, rfl⟩
  have htext : (devPieces dev).flatten ++ rest = dev.id.mtdId ++ 58 :: p := by
    rw [hp]
    simp [devPieces, ascii]
  have hdrop : (dev.id.mtdId ++ 58 :: p).dropWhile (· ≠ 58) = 58 :: p := by
    rw [dropWhile_append_of_pos hall, dropWhile_cons_of_neg (by simp)]
  have htake : (dev.id.mtdId ++ 58 :: p).takeWhile (· ≠ 58) = dev.id.mtdId := by
    rw [takeWhile_append_of_pos hall, takeWhile_cons_of_neg (by simp), append_nil]
  have hoffset : startOffset s dev.id = some (nextOffset none) := by
    unfold startOffset
    rw [hnew]
    rfl
  obtain ⟨part, parts, hparts⟩ := exists_cons_of_ne_nil h.tidy.parts_ne
  have hend : ¬AtEnd p := by
    rw [hp, hparts]
    exact printed_not_atEnd (h.named part (by rw [hparts]; exact mem_cons_self)) rest
  have hfuel : dev.parts.length ≤ p.length + 1 := by
    have := parts_length_le dev.numParts.toNat 0 none dev.parts
    rw [hp, length_append]
    omega
  have hread : parseParts chips dev.id (p.length + 1) s.heap (nextOffset none) p =
      if FillsLast dev.parts then some (readdress s.heap dev.parts, rest) else none := by
    have := @parseParts_printed chips dev.id dev.numParts.toNat dev.parts rest (p.length + 1) s.heap 0 none
      h.tidy.parts_ne hfuel
      (show 0 + dev.parts.length = dev.numParts.toNat by rw [h.counted, zero_add])
      (fun q hq => ⟨h.named q hq, h.tidy.valid q hq⟩)
      ⟨h.tidy.sorted.tail_ne_zero, fun hno => absurd rfl hno⟩ hrest
    rwa [← hp] at this
  unfold deviceText
  rw [htext, hdrop, htake]
  simp only [h.id, hoffset, Option.bind_eq_bind, Option.bind_some, if_neg hend, hread]
  by_cases hf : FillsLast dev.parts
  · rw [if_pos hf, if_pos hf]
    rfl
  · rw [if_neg hf, if_neg hf]
    rfl

theorem deviceParse_of_text {s : State} {text q : Str} {id : Id} {parts back : List Part}
    (h : s.Tidy chips) (hpoints : s.Points) (ht : deviceText chips s text = some (some (id, parts, q)))
    (hsort : sortAll [] parts = some back) :
    deviceParse chips s text = some
      (some (⟨s.heap + parts.length, id, UInt16.ofNat parts.length, back⟩, q.drop 1),
        { s with heap := s.heap + parts.length + 1 }) := by
  have hfresh : Fresh s ⟨s.heap + parts.length, id, 0, []⟩ := h.fresh (Nat.le_add_right _ _)
  have hadd : addAll { s with heap := s.heap + parts.length + 1 } ⟨s.heap + parts.length, id, 0, []⟩ parts =
      some (_, _) :=
    (addAll_eq_some_iff (hfresh.heap (s.heap + parts.length + 1))).mpr ⟨rfl, fun _ => hpoints, rfl⟩
  unfold deviceParse
  simp only [ht, Option.bind_eq_bind, Option.bind_some, hadd, hsort, Option.map_some, UInt16.zero_add]

/-- A device read back from its text. -/
structure DevBack (dev back : Dev) : Prop where
  id : back.id = dev.id
  parts : Reread dev.parts back.parts

theorem DevBack.view_iff {dev back : Dev} (hb : DevBack dev back) (h : dev.Tidy chips) :
    back.view = dev.view ↔ Mirrored dev.parts := by
  rw [← hb.parts.view_iff h.sorted]
  unfold Dev.view
  rw [hb.id, Prod.mk.injEq]
  exact and_iff_right rfl

theorem deviceParse_printed {s : State} {dev : Dev} {rest : Str} (hs : s.Tidy chips) (hpoints : s.Points)
    (h : Spelled chips s dev) (hnew : deviceFind s dev.id.type dev.id.num = none) (hrest : AtEnd rest) :
    if FillsLast dev.parts then
      ∃ n back, deviceParse chips s ((devPieces dev).flatten ++ rest) =
        some (some (back, rest.drop 1), { s with heap := s.heap + n }) ∧ DevBack dev back ∧ Parsed chips s n back
    else deviceParse chips s ((devPieces dev).flatten ++ rest) = some (none, s) := by
  have htext := deviceText_printed h hnew hrest
  split
  next hf =>
    rw [if_pos hf] at htext
    obtain ⟨back, hsort, hreread⟩ := reread_sortAll h.tidy.sorted s.heap
    have hparse := deviceParse_of_text hs hpoints htext hsort
    obtain ⟨n, r, hspec, hparsed⟩ := deviceParse_spec ((devPieces dev).flatten ++ rest) hs hpoints
    obtain ⟨hr, hstate⟩ := Prod.mk.inj (Option.some.inj (hspec.symm.trans hparse))
    have hheap : s.heap + n = s.heap + (readdress s.heap dev.parts).length + 1 := congrArg State.heap hstate
    obtain ⟨hback, _⟩ := hparsed _ _ hr
    refine ⟨n, _, ?_, ?_, hback⟩
    · rw [hheap]
      exact hparse
    · exact ⟨rfl, hreread⟩
  next hf =>
    rw [if_neg hf] at htext
    unfold deviceParse
    rw [htext]
    rfl

theorem deviceFind_eq_none_iff {s : State} {type : MtdDevType} {num : Nat} :
    deviceFind s type num = none ↔ (type, num) ∉ s.devices.map fun d => (d.id.type, d.id.num) := by
  unfold deviceFind
  rw [List.find?_eq_none, mem_map]
  constructor
  · rintro h ⟨d, hd, he⟩
    exact h d hd (by simpa using Prod.mk.inj he)
  · intro h d hd he
    have he : d.id.type = type ∧ d.id.num = num := by simpa using he
    exact h ⟨d, hd, by rw [he.1, he.2]⟩

theorem tablePieces_cons (dev : Dev) (devs : List Dev) : (tablePieces (dev :: devs)).flatten =
      (devPieces dev).flatten ++ if devs = [] then [] else 59 :: (tablePieces devs).flatten := by
  cases devs with
  | nil => exact (append_nil _).symm
  | cons next devs => simp [tablePieces, ascii]

theorem tablePieces_ne_nil {devs : List Dev} (h : devs ≠ []) : (tablePieces devs).flatten ≠ [] := by
  obtain ⟨dev, devs, rfl⟩ := exists_cons_of_ne_nil h
  rw [tablePieces_cons]
  unfold devPieces
  simp [ascii]

theorem parseDevices_printed {devs : List Dev} {s : State} {fuel : Nat} (hne : devs ≠ [])
    (hfuel : devs.length ≤ fuel) (hs : s.Tidy chips) (hc : s.currentMtdDev = none)
    (hall : ∀ d ∈ devs, Spelled chips s d)
    (hkeys : ((s.devices ++ devs).map fun d => (d.id.type, d.id.num)).Nodup) :
    ∃ n b devices, parseDevices chips fuel s (tablePieces devs).flatten =
        some (b, { s with devices := devices, heap := s.heap + n }) ∧
      (b = true ↔ ∀ d ∈ devs, FillsLast d.parts) ∧
      (b = true → ∃ back, devices = s.devices ++ back ∧ List.Forall₂ DevBack devs back) := by
  induction devs generalizing s fuel with
  | nil => exact absurd rfl hne
  | cons dev devs ih =>
    obtain ⟨fuel, rfl⟩ : ∃ n, fuel = n + 1 := ⟨fuel - 1, by rw [length_cons] at hfuel; omega⟩
    have hspelled := hall dev mem_cons_self
    have hother : (dev.id.type, dev.id.num) ∉ s.devices.map fun d => (d.id.type, d.id.num) := by
      rw [map_append] at hkeys
      exact fun hm => (nodup_append.mp hkeys).2.2 _ hm _ mem_cons_self rfl
    have hnew := deviceFind_eq_none_iff.mpr hother
    obtain ⟨rest, hrest⟩ : ∃ rest, rest = if devs = [] then [] else 59 :: (tablePieces devs).flatten :=
      ⟨_, rfl⟩
    have hend : AtEnd rest := by
      rw [hrest]
      split
      · exact .inl rfl
      · exact .inr rfl
    have hdrop : rest.drop 1 = (tablePieces devs).flatten := by
      rw [hrest]
      split
      next hnil =>
        rw [hnil]
        rfl
      · rfl
    have hparse := deviceParse_printed hs (points_of_none hc) hspelled hnew hend
    rw [tablePieces_cons, ← hrest]
    unfold parseDevices
    split at hparse
    next hf =>
      obtain ⟨n, back, hparse, hback, hparsed⟩ := hparse
      have hkey : deviceFind { s with heap := s.heap + n } back.id.type back.id.num = none := by
        rw [hback.id]
        exact hnew
      have htidy : State.Tidy chips { s with devices := s.devices ++ [back], heap := s.heap + n } :=
        (hs.heap_le n).append hparsed.tidy hparsed.id hparsed.colon hkey (hs.fresh hparsed.addr.1).devices
          ⟨hparsed.addr.2, fun p hp => (hparsed.parts p hp).2⟩
      simp only [hparse, Option.bind_eq_bind, Option.bind_some, hkey, Option.isSome_none, if_false,
        Bool.false_eq_true, hdrop]
      by_cases hnil : devs = []
      · subst hnil
        refine ⟨n, true, s.devices ++ [back], rfl, ?_, fun _ => ⟨[back], rfl, .cons hback .nil⟩⟩
        simp [hf]
      · rw [if_neg (tablePieces_ne_nil hnil)]
        have hids : ∀ d ∈ devs, Spelled chips { s with devices := s.devices ++ [back], heap := s.heap + n } d :=
          fun d hd => by
            obtain ⟨ht, hcount, hnamed, hid, hcolon⟩ := hall d (mem_cons_of_mem _ hd)
            exact ⟨ht, hcount, hnamed, hid, hcolon⟩
        obtain ⟨m, b, devices, hrun, hiff, hdevices⟩ := ih hnil
          (Nat.le_of_succ_le_succ hfuel : devs.length ≤ fuel) htidy
          hc hids (by
            simp only [map_append, map_cons, map_nil, append_assoc, hback.id] at hkeys ⊢
            exact hkeys)
        refine ⟨n + m, b, devices, ?_, ?_, fun hb => ?_⟩
        · rw [hrun, add_assoc]
        · rw [hiff, forall_mem_cons]
          exact (and_iff_right hf).symm
        · obtain ⟨backs, rfl, hbacks⟩ := hdevices hb
          exact ⟨back :: backs, append_assoc _ _ _, .cons hback hbacks⟩
    next hf =>
      refine ⟨0, false, [], ?_, ?_, nofun⟩
      · simp only [hparse, Option.bind_eq_bind, Option.bind_some]
        rfl
      · constructor
        · intro hb
          cases hb
        · exact fun h => absurd (h dev mem_cons_self) hf

end UBoot.Mtd
