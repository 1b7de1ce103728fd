import UBoot.FatVolume

namespace UBoot.Fat

open FlashCells List Words

def slotText (b : Flash) (i : Nat) : Text := (slotChars b (32 * i)).takeWhile (· ≠ 0)

/-- The walk backwards ends with this slot: it holds the terminator, or it is flagged as the last one. -/
def endsName (b : Flash) (i : Nat) : Bool := (slotChars b (32 * i)).contains 0 || slotId b i &&& 0x40 ≠ 0

/-- The characters of the slots before the `i`-th, backwards to the one that ends the name; `none` if
there is no such slot in the block. -/
def backText (b : Flash) : Nat → Option Text
  | 0 => none
  | i + 1 => if endsName b i then some (slotText b i) else (backText b i).map fun t => slotText b i ++ t

/-- The characters of the slots of a block from the `i`-th down to the first. -/
def downText (b : Flash) : Nat → Text
  | 0 => slotText b 0
  | i + 1 => slotText b (i + 1) ++ downText b i

/-- A name that is complete, where it fits into `l_name` with its terminator. -/
def fitted (name : Text) : Option Text := if name.length ≤ 255 then some name else none

/-- The slots from `r` on count down from the id of the first to 1, or up to the end of the cluster. -/
def CountsDown (b : Flash) (n r : Nat) : Prop :=
  ∀ j, j < slotId b r &&& 0xbf → r + j < n → slotId b (r + j) &&& 0xbf = (slotId b r &&& 0xbf) - j

instance (b : Flash) (n r : Nat) : Decidable (CountsDown b n r) :=
  decidable_of_iff (∀ j, j < slotId b r &&& 0xbf → r + j < n → slotId b (r + j) &&& 0xbf = (slotId b r &&& 0xbf) - j)
    Iff.rfl

def FirstLow (b : Flash) (j : Nat) : Prop := j < blockEntries ∧ slotId b j ≤ 1 ∧ ∀ i, i < j → 1 < slotId b i

/-- The next cluster as `get_vfatname` gets at it, if it does. -/
def nextBlock (d : Disk) (fs : Fsdata) (st : Store) (curclust : Nat) : Option Flash :=
  let next := getFatent d fs st curclust
  if checkClust next.1 fs.fatsize then none
  else
    let c := getCluster d fs next.2.reads next.1 next.2.nameBlock 0 (fs.clustSize * 512)
    if c.1 then some c.2.2 else none

variable {b : Flash} {name : Text}

theorem fitted_append_none {s t : Text} (h : 255 < s.length) : fitted (s ++ t) = none := by
  unfold fitted
  rw [if_neg]
  rw [length_append]
  omega

theorem slot2str_eq (cs : Text) (hname : name.length ≤ 256) : slot2str cs name =
      if (name ++ cs.takeWhile (· ≠ 0)).length + (if cs.contains 0 then 1 else 0) ≤ 256 then
        some (cs.contains 0, name ++ cs.takeWhile (· ≠ 0))
      else none := by
  induction cs generalizing name with
  | nil =>
    unfold slot2str
    simp [hname]
  | cons c cs ih =>
    unfold slot2str
    by_cases hfull : 256 ≤ name.length
    · rw [if_pos hfull, if_neg]
      by_cases hc : c = 0
      · simp [hc]
        omega
      · simp [hc]
        omega
    · rw [if_neg hfull]
      by_cases hc : c = 0
      · rw [if_pos hc]
        simp [hc]
        omega
      · rw [if_neg hc, ih (by rw [length_append, length_singleton]; omega)]
        have hcontains : (c :: cs).contains 0 = cs.contains 0 := by
          rw [contains_cons]
          simp [Ne.symm hc]
        have htext : name ++ [c] ++ cs.takeWhile (· ≠ 0) = name ++ (c :: cs).takeWhile (· ≠ 0) := by
          rw [append_assoc, takeWhile_cons_of_pos (by simpa using hc), singleton_append]
        rw [hcontains, htext]

theorem slot2str_fitted (b : Flash) (i : Nat) (name : Text) (k : Bool × Text → Option Text)
    (rest : Option Text)
    (hk : (name ++ slotText b i).length ≤ 256 → k ((slotChars b (32 * i)).contains 0, name ++ slotText b i) =
        rest.bind fun t => fitted (name ++ slotText b i ++ t)) :
    (slot2str (slotChars b (32 * i)) name).bind k =
      rest.bind fun t => fitted (name ++ slotText b i ++ t) := by
  by_cases hname : 256 < name.length
  · have hnone : slot2str (slotChars b (32 * i)) name = none := if_pos hname.le
    have hall : (fun t => fitted (name ++ slotText b i ++ t)) = fun _ => none := by
      funext t
      rw [append_assoc]
      exact fitted_append_none (by omega)
    rw [hnone, hall]
    cases rest <;> rfl
  have hslot : slot2str (slotChars b (32 * i)) name =
      if (name ++ slotText b i).length + (if (slotChars b (32 * i)).contains 0 then 1 else 0) ≤ 256 then
        some ((slotChars b (32 * i)).contains 0, name ++ slotText b i)
      else none := slot2str_eq _ (by omega)
  rw [hslot]
  by_cases hfits : (name ++ slotText b i).length + (if (slotChars b (32 * i)).contains 0 then 1 else 0) ≤ 256
  · rw [if_pos hfits]
    exact hk (Nat.le_of_add_right_le hfits)
  · rw [if_neg hfits]
    have hlong : 255 < (name ++ slotText b i).length := by
      split at hfits <;> omega
    have hnone : (fun t => fitted (name ++ slotText b i ++ t)) = fun _ => none :=
      funext fun t => fitted_append_none hlong
    rw [hnone]
    cases rest <;> rfl

theorem namesBack_fitted (b : Flash) (i : Nat) (name : Text) :
    (namesBack b i name).bind fitted = (backText b i).bind fun t => fitted (name ++ t) := by
  induction i generalizing name with
  | zero => rfl
  | succ i ih =>
    have hstep : (namesBack b (i + 1) name).bind fitted = (slot2str (slotChars b (32 * i)) name).bind fun r =>
          (if r.1 ∨ slotId b i &&& 0x40 ≠ 0 then some r.2 else namesBack b i r.2).bind fitted :=
      Option.bind_assoc ..
    rw [hstep]
    by_cases hends : endsName b i = true
    · have hback : backText b (i + 1) = some (slotText b i) := if_pos hends
      rw [hback, slot2str_fitted b i name _ (some [])]
      · simp
      · intro _
        rw [if_pos]
        · simp
        · simpa [endsName] using hends
    · have hback : backText b (i + 1) = (backText b i).map fun t => slotText b i ++ t := if_neg hends
      rw [hback, slot2str_fitted b i name _ (backText b i)]
      · rw [Option.bind_map]
        simp only [Function.comp_def, append_assoc]
      · intro _
        rw [if_neg]
        · exact ih _
        · simpa [endsName] using hends

theorem namesDown_fitted (b : Flash) (j : Nat) (name : Text) (rest : Option Text) :
    ((namesDown b j name).bind fun n => rest.bind fun t => fitted (n ++ t)) =
      rest.bind fun t => fitted (name ++ downText b j ++ t) := by
  induction j generalizing name with
  | zero =>
    have hstep : (namesDown b 0 name).bind (fun n => rest.bind fun t => fitted (n ++ t)) =
        (slot2str (slotChars b (32 * 0)) name).bind fun r => rest.bind fun t => fitted (r.2 ++ t) :=
      Option.bind_map ..
    rw [hstep, slot2str_fitted b 0 name _ rest fun _ => rfl]
    rfl
  | succ j ih =>
    have hstep : (namesDown b (j + 1) name).bind (fun n => rest.bind fun t => fitted (n ++ t)) =
        (slot2str (slotChars b (32 * (j + 1))) name).bind fun r =>
          (namesDown b j r.2).bind fun n => rest.bind fun t => fitted (n ++ t) :=
      Option.bind_assoc ..
    have hmore : (rest.bind fun t => fitted (name ++ downText b (j + 1) ++ t)) =
        (rest.map fun t => downText b j ++ t).bind fun t => fitted (name ++ slotText b (j + 1) ++ t) := by
      rw [Option.bind_map]
      simp only [downText, Function.comp_def, append_assoc]
    rw [hstep, hmore, slot2str_fitted b (j + 1) name _ (rest.map fun t => downText b j ++ t)]
    intro _
    rw [ih, Option.bind_map]
    simp only [Function.comp_def, append_assoc]

theorem finishName_fitted (st : Store) (block real : Flash) (r i realdent : Nat) (name : Text) :
    finishName st block real r i realdent name = ((namesBack block i name).bind fitted).map fun t =>
      ⟨st, FlashCells.store block (32 * r) (read real (32 * realdent) 32), downcase (mendFirst t)⟩ := by
  unfold finishName
  rw [Option.map_bind]
  refine congrArg (Option.bind _) (funext fun t => ?_)
  unfold fitted
  by_cases h : 256 ≤ t.length
  · rw [if_pos h, Function.comp_apply, if_neg (by omega)]
    rfl
  · rw [if_neg h, Function.comp_apply, if_pos (by omega)]
    rfl

theorem namesDown_finish (st : Store) (block b : Flash) (r i j : Nat) :
    ((namesDown b j []).bind fun name => finishName st block b r i (j + 1) name) =
      ((backText block i).bind fun t => fitted (downText b j ++ t)).map fun t =>
        ⟨st, FlashCells.store block (32 * r) (read b (32 * (j + 1)) 32), downcase (mendFirst t)⟩ := by
  have hdown := namesDown_fitted b j [] (backText block i)
  rw [nil_append] at hdown
  rw [← hdown, Option.map_bind]
  refine congrArg (Option.bind _) (funext fun name => ?_)
  rw [finishName_fitted, namesBack_fitted]
  rfl

theorem matchSlots_some {n counter i : Nat} (hi : i ≤ n)
    (h : ∀ j, j < counter → i + j < n → slotId b (i + j) &&& 0xbf = counter - j) :
    matchSlots b n counter i = some (min (i + counter) n) := by
  induction counter generalizing i with
  | zero =>
    rw [add_zero, min_eq_left hi]
    rfl
  | succ counter ih =>
    unfold matchSlots
    split
    next hlt =>
      have hfirst : slotId b i &&& 0xbf = counter + 1 := h 0 (by omega) hlt
      rw [if_neg (not_not.mpr hfirst), ih hlt]
      · rw [show i + 1 + counter = i + (counter + 1) by omega]
      · intro j hj hjn
        have hnext := h (j + 1) (by omega) (by omega)
        rw [show i + 1 + j = i + (j + 1) by omega, hnext]
        omega
    next hge =>
      rw [min_eq_right (by omega), show i = n by omega]

theorem matchSlots_none {n counter i : Nat}
    (h : ¬∀ j, j < counter → i + j < n → slotId b (i + j) &&& 0xbf = counter - j) :
    matchSlots b n counter i = none := by
  induction counter generalizing i with
  | zero => exact absurd (fun j hj => absurd hj (Nat.not_lt_zero j)) h
  | succ counter ih =>
    unfold matchSlots
    split
    next hlt =>
      split
      · rfl
      next hfirst =>
        apply ih
        intro hrest
        refine h fun j hj hjn => ?_
        cases j with
        | zero => exact not_not.mp hfirst
        | succ j =>
          rw [show i + (j + 1) = i + 1 + j by omega, hrest j (by omega) (by omega)]
          omega
    next hge => exact absurd (fun j _ hjn => absurd hjn (by omega)) h

theorem lowSlot_spec {k : Nat} (hk : k ≤ blockEntries) :
    (∀ j, lowSlot b k = some j → blockEntries - k ≤ j ∧ j < blockEntries ∧ slotId b j ≤ 1 ∧
      ∀ i, blockEntries - k ≤ i → i < j → 1 < slotId b i) ∧
    (lowSlot b k = none → ∀ i, blockEntries - k ≤ i → i < blockEntries → 1 < slotId b i) := by
  induction k with
  | zero => exact ⟨fun j hj => (by cases hj), fun _ i hi hlt => absurd hlt (by omega)⟩
  | succ k ih =>
    obtain ⟨hsome, hnone⟩ := ih (by omega)
    unfold lowSlot
    split
    next hhigh =>
      refine ⟨fun j hj => ?_, fun h i hi hlt => ?_⟩
      · obtain ⟨hle, hlt, hlow, hall⟩ := hsome j hj
        refine ⟨by omega, hlt, hlow, fun i hi hij => ?_⟩
        rcases eq_or_lt_of_le hi with rfl | hi
        · exact hhigh
        · exact hall i (by omega) hij
      · rcases eq_or_lt_of_le hi with rfl | hi
        · exact hhigh
        · exact hnone h i (by omega) hlt
    next hlow =>
      refine ⟨fun j hj => ?_, nofun⟩
      cases hj
      exact ⟨le_rfl, by omega, by omega, fun i hi hij => absurd hij (by omega)⟩

theorem lowSlot_eq_some {j : Nat} : lowSlot b blockEntries = some j ↔ FirstLow b j := by
  obtain ⟨hsome, hnone⟩ := lowSlot_spec (b := b) (le_refl blockEntries)
  rw [Nat.sub_self] at hsome hnone
  constructor
  · intro h
    obtain ⟨-, hlt, hlow, hall⟩ := hsome j h
    exact ⟨hlt, hlow, fun i hi => hall i (Nat.zero_le i) hi⟩
  · rintro ⟨hlt, hlow, hall⟩
    cases hres : lowSlot b blockEntries with
    | none => exact absurd (hnone hres j (Nat.zero_le j) hlt) (by omega)
    | some k =>
      obtain ⟨-, -, hklow, hkall⟩ := hsome k hres
      rcases lt_trichotomy j k with h | h | h
      · exact absurd (hkall j (Nat.zero_le j) h) (by omega)
      · rw [h]
      · exact absurd (hall k h) (by omega)

variable {d : Disk} {fs : Fsdata} {st : Store} {curclust r : Nat} {block : Flash}

theorem getVfatname_mismatch (h : ¬CountsDown block (fs.clustSize * 16) r) :
    getVfatname d fs st curclust block r = some ⟨st, block, []⟩ := by
  unfold getVfatname
  dsimp only
  rw [matchSlots_none h]

variable (d st curclust) in
theorem getVfatname_within (h : CountsDown block (fs.clustSize * 16) r)
    (hin : r + (slotId block r &&& 0xbf) < fs.clustSize * 16) :
    getVfatname d fs st curclust block r =
      ((backText block (r + (slotId block r &&& 0xbf))).bind fitted).map fun t =>
        ⟨st, FlashCells.store block (32 * r) (read block (32 * (r + (slotId block r &&& 0xbf))) 32),
          downcase (mendFirst t)⟩ := by
  unfold getVfatname
  dsimp only
  rw [matchSlots_some (by omega) h]
  dsimp only
  rw [min_eq_left (by omega), if_pos hin, finishName_fitted, namesBack_fitted]
  rfl

variable (d st curclust) in
theorem getVfatname_beyond (h : CountsDown block (fs.clustSize * 16) r) (hr : r < fs.clustSize * 16)
    (hout : fs.clustSize * 16 ≤ r + (slotId block r &&& 0xbf)) (hsize : fs.clustSize ≤ 128) :
    match nextBlock d fs st curclust with
    | none => ∃ st', getVfatname d fs st curclust block r = some ⟨st', block, []⟩
    | some b => ∃ st', getVfatname d fs st curclust block r =
        (lowSlot b blockEntries).bind fun j =>
          if blockEntries ≤ j + 1 then none
          else ((backText block (fs.clustSize * 16 - 1)).bind fun t => fitted (downText b j ++ t)).map fun t =>
            ⟨st', FlashCells.store block (32 * r) (read b (32 * (j + 1)) 32), downcase (mendFirst t)⟩ := by
  unfold getVfatname nextBlock
  dsimp only
  rw [matchSlots_some hr.le h]
  dsimp only
  rw [min_eq_right hout, if_neg (lt_irrefl _), if_neg (show ¬fs.clustSize * 512 > 65536 by omega)]
  by_cases hend : checkClust (getFatent d fs st curclust).1 fs.fatsize = true
  · rw [if_pos hend, if_pos hend]
    exact ⟨_, rfl⟩
  rw [if_neg hend, if_neg hend]
  by_cases hbad : (getCluster d fs (getFatent d fs st curclust).2.reads (getFatent d fs st curclust).1
      (getFatent d fs st curclust).2.nameBlock 0 (fs.clustSize * 512)).1 = true
  · rw [if_pos hbad, if_neg (by rw [hbad]; exact Bool.noConfusion)]
    refine ⟨{ (getFatent d fs st curclust).2 with
        reads := (getCluster d fs (getFatent d fs st curclust).2.reads (getFatent d fs st curclust).1
          (getFatent d fs st curclust).2.nameBlock 0 (fs.clustSize * 512)).2.1
        nameBlock := (getCluster d fs (getFatent d fs st curclust).2.reads (getFatent d fs st curclust).1
          (getFatent d fs st curclust).2.nameBlock 0 (fs.clustSize * 512)).2.2 },
      congrArg (Option.bind _) (funext fun j => ?_)⟩
    split
    · rfl
    · exact namesDown_finish _ _ _ _ _ _
  · rw [if_neg hbad, if_pos (Bool.eq_false_iff.mpr hbad)]
    exact ⟨_, rfl⟩

end UBoot.Fat
