import Mathlib.Data.List.TakeWhile
import UBoot.FatNames
import UBoot.FatRead

namespace UBoot.Fat

open FlashCells List Words

def clusterAfter (d : Disk) (fs : Fsdata) (curclust m : Nat) : Nat :=
  (fatEntry fs.fatsize (fatTable d fs))^[m] curclust

/-- The entries of a directory from a cluster on: those of a block, and those of the next clusters. -/
def entriesFrom (d : Disk) (fs : Fsdata) (curclust : Nat) (block : Flash) : Flash := fun x =>
  if x < bytesPerClust fs then block x
  else
    d.bytes (clusterSector d fs (clusterAfter d fs curclust (x / bytesPerClust fs)) * 512 + x % bytesPerClust fs)

def slotOffsets : List Nat := [1, 3, 5, 7, 9, 14, 16, 18, 20, 22, 24, 28, 30]

def slotChar (b : Flash) (i p : Nat) : Nat := le16 b (32 * i + slotOffsets.getD p 0)

/-- A set of `k` slots from the `r`-th entry on, the last part of the name first, and its short entry:
the name is terminated where it does not fill the last slot. -/
structure LongSet (b : Flash) (r k : Nat) (name : List Nat) : Prop where
  filled : 0 < name.length
  size : name.length ≤ 255
  count : k = (name.length + 12) / 13
  ids : ∀ j, j < k → slotId b (r + j) = k - j + if j = 0 then 64 else 0
  attrs : ∀ j, j < k → entryAttr b (32 * (r + j)) = 15
  chars : ∀ p, p < 13 * k → p ≤ name.length → slotChar b (r + (k - 1 - p / 13)) (p % 13) = name.getD p 0
  nonzero : ∀ u ∈ name, u ≠ 0
  short : b (32 * (r + k)) ≠ 0 ∧ b (32 * (r + k)) ≠ 0xe5 ∧ isVolume (entryAttr b (32 * (r + k))) = false

def lowerChar (u : Nat) : Nat := if 65 ≤ u ∧ u ≤ 90 then u + 32 else u

/-- The bytes in `l_name` are the characters of a name in lower case. -/
def Lowered (l_name : Text) (name : List Nat) : Prop := l_name.map UInt8.toNat = name.map lowerChar

/-- The name is in `l_name`, and the short entry in the place of the first slot. -/
structure Assembled (b block : Flash) (r k : Nat) (name : List Nat) (v : VfatName) : Prop where
  name : Lowered v.name name
  real : v.block = store block (32 * r) (read b (32 * (r + k)) 32)

/-- The set ends in the cluster, or the chain goes on as far as it does. -/
def InChain (d : Disk) (fs : Fsdata) (count curclust r k : Nat) : Prop :=
  r + k < fs.clustSize * 16 ∨
    ∀ m, m * (fs.clustSize * 16) ≤ r + k → IsCluster count (clusterAfter d fs curclust m)

/-- `get_vfatname` stays in its arrays, and where a set of slots begins it gets the name. -/
def GetsName (d : Disk) (fs : Fsdata) (count : Nat) (st : Store) (curclust : Nat) (block : Flash) (r : Nat) :
    Prop :=
  ∃ v, getVfatname d fs st curclust block r = some v ∧
    ∀ k name, LongSet (entriesFrom d fs curclust block) r k name → InChain d fs count curclust r k →
      Assembled (entriesFrom d fs curclust block) block r k name v

variable {b b' : Flash} {r k : Nat} {name : List Nat} {t : Text}

theorem LongSet.bounds (h : LongSet b r k name) : 0 < k ∧ k ≤ 20 ∧ 13 * (k - 1) < name.length ∧
    name.length ≤ 13 * k := by
  have hfilled := h.filled
  have hsize := h.size
  have hcount := h.count
  omega

theorem LongSet.counter (h : LongSet b r k name) : slotId b r &&& 0xbf = k := by
  have hid := h.ids 0 h.bounds.1
  have hle := h.bounds.2.1
  rw [add_zero, Nat.sub_zero, if_pos rfl] at hid
  rw [hid]
  have hall : ∀ k, k < 21 → (k + 64) &&& 0xbf = k := by decide
  exact hall k (by omega)

theorem LongSet.countsDown (h : LongSet b r k name) (n : Nat) : CountsDown b n r := by
  intro j hj _
  rw [h.counter] at hj ⊢
  have hle := h.bounds.2.1
  cases j with
  | zero => exact h.counter
  | succ j =>
    rw [h.ids (j + 1) hj, if_neg (by omega), add_zero]
    have hall : ∀ k, k < 21 → k &&& 0xbf = k := by decide
    exact hall _ (by omega)

theorem LongSet.move (h : LongSet b r k name) {r' : Nat}
    (hb : ∀ x, x < 32 * (k + 1) → b' (32 * r' + x) = b (32 * r + x)) : LongSet b' r' k name where
  filled := h.filled
  size := h.size
  count := h.count
  ids j hj := by
    rw [← h.ids j hj]
    have hbyte := hb (32 * j) (by omega)
    rw [← mul_add, ← mul_add] at hbyte
    exact congrArg UInt8.toNat hbyte
  attrs j hj := by
    rw [← h.attrs j hj]
    have hbyte := hb (32 * j + 11) (by omega)
    rw [← add_assoc, ← add_assoc, ← mul_add, ← mul_add] at hbyte
    exact congrArg UInt8.toNat hbyte
  chars p hp hle := by
    rw [← h.chars p hp hle]
    have hoffset : ∀ q, q < 13 → slotOffsets.getD q 0 ≤ 30 := by decide
    have hq := hoffset (p % 13) (by omega)
    have hlow := hb (32 * (k - 1 - p / 13) + slotOffsets.getD (p % 13) 0) (by omega)
    have hhigh := hb (32 * (k - 1 - p / 13) + slotOffsets.getD (p % 13) 0 + 1) (by omega)
    simp only [← add_assoc, ← mul_add] at hlow hhigh
    exact le16_congr hlow hhigh
  nonzero := h.nonzero
  short := by
    have hfirst := hb (32 * k) (by omega)
    have hattr := hb (32 * k + 11) (by omega)
    simp only [← add_assoc, ← mul_add] at hfirst hattr
    have hattr' : entryAttr b' (32 * (r' + k)) = entryAttr b (32 * (r + k)) := congrArg UInt8.toNat hattr
    rw [hfirst, hattr']
    exact h.short

theorem takeWhile_eq {cs T : Text} (hle : T.length ≤ cs.length)
    (hsame : ∀ i, i < T.length → cs[i]? = T[i]?) (hnonzero : ∀ c ∈ T, c ≠ 0)
    (hend : T.length < cs.length → cs[T.length]? = some 0) : cs.takeWhile (· ≠ 0) = T := by
  have htake : cs.take T.length = T := by
    apply ext_getElem?
    intro i
    by_cases hi : i < T.length
    · rw [List.getElem?_take_of_lt hi, hsame i hi]
    · rw [List.getElem?_eq_none (by rw [length_take]; omega), List.getElem?_eq_none (by omega)]
  rw [← take_append_drop T.length cs, htake, takeWhile_append_of_pos]
  · have hrest : (cs.drop T.length).takeWhile (· ≠ 0) = [] := by
      rcases eq_or_lt_of_le hle with heq | hlt
      · rw [heq, drop_length]
        rfl
      · rw [drop_eq_getElem_cons hlt, takeWhile_cons_of_neg]
        have hzero := hend hlt
        rw [List.getElem?_eq_getElem hlt] at hzero
        simpa using Option.some.inj hzero
    rw [hrest, append_nil]
  · intro c hc
    simpa using hnonzero c hc

theorem slotChars_getElem? (b : Flash) (i : Nat) {q : Nat} (hq : q < 13) :
    (slotChars b (32 * i))[q]? = some (b (32 * i + slotOffsets.getD q 0)) := by
  have hchars : slotChars b (32 * i) = slotOffsets.map fun j => b (32 * i + j) := rfl
  rw [hchars, List.getElem?_map, List.getElem?_eq_getElem (show q < slotOffsets.length from hq)]
  rw [Option.map_some, getD_eq_getElem _ _ (show q < slotOffsets.length from hq)]

theorem slotChar_low {i p u : Nat} (h : slotChar b i p = u) (hu : u < 256) :
    b (32 * i + slotOffsets.getD p 0) = UInt8.ofNat u := by
  unfold slotChar le16 at h
  have hlow : (b (32 * i + slotOffsets.getD p 0)).toNat = u := by omega
  rw [← hlow, UInt8.ofNat_toNat]

def namePart (k : Nat) (name : List Nat) (j : Nat) : List Nat := (name.drop (13 * (k - 1 - j))).take 13

theorem LongSet.slotText (h : LongSet b r k name) (hsmall : ∀ u ∈ name, u < 256) {j : Nat} (hj : j < k) :
    Fat.slotText b (r + j) = (namePart k name j).map UInt8.ofNat := by
  have hfirst := h.bounds.2.2.1
  have hlen : (namePart k name j).length = min 13 (name.length - 13 * (k - 1 - j)) := by
    unfold namePart
    rw [length_take, length_drop]
  have hchars : (slotChars b (32 * (r + j))).length = 13 := rfl
  -- the character that the set has at a place in the slot
  have hplace : ∀ q, q < 13 → 13 * (k - 1 - j) + q ≤ name.length →
      slotChar b (r + j) q = name.getD (13 * (k - 1 - j) + q) 0 := by
    intro q hq hle
    have hchar := h.chars (13 * (k - 1 - j) + q) (by omega) hle
    rw [show (13 * (k - 1 - j) + q) % 13 = q by omega,
      show r + (k - 1 - (13 * (k - 1 - j) + q) / 13) = r + j by omega] at hchar
    exact hchar
  apply takeWhile_eq
  · rw [length_map, hlen, hchars]
    omega
  · intro q hq
    rw [length_map, hlen] at hq
    have hin : 13 * (k - 1 - j) + q < name.length := by omega
    have hvalue := hplace q (by omega) (by omega)
    rw [getD_eq_getElem _ _ hin] at hvalue
    rw [slotChars_getElem? b _ (by omega), slotChar_low hvalue (hsmall _ (getElem_mem hin)), List.getElem?_map]
    unfold namePart
    rw [List.getElem?_take_of_lt (by omega), List.getElem?_drop, List.getElem?_eq_getElem hin, Option.map_some]
  · intro c hc
    obtain ⟨u, hu, rfl⟩ := mem_map.mp hc
    have hmem : u ∈ name := mem_of_mem_drop (mem_of_mem_take hu)
    have hne := h.nonzero u hmem
    have hlt := hsmall u hmem
    intro hzero
    have hnat := congrArg UInt8.toNat hzero
    rw [UInt8.toNat_ofNat', Nat.mod_eq_of_lt hlt] at hnat
    exact hne hnat
  · intro hshort
    rw [length_map, hlen, hchars] at hshort
    rw [length_map, hlen, slotChars_getElem? b _ (by omega)]
    have hvalue := hplace (min 13 (name.length - 13 * (k - 1 - j))) (by omega) (by omega)
    have hend : name.getD (13 * (k - 1 - j) + min 13 (name.length - 13 * (k - 1 - j))) 0 = 0 :=
      getD_eq_default _ _ (by omega)
    rw [hend] at hvalue
    rw [slotChar_low hvalue (by omega)]
    rfl

theorem LongSet.ends_first (h : LongSet b r k name) : endsName b r = true := by
  have hid := h.ids 0 h.bounds.1
  have hle := h.bounds.2.1
  rw [add_zero, Nat.sub_zero, if_pos rfl] at hid
  have hall : ∀ k, k < 21 → (k + 64) &&& 0x40 ≠ 0 := by decide
  unfold endsName
  rw [hid, Bool.or_eq_true, decide_eq_true_eq]
  exact .inr (hall k (by omega))

theorem LongSet.not_ends (h : LongSet b r k name) (hsmall : ∀ u ∈ name, u < 256) {j : Nat} (hj : j + 1 < k) :
    endsName b (r + (j + 1)) = false := by
  have hid : slotId b (r + (j + 1)) = k - (j + 1) := by simpa using h.ids (j + 1) hj
  have hle := h.bounds.2.1
  have hmany := h.bounds.2.2.1
  have hall : ∀ k, k < 21 → k &&& 0x40 = 0 := by decide
  have hflag := hall (k - (j + 1)) (by omega)
  -- a full slot has no terminator
  have htext := h.slotText hsmall hj
  have hlen : (Fat.slotText b (r + (j + 1))).length = 13 := by
    rw [htext, length_map]
    unfold namePart
    rw [length_take, length_drop]
    omega
  have hfull : (slotChars b (32 * (r + (j + 1)))).takeWhile (· ≠ 0) = slotChars b (32 * (r + (j + 1))) :=
    (List.takeWhile_prefix _).eq_of_length hlen
  unfold endsName
  rw [hid, hflag, Bool.or_eq_false_iff]
  refine ⟨?_, by simp⟩
  rw [takeWhile_eq_self_iff] at hfull
  rw [Bool.eq_false_iff]
  intro hcontains
  have hzero := hfull 0 (contains_iff_mem.mp hcontains)
  simp at hzero

theorem LongSet.backText (h : LongSet b r k name) (hsmall : ∀ u ∈ name, u < 256) {j : Nat} (hj : j < k) :
    Fat.backText b (r + j + 1) = some ((name.drop (13 * (k - 1 - j))).map UInt8.ofNat) := by
  have hlast := h.bounds.2.2.2
  induction j with
  | zero =>
    have htext := h.slotText hsmall hj
    rw [add_zero] at htext ⊢
    rw [Fat.backText, if_pos h.ends_first, htext]
    unfold namePart
    rw [take_of_length_le]
    rw [length_drop]
    omega
  | succ j ih =>
    rw [Fat.backText, h.not_ends hsmall hj, if_neg Bool.noConfusion, ← add_assoc, ih (by omega), Option.map_some,
      add_assoc, h.slotText hsmall hj, ← map_append]
    unfold namePart
    have hsplit := take_append_drop 13 (name.drop (13 * (k - 1 - (j + 1))))
    rw [drop_drop, show 13 * (k - 1 - (j + 1)) + 13 = 13 * (k - 1 - j) by omega] at hsplit
    rw [hsplit]

theorem LongSet.wholeText (h : LongSet b r k name) (hsmall : ∀ u ∈ name, u < 256) :
    Fat.backText b (r + k) = some (name.map UInt8.ofNat) := by
  have hk := h.bounds.1
  have hback := h.backText hsmall (j := k - 1) (by omega)
  rw [Nat.sub_self, mul_zero, drop_zero, add_assoc, show k - 1 + 1 = k by omega] at hback
  exact hback

theorem toLower_ofNat {u : Nat} (h : u < 256) : (toLower (UInt8.ofNat u)).toNat = lowerChar u := by
  have hall : ∀ u, u < 256 → (toLower (UInt8.ofNat u)).toNat = lowerChar u := by decide +kernel
  exact hall u h

theorem mendFirst_cons (c : UInt8) (cs : Text) :
    mendFirst (c :: cs) = if c = 0xe5 then [] else if c = 0x05 then 0xe5 :: cs else c :: cs := rfl

theorem lowered_iff (hfilled : 0 < name.length) (hsmall : ∀ u ∈ name, u < 256) :
    Lowered (downcase (mendFirst (name.map UInt8.ofNat))) name ↔ name.head? ≠ some 0xe5 ∧ name.head? ≠ some 5 := by
  cases name with
  | nil => exact absurd hfilled (lt_irrefl 0)
  | cons u us =>
    have hu := hsmall u (mem_cons_self ..)
    have hrest : (us.map UInt8.ofNat).map (UInt8.toNat ∘ toLower) = us.map lowerChar := by
      rw [map_map]
      exact map_congr_left fun x hx => toLower_ofNat (hsmall x (mem_cons_of_mem _ hx))
    have hofNat : ∀ c, c < 256 → (UInt8.ofNat u = UInt8.ofNat c ↔ u = c) := by
      intro c hc
      constructor
      · intro h
        have hnat := congrArg UInt8.toNat h
        rwa [UInt8.toNat_ofNat', UInt8.toNat_ofNat', Nat.mod_eq_of_lt hu, Nat.mod_eq_of_lt hc] at hnat
      · rintro rfl
        rfl
    have hdeleted := hofNat 229 (by omega)
    have haring := hofNat 5 (by omega)
    unfold Lowered downcase
    rw [map_cons, List.head?_cons, mendFirst_cons]
    by_cases h : UInt8.ofNat u = 0xe5
    · rw [if_pos h, hdeleted.mp h]
      simp
    · rw [if_neg h]
      by_cases h' : UInt8.ofNat u = 0x05
      · rw [if_pos h', haring.mp h']
        refine iff_of_false (fun hname => ?_) fun hname => hname.2 rfl
        have hfirst := head_eq_of_cons_eq hname
        exact absurd hfirst (by decide)
      · rw [if_neg h']
        refine iff_of_true ?_ ⟨fun he => h (hdeleted.mpr (Option.some.inj he)),
          fun he => h' (haring.mpr (Option.some.inj he))⟩
        rw [map_cons, map_cons, map_map, map_cons, toLower_ofNat hu, hrest]

theorem Lowered.small {l_name : Text} (h : Lowered l_name name) : ∀ u ∈ name, u < 256 := by
  intro u hu
  have hmem : lowerChar u ∈ l_name.map UInt8.toNat := by
    rw [show l_name.map UInt8.toNat = name.map lowerChar from h]
    exact mem_map_of_mem hu
  obtain ⟨c, -, hc⟩ := mem_map.mp hmem
  have hlt := c.toNat_lt
  unfold lowerChar at hc
  split at hc <;> omega

/-- The slots are followed by an entry in the same cluster: what is walked over fits, and if it is a set
the name has characters of one byte and does not begin like a deleted entry or its substitute. -/
structure FitsInCluster (block : Flash) (r : Nat) : Prop where
  fits : ∃ t, backText block (r + (slotId block r &&& 0xbf)) = some t ∧ t.length ≤ 255
  names : ∀ k name, LongSet block r k name →
    (∀ u ∈ name, u < 256) ∧ name.head? ≠ some 0xe5 ∧ name.head? ≠ some 5

/-- The slots reach the end of the cluster, and `b` is the next one as it has been read: the walk from its
first entry of low id to its start, and from the last but one entry of the cluster backwards, fits, and if
there is a set it happens to give the name, and the entry behind that of low id is the short one. A set with two
slots in this cluster and one in the next is never given by a disk that reads well (`split_set_never_assembled`). -/
def SpellsAcross (d : Disk) (fs : Fsdata) (count curclust : Nat) (block : Flash) (r : Nat) (b : Flash) : Prop :=
  ∃ j t, FirstLow b j ∧ j + 1 < blockEntries ∧ backText block (fs.clustSize * 16 - 1) = some t ∧
    (downText b j ++ t).length ≤ 255 ∧
    ∀ k name, LongSet (entriesFrom d fs curclust block) r k name → InChain d fs count curclust r k →
      Lowered (downcase (mendFirst (downText b j ++ t))) name ∧
        read b (32 * (j + 1)) 32 = read (entriesFrom d fs curclust block) (32 * (r + k)) 32

variable {d : Disk} {fs : Fsdata} {count curclust : Nat} {st : Store} {block : Flash}

theorem entriesFrom_block {x : Nat} (h : x < fs.clustSize * 512) : entriesFrom d fs curclust block x = block x :=
  if_pos h

theorem entriesFrom_next {x : Nat} (h : x < fs.clustSize * 512) :
    entriesFrom d fs curclust block (fs.clustSize * 512 + x) =
      d.bytes (clusterSector d fs (fatEntry fs.fatsize (fatTable d fs) curclust) * 512 + x) := by
  unfold entriesFrom bytesPerClust
  rw [if_neg (by omega), Nat.add_div_left _ (by omega), Nat.div_eq_of_lt h, Nat.add_mod_left, Nat.mod_eq_of_lt h]
  rfl

theorem LongSet.block_countsDown (h : LongSet (entriesFrom d fs curclust block) r k name)
    (hr : r < fs.clustSize * 16) : CountsDown block (fs.clustSize * 16) r ∧ slotId block r &&& 0xbf = k := by
  have hid : ∀ i, i < fs.clustSize * 16 → slotId (entriesFrom d fs curclust block) i = slotId block i := by
    intro i hi
    exact congrArg UInt8.toNat (entriesFrom_block (by omega))
  have hdown := h.countsDown (fs.clustSize * 16)
  have hcounter := h.counter
  rw [hid r hr] at hcounter
  refine ⟨fun j hj hjn => ?_, hcounter⟩
  have hj' := hdown j (by rw [hid r hr]; exact hj) hjn
  rw [hid _ hjn, hid r hr] at hj'
  exact hj'

theorem fitted_eq_some {t' : Text} : fitted t = some t' ↔ t.length ≤ 255 ∧ t' = t := by
  unfold fitted
  split
  next h => exact ⟨fun he => ⟨h, (Option.some.inj he).symm⟩, fun he => by rw [he.2]⟩
  next h => exact ⟨nofun, fun he => absurd he.1 h⟩

theorem getsName_within (hin : r + (slotId block r &&& 0xbf) < fs.clustSize * 16)
    (hdown : CountsDown block (fs.clustSize * 16) r) :
    GetsName d fs count st curclust block r ↔ FitsInCluster block r := by
  have hblock : ∀ {k}, r + k < fs.clustSize * 16 → ∀ x, x < 32 * (k + 1) →
      entriesFrom d fs curclust block (32 * r + x) = block (32 * r + x) := by
    intro k hk x hx
    exact entriesFrom_block (by omega)
  have hresult := getVfatname_within d st curclust hdown hin
  constructor
  · rintro ⟨v, hv, hset⟩
    rw [hresult] at hv
    obtain ⟨t', hbind, hv⟩ := Option.map_eq_some_iff.mp hv
    obtain ⟨t, hback, hfit⟩ := Option.bind_eq_some_iff.mp hbind
    refine ⟨⟨t, hback, (fitted_eq_some.mp hfit).1⟩, fun k name hs => ?_⟩
    have hk : r + k < fs.clustSize * 16 := by
      rw [← hs.counter]
      exact hin
    have hname := (hset k name (hs.move (hblock hk)) (.inl hk)).name
    have hsmall := hname.small
    have hwhole := hs.wholeText hsmall
    rw [← hs.counter, hback] at hwhole
    rw [← hv, (fitted_eq_some.mp hfit).2, Option.some.inj hwhole] at hname
    exact ⟨hsmall, (lowered_iff hs.filled hsmall).mp hname⟩
  · rintro ⟨⟨t, hback, hlen⟩, hnames⟩
    refine ⟨_, hresult.trans (by rw [hback, Option.bind_some, fitted_eq_some.mpr ⟨hlen, rfl⟩]; rfl), ?_⟩
    intro k name hs _
    have hcounter := (hs.block_countsDown (by omega)).2
    rw [hcounter] at hin hback
    have hs' := hs.move fun x hx => (hblock hin x hx).symm
    obtain ⟨hsmall, hhead⟩ := hnames k name hs'
    have hwhole := hs'.wholeText hsmall
    rw [hback] at hwhole
    refine ⟨?_, ?_⟩
    · rw [Option.some.inj hwhole]
      exact (lowered_iff hs.filled hsmall).mpr hhead
    · rw [hcounter]
      refine congrArg (FlashCells.store block (32 * r)) (read_congr fun i hi => ?_)
      exact (entriesFrom_block (by omega)).symm

theorem store_injective {m : Flash} {a : Nat} {bs bs' : List UInt8} (hlen : bs.length = bs'.length)
    (h : store m a bs = store m a bs') : bs = bs' := by
  rw [← read_store m a bs, h, hlen, read_store]

theorem getsName_beyond (hsize : fs.clustSize ≤ 128) (hr : r < fs.clustSize * 16)
    (hout : fs.clustSize * 16 ≤ r + (slotId block r &&& 0xbf))
    (hdown : CountsDown block (fs.clustSize * 16) r) :
    GetsName d fs count st curclust block r ↔
      match nextBlock d fs st curclust with
      | none => ∀ k name, LongSet (entriesFrom d fs curclust block) r k name → ¬InChain d fs count curclust r k
      | some b => SpellsAcross d fs count curclust block r b := by
  have hresult := getVfatname_beyond d st curclust hdown hr hout hsize
  cases hnext : nextBlock d fs st curclust with
  | none =>
    rw [hnext] at hresult
    obtain ⟨st', hst'⟩ := hresult
    constructor
    · rintro ⟨v, hv, hset⟩ k name hs hchain
      rw [hst'] at hv
      have hname := (hset k name hs hchain).name
      rw [← Option.some.inj hv] at hname
      have hlen := congrArg List.length hname
      rw [map_nil, length_map, length_nil] at hlen
      have hfilled := hs.filled
      omega
    · intro h
      exact ⟨_, hst', fun k name hs hchain => absurd hchain (h k name hs)⟩
  | some b =>
    rw [hnext] at hresult
    obtain ⟨st', hst'⟩ := hresult
    constructor
    · rintro ⟨v, hv, hset⟩
      rw [hst'] at hv
      obtain ⟨j, hj, hv⟩ := Option.bind_eq_some_iff.mp hv
      split at hv
      · cases hv
      next hlt =>
        obtain ⟨t', hbind, hv⟩ := Option.map_eq_some_iff.mp hv
        obtain ⟨t, hback, hfit⟩ := Option.bind_eq_some_iff.mp hbind
        obtain ⟨hlen, rfl⟩ := fitted_eq_some.mp hfit
        refine ⟨j, t, lowSlot_eq_some.mp hj, by omega, hback, hlen, fun k name hs hchain => ?_⟩
        have hassembled := hset k name hs hchain
        rw [← hv] at hassembled
        exact ⟨hassembled.name, store_injective (by rw [read_length, read_length]) hassembled.real⟩
    · rintro ⟨j, t, hj, hlt, hback, hlen, hset⟩
      refine ⟨⟨st', FlashCells.store block (32 * r) (read b (32 * (j + 1)) 32),
        downcase (mendFirst (downText b j ++ t))⟩, hst'.trans ?_, fun k name hs hchain => ?_⟩
      · rw [lowSlot_eq_some.mpr hj, Option.bind_some, if_neg (by omega), hback, Option.bind_some,
          fitted_eq_some.mpr ⟨hlen, rfl⟩]
        rfl
      · obtain ⟨hname, hreal⟩ := hset k name hs hchain
        exact ⟨hname, congrArg (FlashCells.store block (32 * r)) hreal⟩

/-- `get_vfatname` stays in its arrays and gets the name where there is a set exactly if the slots do not
count down, or the entry behind them is in the same cluster and the text fits, or they reach the end of the
cluster and there is nothing to be had of a next one, or that happens to give the name. -/
theorem get_vfatname_iff (d : Disk) (fs : Fsdata) (count : Nat) (st : Store) (curclust : Nat) (block : Flash)
    (r : Nat) (hsize : fs.clustSize ≤ 128) (hr : r < fs.clustSize * 16) :
    GetsName d fs count st curclust block r ↔ (CountsDown block (fs.clustSize * 16) r →
        if r + (slotId block r &&& 0xbf) < fs.clustSize * 16 then FitsInCluster block r
        else
          match nextBlock d fs st curclust with
          | none => ∀ k name, LongSet (entriesFrom d fs curclust block) r k name → ¬InChain d fs count curclust r k
          | some b => SpellsAcross d fs count curclust block r b) := by
  by_cases hdown : CountsDown block (fs.clustSize * 16) r
  · rw [forall_prop_of_true hdown]
    split
    next hin => exact getsName_within hin hdown
    next hout => exact getsName_beyond hsize hr (by omega) hdown
  · refine iff_of_true ⟨_, getVfatname_mismatch hdown, fun k name hs _ => ?_⟩ fun h => absurd h hdown
    exact absurd (hs.block_countsDown hr).1 hdown

def slotByte (id : UInt8) (o : Nat) : UInt8 :=
  if o = 0 then id else if o = 11 then 15 else if o ∈ slotOffsets then 97 else 0

def splitDisk : Disk where
  size := 16
  bytes x :=
    if x = 516 then 3
    else if 518 ≤ x ∧ x < 520 then 0xff
    else if 4032 ≤ x ∧ x < 4064 then slotByte 0x43 (x % 32)
    else if 4064 ≤ x ∧ x < 4096 then slotByte 2 (x % 32)
    else if 4096 ≤ x ∧ x < 4128 then slotByte 1 (x % 32)
    else if x = 4128 then 65
    else if x = 4139 then 32
    else 0
  ok _ s c := c == 0 || s + c ≤ 16
  spoilt _ _ b := b
  partOffset := 0
  size_lt := sixteen_sectors_lt
  beyond := @sixteen_sectors_beyond

def splitFsdata : Fsdata := ⟨16, 1, 1, 2, 1, 5⟩

def splitStore : Store := ⟨0, fun _ => 0, none, fun _ => 0, fun _ => 0, fun _ => 0, fun _ => 0⟩

/-- The name of thirteen `a` and thirteen `b`, its second part first. -/
def twoSlots : Flash := fun x =>
  if x / 32 = 3 then if x % 32 ∈ slotOffsets then 98 else slotByte 0x42 (x % 32)
  else if x / 32 = 4 then slotByte 1 (x % 32)
  else if x = 160 then 65
  else if x = 171 then 32
  else 0

theorem two_slots_assembled :
    LongSet (entriesFrom splitDisk splitFsdata 2 twoSlots) 3 2 (List.replicate 13 97 ++ List.replicate 13 98) ∧
      GetsName splitDisk splitFsdata 2 splitStore 2 twoSlots 3 := by
  refine ⟨⟨by decide, by decide, by decide, by decide, by decide, by decide, by decide, by decide⟩, ?_⟩
  refine (get_vfatname_iff splitDisk splitFsdata 2 splitStore 2 twoSlots 3 (by decide) (by decide)).mpr fun _ => ?_
  rw [if_pos (by decide)]
  refine ⟨⟨List.replicate 13 97 ++ List.replicate 13 98, by decide, by decide⟩, fun k name hs => ?_⟩
  have hk : k = 2 := hs.counter.symm
  have hlen := hs.bounds.2.2.2
  have hletter : ∀ u ∈ name, u = 97 ∨ u = 98 := by
    intro u hu
    obtain ⟨p, hp, rfl⟩ := getElem_of_mem hu
    have hchar := hs.chars p (by omega) hp.le
    rw [hk, getD_eq_getElem _ _ hp] at hchar
    have hall : ∀ p, p < 26 → slotChar twoSlots (3 + (2 - 1 - p / 13)) (p % 13) = 97 ∨
        slotChar twoSlots (3 + (2 - 1 - p / 13)) (p % 13) = 98 := by decide
    rw [← hchar]
    exact hall p (by omega)
  refine ⟨fun u hu => ?_, fun h => ?_, fun h => ?_⟩
  · rcases hletter u hu with rfl | rfl <;> decide
  · exact absurd (hletter _ (mem_of_mem_head? h)) (by decide)
  · exact absurd (hletter _ (mem_of_mem_head? h)) (by decide)

theorem nextBlock_bytes (hv : Volume d fs count) (hr : Readable d fs count) (hst : Cached d fs st)
    (hc : IsCluster count curclust) (hc' : IsCluster count (fatEntry fs.fatsize (fatTable d fs) curclust))
    (hnext : nextBlock d fs st curclust = some b) {x : Nat} (hx : x < fs.clustSize * 512) :
    b x = entriesFrom d fs curclust block (fs.clustSize * 512 + x) := by
  obtain ⟨st', hget, -, -⟩ := getFatent_cached hv hr hc hst
  unfold nextBlock at hnext
  dsimp only at hnext
  rw [hget] at hnext
  split at hnext
  · cases hnext
  next hpass =>
    rw [← fatEntry_of_passes (Bool.eq_false_iff.mpr hpass)] at hnext
    have hsize : fs.clustSize * 512 ≤
        (count + 2 - fatEntry fs.fatsize (fatTable d fs) curclust) * fs.clustSize * 512 :=
      Nat.mul_le_mul_right 512 (Nat.le_mul_of_pos_left _ (by have := hc'.2; omega))
    obtain ⟨n', hread⟩ := getCluster_bytes hv hr hc' hsize st'.reads st'.nameBlock 0
    rw [hread, if_pos rfl] at hnext
    have hb := Option.some.inj hnext
    dsimp only at hb
    rw [← hb, store_read, patch_inside (by omega) (by omega), entriesFrom_next hx]
    exact congrArg d.bytes (by omega)

theorem slotText_congr {i i' : Nat} (h : ∀ x, x < 32 → b' (32 * i' + x) = b (32 * i + x)) :
    slotText b' i' = slotText b i := by
  have hchars : slotChars b' (32 * i') = slotChars b (32 * i) := by
    unfold slotChars
    apply map_congr_left
    intro o ho
    have hsmall : ∀ o ∈ slotOffsets, o < 32 := by decide
    exact h o (hsmall o ho)
  unfold slotText
  rw [hchars]

theorem backText_congr {i : Nat} (h : ∀ x, x < 32 * i → b' x = b x) : backText b' i = backText b i := by
  induction i with
  | zero => rfl
  | succ i ih =>
    have htext : slotText b' i = slotText b i := slotText_congr fun x hx => h _ (by omega)
    have hends : endsName b' i = endsName b i := by
      unfold endsName slotId
      rw [h (32 * i) (by omega)]
      refine congrArg (fun l : Text => l.contains 0 || _) (map_congr_left fun o ho => ?_)
      have hsmall : ∀ o ∈ slotOffsets, o < 32 := by decide
      exact h _ (by have := hsmall o ho; omega)
    rw [backText, backText, htext, hends, ih fun x hx => h x (by omega)]

theorem LongSet.downText (h : LongSet b r k name) (hsmall : ∀ u ∈ name, u < 256) {n j : Nat}
    (hb : ∀ i, i ≤ j → Fat.slotText b' i = Fat.slotText b (n + i)) (hn : r ≤ n) (hj : n + j + 1 ≤ r + k) :
    (Fat.downText b' j).length = ((name.drop (13 * (r + k - (n + j + 1)))).take (13 * (j + 1))).length := by
  induction j with
  | zero =>
    have htext := h.slotText hsmall (j := n - r) (by omega)
    rw [show r + (n - r) = n by omega] at htext
    rw [Fat.downText, hb 0 (le_refl 0), add_zero, htext, length_map]
    unfold namePart
    rw [show k - 1 - (n - r) = r + k - (n + 0 + 1) by omega]
  | succ j ih =>
    have htext := h.slotText hsmall (j := n + (j + 1) - r) (by omega)
    rw [show r + (n + (j + 1) - r) = n + (j + 1) by omega] at htext
    rw [Fat.downText, length_append, hb (j + 1) le_rfl, htext, length_map,
      ih (fun i hi => hb i (by omega)) (by omega)]
    unfold namePart
    simp only [length_take, length_drop]
    omega

theorem length_mendFirst (t : Text) : (mendFirst t).length = t.length ∨ (mendFirst t).length = 0 := by
  cases t with
  | nil => exact .inl rfl
  | cons c t =>
    rw [mendFirst_cons]
    split
    · exact .inr rfl
    · split
      · exact .inl rfl
      · exact .inl rfl

theorem split_set_never_assembled (hv : Volume d fs count) (hr : Readable d fs count) (hst : Cached d fs st)
    (hc : IsCluster count curclust) (hc' : IsCluster count (fatEntry fs.fatsize (fatTable d fs) curclust))
    (hs : LongSet (entriesFrom d fs curclust block) r k name) (hfront : r + 2 ≤ fs.clustSize * 16)
    (hbehind : fs.clustSize * 16 < r + k) (hend : r + k < 2 * (fs.clustSize * 16)) :
    ¬GetsName d fs count st curclust block r := by
  rintro ⟨v, hres, hset⟩
  have hchain : InChain d fs count curclust r k := by
    refine .inr fun m hm => ?_
    rcases (by omega : m = 0 ∨ m = 1 ∨ 2 ≤ m) with rfl | rfl | hmore
    · exact hc
    · exact hc'
    · have hle := Nat.mul_le_mul_right (fs.clustSize * 16) hmore
      omega
  have hsmall := (hset k name hs hchain).name.small
  obtain ⟨hdown, hcounter⟩ := hs.block_countsDown (by omega)
  have hbeyond := (getsName_beyond hv.clusters.2 (by omega) (by omega) hdown).mp ⟨v, hres, hset⟩
  have hmany := hs.bounds.2.2
  cases hnext : nextBlock d fs st curclust with
  | none =>
    rw [hnext] at hbeyond
    exact hbeyond k name hs hchain
  | some b =>
    rw [hnext] at hbeyond
    obtain ⟨j, t, hlow, -, hback, -, hname⟩ := hbeyond
    have hbytes : ∀ x, x < fs.clustSize * 512 → b x = entriesFrom d fs curclust block (fs.clustSize * 512 + x) :=
      fun x hx => nextBlock_bytes hv hr hst hc hc' hnext hx
    -- the first slot of the set is the first one of low id in the next cluster
    obtain ⟨e, he⟩ : ∃ e, fs.clustSize * 16 + e + 1 = r + k := ⟨r + k - fs.clustSize * 16 - 1, by omega⟩
    have hid : ∀ i, i ≤ e → slotId b i = r + k - (fs.clustSize * 16 + i) := by
      intro i hi
      have hslot := hs.ids (fs.clustSize * 16 + i - r) (by omega)
      rw [if_neg (by omega), show r + (fs.clustSize * 16 + i - r) = fs.clustSize * 16 + i by omega] at hslot
      unfold slotId at hslot ⊢
      rw [hbytes _ (by omega), show fs.clustSize * 512 + 32 * i = 32 * (fs.clustSize * 16 + i) by omega, hslot]
      omega
    have hj : j = e := by
      rcases lt_trichotomy j e with hlt | heq | hgt
      · have := hid j hlt.le
        have := hlow.2.1
        omega
      · exact heq
      · have := hlow.2.2 e hgt
        have := hid e (le_refl e)
        omega
    subst hj
    have hslots : ∀ i, i ≤ j → Fat.slotText b i =
        Fat.slotText (entriesFrom d fs curclust block) (fs.clustSize * 16 + i) := by
      intro i hi
      refine slotText_congr fun x hx => ?_
      rw [hbytes _ (by omega)]
      exact congrArg (entriesFrom d fs curclust block) (by omega)
    have hdownText := hs.downText hsmall hslots (by omega) (by omega)
    have hfrontText := hs.backText hsmall (j := fs.clustSize * 16 - 2 - r) (by omega)
    rw [show r + (fs.clustSize * 16 - 2 - r) + 1 = fs.clustSize * 16 - 1 by omega,
      backText_congr (b := block) (fun x hx => entriesFrom_block (by omega)), hback] at hfrontText
    have hfrontLength := congrArg List.length (Option.some.inj hfrontText)
    have hlength := congrArg List.length (hname k name hs hchain).1
    simp only [length_take, length_drop] at hdownText
    rw [length_map, length_drop] at hfrontLength
    simp only [downcase, length_map] at hlength
    rcases length_mendFirst (downText b j ++ t) with hmend | hmend
    · rw [hmend, length_append] at hlength
      omega
    · omega

def splitBlock : Flash := fun x => splitDisk.bytes (3584 + x)

theorem splitDisk_volume : Volume splitDisk splitFsdata 2 where
  width := .inr (.inl rfl)
  fits := by decide
  clusters := by decide
  data := by decide
  onDisk := by decide
  entries := by unfold InTable; decide
  numbers := by decide

theorem splitDisk_readable : Readable splitDisk splitFsdata 2 where
  table n b hb := by
    change b * 6 < 1 at hb
    obtain rfl : b = 0 := by omega
    rfl
  data n s k _ hk := by
    change s + k ≤ 0 + 7 + 2 * 1 at hk
    change (k == 0 || decide (s + k ≤ 16)) = true
    simp only [Bool.or_eq_true, decide_eq_true_eq]
    right
    omega
  nothing n s := rfl

theorem splitDisk_set :
    LongSet (entriesFrom splitDisk splitFsdata 2 splitBlock) 14 3 (List.replicate 39 97) where
  filled := by decide
  size := by decide
  count := by decide
  ids := by decide
  attrs := by decide
  chars := by decide +kernel
  nonzero := by decide
  short := by decide

/-- Of the three slots of a set across the boundary the second one is left out. -/
theorem slot_left_out :
    ¬∀ (d : Disk) (fs : Fsdata) (count : Nat) (st : Store) (curclust : Nat) (block : Flash) (r : Nat),
      Volume d fs count → Readable d fs count → Cached d fs st → IsCluster count curclust →
      (∀ i, i < fs.clustSize * 512 → block i = d.bytes (clusterSector d fs curclust * 512 + i)) →
      r < fs.clustSize * 16 → GetsName d fs count st curclust block r := by
  intro h
  exact split_set_never_assembled splitDisk_volume splitDisk_readable (cached_of_none rfl) ⟨by omega, by omega⟩
    (by unfold IsCluster; decide) splitDisk_set (by decide) (by decide) (by decide)
    (h splitDisk splitFsdata 2 splitStore 2 splitBlock 14
      splitDisk_volume splitDisk_readable (cached_of_none rfl) ⟨by omega, by omega⟩ (fun i _ => rfl) (by decide))

end UBoot.Fat
