import UBoot.FatLongNames

namespace UBoot.Fat

open FlashCells Words

def IsFile (b : Flash) (i : Nat) : Prop := b (32 * i) ≠ 0xe5 ∧ isVolume (entryAttr b (32 * i)) = false

/-- The entry has this name, or the set of slots in front of it has it in lower case. -/
def HasName (b : Flash) (i : Nat) (filename : Text) : Prop :=
  IsFile b i ∧ (getName b (32 * i) = filename ∨
    ∃ r k name, r + k = i ∧ LongSet b r k name ∧ Lowered filename name)

/-- None of the entries from the `i`-th up to the `j`-th is the end mark or has the name. -/
def Clear (b : Flash) (filename : Text) (i j : Nat) : Prop :=
  ∀ m, i ≤ m → m < j → b (32 * m) ≠ 0 ∧ ¬HasName b m filename

/-- One of the first `n` entries, in front of the end mark, has the name. -/
def Contains (b : Flash) (n : Nat) (filename : Text) (i : Nat) : Prop :=
  i < n ∧ (∀ m, m ≤ i → b (32 * m) ≠ 0) ∧ HasName b i filename

/-- A search that gives an entry with the name in front of the end mark if there is one, and fails otherwise. -/
def FindsName (b : Flash) (n : Nat) (filename : Text) (found : Option DirEntry) : Prop :=
  match found with
  | some e => ∃ i, Contains b n filename i ∧ e = dirEntry b (32 * i)
  | none => ∀ i, ¬Contains b n filename i

/-- What the search takes for the beginning of a long name. -/
def Flagged (b : Flash) (i : Nat) : Prop :=
  isVolume (entryAttr b (32 * i)) = true ∧ longNameStart b (32 * i) = true

/-- What is taken for the beginning of a long name is the beginning of a set that ends in front of entry `z`
and whose name `get_vfatname` can keep, or it is not counted down from and does not spell the name that is
looked for as a short one. -/
def TidySlot (b : Flash) (filename : Text) (z i : Nat) : Prop :=
  (∃ k name, LongSet b i k name ∧ i + k < z ∧ (∀ u ∈ name, u < 256) ∧
    name.head? ≠ some 0xe5 ∧ name.head? ≠ some 5) ∨
  (¬CountsDown b z i ∧ getName b (32 * i) ≠ filename)

/-- The search sees the name at this entry, and finds `e`. -/
def Hit (b : Flash) (filename : Text) (i : Nat) (e : DirEntry) : Prop :=
  (IsFile b i ∧ getName b (32 * i) = filename ∧ e = dirEntry b (32 * i)) ∨
  ∃ k name, LongSet b i k name ∧ (getName b (32 * (i + k)) = filename ∨ Lowered filename name) ∧
    e = dirEntry b (32 * (i + k))

/-- The search sees neither the name nor the end mark from the `i`-th to the `j`-th entry. -/
def Missed (b : Flash) (filename : Text) (i j : Nat) : Prop :=
  ∀ m, i ≤ m → m < j → b (32 * m) ≠ 0 ∧ ∀ e, ¬Hit b filename m e

variable {b b' : Flash} {filename : Text} {i j k n z : Nat} {name : List Nat}

theorem LongSet.isFile (h : LongSet b i k name) : IsFile b (i + k) := h.short.2

theorem LongSet.flagged (h : LongSet b i k name) : Flagged b i ∧ b (32 * i) ≠ 0xe5 := by
  have hid := h.ids 0 h.bounds.1
  have hattr := h.attrs 0 h.bounds.1
  have hle := h.bounds.2.1
  rw [add_zero, Nat.sub_zero, if_pos rfl] at hid
  rw [add_zero] at hattr
  have hall : ∀ k, k < 21 → (k + 64) &&& 0x40 ≠ 0 := by decide
  have hflag := hall k (by omega)
  refine ⟨⟨by rw [hattr]; decide, ?_⟩, fun he => ?_⟩
  · unfold longNameStart
    rw [hattr, Bool.and_eq_true, decide_eq_true_eq, decide_eq_true_eq]
    exact ⟨by decide, by rw [show (b (32 * i)).toNat = k + 64 from hid]; exact hflag⟩
  · have hnat : (b (32 * i)).toNat = k + 64 := hid
    rw [he, show (0xe5 : UInt8).toNat = 229 from rfl] at hnat
    omega

theorem LongSet.no_end (h : LongSet b i k name) {m : Nat} (hm : m ≤ k) : b (32 * (i + m)) ≠ 0 := by
  rcases eq_or_lt_of_le hm with rfl | hlt
  · exact h.short.1
  · intro hzero
    have hid := h.ids m hlt
    unfold slotId at hid
    rw [hzero, show (0 : UInt8).toNat = 0 from rfl] at hid
    omega

theorem LongSet.unique {name' : List Nat} {k' : Nat} (h : LongSet b i k name) (h' : LongSet b i k' name') :
    k' = k ∧ name' = name := by
  obtain rfl : k' = k := h'.counter.symm.trans h.counter
  refine ⟨rfl, ?_⟩
  have hends : ∀ {s t : List Nat}, LongSet b i k' s → LongSet b i k' t → ¬s.length < t.length := by
    intro s t hs ht hlt
    have hs' := hs.chars s.length (by have := ht.bounds.2.2.2; omega) le_rfl
    have ht' := ht.chars s.length (by have := ht.bounds.2.2.2; omega) hlt.le
    rw [hs', List.getD_eq_default _ _ le_rfl, List.getD_eq_getElem _ _ hlt] at ht'
    exact ht.nonzero _ (List.getElem_mem hlt) ht'.symm
  have hlen : name'.length = name.length := by
    have := hends h h'
    have := hends h' h
    omega
  apply List.ext_getElem hlen
  intro p hp hp'
  have hlast := h.bounds.2.2.2
  have hchar := h.chars p (by omega) hp'.le
  have hchar' := h'.chars p (by omega) hp.le
  rw [List.getD_eq_getElem _ _ hp'] at hchar
  rw [List.getD_eq_getElem _ _ hp, hchar] at hchar'
  exact hchar'.symm

theorem Missed.clear (h : Missed b filename 0 j) : Clear b filename 0 j := by
  intro m _ hm
  obtain ⟨hend, hno⟩ := h m (Nat.zero_le m) hm
  refine ⟨hend, fun ⟨hfile, hname⟩ => ?_⟩
  rcases hname with hshort | ⟨r, k, name, rfl, hset, hlong⟩
  · exact hno _ (.inl ⟨hfile, hshort, rfl⟩)
  · exact (h r (Nat.zero_le r) (by omega)).2 _ (.inr ⟨k, name, hset, .inr hlong, rfl⟩)

theorem Missed.trans (h : Missed b filename i j) (h' : Missed b filename j n) : Missed b filename i n := by
  intro m hi hn
  by_cases hj : m < j
  · exact h m hi hj
  · exact h' m (by omega) hn

theorem Missed.single (hend : b (32 * i) ≠ 0) (hno : ∀ e, ¬Hit b filename i e) : Missed b filename i (i + 1) := by
  intro m hi hm
  obtain rfl : m = i := by omega
  exact ⟨hend, hno⟩

theorem Clear.contains (h : Clear b filename 0 n) : ∀ i, ¬Contains b n filename i :=
  fun i hi => (h i (Nat.zero_le i) hi.1).2 hi.2.2

theorem Clear.contains_of_end (h : Clear b filename 0 j) (hend : b (32 * j) = 0) : ∀ i, ¬Contains b n filename i := by
  rintro i ⟨-, hends, hname⟩
  by_cases hij : i < j
  · exact (h i (Nat.zero_le i) hij).2 hname
  · exact hends j (by omega) hend

theorem LongSet.hasName (h : LongSet b i k name) (hname : getName b (32 * (i + k)) = filename ∨ Lowered filename name) :
    HasName b (i + k) filename :=
  ⟨h.isFile, hname.imp id fun hlong => ⟨i, k, name, rfl, h, hlong⟩⟩

theorem not_hit_of_not_flagged (hflag : ¬Flagged b i) (hname : ¬(IsFile b i ∧ getName b (32 * i) = filename))
    (e : DirEntry) : ¬Hit b filename i e := by
  rintro (⟨hfile, hshort, -⟩ | ⟨k, name, hset, -⟩)
  · exact hname ⟨hfile, hshort⟩
  · exact hflag hset.flagged.1

theorem lowered_inj {s t : Text} (hs : Lowered s name) (ht : Lowered t name) : s = t := by
  have hmap : s.map UInt8.toNat = t.map UInt8.toNat := hs.trans ht.symm
  exact (List.map_injective_iff.mpr fun x y h => UInt8.toNat_inj.mp h) hmap

theorem CountsDown.move {o : Nat} (hb : ∀ m, i ≤ m → m < n → slotId b' m = slotId b (o + m)) (hi : i < n) :
    CountsDown b' n i ↔ CountsDown b (o + n) (o + i) := by
  unfold CountsDown
  rw [hb i (le_refl i) hi]
  constructor
  · intro h j hj hjn
    rw [add_assoc, ← hb (i + j) (by omega) (by omega)]
    exact h j hj (by omega)
  · intro h j hj hjn
    rw [hb (i + j) (by omega) hjn, ← add_assoc]
    exact h j hj (by omega)

theorem getName_congr {o o' : Nat} (h : ∀ x, x < 11 → b' (o' + x) = b (o + x)) : getName b' o' = getName b o := by
  have hname : read b' o' 8 = read b o 8 := read_congr fun i hi => h i (by omega)
  have hext : read b' (o' + 8) 3 = read b (o + 8) 3 := by
    apply read_congr
    intro i hi
    rw [add_assoc, add_assoc]
    exact h (8 + i) (by omega)
  unfold getName
  rw [hname, hext, h 8 (by omega)]

theorem dirEntry_congr {o o' : Nat} (h : ∀ x, x < 32 → b' (o' + x) = b (o + x)) : dirEntry b' o' = dirEntry b o := by
  have hattr : entryAttr b' o' = entryAttr b o := congrArg UInt8.toNat (h 11 (by omega))
  have hhi : le16 b' (o' + 20) = le16 b (o + 20) := le16_congr (h 20 (by omega)) (h 21 (by omega))
  have hlo : le16 b' (o' + 26) = le16 b (o + 26) := le16_congr (h 26 (by omega)) (h 27 (by omega))
  have hsize : le32 b' (o' + 28) = le32 b (o + 28) := by
    apply le32_congr
    intro i hi
    rw [add_assoc, add_assoc]
    exact h (28 + i) (by omega)
  unfold dirEntry
  rw [hattr, hhi, hlo, hsize]

/-- From entry `r` up to entry `n` a block holds the directory from entry `o + r` on. -/
def Mirrors (b block : Flash) (o r n : Nat) : Prop := ∀ x, 32 * r ≤ x → x < 32 * n → block x = b (32 * o + x)

/-- The name belongs to an entry from the `i`-th on and in front of the `z`-th, with no end mark on the way. -/
def Seen (b : Flash) (filename : Text) (i z : Nat) (e : DirEntry) : Prop :=
  ∃ m, i ≤ m ∧ m < z ∧ (∀ j, i ≤ j → j ≤ m → b (32 * j) ≠ 0) ∧ HasName b m filename ∧ e = dirEntry b (32 * m)

/-- What a scan up to the `j`-th entry of a directory of `n` comes to. -/
def Scanned (b : Flash) (filename : Text) (n j : Nat) : Scan → Prop
  | .found e => ¬Missed b filename 0 j ∧ ∃ i, Contains b n filename i ∧ e = dirEntry b (32 * i)
  | .stop _ => ∃ i, i < j ∧ Clear b filename 0 i ∧ b (32 * i) = 0
  | .exhausted => Missed b filename 0 j

variable {d : Disk} {fs : Fsdata} {st : Store} {block : Flash} {o r curclust : Nat} {v : VfatName}

theorem Mirrors.at (h : Mirrors b block o r n) (hr : i < n) (hi : r ≤ i) {x : Nat} (hx : x < 32) :
    block (32 * i + x) = b (32 * (o + i) + x) := by
  rw [h (32 * i + x) (by omega) (by omega)]
  exact congrArg b (by omega)

theorem Mirrors.first (h : Mirrors b block o r n) (hr : r < n) : block (32 * r) = b (32 * (o + r)) :=
  h.at hr (le_refl r) (x := 0) (by omega)

theorem Mirrors.attr (h : Mirrors b block o r n) (hr : r < n) :
    entryAttr block (32 * r) = entryAttr b (32 * (o + r)) :=
  congrArg UInt8.toNat (h.at hr (le_refl r) (by omega))

theorem Seen.scanned {e : DirEntry} (h : Seen b filename i z e) (hhit : Hit b filename i e)
    (hmiss : Missed b filename 0 i) (hij : i < j) (hz : z ≤ n) : Scanned b filename n j (.found e) := by
  obtain ⟨m, -, hlt, hends, hname, he⟩ := h
  refine ⟨fun hmissed => (hmissed i (Nat.zero_le i) hij).2 e hhit, m, ⟨by omega, fun u hu => ?_, hname⟩, he⟩
  by_cases hui : u < i
  · exact (hmiss u (Nat.zero_le u) hui).1
  · exact hends u (by omega) hu

/-- The comparison at entry `r` with the names that are then in the block and in `l_name`: it is one with what
the directory has there. -/
structure Compared (b block : Flash) (filename : Text) (o r n : Nat) (block' : Flash) (l_name : Text) : Prop where
  frame : ∀ x, x < 32 * r ∨ 32 * (r + 1) ≤ x → block' x = block x
  live : block' (32 * r) ≠ 0
  missed : filename ≠ getName block' (32 * r) ∧ filename ≠ l_name → ∀ e, ¬Hit b filename (o + r) e
  seen : ¬(filename ≠ getName block' (32 * r) ∧ filename ≠ l_name) →
    Hit b filename (o + r) (dirEntry block' (32 * r)) ∧ Seen b filename (o + r) (o + n) (dirEntry block' (32 * r))

theorem getName_deleted (h : b o = 0xe5) : getName b o = [] := by
  have hread : read b o 8 = 0xe5 :: read b (o + 1) 7 := by
    rw [← h]
    exact read_append b o 1 7
  have htake : (read b o 8).takeWhile nameChar = 0xe5 :: (read b (o + 1) 7).takeWhile nameChar := by
    rw [hread]
    exact List.takeWhile_cons_of_pos (by decide)
  unfold getName
  rw [htake]
  rfl

theorem Mirrors.compared (h : Mirrors b block o r n) (hr : r < n) (hlive : b (32 * (o + r)) ≠ 0)
    (hvolume : isVolume (entryAttr b (32 * (o + r))) = false) (hne : filename ≠ []) :
    Compared b block filename o r n block [] := by
  have hname : getName block (32 * r) = getName b (32 * (o + r)) :=
    getName_congr fun x hx => h.at hr (le_refl r) (by omega)
  have hflag : ¬Flagged b (o + r) := fun hflag => by
    rw [hflag.1] at hvolume
    cases hvolume
  constructor
  · intro x _
    rfl
  · rw [h.first hr]
    exact hlive
  · intro hno
    rw [hname] at hno
    exact not_hit_of_not_flagged hflag fun hfile => hno.1 hfile.2.symm
  · intro hyes
    have hshort : getName b (32 * (o + r)) = filename := by
      by_contra h
      exact hyes ⟨fun he => h (hname.symm.trans he.symm), hne⟩
    have hdeleted : b (32 * (o + r)) ≠ 0xe5 := fun hdeleted => hne (hshort.symm.trans (getName_deleted hdeleted))
    have hentry : dirEntry block (32 * r) = dirEntry b (32 * (o + r)) :=
      dirEntry_congr fun x hx => h.at hr (le_refl r) hx
    refine ⟨.inl ⟨⟨hdeleted, hvolume⟩, hshort, hentry⟩, o + r, le_rfl, by omega, fun j hj hjr => ?_,
      ⟨⟨hdeleted, hvolume⟩, .inl hshort⟩, hentry⟩
    obtain rfl : j = o + r := by omega
    exact hlive

/-- One entry of a scan: `g` goes on behind it, and `long` is what a long name comes to. -/
theorem entry_scanned {γ : Type} {w : Flash → γ} {g : Flash → Option (γ × Scan)} {long : Option (γ × Scan)}
    {z : Int} {n' : Nat} (hne : filename ≠ []) (hmiss : Missed b filename 0 (o + r)) (hij : o + r < j)
    (hrest : ∀ block', (∀ x, 32 * (r + 1) ≤ x → block' x = block x) → b (32 * (o + r)) ≠ 0 →
      (∀ e, ¬Hit b filename (o + r) e) → ∃ block'' s, g block' = some (w block'', s) ∧ Scanned b filename n j s)
    (hend : b (32 * (o + r)) = 0 → isVolume (entryAttr b (32 * (o + r))) = false)
    (hlong : Flagged b (o + r) → ∃ m block' name, o + m ≤ n ∧ Compared b block filename o r m block' name ∧
      long = if filename ≠ getName block' (32 * r) ∧ filename ≠ name then g block'
        else some (w block', .found (dirEntry block' (32 * r))))
    (hmirror : Mirrors b block o r n') (hr : r < n') (hin : o + n' ≤ n) : ∃ block' s,
    (if isVolume (entryAttr b (32 * (o + r))) then if longNameStart b (32 * (o + r)) then long else g block
      else if b (32 * (o + r)) = 0 then some (w block, .stop z)
      else if filename ≠ getName block (32 * r) ∧ filename ≠ [] then g block
      else some (w block, .found (dirEntry block (32 * r)))) = some (w block', s) ∧
      Scanned b filename n j s := by
  -- behind an entry that is compared the scan goes on, unless the name is seen
  have hcompare : ∀ m block' name, o + m ≤ n → Compared b block filename o r m block' name →
      b (32 * (o + r)) ≠ 0 → ∃ block'' s, (if filename ≠ getName block' (32 * r) ∧ filename ≠ name then g block'
        else some (w block', .found (dirEntry block' (32 * r)))) = some (w block'', s) ∧
        Scanned b filename n j s := by
    intro m block' name hm hcompared hlive
    split
    next hno => exact hrest block' (fun x hx => hcompared.frame x (.inr hx)) hlive (hcompared.missed hno)
    next hyes =>
      obtain ⟨hhit, hseen⟩ := hcompared.seen hyes
      exact ⟨block', _, rfl, hseen.scanned hhit hmiss hij hm⟩
  split
  next hvolume =>
    have hlive : b (32 * (o + r)) ≠ 0 := fun hzero => by
      rw [hend hzero] at hvolume
      cases hvolume
    split
    next hstart =>
      obtain ⟨m, block', name, hm, hcompared, rfl⟩ := hlong ⟨hvolume, hstart⟩
      exact hcompare m block' name hm hcompared hlive
    next hstart =>
      refine hrest block (fun x _ => rfl) hlive (not_hit_of_not_flagged (fun h => hstart h.2) fun h => ?_)
      rw [h.1.2] at hvolume
      cases hvolume
  next hvolume =>
    split
    next hzero => exact ⟨block, _, rfl, o + r, hij, hmiss.clear, hzero⟩
    next hlive =>
      exact hcompare n' block [] hin (hmirror.compared hr hlive (Bool.eq_false_iff.mpr hvolume) hne) hlive

theorem LongSet.compared (hset : LongSet b (o + r) k name) (hin : o + r + k < o + n) (hsmall : ∀ u ∈ name, u < 256)
    (hhead : name.head? ≠ some 0xe5 ∧ name.head? ≠ some 5) (hmirror : Mirrors b block o r n)
    (hn : n ≤ fs.clustSize * 16) :
    ∃ v, getVfatname d fs st curclust block r = some v ∧ v.store = st ∧
      Compared b block filename o r n v.block v.name := by
  have hblock : LongSet block r k name := hset.move fun x hx => by
    rw [hmirror (32 * r + x) (by omega) (by omega)]
    exact congrArg b (by omega)
  have hcounter := hblock.counter
  have hresult := getVfatname_within d st curclust (hblock.countsDown (fs.clustSize * 16))
    (by omega)
  rw [hcounter, hblock.wholeText hsmall, Option.bind_some, fitted_eq_some.mpr ⟨by simpa using hset.size, rfl⟩,
    Option.map_some] at hresult
  refine ⟨_, hresult, rfl, ?_⟩
  have hlower := (lowered_iff hset.filled hsmall).mpr hhead
  have hreal : ∀ x, x < 32 → FlashCells.store block (32 * r) (read block (32 * (r + k)) 32) (32 * r + x) =
      b (32 * (o + r + k) + x) := by
    intro x hx
    rw [store_read, patch_inside (by omega) (by omega), show 32 * (r + k) + (32 * r + x - 32 * r) = 32 * (r + k) + x
      by omega, hmirror.at (by omega) (by omega) hx, add_assoc o]
  have hname : getName (FlashCells.store block (32 * r) (read block (32 * (r + k)) 32)) (32 * r) =
      getName b (32 * (o + r + k)) := getName_congr fun x hx => hreal x (by omega)
  constructor
  · intro x hx
    exact store_outside (by rw [read_length]; omega)
  · have hfirst := hreal 0 (by omega)
    rw [add_zero, add_zero] at hfirst
    dsimp only
    rw [hfirst]
    exact hset.short.1
  · intro hno e hhit
    rcases hhit with ⟨hfile, -⟩ | ⟨k', name', hset', hname', -⟩
    · exact absurd hfile.2 (by rw [hset.flagged.1.1]; exact Bool.noConfusion)
    · obtain ⟨rfl, rfl⟩ := hset.unique hset'
      rcases hname' with h | h
      · exact hno.1 (h.symm.trans hname.symm)
      · exact hno.2 (lowered_inj h hlower)
  · intro hyes
    have hnames : getName b (32 * (o + r + k)) = filename ∨ Lowered filename name := by
      by_cases h : filename = getName (FlashCells.store block (32 * r) (read block (32 * (r + k)) 32)) (32 * r)
      · exact .inl (hname.symm.trans h.symm)
      · have hlong := not_not.mp (not_and.mp hyes h)
        exact .inr (by rw [hlong]; exact hlower)
    refine ⟨.inr ⟨k, name, hset, hnames, dirEntry_congr hreal⟩, o + r + k, Nat.le_add_right .., hin,
      fun j hj hjk => ?_, hset.hasName hnames, dirEntry_congr hreal⟩
    have hend := hset.no_end (m := j - (o + r)) (by omega)
    rwa [show o + r + (j - (o + r)) = j by omega] at hend

theorem TidySlot.compared (h : TidySlot b filename (o + n) (o + r)) (hflag : Flagged b (o + r)) (hne : filename ≠ [])
    (hmirror : Mirrors b block o r n) (hr : r < n) (hn : n ≤ fs.clustSize * 16) :
    ∃ v, getVfatname d fs st curclust block r = some v ∧ v.store = st ∧
      Compared b block filename o r n v.block v.name := by
  rcases h with ⟨k, name, hset, hin, hsmall, hhead⟩ | ⟨hdown, hname⟩
  · exact hset.compared hin hsmall hhead hmirror hn
  · have hid : ∀ m, r ≤ m → m < n → slotId block m = slotId b (o + m) := fun m hm hlt =>
      congrArg UInt8.toNat (hmirror.at hlt hm (x := 0) (by omega))
    have hblock : ¬CountsDown block (fs.clustSize * 16) r := fun h =>
      hdown ((CountsDown.move hid hr).mp fun j hj hjn => h j hj (by omega))
    have hshort : getName block (32 * r) = getName b (32 * (o + r)) :=
      getName_congr fun x hx => hmirror.at hr (le_refl r) (by omega)
    refine ⟨_, getVfatname_mismatch hblock, rfl, fun x _ => rfl, ?_, ?_, ?_⟩
    · dsimp only
      rw [hmirror.first hr]
      intro hzero
      have hlong := hflag.2
      unfold longNameStart at hlong
      rw [hzero] at hlong
      simp at hlong
    · intro _ e hhit
      rcases hhit with ⟨hfile, -⟩ | ⟨k, name', hset, -⟩
      · exact absurd hfile.2 (by rw [hflag.1]; exact Bool.noConfusion)
      · exact hdown (hset.countsDown (o + n))
    · intro hyes
      exact absurd ⟨fun h => hname (hshort.symm.trans h.symm), hne⟩ hyes

end UBoot.Fat
