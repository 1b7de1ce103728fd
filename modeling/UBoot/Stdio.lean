import Mathlib.Data.List.Nodup
import UBoot.CString
import UBoot.FlashCells

namespace UBoot.Stdio

open FlashCells List

/-- `struct stdio_dev`: `name[16]` holds the name, its NUL and what is behind that. -/
structure StdioDev where
  name : CString
  behind : List UInt8
  fits : name.bytes.length + 1 + behind.length = 16

def StdioDev.field (d : StdioDev) : List UInt8 := d.name.bytes ++ 0 :: d.behind

abbrev Files := Fin 3 → Option Nat

/-- The registered devices, by their addresses in the order of the list, and `stdio_devices`. -/
structure Console where
  devs : List Nat
  dev : Nat → StdioDev
  files : Files
  distinct : (devs.map fun d => (dev d).name).Nodup
  listed : ∀ l d, files l = some d → d ∈ devs

def stdioGetByName (c : Console) (name : Option CString) : Option Nat := do
  let name ← name
  c.devs.find? fun d => (c.dev d).name = name

/-- `memcpy` of a whole name to slot `l` of three slots of `w` bytes each. -/
def copyName (w : Nat) (t : Flash) (l : Fin 3) (field : List UInt8) : Option Flash :=
  if w * l + field.length ≤ 3 * w then some (store t (w * l) field) else none

/-- The loop that copies the names of the standard files. It ends at a file that is assigned to the device `d`. -/
def copyNames (w : Nat) (c : Console) (d : Nat) : List (Fin 3) → Flash → Option (Option Flash)
  | [], t => some (some t)
  | l :: ls, t =>
    if c.files l = some d then some none
    else do
      let f ← c.files l
      let t ← copyName w t l (c.dev f).field
      copyNames w c d ls t

/-- `strcmp(name, &t[a]) == 0`, where the table ends at `e`. -/
def strcmpTable (t : Flash) (e : Nat) : List UInt8 → Nat → Option Bool
  | [], _ => none
  | c :: cs, a =>
    if e ≤ a then none
    else if t a ≠ c then some false
    else if c = 0 then some true
    else strcmpTable t e cs (a + 1)

/-- The standard files whose names in the table are the name of `d`. -/
def reassignDev (w : Nat) (c : Console) (t : Flash) (d : Nat) : List (Fin 3) → Files → Option Files
  | [], files => some files
  | l :: ls, files => do
    let same ← strcmpTable t (3 * w) (c.dev d).field (w * l)
    reassignDev w c t d ls (if same then Function.update files l (some d) else files)

def reassign (w : Nat) (c : Console) (t : Flash) : List Nat → Files → Option Files
  | [], files => some files
  | d :: ds, files => do
    let files ← reassignDev w c t d (List.finRange 3) files
    reassign w c t ds files

/-- `stdio_deregister` with slots of `w` bytes, which hold `t` before; without a result where it reads or writes
outside. -/
def deregister (w : Nat) (t : Flash) (c : Console) (name : Option CString) : Option (Int × List Nat × Files) :=
  match stdioGetByName c name with
  | none => some (-1, c.devs, c.files)
  | some d => do
    let copied ← copyNames w c d (List.finRange 3) t
    match copied with
    | none => some (-1, c.devs, c.files)
    | some t => do
      let devs := c.devs.erase d
      let files ← reassign w c t devs c.files
      some (0, devs, files)

/-- `stdio_deregister`: the slots are `char temp_names[3][8]`. -/
def stdioDeregister : Flash → Console → Option CString → Option (Int × List Nat × Files) := deregister 8

/-- The device is taken out of the list and nothing else changes, or nothing changes. -/
def KeepsTables (c : Console) (name : Option CString) (result : Option (Int × List Nat × Files)) : Prop :=
  ∃ r devs files, result = some (r, devs, files) ∧ files = c.files ∧
    (r = 0 → devs = c.devs.filter fun d => some (c.dev d).name ≠ name) ∧ (r ≠ 0 → devs = c.devs)

/-- A device of this name is assigned to a file, and the files before that one are assigned too. -/
def Assigned (c : Console) (name : Option CString) : Prop :=
  ∃ l d, c.files l = some d ∧ some (c.dev d).name = name ∧ ∀ k, k < l → c.files k ≠ none

def Unknown (c : Console) (name : Option CString) : Prop := ∀ d ∈ c.devs, some (c.dev d).name ≠ name

variable {w : Nat} {t : Flash} {c : Console} {d f : Nat} {l : Fin 3} {ls : List (Fin 3)} {name : Option CString}

theorem StdioDev.field_length (d : StdioDev) : d.field.length = 16 := by
  have hfits := d.fits
  unfold StdioDev.field
  rw [length_append, length_cons]
  omega

theorem getByName_none : stdioGetByName c name = none ↔ Unknown c name := by
  unfold stdioGetByName Unknown
  cases name with
  | none => simp
  | some name => simp [List.find?_eq_none]

theorem getByName_some (h : stdioGetByName c name = some d) : d ∈ c.devs ∧ some (c.dev d).name = name := by
  obtain ⟨name', hname, hfind⟩ := Option.bind_eq_some_iff.mp h
  have hsame := List.find?_some hfind
  rw [hname, of_decide_eq_true hsame]
  exact ⟨mem_of_find?_eq_some hfind, rfl⟩

theorem Console.name_inj (c : Console) (hd : d ∈ c.devs) (hf : f ∈ c.devs) :
    (c.dev d).name = (c.dev f).name ↔ d = f :=
  ⟨fun h => inj_on_of_nodup_map c.distinct hd hf h, fun h => congrArg (fun d => (c.dev d).name) h⟩

theorem erase_named (hd : d ∈ c.devs) :
    c.devs.erase d = c.devs.filter fun f => some (c.dev f).name ≠ some (c.dev d).name := by
  rw [(List.Nodup.of_map _ c.distinct).erase_eq_filter]
  apply filter_congr
  intro f hf
  have hinj := c.name_inj hf hd
  simp only [bne, ne_eq, Option.some.injEq, hinj, decide_not]
  rfl

def AssignedIn (c : Console) (d : Nat) : List (Fin 3) → Prop
  | [] => False
  | l :: ls => c.files l = some d ∨ c.files l ≠ none ∧ AssignedIn c d ls

theorem assignedIn_iff :
    AssignedIn c d (List.finRange 3) ↔ ∃ l, c.files l = some d ∧ ∀ k, k < l → c.files k ≠ none := by
  have hall : List.finRange 3 = [0, 1, 2] := rfl
  rw [hall]
  simp only [AssignedIn, Fin.exists_fin_succ, Fin.forall_fin_succ]
  simp [Fin.lt_def]
  tauto

def Fits (w : Nat) (l : Fin 3) : Prop := w * l + 16 ≤ 3 * w

theorem copyNames_assigned (h : c.files l = some d) : copyNames w c d (l :: ls) t = some none := if_pos h

theorem copyNames_unassigned (h : c.files l = none) : copyNames w c d (l :: ls) t = none := by
  have hne : c.files l ≠ some d := by
    rw [h]
    simp
  refine (if_neg hne).trans ?_
  rw [h]
  rfl

theorem copyNames_fits (h : c.files l = some f) (hne : f ≠ d) (hfits : Fits w l) :
    copyNames w c d (l :: ls) t = copyNames w c d ls (store t (w * l) (c.dev f).field) := by
  have hother : c.files l ≠ some d := by simpa [h] using hne
  have hcopy : copyName w t l (c.dev f).field = some (store t (w * l) (c.dev f).field) := by
    refine if_pos ?_
    rw [StdioDev.field_length]
    exact hfits
  refine (if_neg hother).trans ?_
  rw [h, Option.bind_eq_bind, Option.bind_some, hcopy]
  rfl

theorem copyNames_cut (h : c.files l = some f) (hne : f ≠ d) (hcut : ¬Fits w l) :
    copyNames w c d (l :: ls) t = none := by
  have hother : c.files l ≠ some d := by simpa [h] using hne
  have hcopy : copyName w t l (c.dev f).field = none := by
    refine if_neg ?_
    rw [StdioDev.field_length]
    exact hcut
  refine (if_neg hother).trans ?_
  rw [h, Option.bind_eq_bind, Option.bind_some, hcopy]
  rfl

theorem copyNames_spec (hsorted : ls.Pairwise (· < ·)) (hslots : ∀ l ∈ ls, ∀ k ∈ ls, k < l → Fits w k) :
    AssignedIn c d ls ∧ copyNames w c d ls t = some none ∨
      ¬AssignedIn c d ls ∧ (∀ l ∈ ls, c.files l ≠ none ∧ Fits w l) ∧ (∃ t', copyNames w c d ls t = some (some t')) ∨
        ¬AssignedIn c d ls ∧ ¬(∀ l ∈ ls, c.files l ≠ none ∧ Fits w l) ∧ copyNames w c d ls t = none := by
  induction ls generalizing t with
  | nil => exact .inr (.inl ⟨id, fun l hl => absurd hl not_mem_nil, t, rfl⟩)
  | cons l ls ih =>
    obtain ⟨hfirst, hsorted⟩ := pairwise_cons.mp hsorted
    have hrest : ∀ k ∈ ls, ∀ j ∈ ls, j < k → Fits w j := fun k hk j hj =>
      hslots k (mem_cons_of_mem l hk) j (mem_cons_of_mem l hj)
    rw [AssignedIn, forall_mem_cons]
    cases hl : c.files l with
    | none =>
      have hno : ¬((none : Option Nat) = some d ∨ (none : Option Nat) ≠ none ∧ AssignedIn c d ls) := by simp
      exact .inr (.inr ⟨hno, fun h => h.1.1 rfl, copyNames_unassigned hl⟩)
    | some f =>
      by_cases hd : f = d
      · subst hd
        exact .inl ⟨.inl rfl, copyNames_assigned hl⟩
      · have hiff : (some f = some d ∨ some f ≠ none ∧ AssignedIn c d ls) ↔ AssignedIn c d ls := by simp [hd]
        rw [hiff]
        by_cases hfits : Fits w l
        · rw [copyNames_fits hl hd hfits]
          have hall : ((some f ≠ none ∧ Fits w l) ∧ ∀ k ∈ ls, c.files k ≠ none ∧ Fits w k) ↔
              ∀ k ∈ ls, c.files k ≠ none ∧ Fits w k := by simp [hfits]
          rw [hall]
          exact ih hsorted hrest
        · -- A slot that is cut short is the last one.
          have hlast : ls = [] := by
            cases ls with
            | nil => rfl
            | cons k ks =>
              have hk : k ∈ l :: k :: ks := mem_cons_of_mem l mem_cons_self
              exact absurd (hslots k hk l mem_cons_self (hfirst k mem_cons_self)) hfits
          subst hlast
          exact .inr (.inr ⟨id, fun h => hfits h.1.2, copyNames_cut hl hd hfits⟩)

theorem copyNames_reads (hw : 16 ≤ w) (hsorted : ls.Pairwise (· < ·)) {t' : Flash}
    (h : copyNames w c d ls t = some (some t')) :
    (∀ l ∈ ls, ∀ f, c.files l = some f → read t' (w * l) 16 = (c.dev f).field) ∧
      ∀ x, (∀ l ∈ ls, x < w * l) → t' x = t x := by
  induction ls generalizing t with
  | nil =>
    cases h
    exact ⟨fun l hl => absurd hl not_mem_nil, fun _ _ => rfl⟩
  | cons l ls ih =>
    obtain ⟨hfirst, hsorted⟩ := pairwise_cons.mp hsorted
    cases hl : c.files l with
    | none => cases (copyNames_unassigned hl).symm.trans h
    | some f =>
      by_cases hd : f = d
      · subst hd
        cases (copyNames_assigned hl).symm.trans h
      by_cases hfits : Fits w l
      · rw [copyNames_fits hl hd hfits] at h
        obtain ⟨hreads, hkept⟩ := ih hsorted h
        have hlen := (c.dev f).field_length
        have hapart : ∀ k ∈ ls, w * l + 16 ≤ w * k := by
          intro k hk
          have hlt : (l : Nat) + 1 ≤ k := hfirst k hk
          have hmul := Nat.mul_le_mul_left w hlt
          rw [Nat.mul_add, mul_one] at hmul
          omega
        refine ⟨fun k hk f' hf' => ?_, fun x hx => ?_⟩
        · rcases mem_cons.mp hk with rfl | hk
          · obtain rfl : f = f' := Option.some.inj (hl.symm.trans hf')
            have hstored := read_store t (w * k) (c.dev f).field
            rw [hlen] at hstored
            rw [← hstored]
            refine read_congr fun i hi => hkept _ fun j hj => ?_
            have := hapart j hj
            omega
          · exact hreads k hk f' hf'
        · have hhere := hx l mem_cons_self
          rw [hkept x fun k hk => hx k (mem_cons_of_mem l hk)]
          exact store_outside (.inl hhere)
      · cases (copyNames_cut hl hd hfits).symm.trans h

theorem read_cons (m : Flash) (a n : Nat) : read m a (n + 1) = m a :: read m (a + 1) n := by
  rw [add_comm, read_append]
  rfl

theorem strcmpTable_read {e a : Nat} {s u x y : List UInt8} (hs : 0 ∉ s) (hu : 0 ∉ u)
    (hread : read t a (u.length + 1 + y.length) = u ++ 0 :: y) (hend : a + u.length < e) :
    strcmpTable t e (s ++ 0 :: x) a = some (decide (s = u)) := by
  induction s generalizing a u with
  | nil =>
    cases u with
    | nil =>
      rw [length_nil, zero_add, add_comm, read_cons, nil_append] at hread
      have hbyte := (List.cons.inj hread).1
      simpa [strcmpTable, hbyte] using hend
    | cons b u =>
      rw [length_cons, Nat.add_right_comm _ 1 y.length, read_cons, cons_append] at hread
      have hbyte := (List.cons.inj hread).1
      have hb : b ≠ 0 := fun h => hu (h ▸ mem_cons_self)
      rw [length_cons] at hend
      simp [strcmpTable, hbyte, hb, show ¬e ≤ a by omega]
  | cons c s ih =>
    obtain ⟨hc, hs'⟩ : c ≠ 0 ∧ 0 ∉ s := by simpa [eq_comm] using hs
    cases u with
    | nil =>
      rw [length_nil, zero_add, add_comm, read_cons, nil_append] at hread
      have hbyte := (List.cons.inj hread).1
      simp [strcmpTable, hbyte, Ne.symm hc, show ¬e ≤ a by simpa using hend]
    | cons b u =>
      obtain ⟨hb, hu'⟩ : b ≠ 0 ∧ 0 ∉ u := by simpa [eq_comm] using hu
      rw [length_cons, Nat.add_right_comm _ 1 y.length, read_cons, cons_append] at hread
      rw [length_cons] at hend
      obtain ⟨hbyte, hrest⟩ := List.cons.inj hread
      rw [cons_append, strcmpTable, if_neg (by omega), hbyte]
      by_cases hsame : b = c
      · subst hsame
        rw [if_neg (not_not.mpr rfl), if_neg hb, ih hs' hu' hrest (by omega)]
        simp
      · rw [if_pos hsame]
        simp [Ne.symm hsame]

theorem reassignDev_same (hd : d ∈ c.devs) (hall : ∀ l ∈ ls, ∃ f, c.files l = some f ∧
      strcmpTable t (3 * w) (c.dev d).field (w * l) = some (decide ((c.dev d).name = (c.dev f).name))) :
    reassignDev w c t d ls c.files = some c.files := by
  induction ls with
  | nil => rfl
  | cons l ls ih =>
    obtain ⟨⟨f, hf, hsame⟩, hrest⟩ := forall_mem_cons.mp hall
    have hfiles : (if decide ((c.dev d).name = (c.dev f).name) then Function.update c.files l (some d) else c.files) =
        c.files := by
      split
      next heq =>
        have hdf := (c.name_inj hd (c.listed l f hf)).mp (of_decide_eq_true heq)
        rw [hdf, ← hf]
        exact Function.update_eq_self l c.files
      · rfl
    unfold reassignDev
    rw [hsame, Option.bind_eq_bind, Option.bind_some, hfiles]
    exact ih hrest

theorem reassign_same {ds : List Nat} (hds : ∀ d ∈ ds, d ∈ c.devs)
    (hall : ∀ d ∈ ds, ∀ l, ∃ f, c.files l = some f ∧
      strcmpTable t (3 * w) (c.dev d).field (w * l) = some (decide ((c.dev d).name = (c.dev f).name))) :
    reassign w c t ds c.files = some c.files := by
  induction ds with
  | nil => rfl
  | cons d ds ih =>
    obtain ⟨hd, hds⟩ := forall_mem_cons.mp hds
    obtain ⟨hhere, hall⟩ := forall_mem_cons.mp hall
    unfold reassign
    rw [reassignDev_same hd fun l _ => hhere l, Option.bind_eq_bind, Option.bind_some]
    exact ih hds hall

theorem slots_fit (hw : 8 ≤ w) : ∀ l ∈ List.finRange 3, ∀ k ∈ List.finRange 3, k < l → Fits w k := by
  intro l _ k _ hlt
  have hk : (k : Nat) ≤ 1 := by
    omega
  have hslot : w * k ≤ w * 1 := Nat.mul_le_mul_left w hk
  unfold Fits
  omega

theorem fits_iff : (∀ l ∈ List.finRange 3, c.files l ≠ none ∧ Fits w l) ↔ 16 ≤ w ∧ ∀ l, c.files l ≠ none := by
  constructor
  · intro h
    have hlast : w * (2 : Fin 3) + 16 ≤ 3 * w := (h 2 (mem_finRange 2)).2
    have htwo : ((2 : Fin 3) : Nat) = 2 := rfl
    rw [htwo] at hlast
    exact ⟨by omega, fun l => (h l (mem_finRange l)).1⟩
  · rintro ⟨hwide, hall⟩ l _
    have hl : (l : Nat) ≤ 2 := Nat.le_of_lt_succ l.isLt
    have hslot : w * l ≤ w * 2 := Nat.mul_le_mul_left w hl
    refine ⟨hall l, ?_⟩
    unfold Fits
    omega

theorem name_eq_iff (a b : CString) : decide (a.bytes = b.bytes) = decide (a = b) := by
  obtain ⟨as, ha⟩ := a
  obtain ⟨bs, hb⟩ := b
  simp

theorem deregister_keeps_iff (hw : 8 ≤ w) (t : Flash) (c : Console) (name : Option CString) :
    KeepsTables c name (deregister w t c name) ↔
      Unknown c name ∨ Assigned c name ∨ 16 ≤ w ∧ ∀ l, c.files l ≠ none := by
  unfold deregister
  cases hfind : stdioGetByName c name with
  | none =>
    have hunknown := getByName_none.mp hfind
    refine iff_of_true ⟨-1, c.devs, c.files, rfl, rfl, fun h => absurd h (by decide), fun _ => rfl⟩ (.inl hunknown)
  | some d =>
    obtain ⟨hd, hname⟩ := getByName_some hfind
    have hknown : ¬Unknown c name := fun h => h d hd hname
    have hassigned : Assigned c name ↔ AssignedIn c d (List.finRange 3) := by
      rw [assignedIn_iff]
      constructor
      · rintro ⟨l, f, hl, hf, hbefore⟩
        have hsame : f = d := (c.name_inj (c.listed l f hl) hd).mp (Option.some.inj (hf.trans hname.symm))
        exact ⟨l, hsame ▸ hl, hbefore⟩
      · rintro ⟨l, hl, hbefore⟩
        exact ⟨l, d, hl, hname, hbefore⟩
    rw [hassigned, ← fits_iff]
    dsimp only
    have hsorted : (List.finRange 3).Pairwise (· < ·) := by decide
    have hcases := copyNames_spec (t := t) (c := c) (d := d) hsorted (slots_fit hw)
    rcases hcases with ⟨hin, hcopy⟩ | ⟨hout, hall, t', hcopy⟩ | ⟨hout, hnot, hcopy⟩
    · rw [hcopy]
      refine iff_of_true ⟨-1, c.devs, c.files, rfl, rfl, fun h => absurd h (by decide), fun _ => rfl⟩ ?_
      exact .inr (.inl hin)
    · have hwide := (fits_iff.mp hall).1
      have hreads := (copyNames_reads hwide hsorted hcopy).1
      have hsame : reassign w c t' (c.devs.erase d) c.files = some c.files := by
        refine reassign_same (fun f hf => mem_of_mem_erase hf) fun f hf l => ?_
        obtain ⟨b, hb⟩ := Option.ne_none_iff_exists'.mp (hall l (mem_finRange l)).1
        have hread := hreads l (mem_finRange l) b hb
        have hlen := (c.dev b).fits
        have hl : (l : Nat) ≤ 2 := Nat.le_of_lt_succ l.isLt
        have hslot : w * l ≤ w * 2 := Nat.mul_le_mul_left w hl
        rw [← hlen] at hread
        refine ⟨b, hb, (strcmpTable_read (c.dev f).name.nulFree (c.dev b).name.nulFree hread (by omega)).trans ?_⟩
        rw [name_eq_iff]
      rw [hcopy, Option.bind_eq_bind, Option.bind_some]
      dsimp only
      rw [hsame]
      refine iff_of_true ⟨0, c.devs.erase d, c.files, rfl, rfl, fun _ => ?_, fun h => absurd rfl h⟩ ?_
      · rw [erase_named hd, hname]
      · exact .inr (.inr hall)
    · rw [hcopy]
      refine iff_of_false ?_ ?_
      · rintro ⟨r, devs, files, hrun, -⟩
        cases hrun
      · rintro (h | h | h)
        · exact hknown h
        · exact hout h
        · exact hnot h

/-- The table of names has slots of eight bytes, so it is kept inside only where no device is deregistered. -/
theorem stdio_deregister_keeps_iff (t : Flash) (c : Console) (name : Option CString) :
    KeepsTables c name (stdioDeregister t c name) ↔ Unknown c name ∨ Assigned c name := by
  unfold stdioDeregister
  rw [deregister_keeps_iff (le_refl 8)]
  simp

def serialName : List UInt8 := [115, 101, 114, 105, 97, 108]
def usbkbdName : List UInt8 := [117, 115, 98, 107, 98, 100]

theorem serialName_nulFree : (0 : UInt8) ∉ serialName := by decide
theorem usbkbdName_nulFree : (0 : UInt8) ∉ usbkbdName := by decide
theorem serialName_fits : serialName.length + 1 + (List.replicate 9 (0 : UInt8)).length = 16 := by decide
theorem usbkbdName_fits : usbkbdName.length + 1 + (List.replicate 9 (0 : UInt8)).length = 16 := by decide

def serial : StdioDev := ⟨⟨serialName, serialName_nulFree⟩, List.replicate 9 0, serialName_fits⟩

def usbkbd : StdioDev := ⟨⟨usbkbdName, usbkbdName_nulFree⟩, List.replicate 9 0, usbkbdName_fits⟩

def twoDevs (d : Nat) : StdioDev := if d = 0 then serial else usbkbd

theorem twoDevs_distinct : ([0, 1].map fun d => (twoDevs d).name).Nodup := by decide

def twoDevices : Console where
  devs := [0, 1]
  dev := twoDevs
  files := fun _ => some 0
  distinct := twoDevs_distinct
  listed := fun _ _ h => Option.some.inj h ▸ mem_cons_self

/-- The name of the third file goes behind the end of the table. -/
theorem third_name_outside :
    ¬KeepsTables twoDevices (some usbkbd.name) (stdioDeregister (fun _ => 0) twoDevices (some usbkbd.name)) := by
  have hnone : stdioDeregister (fun _ => 0) twoDevices (some usbkbd.name) = none := by rfl
  rw [hnone]
  rintro ⟨r, devs, files, hrun, -⟩
  cases hrun

end UBoot.Stdio
