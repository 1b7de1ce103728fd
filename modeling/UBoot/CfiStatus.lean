import UBoot.CfiFlash

namespace UBoot.CfiStatus

open UBoot.Cfi (FlashInfo port_pos pow_dvd_of_le width_pow word_le_long word_width)

def errOk : Nat := 0
def errTimout : Nat := 1
def errNotErased : Nat := 2
def errProtected : Nat := 4
def errInval : Nat := 8

def statusDone : UInt8 := 0x80
def statusEclbs : UInt8 := 0x20
def statusPslbs : UInt8 := 0x10
def statusVpens : UInt8 := 0x08
def statusDps : UInt8 := 0x02

def flashManCfi : Nat := 0x01000000

abbrev Word := Nat → UInt8

/-- `flash_make_cmd`: the command in each chip's part of the word. -/
def flashMakeCmd (info : FlashInfo) (cmd : UInt8) : Word := fun k =>
  if k % info.chipwidth ≥ 4 then 0 else UInt8.ofNat (cmd.toNat >>> (8 * (k % info.chipwidth)))

def flashIsequal (info : FlashInfo) (cmd : UInt8) (word : Word) : Bool :=
  (List.range info.portwidth).all fun k => word k == flashMakeCmd info cmd k

def flashIsset (info : FlashInfo) (cmd : UInt8) (word : Word) : Bool :=
  (List.range info.portwidth).all fun k => word k &&& flashMakeCmd info cmd k == flashMakeCmd info cmd k

/-- `flash_is_busy` for the Intel command sets. -/
def flashIsBusy (info : FlashInfo) (word : Word) : Bool := !flashIsset info statusDone word

/-- What the looks at the status show: those before the time is over, the one where `get_timer (start) > tout` would
first be true, and those of the tests behind the wait. -/
structure Run where
  intime : List Word
  late : Word
  behind : Nat → Word

def flashStatusCheck (info : FlashInfo) (late : Word) : List Word → Nat
  | [] => if flashIsBusy info late then errTimout else errOk
  | word :: words => if flashIsBusy info word then flashStatusCheck info late words else errOk

/-- `flash_full_status_check` for the Intel command sets. -/
def flashFullStatusCheck (info : FlashInfo) (run : Run) : Nat :=
  let retcode := flashStatusCheck info run.late run.intime
  if retcode ≠ errOk ∧ flashIsequal info statusDone (run.behind 0) = false then
    let retcode :=
      if flashIsset info (statusEclbs ||| statusPslbs) (run.behind 1) then errInval
      else if flashIsset info statusEclbs (run.behind 2) then errNotErased
      else errInval
    if flashIsset info statusDps (run.behind 3) then errProtected else retcode
  else retcode

/-- The loop of `flash_erase` that erases the sectors; each one has its own looks. -/
def eraseSectors (info : FlashInfo) (protect : Nat → Bool) (runs : Nat → Run) : List Nat → Nat → Nat
  | [], rcode => rcode
  | sect :: sects, rcode =>
    eraseSectors info protect runs sects
      (if protect sect then rcode else if flashFullStatusCheck info (runs sect) ≠ 0 then 1 else rcode)

/-- The sectors from `s_first` to `s_last`. -/
def sectors (sFirst sLast : Int) : List Nat :=
  (List.range (sLast + 1 - sFirst).toNat).map (sFirst.toNat + ·)

def flashErase (info : FlashInfo) (flashId : Nat) (protect : Nat → Bool) (runs : Nat → Run) (sFirst sLast : Int) : Nat :=
  if flashId ≠ flashManCfi then 1
  else if sFirst < 0 ∨ sFirst > sLast then 1
  else eraseSectors info protect runs (sectors sFirst sLast) 0

/-- What the program of a word meets: whether the flash has all bits of the word, and the looks behind the write. -/
structure WordRun where
  erased : Bool
  run : Run

def flashWriteCfiword (info : FlashInfo) (word : WordRun) : Nat :=
  if word.erased = false then errNotErased else flashFullStatusCheck info word.run

/-- The loop for the aligned part, and behind it the tail of `tail` bytes; `n` words are written. -/
def writeWords (info : FlashInfo) (words : Nat → WordRun) (tail : Nat) : Nat → Nat → Nat
  | 0, n => if tail = 0 then 0 else flashWriteCfiword info (words n)
  | rest + 1, n =>
    if flashWriteCfiword info (words n) ≠ 0 then flashWriteCfiword info (words n)
    else writeWords info words tail rest (n + 1)

/-- How many bytes `write_buff` puts into a word where the start is not aligned. -/
def startBytes (info : FlashInfo) (addr cnt : Nat) : Nat := min (info.portwidth - addr % info.portwidth) cnt

/-- `write_buff` word by word; `words n` is what the program of its n-th word meets. -/
def writeBuff (info : FlashInfo) (words : Nat → WordRun) (addr cnt : Nat) : Nat :=
  if addr % info.portwidth ≠ 0 then
    let cnt := cnt - startBytes info addr cnt
    if flashWriteCfiword info (words 0) ≠ 0 then flashWriteCfiword info (words 0)
    else writeWords info words (cnt % info.portwidth) (cnt / info.portwidth) 1
  else writeWords info words (cnt % info.portwidth) (cnt / info.portwidth) 0

/-- The number of words that `write_buff` programs, one after another. -/
def wordCount (info : FlashInfo) (addr cnt : Nat) : Nat :=
  let start := if addr % info.portwidth ≠ 0 then 1 else 0
  let cnt := if addr % info.portwidth ≠ 0 then cnt - startBytes info addr cnt else cnt
  start + (cnt / info.portwidth + if cnt % info.portwidth = 0 then 0 else 1)

def chipStatus (info : FlashInfo) (word : Word) (chip : Nat) : UInt8 := word (chip * info.chipwidth)

def chips (info : FlashInfo) : Nat := info.portwidth / info.chipwidth

def Ready (info : FlashInfo) (word : Word) : Prop :=
  ∀ chip < chips info, chipStatus info word chip &&& statusDone = statusDone

/-- Some chip shows an erase, program, lock or Vpp error. -/
def ShowsError (info : FlashInfo) (word : Word) : Prop :=
  ∃ chip < chips info,
    chipStatus info word chip &&& (statusEclbs ||| statusPslbs ||| statusVpens ||| statusDps) ≠ 0

instance (info : FlashInfo) (word : Word) : Decidable (Ready info word) := inferInstanceAs (Decidable (∀ _ < _, _))

def Run.ready (info : FlashInfo) (run : Run) : Option Word := (run.intime ++ [run.late]).find? fun w => Ready info w

def Run.TimesOut (info : FlashInfo) (run : Run) : Prop := run.ready info = none

def Run.Errs (info : FlashInfo) (run : Run) : Prop := ∃ word, run.ready info = some word ∧ ShowsError info word

/-- Some sector that is to be erased meets `P`. -/
def AnySector (protect : Nat → Bool) (runs : Nat → Run) (sFirst sLast : Int) (P : Run → Prop) : Prop :=
  ∃ sect : Nat, sFirst ≤ sect ∧ sect ≤ sLast ∧ protect sect = false ∧ P (runs sect)

variable {info : FlashInfo} {word : Word} {run : Run} {k : Nat}

theorem flashMakeCmd_done : flashMakeCmd info statusDone k = if k % info.chipwidth = 0 then statusDone else 0 := by
  unfold flashMakeCmd
  generalize k % info.chipwidth = r
  split
  next hbehind => exact (if_neg (by omega)).symm
  next hbyte =>
    have hr : r = 0 ∨ r = 1 ∨ r = 2 ∨ r = 3 := by omega
    rcases hr with rfl | rfl | rfl | rfl <;> rfl

theorem chip_dvd (info : FlashInfo) : info.chipwidth ∣ info.portwidth :=
  pow_dvd_of_le (width_pow info.chip) (width_pow info.port) info.chip_le

theorem flashIsset_done : flashIsset info statusDone word = true ↔ Ready info word := by
  obtain ⟨n, hn⟩ := chip_dvd info
  have hport := port_pos info
  have hchip : 0 < info.chipwidth := Nat.pos_of_mul_pos_right (hn ▸ hport)
  have hchips : chips info = n := by
    unfold chips
    rw [hn, Nat.mul_div_cancel_left n hchip]
  unfold flashIsset Ready
  rw [List.all_eq_true, hchips]
  constructor
  · intro h chip hlt
    have hmem : chip * info.chipwidth ∈ List.range info.portwidth := by
      rw [List.mem_range, hn, mul_comm]
      exact (Nat.mul_lt_mul_left hchip).mpr hlt
    have htest := h _ hmem
    rw [flashMakeCmd_done, if_pos (Nat.mul_mod_left chip _)] at htest
    exact beq_iff_eq.mp htest
  · intro h k hk
    rw [flashMakeCmd_done]
    split
    next hzero =>
      obtain ⟨chip, rfl⟩ := Nat.dvd_of_mod_eq_zero hzero
      rw [List.mem_range, hn] at hk
      have hready := h chip ((Nat.mul_lt_mul_left hchip).mp hk)
      unfold chipStatus at hready
      rw [mul_comm] at hready
      exact beq_iff_eq.mpr hready
    · exact beq_iff_eq.mpr (UInt8.and_zero)

theorem flashIsBusy_iff : flashIsBusy info word = true ↔ ¬Ready info word := by
  unfold flashIsBusy
  rw [Bool.not_eq_true', ← flashIsset_done, Bool.not_eq_true]

theorem flashStatusCheck_iff (late : Word) (intime : List Word) : flashStatusCheck info late intime =
    if (intime ++ [late]).find? (fun w => Ready info w) = none then errTimout else errOk := by
  induction intime with
  | nil =>
    rw [flashStatusCheck, List.nil_append, List.find?_singleton]
    by_cases hready : Ready info late
    · have hbusy := mt flashIsBusy_iff.mp (not_not.mpr hready)
      simp [hready, hbusy]
    · have hbusy := flashIsBusy_iff.mpr hready
      simp [hready, hbusy]
  | cons word words ih =>
    rw [flashStatusCheck, List.cons_append, List.find?_cons]
    by_cases hready : Ready info word
    · have hbusy := mt flashIsBusy_iff.mp (not_not.mpr hready)
      simp [hready, hbusy]
    · have hbusy := flashIsBusy_iff.mpr hready
      simp [hready, hbusy, ih]

theorem flashFullStatusCheck_zero_iff : flashFullStatusCheck info run = 0 ↔ ¬run.TimesOut info := by
  have hstatus : flashStatusCheck info run.late run.intime = _ := flashStatusCheck_iff run.late run.intime
  unfold flashFullStatusCheck Run.TimesOut Run.ready
  rw [hstatus]
  by_cases hnone : (run.intime ++ [run.late]).find? (fun w => Ready info w) = none
  · rw [if_pos hnone]
    refine iff_of_false ?_ (not_not.mpr hnone)
    dsimp only
    split
    · split
      · decide
      · split
        · decide
        · split <;> decide
    · decide
  · rw [if_neg hnone]
    exact iff_of_true (if_neg fun h => h.1 rfl) hnone

section
variable {protect : Nat → Bool} {runs : Nat → Run} {sects : List Nat} {sFirst sLast : Int} {flashId rcode : Nat}

theorem eraseSectors_one : eraseSectors info protect runs sects 1 = 1 := by
  induction sects with
  | nil => rfl
  | cons sect sects ih =>
    rw [eraseSectors, ite_self, ite_self]
    exact ih

theorem eraseSectors_iff : eraseSectors info protect runs sects 0 = 1 ↔
    ∃ sect ∈ sects, protect sect = false ∧ (runs sect).TimesOut info := by
  induction sects with
  | nil => simp [eraseSectors]
  | cons sect sects ih =>
    rw [eraseSectors, List.exists_mem_cons_iff]
    by_cases hprotect : protect sect = true
    · rw [if_pos hprotect, ih]
      simp [hprotect]
    · rw [if_neg hprotect]
      by_cases hout : (runs sect).TimesOut info
      · rw [if_pos (mt flashFullStatusCheck_zero_iff.mp (not_not.mpr hout))]
        exact iff_of_true eraseSectors_one (.inl ⟨Bool.not_eq_true _ ▸ hprotect, hout⟩)
      · rw [if_neg (not_not.mpr (flashFullStatusCheck_zero_iff.mpr hout)), ih]
        exact (or_iff_right fun h => hout h.2).symm

theorem mem_sectors (hfirst : 0 ≤ sFirst) {sect : Nat} : sect ∈ sectors sFirst sLast ↔ sFirst ≤ sect ∧ sect ≤ sLast := by
  unfold sectors
  rw [List.mem_map]
  constructor
  · rintro ⟨i, hi, rfl⟩
    have hlt := List.mem_range.mp hi
    omega
  · intro h
    refine ⟨sect - sFirst.toNat, List.mem_range.mpr ?_, ?_⟩
    · omega
    · omega

theorem flashErase_iff : flashErase info flashId protect runs sFirst sLast = 1 ↔
    flashId ≠ flashManCfi ∨ sFirst < 0 ∨ sFirst > sLast ∨ AnySector protect runs sFirst sLast (Run.TimesOut info) := by
  unfold flashErase
  split
  next hid => exact iff_of_true rfl (.inl hid)
  next hid =>
    split
    next hrange => exact iff_of_true rfl (.inr (by omega))
    next hrange =>
      have hfirst : ¬sFirst < 0 := fun h => hrange (.inl h)
      have hlast : ¬sFirst > sLast := fun h => hrange (.inr h)
      rw [eraseSectors_iff, or_iff_right hid, or_iff_right hfirst, or_iff_right hlast]
      constructor
      · rintro ⟨sect, hmem, hsect⟩
        obtain ⟨hle, hle'⟩ := (mem_sectors (by omega)).mp hmem
        exact ⟨sect, hle, hle', hsect⟩
      · rintro ⟨sect, hle, hle', hsect⟩
        exact ⟨sect, (mem_sectors (by omega)).mpr ⟨hle, hle'⟩, hsect⟩

end

section
variable {words : Nat → WordRun} {w : WordRun} {addr cnt tail rest n : Nat}

/-- The flash is erased for the word, and the chips get ready in time. -/
def WordRun.Done (info : FlashInfo) (w : WordRun) : Prop := w.erased = true ∧ ¬w.run.TimesOut info

theorem flashWriteCfiword_zero_iff : flashWriteCfiword info w = 0 ↔ w.Done info := by
  unfold flashWriteCfiword WordRun.Done
  rw [← flashFullStatusCheck_zero_iff]
  cases w.erased with
  | false =>
    rw [if_pos rfl]
    exact iff_of_false (by decide) (by simp)
  | true => simp

theorem writeWords_zero_iff : writeWords info words tail rest n = 0 ↔
    ∀ m, n ≤ m → m < n + (rest + if tail = 0 then 0 else 1) → (words m).Done info := by
  induction rest generalizing n with
  | zero =>
    unfold writeWords
    split
    · exact iff_of_true rfl fun m hle hlt => by omega
    · rw [flashWriteCfiword_zero_iff]
      exact ⟨fun h m hle hlt => (show n = m by omega) ▸ h, fun h => h n (le_refl n) (by omega)⟩
  | succ rest ih =>
    unfold writeWords
    split
    next hfail =>
      refine iff_of_false hfail fun h => hfail (flashWriteCfiword_zero_iff.mpr ?_)
      exact h n (le_refl n) (by omega)
    next hdone =>
      rw [ih]
      have hn := flashWriteCfiword_zero_iff.mp (not_not.mp hdone)
      constructor
      · intro h m hle hlt
        rcases eq_or_lt_of_le hle with rfl | hlt'
        · exact hn
        · exact h m hlt' (by omega)
      · exact fun h m hle hlt => h m (by omega) (by omega)

theorem writeBuff_zero_iff : writeBuff info words addr cnt = 0 ↔ ∀ n < wordCount info addr cnt, (words n).Done info := by
  unfold writeBuff wordCount
  split
  next hunaligned =>
    split
    next hfail =>
      refine iff_of_false hfail fun h => hfail (flashWriteCfiword_zero_iff.mpr ?_)
      exact h 0 (Nat.add_pos_left Nat.one_pos _)
    next hdone =>
      rw [writeWords_zero_iff]
      have hfirst := flashWriteCfiword_zero_iff.mp (not_not.mp hdone)
      constructor
      · intro h n hlt
        cases n with
        | zero => exact hfirst
        | succ n => exact h (n + 1) (by omega) hlt
      · exact fun h m _ hlt => h m hlt
  · rw [writeWords_zero_iff]
    exact ⟨fun h n hlt => h n (Nat.zero_le n) hlt, fun h n _ hlt => h n hlt⟩

end

/-- An error of the chips is reported exactly where it does not come with readiness in time: for one wait, for the
sectors of an erase, and for the words of a write. -/
theorem chip_errors_reported_iff (info : FlashInfo) :
    (∀ run : Run, (run.TimesOut info ∨ run.Errs info → flashFullStatusCheck info run ≠ 0) ↔ ¬run.Errs info) ∧
    (∀ (flashId : Nat) (protect : Nat → Bool) (runs : Nat → Run) (sFirst sLast : Int),
      (AnySector protect runs sFirst sLast (fun run => run.TimesOut info ∨ run.Errs info) →
        flashErase info flashId protect runs sFirst sLast = 1) ↔
      AnySector protect runs sFirst sLast (Run.Errs info) →
        flashId ≠ flashManCfi ∨ sFirst < 0 ∨ AnySector protect runs sFirst sLast (Run.TimesOut info)) ∧
    (∀ (words : Nat → WordRun) (addr cnt : Nat),
      ((∃ n < wordCount info addr cnt, (words n).run.TimesOut info ∨ (words n).run.Errs info) →
        writeBuff info words addr cnt ≠ 0) ↔
      (∃ n < wordCount info addr cnt, (words n).run.Errs info) →
        ∃ n < wordCount info addr cnt, (words n).erased = false ∨ (words n).run.TimesOut info) := by
  refine ⟨fun run => ?_, fun flashId protect runs sFirst sLast => ?_, fun words addr cnt => ?_⟩
  · rw [ne_eq, flashFullStatusCheck_zero_iff, not_not]
    constructor
    · rintro h ⟨word, hready, herror⟩
      have hnone : run.ready info = none := h (.inr ⟨word, hready, herror⟩)
      cases hnone.symm.trans hready
    · exact fun h hbad => hbad.resolve_right h
  · rw [flashErase_iff]
    constructor
    · rintro h ⟨sect, hle, hle', hprotect, herror⟩
      rcases h ⟨sect, hle, hle', hprotect, .inr herror⟩ with hid | hfirst | hrange | hout
      · exact .inl hid
      · exact .inr (.inl hfirst)
      · omega
      · exact .inr (.inr hout)
    · rintro h ⟨sect, hle, hle', hprotect, hout | herror⟩
      · exact .inr (.inr (.inr ⟨sect, hle, hle', hprotect, hout⟩))
      · rcases h ⟨sect, hle, hle', hprotect, herror⟩ with hid | hfirst | hout
        · exact .inl hid
        · exact .inr (.inl hfirst)
        · exact .inr (.inr (.inr hout))
  · rw [ne_eq, writeBuff_zero_iff]
    constructor
    · rintro h ⟨n, hlt, herror⟩
      obtain ⟨m, hm⟩ := not_forall.mp (h ⟨n, hlt, .inr herror⟩)
      obtain ⟨hmlt, hnot⟩ := Classical.not_imp.mp hm
      refine ⟨m, hmlt, ?_⟩
      by_contra hboth
      obtain ⟨herased, hout⟩ := not_or.mp hboth
      exact hnot ⟨Bool.not_eq_false _ ▸ herased, hout⟩
    · rintro h ⟨n, hlt, hout | herror⟩ hdone
      · exact (hdone n hlt).2 hout
      · obtain ⟨m, hmlt, hm⟩ := h ⟨n, hlt, herror⟩
        obtain ⟨herased, hready⟩ := hdone m hmlt
        exact hm.elim (fun hfalse => Bool.noConfusion (herased.symm.trans hfalse)) hready

def twoChips : FlashInfo where
  portwidth := 4
  chipwidth := 2
  bufferSize := 32
  port := by decide
  chip := word_width
  chip_le := word_le_long
  buffer := ⟨5, by decide, rfl⟩
  buffer_le := by decide

def eraseError : Run where
  intime := [fun k => if k = 0 then 0x80 else if k = 2 then 0xa0 else 0]
  late := fun _ => 0
  behind := fun _ _ => 0

theorem erase_error_taken_for_success :
    eraseError.Errs twoChips ∧ flashErase twoChips flashManCfi (fun _ => false) (fun _ => eraseError) 0 0 = 0 := by
  have hready : eraseError.ready twoChips = some fun k => if k = 0 then 0x80 else if k = 2 then 0xa0 else 0 := by
    exact List.find?_cons_of_pos (by decide)
  exact ⟨⟨_, hready, 1, by decide, by decide⟩, by decide⟩

end UBoot.CfiStatus
