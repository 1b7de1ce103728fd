import Mathlib.Algebra.Group.Nat.Defs
import Mathlib.Data.List.TakeWhile
import UBoot.Words

namespace UBoot.Atags

open FlashCells List Words

/-- Which tags are configured; `lcd` is `CONFIG_VFD` or `CONFIG_LCD`. -/
structure Options where
  setupMemoryTags : Bool
  cmdlineTag : Bool
  initrdTag : Bool
  serialTag : Bool
  revisionTag : Bool
  lcd : Bool

/-- A string. Memory holds a copy of it too, so it is shorter than half of the address space. -/
structure CString where
  chars : List UInt8
  noNul : 0 ∉ chars
  fits : chars.length < 2 ^ 31

structure Bank where
  start : UInt32
  size : UInt32

/-- What the tags are made of. -/
structure Board where
  biBootParams : Nat
  biDram : List Bank
  bootargs : Option CString
  rdStart : UInt32
  rdEnd : UInt32
  serialLow : UInt32
  serialHigh : UInt32
  rev : UInt32
  fbBase : UInt32
  fbSize : UInt32

def atagNone : Nat := 0x00000000
def atagCore : Nat := 0x54410001
def atagMem : Nat := 0x54410002
def atagInitrd2 : Nat := 0x54420005
def atagSerial : Nat := 0x54410006
def atagRevision : Nat := 0x54410007
def atagVideolfb : Nat := 0x54410008
def atagCmdline : Nat := 0x54410009

variable (big : Bool)

def word (m : Flash) (a : Nat) : Nat := if big then be32 m a else le32 m a

def putWord (m : Flash) (a v : Nat) : Flash := store m a (if big then be32Bytes v else (be32Bytes v).reverse)

/-- `tag_next`; a tag starts with its size in words and its number. -/
def tagNext (m : Flash) (t : Nat) : Nat := t + 4 * word big m t

/-- `tag_size`, by the size of the structure behind the header -/
def tagSize (payload : Nat) : Nat := (8 + payload) / 4

/-- Memory, and `params`. -/
structure Tags where
  m : Flash
  params : Nat

/-- A tag: its header, the members of its structure by their offsets, and `tag_next`. -/
def writeTag (s : Tags) (tag size : Nat) (members : List (Nat × Nat)) : Tags :=
  let m := putWord big s.m (s.params + 4) tag
  let m := putWord big m s.params size
  let m := members.foldl (fun m f => putWord big m (s.params + f.1) f.2) m
  ⟨m, tagNext big m s.params⟩

def setupStartTag (b : Board) (m : Flash) : Tags :=
  writeTag big ⟨m, b.biBootParams⟩ atagCore (tagSize 12) [(8, 0), (12, 0), (16, 0)]

def setupSerialTag (b : Board) (s : Tags) : Tags :=
  writeTag big s atagSerial (tagSize 8) [(8, b.serialLow.toNat), (12, b.serialHigh.toNat)]

def setupRevisionTag (b : Board) (s : Tags) : Tags :=
  writeTag big s atagRevision (tagSize 4) [(8, b.rev.toNat)]

def setupMemoryTags (b : Board) (s : Tags) : Tags :=
  b.biDram.foldl (fun s bank =>
    writeTag big s atagMem (tagSize 8) [(12, bank.start.toNat), (8, bank.size.toNat)]) s

def setupCommandlineTag (commandline : Option CString) (s : Tags) : Tags :=
  match commandline with
  | none => s
  | some c =>
    let p := c.chars.dropWhile (· = 0x20)
    if p = [] then s
    else
      let m := putWord big s.m (s.params + 4) atagCmdline
      let m := putWord big m s.params ((8 + p.length + 1 + 4) / 4)
      let m := store m (s.params + 8) (p ++ [0])
      ⟨m, tagNext big m s.params⟩

def setupInitrdTag (initrdStart initrdEnd : UInt32) (s : Tags) : Tags :=
  writeTag big s atagInitrd2 (tagSize 8) [(8, initrdStart.toNat), (12, (initrdEnd - initrdStart).toNat)]

def setupVideolfbTag (b : Board) (s : Tags) : Tags :=
  writeTag big s atagVideolfb (tagSize 24) [(16, b.fbBase.toNat), (20, b.fbSize.toNat)]

def setupEndTag (s : Tags) : Flash := putWord big (putWord big s.m (s.params + 4) atagNone) s.params 0

/-- The condition under which the tags are compiled in. -/
def Options.any (o : Options) : Bool :=
  o.setupMemoryTags || o.cmdlineTag || o.initrdTag || o.serialTag || o.revisionTag || o.lcd

/-- `do_bootm_linux` up to the start of the kernel: memory as the kernel gets it, unless `flag` asks for another step. -/
def doBootmLinux (flag : Nat) (o : Options) (b : Board) (m : Flash) : Option Flash :=
  if flag ≠ 0 ∧ flag ≠ 0x80 then none
  else if o.any then
    let s := setupStartTag big b m
    let s := if o.serialTag then setupSerialTag big b s else s
    let s := if o.revisionTag then setupRevisionTag big b s else s
    let s := if o.setupMemoryTags then setupMemoryTags big b s else s
    let s := if o.cmdlineTag then setupCommandlineTag big b.bootargs s else s
    let s := if o.initrdTag && b.rdStart != 0 && b.rdEnd != 0 then setupInitrdTag big b.rdStart b.rdEnd s else s
    let s := if o.lcd then setupVideolfbTag big b s else s
    some (setupEndTag big s)
  else some m

/-- What a tag says. -/
inductive Entry where
  | core
  | serial (low high : UInt32)
  | revision (rev : UInt32)
  | mem (bank : Bank)
  | cmdline (text : List UInt8)
  | initrd2 (start size : UInt32)
  | videolfb (base size : UInt32)

def Entry.tag : Entry → Nat
  | .core => atagCore
  | .serial _ _ => atagSerial
  | .revision _ => atagRevision
  | .mem _ => atagMem
  | .cmdline _ => atagCmdline
  | .initrd2 _ _ => atagInitrd2
  | .videolfb _ _ => atagVideolfb

/-- The members of the structure behind the header by their offsets. -/
def Entry.members : Entry → List (Nat × Nat)
  | .core => [(8, 0), (12, 0), (16, 0)]
  | .serial low high => [(8, low.toNat), (12, high.toNat)]
  | .revision rev => [(8, rev.toNat)]
  | .mem bank => [(8, bank.size.toNat), (12, bank.start.toNat)]
  | .cmdline _ => []
  | .initrd2 start size => [(8, start.toNat), (12, size.toNat)]
  | .videolfb base size => [(16, base.toNat), (20, size.toNat)]

def Entry.text : Entry → List UInt8
  | .cmdline text => text ++ [0]
  | _ => []

/-- The tag at `a` says this, inside the size that it declares. -/
structure Entry.Holds (e : Entry) (m : Flash) (a : Nat) : Prop where
  tag : word big m (a + 4) = e.tag
  members : ∀ f ∈ e.members, word big m (a + f.1) = f.2
  text : read m (a + 8) e.text.length = e.text
  inside : ∀ f ∈ e.members, 8 ≤ f.1 ∧ f.1 + 4 ≤ 4 * word big m a
  room : 8 + e.text.length ≤ 4 * word big m a

/-- The list from `a` on, followed with `tag_next` up to `ATAG_NONE`. -/
def Parses (m : Flash) : Nat → List Entry → Prop
  | a, [] => word big m a = 0 ∧ word big m (a + 4) = atagNone
  | a, e :: es => e.Holds big m a ∧ Parses m (tagNext big m a) es

/-- `ATAG_MEM` -/
def Entry.bank : Entry → Option Bank
  | .mem bank => some bank
  | _ => none

/-- `ATAG_CMDLINE` -/
def Entry.commandline : Entry → Option (List UInt8)
  | .cmdline text => some text
  | _ => none

/-- `ATAG_INITRD2` -/
def Entry.ramdisk : Entry → Option (UInt32 × UInt32)
  | .initrd2 start size => some (start, size)
  | _ => none

def Board.commandline (b : Board) : List (List UInt8) :=
  match b.bootargs with
  | none => []
  | some c => if ∃ x ∈ c.chars, x ≠ 0x20 then [c.chars.dropWhile (· = 0x20)] else []

def Board.ramdisk (b : Board) : List (UInt32 × UInt32) :=
  if b.rdStart ≠ 0 ∧ b.rdEnd ≠ 0 then [(b.rdStart, b.rdEnd - b.rdStart)] else []

/-- The list has one `ATAG_CORE`, in front, and the banks, the command line and the ramdisk that it should. -/
def Listed (m : Flash) (a : Nat) (banks : List Bank) (commandline : List (List UInt8))
    (ramdisk : List (UInt32 × UInt32)) : Prop :=
  ∃ es, Parses big m a (.core :: es) ∧ Entry.core ∉ es ∧ es.filterMap Entry.bank = banks ∧
    es.filterMap Entry.commandline = commandline ∧ es.filterMap Entry.ramdisk = ramdisk

section Memory

variable {big : Bool} {m m' : Flash} {a b v x : Nat}

theorem length_wordBytes (big : Bool) (v : Nat) : (if big then be32Bytes v else (be32Bytes v).reverse).length = 4 := by
  cases big <;> rfl

theorem putWord_outside (h : x < a ∨ a + 4 ≤ x) : putWord big m a v x = m x := by
  apply store_outside
  rw [length_wordBytes]
  exact h

theorem word_putWord (h : v < 4294967296) : word big (putWord big m a v) a = v := by
  have hread := read_store m a (if big then be32Bytes v else (be32Bytes v).reverse)
  rw [length_wordBytes] at hread
  unfold word putWord
  cases big with
  | false => exact (le32_of_read hread).trans (Nat.mod_eq_of_lt h)
  | true => exact (be32_of_read hread).trans (Nat.mod_eq_of_lt h)

theorem word_congr (h : ∀ x, a ≤ x → x < a + 4 → m' x = m x) : word big m' a = word big m a := by
  unfold word
  cases big with
  | false => exact le32_congr fun i hi => h (a + i) (by omega) (by omega)
  | true =>
    have hhigh : be16 m' a = be16 m a := be16_congr (h a (by omega) (by omega)) (h (a + 1) (by omega) (by omega))
    have hlow : be16 m' (a + 2) = be16 m (a + 2) :=
      be16_congr (h (a + 2) (by omega) (by omega)) (h (a + 3) (by omega) (by omega))
    change be32 m' a = be32 m a
    rw [be32, be32, hhigh, hlow]

theorem word_putWord_of_ne (h : b + 4 ≤ a ∨ a + 4 ≤ b) : word big (putWord big m a v) b = word big m b :=
  word_congr fun _ _ _ => putWord_outside (by omega)

def Apart (members : List (Nat × Nat)) : Prop := members.Pairwise fun f g => f.1 + 4 ≤ g.1 ∨ g.1 + 4 ≤ f.1

theorem members_outside (members : List (Nat × Nat)) (m : Flash) (a : Nat)
    (h : ∀ f ∈ members, x < a + f.1 ∨ a + f.1 + 4 ≤ x) :
    members.foldl (fun m f => putWord big m (a + f.1) f.2) m x = m x := by
  induction members generalizing m with
  | nil => rfl
  | cons f members ih =>
    rw [foldl_cons, ih _ fun g hg => h g (mem_cons_of_mem f hg)]
    exact putWord_outside (h f mem_cons_self)

theorem members_word (members : List (Nat × Nat)) (m : Flash) (a : Nat) (hapart : Apart members)
    {f : Nat × Nat} (hf : f ∈ members) (hv : f.2 < 4294967296) :
    word big (members.foldl (fun m f => putWord big m (a + f.1) f.2) m) (a + f.1) = f.2 := by
  induction members generalizing m with
  | nil => cases hf
  | cons g members ih =>
    obtain ⟨hfirst, hrest⟩ := pairwise_cons.mp hapart
    rw [foldl_cons]
    rcases mem_cons.mp hf with rfl | hf
    · rw [word_congr fun x hx hlt => members_outside members _ a fun g hg => ?_, word_putWord hv]
      have hsep := hfirst g hg
      omega
    · exact ih _ hrest hf

end Memory

section Lists

variable {big : Bool} {m m' : Flash} {a b c : Nat} {e : Entry} {es fs : List Entry} {s s' s'' : Tags}

/-- The entries from `a` up to the tag at `stop`. -/
def Span (big : Bool) (m : Flash) : Nat → List Entry → Nat → Prop
  | a, [], stop => a = stop
  | a, e :: es, stop => e.Holds big m a ∧ Span big m (tagNext big m a) es stop

theorem Entry.Holds.congr (h : e.Holds big m a) (hsame : ∀ x, a ≤ x → x < tagNext big m a → m' x = m x) :
    e.Holds big m' a ∧ tagNext big m' a = tagNext big m a := by
  have hroom := h.room
  unfold tagNext at hsame ⊢
  have hsize : word big m' a = word big m a := word_congr fun x hx hlt => hsame x hx (by omega)
  rw [hsize]
  refine ⟨⟨?_, fun f hf => ?_, ?_, fun f hf => ?_, ?_⟩, rfl⟩
  · rw [word_congr fun x hx hlt => hsame x (by omega) (by omega)]
    exact h.tag
  · have hinside := h.inside f hf
    rw [word_congr fun x hx hlt => hsame x (by omega) (by omega)]
    exact h.members f hf
  · rw [read_congr fun i hi => hsame (a + 8 + i) (by omega) (by omega)]
    exact h.text
  · rw [hsize]
    exact h.inside f hf
  · rw [hsize]
    exact hroom

theorem Span.le (h : Span big m a es b) : a ≤ b := by
  induction es generalizing a with
  | nil => exact le_of_eq h
  | cons e es ih => exact le_trans (Nat.le_add_right a _) (ih h.2)

theorem Span.congr (h : Span big m a es b) (hsame : ∀ x, a ≤ x → x < b → m' x = m x) : Span big m' a es b := by
  induction es generalizing a with
  | nil => exact h
  | cons e es ih =>
    have hnext := Span.le h.2
    obtain ⟨hholds, htag⟩ := h.1.congr fun x hx hlt => hsame x hx (by omega)
    refine ⟨hholds, ?_⟩
    rw [htag]
    have hafter : a ≤ tagNext big m a := Nat.le_add_right a _
    exact ih h.2 fun x hx hlt => hsame x (by omega) hlt

theorem Span.append (h : Span big m a es b) (h' : Span big m b fs c) : Span big m a (es ++ fs) c := by
  induction es generalizing a with
  | nil =>
    rw [show a = b from h]
    exact h'
  | cons e es ih => exact ⟨h.1, ih h.2⟩

theorem Span.parses (h : Span big m a es b) (hend : Parses big m b []) : Parses big m a es := by
  induction es generalizing a with
  | nil =>
    rw [show a = b from h]
    exact hend
  | cons e es ih => exact ⟨h.1, ih h.2⟩

/-- From `s` to `s'` these entries are written behind what is there. -/
structure Writes (big : Bool) (s : Tags) (es : List Entry) (s' : Tags) : Prop where
  before : ∀ x < s.params, s'.m x = s.m x
  span : Span big s'.m s.params es s'.params

theorem Writes.none (s : Tags) : Writes big s [] s := ⟨fun _ _ => rfl, rfl⟩

theorem Writes.trans (h : Writes big s es s') (h' : Writes big s' fs s'') : Writes big s (es ++ fs) s'' where
  before x hx := (h'.before x (lt_of_lt_of_le hx h.span.le)).trans (h.before x hx)
  span := Span.append (h.span.congr fun x _ hlt => h'.before x hlt) h'.span

theorem tag_lt (e : Entry) : e.tag < 4294967296 := by
  unfold Entry.tag
  cases e <;> dsimp only <;> decide

theorem writeTag_writes {size : Nat} {members : List (Nat × Nat)} (hmembers : ∀ f ∈ e.members, f ∈ members)
    (htext : e.text = []) (hapart : Apart members) (hsize : 2 ≤ size ∧ size < 4294967296)
    (hinside : ∀ f ∈ members, 8 ≤ f.1 ∧ f.1 + 4 ≤ 4 * size) (hfits : ∀ f ∈ members, f.2 < 4294967296) :
    Writes big s [e] (writeTag big s e.tag size members) := by
  have htag := tag_lt e
  have hhead : ∀ x, x < s.params + 8 → (writeTag big s e.tag size members).m x =
      putWord big (putWord big s.m (s.params + 4) e.tag) s.params size x := by
    intro x hx
    apply members_outside
    intro f hf
    have hf := hinside f hf
    omega
  have hword : word big (writeTag big s e.tag size members).m s.params = size := by
    rw [word_congr fun x hx hlt => hhead x (by omega)]
    exact word_putWord hsize.2
  refine ⟨fun x hx => ?_, ⟨?_, fun f hf => ?_, ?_, fun f hf => ?_, ?_⟩, rfl⟩
  · rw [hhead x (by omega), putWord_outside (by omega), putWord_outside (by omega)]
  · rw [word_congr fun x hx hlt => hhead x (by omega), word_putWord_of_ne (by omega)]
    exact word_putWord htag
  · exact members_word members _ s.params hapart (hmembers f hf) (hfits f (hmembers f hf))
  · rw [htext]
    rfl
  · rw [hword]
    exact hinside f (hmembers f hf)
  · rw [hword, htext, length_nil]
    omega

section Writers

variable {b : Board} {start size : UInt32}

theorem toNat_fits (v : UInt32) : v.toNat < 4294967296 := v.toNat_lt

theorem setupStartTag_writes (b : Board) (m : Flash) :
    Writes big ⟨m, b.biBootParams⟩ [.core] (setupStartTag big b m) := by
  refine writeTag_writes (e := .core) (fun f hf => hf) rfl ?_ ?_ ?_ ?_
  · simp [Apart]
  · decide
  · simp [tagSize]
  · simp

theorem setupSerialTag_writes (b : Board) (s : Tags) :
    Writes big s [.serial b.serialLow b.serialHigh] (setupSerialTag big b s) := by
  refine writeTag_writes (e := .serial b.serialLow b.serialHigh) (fun f hf => hf) rfl ?_ ?_ ?_ ?_
  · simp [Apart]
  · decide
  · simp [tagSize]
  · simp [toNat_fits]

theorem setupRevisionTag_writes (b : Board) (s : Tags) :
    Writes big s [.revision b.rev] (setupRevisionTag big b s) := by
  refine writeTag_writes (e := .revision b.rev) (fun f hf => hf) rfl ?_ ?_ ?_ ?_
  · simp [Apart]
  · decide
  · simp [tagSize]
  · simp [toNat_fits]

theorem setupMemoryTags_writes (b : Board) (s : Tags) :
    Writes big s (b.biDram.map Entry.mem) (setupMemoryTags big b s) := by
  unfold setupMemoryTags
  generalize b.biDram = banks
  induction banks generalizing s with
  | nil => exact Writes.none s
  | cons bank banks ih =>
    rw [map_cons, foldl_cons]
    have hone : Writes big s [.mem bank]
        (writeTag big s atagMem (tagSize 8) [(12, bank.start.toNat), (8, bank.size.toNat)]) := by
      refine writeTag_writes (e := .mem bank) (fun f hf => ?_) rfl ?_ ?_ ?_ ?_
      · simpa [Entry.members, or_comm] using hf
      · simp [Apart]
      · decide
      · simp [tagSize]
      · simp [toNat_fits]
    exact hone.trans (ih _)

theorem setupInitrdTag_writes (start stop : UInt32) (s : Tags) :
    Writes big s [.initrd2 start (stop - start)] (setupInitrdTag big start stop s) := by
  refine writeTag_writes (e := .initrd2 start (stop - start)) (fun f hf => hf) rfl ?_ ?_ ?_ ?_
  · simp [Apart]
  · decide
  · simp [tagSize]
  · simp only [mem_cons, not_mem_nil, or_false, forall_eq_or_imp, forall_eq]
    exact ⟨toNat_fits _, toNat_fits _⟩

theorem setupVideolfbTag_writes (b : Board) (s : Tags) :
    Writes big s [.videolfb b.fbBase b.fbSize] (setupVideolfbTag big b s) := by
  refine writeTag_writes (e := .videolfb b.fbBase b.fbSize) (fun f hf => hf) rfl ?_ ?_ ?_ ?_
  · simp [Apart]
  · decide
  · simp [tagSize]
  · simp [toNat_fits]

theorem setupCommandlineTag_writes (b : Board) (s : Tags) :
    Writes big s (b.commandline.map Entry.cmdline) (setupCommandlineTag big b.bootargs s) := by
  unfold Board.commandline setupCommandlineTag
  cases b.bootargs with
  | none => exact Writes.none s
  | some c =>
    dsimp only
    have hblank : c.chars.dropWhile (· = 0x20) = [] ↔ ¬∃ x ∈ c.chars, x ≠ 0x20 := by
      rw [dropWhile_eq_nil_iff]
      simp
    by_cases hempty : c.chars.dropWhile (· = 0x20) = []
    · rw [if_pos hempty, if_neg (hblank.mp hempty)]
      exact Writes.none s
    rw [if_neg hempty, if_pos (not_not.mp fun h => hempty (hblank.mpr h))]
    have hfits : (c.chars.dropWhile (· = 0x20)).length < 2147483648 :=
      lt_of_le_of_lt (length_dropWhile_le _ _) c.fits
    generalize c.chars.dropWhile (· = 0x20) = p at hfits ⊢
    have hhead : ∀ x, x < s.params + 8 → store (putWord big (putWord big s.m (s.params + 4) atagCmdline) s.params
        ((8 + p.length + 1 + 4) / 4)) (s.params + 8) (p ++ [0]) x =
          putWord big (putWord big s.m (s.params + 4) atagCmdline) s.params ((8 + p.length + 1 + 4) / 4) x :=
      fun x hx => store_outside (.inl hx)
    have hword : word big (store (putWord big (putWord big s.m (s.params + 4) atagCmdline) s.params
        ((8 + p.length + 1 + 4) / 4)) (s.params + 8) (p ++ [0])) s.params = (8 + p.length + 1 + 4) / 4 := by
      rw [word_congr fun x hx hlt => hhead x (by omega)]
      exact word_putWord (by omega)
    refine ⟨fun x hx => ?_, ⟨?_, fun f hf => (nomatch hf), ?_, fun f hf => (nomatch hf), ?_⟩, rfl⟩
    · dsimp only
      rw [hhead x (by omega), putWord_outside (by omega), putWord_outside (by omega)]
    · dsimp only
      rw [word_congr fun x hx hlt => hhead x (by omega), word_putWord_of_ne (by omega)]
      exact word_putWord (tag_lt (.cmdline p))
    · exact read_store _ _ _
    · dsimp only
      rw [hword]
      simp only [Entry.text, length_append, length_singleton]
      omega

theorem setupEndTag_parses (s : Tags) : Parses big (setupEndTag big s) s.params [] := by
  unfold setupEndTag
  refine ⟨word_putWord (by decide), ?_⟩
  rw [word_putWord_of_ne (by omega)]
  exact word_putWord (by decide)

theorem Writes.end_parses (h : Writes big ⟨m, a⟩ es s) : Parses big (setupEndTag big s) a es := by
  refine Span.parses (h.span.congr fun x hx hlt => ?_) (setupEndTag_parses s)
  unfold setupEndTag
  rw [putWord_outside (by omega), putWord_outside (by omega)]

theorem Writes.optional {c : Bool} (h : Writes big s es s') :
    Writes big s (if c then es else []) (if c then s' else s) := by
  cases c with
  | false => exact Writes.none s
  | true => exact h

end Writers

end Lists

/-- The tags behind `ATAG_CORE`, in the order of the calls. -/
def entries (o : Options) (b : Board) : List Entry :=
  (if o.serialTag then [.serial b.serialLow b.serialHigh] else []) ++
  (if o.revisionTag then [.revision b.rev] else []) ++
  (if o.setupMemoryTags then b.biDram.map Entry.mem else []) ++
  (if o.cmdlineTag then b.commandline.map Entry.cmdline else []) ++
  (if o.initrdTag && b.rdStart != 0 && b.rdEnd != 0 then [.initrd2 b.rdStart (b.rdEnd - b.rdStart)] else []) ++
  (if o.lcd then [.videolfb b.fbBase b.fbSize] else [])

theorem doBootmLinux_parses {o : Options} {flag : Nat} (hflag : flag = 0 ∨ flag = 0x80) (hany : o.any = true)
    (b : Board) (m : Flash) :
    ∃ m', doBootmLinux big flag o b m = some m' ∧ Parses big m' b.biBootParams (.core :: entries o b) := by
  unfold doBootmLinux
  rw [if_neg (by omega), if_pos hany]
  refine ⟨_, rfl, Writes.end_parses (m := m) ?_⟩
  have hstart : Writes big ⟨m, b.biBootParams⟩ [.core] (setupStartTag big b m) := setupStartTag_writes b m
  have hserial := hstart.trans (Writes.optional (c := o.serialTag) (setupSerialTag_writes b _))
  have hrevision := hserial.trans (Writes.optional (c := o.revisionTag) (setupRevisionTag_writes b _))
  have hmemory := hrevision.trans (Writes.optional (c := o.setupMemoryTags) (setupMemoryTags_writes b _))
  have hcmdline := hmemory.trans (Writes.optional (c := o.cmdlineTag) (setupCommandlineTag_writes b _))
  have hinitrd := hcmdline.trans (Writes.optional (c := o.initrdTag && b.rdStart != 0 && b.rdEnd != 0)
    (setupInitrdTag_writes b.rdStart b.rdEnd _))
  have hall := hinitrd.trans (Writes.optional (c := o.lcd) (setupVideolfbTag_writes b _))
  simpa only [entries, append_assoc, cons_append, nil_append] using hall

theorem filterMap_optional {α : Type} (f : Entry → Option α) (c : Prop) [Decidable c] (es : List Entry) :
    (if c then es else []).filterMap f = if c then es.filterMap f else [] := by
  split <;> rfl

theorem filterMap_other {α β : Type} (f : Entry → Option α) (g : β → Entry) (h : ∀ x, f (g x) = none) (xs : List β) :
    (xs.map g).filterMap f = [] := by
  simp [filterMap_map, h]

theorem entries_bank (o : Options) (b : Board) :
    (entries o b).filterMap Entry.bank = if o.setupMemoryTags then b.biDram else [] := by
  have hbanks : (b.biDram.map Entry.mem).filterMap Entry.bank = b.biDram := by
    rw [filterMap_map]
    exact filterMap_some
  simp [entries, filterMap_append, filterMap_optional, hbanks, filterMap_cons, Entry.bank,
    filterMap_other Entry.bank Entry.cmdline fun _ => rfl]

theorem entries_commandline (o : Options) (b : Board) :
    (entries o b).filterMap Entry.commandline = if o.cmdlineTag then b.commandline else [] := by
  have hlines : (b.commandline.map Entry.cmdline).filterMap Entry.commandline = b.commandline := by
    rw [filterMap_map]
    exact filterMap_some
  simp [entries, filterMap_append, filterMap_optional, hlines, filterMap_cons, Entry.commandline,
    filterMap_other Entry.commandline Entry.mem fun _ => rfl]

theorem entries_ramdisk (o : Options) (b : Board) :
    (entries o b).filterMap Entry.ramdisk = if o.initrdTag then b.ramdisk else [] := by
  unfold Board.ramdisk
  cases hinitrd : o.initrdTag <;> simp [entries, filterMap_append, filterMap_optional, hinitrd,
    filterMap_cons, Entry.ramdisk, filterMap_other Entry.ramdisk Entry.mem fun _ => rfl,
    filterMap_other Entry.ramdisk Entry.cmdline fun _ => rfl]

theorem core_not_mem_entries (o : Options) (b : Board) : Entry.core ∉ entries o b := by
  simp [entries]

/-- The list handed to the kernel, whatever tags are configured: one `ATAG_CORE` in front, the banks, the
command line and the ramdisk where they are configured, each tag inside its size, and `ATAG_NONE`. -/
theorem atag_list_well_formed (big : Bool) (o : Options) (b : Board) (m : Flash) (flag : Nat)
    (hflag : flag = 0 ∨ flag = 0x80) (hany : o.any = true) :
    ∃ m', doBootmLinux big flag o b m = some m' ∧
      Listed big m' b.biBootParams (if o.setupMemoryTags then b.biDram else [])
        (if o.cmdlineTag then b.commandline else []) (if o.initrdTag then b.ramdisk else []) := by
  obtain ⟨m', hout, hparses⟩ := @doBootmLinux_parses big o flag hflag hany b m
  exact ⟨m', hout, entries o b, hparses, core_not_mem_entries o b, entries_bank o b, entries_commandline o b,
    entries_ramdisk o b⟩

/-- A board with one bank and ` a` as its bootargs. -/
def board : Board where
  biBootParams := 0x100
  biDram := [⟨0x30000000, 0x4000000⟩]
  bootargs := some ⟨[0x20, 0x61], by decide, by decide⟩
  rdStart := 0
  rdEnd := 0
  serialLow := 0
  serialHigh := 0
  rev := 0
  fbBase := 0
  fbSize := 0

theorem atag_list_board : (⟨true, true, true, false, false, false⟩ : Options).any = true ∧
    ∃ m', doBootmLinux false 0 ⟨true, true, true, false, false, false⟩ board (fun _ => 0xff) = some m' ∧
      Listed false m' 0x100 [⟨0x30000000, 0x4000000⟩] board.commandline board.ramdisk :=
  ⟨rfl, atag_list_well_formed false ⟨true, true, true, false, false, false⟩ board (fun _ => 0xff) 0 (.inl rfl) rfl⟩

/-- With the tag for a ramdisk alone the list has no bank, and with none nothing is written. -/
theorem bank_not_listed :
    (∃ m', doBootmLinux false 0 ⟨false, false, true, false, false, false⟩ board (fun _ => 0) = some m' ∧
      ¬Listed false m' board.biBootParams board.biDram board.commandline board.ramdisk) ∧
    doBootmLinux false 0 ⟨false, false, false, false, false, false⟩ board (fun _ => 0) = some (fun _ => 0) ∧
      ¬Listed false (fun _ => 0) board.biBootParams board.biDram board.commandline board.ramdisk := by
  refine ⟨⟨_, rfl, ?_⟩, rfl, ?_⟩
  · rintro ⟨es, ⟨-, hrest⟩, -, hbank, -⟩
    cases es with
    | nil => cases hbank
    | cons e es =>
      have hroom := hrest.1.room
      rw [show word false _ (tagNext false _ board.biBootParams) = 0 by decide] at hroom
      omega
  · rintro ⟨es, ⟨hcore, -⟩, -⟩
    have htag := hcore.tag
    revert htag
    decide

end UBoot.Atags
