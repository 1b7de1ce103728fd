import Mathlib.Data.List.Basic

namespace UBoot.Bootm

/-- `IH_OS_LINUX`, `IH_TYPE_STANDALONE` -/
def ihOsLinux : UInt8 := 5
def ihTypeStandalone : UInt8 := 1

/-- The functions that `boot_os` can hold. -/
inductive BootOsFn where
  | linux | netbsd | lynxkdi | rtems | vxworks | qnxelf | integrity
deriving DecidableEq

/-- What is configured. -/
structure Config where
  lynxkdi : Bool
  cmdElf : Bool
  integrity : Bool
  bzip2 : Bool
  lzma : Bool

/-- `boot_os`, up to the last of its entries. -/
def bootOs (c : Config) : List (Option BootOsFn) :=
  let opt (on : Bool) (f : BootOsFn) : Option BootOsFn := if on then some f else none
  [none, none, some .netbsd, none, none, some .linux, none, none, none, none, none, none, none,
    opt c.lynxkdi .lynxkdi, opt c.cmdElf .vxworks, none, opt c.cmdElf .qnxelf, none, some .rtems] ++
    if c.integrity then [none, none, some .integrity] else []

/-- `image_info_t` -/
structure ImageInfo where
  start : UInt32
  end_ : UInt32
  imageStart : UInt32
  imageLen : UInt32
  load : UInt32
  comp : UInt8
  type : UInt8
  os : UInt8

/-- The fields of `bootm_headers_t` that steer the command. -/
structure Images where
  os : ImageInfo
  legacyHdrValid : Bool
  ep : UInt32
  state : Nat

/-- `images` as it is after power up or `memset`. -/
def Images.zero : Images := ⟨⟨0, 0, 0, 0, 0, 0, 0, 0⟩, false, 0, 0⟩

/-- What `genimg_get_format` and the accessors of the format say. A property that cannot be read is none. -/
inductive Format where
  | legacy (type comp os : UInt8) (end_ load : UInt32)
  | fit (type comp os : Option UInt8) (end_ : UInt32) (load : Option UInt32)
  | unknown

/-- What `bootm_start` finds. -/
structure StartInput where
  osHdr : UInt32
  imageStart : UInt32
  imageLen : UInt32
  legacyHdrValid : Bool
  format : Format
  legacyEp : UInt32
  fitUnameOs : Bool
  fitEntry : Option UInt32
  getRamdisk : Int
  getFdt : Int

/-- Filling in `images.os` from the header; the flag tells that this went well. -/
def Format.fill : Format → ImageInfo → Bool × ImageInfo
  | .legacy type comp os end_ load, info =>
    (true, { info with type := type, comp := comp, os := os, end_ := end_, load := load })
  | .fit none _ _ _ _, info => (false, info)
  | .fit (some type) none _ _ _, info => (false, { info with type := type })
  | .fit (some type) (some comp) none _ _, info => (false, { info with type := type, comp := comp })
  | .fit (some type) (some comp) (some os) end_ none, info =>
    (false, { info with type := type, comp := comp, os := os, end_ := end_ })
  | .fit (some type) (some comp) (some os) end_ (some load), info =>
    (true, { info with type := type, comp := comp, os := os, end_ := end_, load := load })
  | .unknown, info => (false, info)

/-- `bootm_start`: what it returns and the images it leaves. -/
def bootmStart (i : StartInput) : Int × Images :=
  let images : Images := { Images.zero with
    os := { Images.zero.os with imageStart := i.imageStart, imageLen := i.imageLen }
    legacyHdrValid := i.legacyHdrValid }
  if i.imageLen = 0 then (1, images)
  else
    let filled := i.format.fill images.os
    let images := { images with os := filled.2 }
    if filled.1 = false then (1, images)
    else
      let ep : Option UInt32 := if i.legacyHdrValid then some i.legacyEp else if i.fitUnameOs then i.fitEntry else none
      match ep with
      | none => (1, images)
      | some ep =>
        let images := { images with ep := ep }
        if images.os.os = ihOsLinux ∧ (i.getRamdisk ≠ 0 ∨ i.getFdt ≠ 0) then (1, images)
        else (0, { images with os := { images.os with start := i.osHdr }, state := 1 })

/-- `bootm_load_os`: `unc` is the length that the decompressor gives, or none where it fails. -/
def bootmLoadOs (c : Config) (os : ImageInfo) (unc : Option UInt32) : Int :=
  let overlap (len : UInt32) : Int :=
    if os.load < os.end_ ∧ os.start < os.load + len then -2 else 0
  if os.comp = 0 then overlap os.imageLen
  else if os.comp = 1 ∨ os.comp = 2 ∧ c.bzip2 ∨ os.comp = 3 ∧ c.lzma then
    match unc with
    | none => -1
    | some len => overlap len
  else -3

/-- The subcommands but `start`, in the order of their states. -/
inductive Sub where
  | loados | ramdisk | fdt | cmdline | bdt | prep | go
deriving DecidableEq

/-- `BOOTM_STATE_LOADOS` to `BOOTM_STATE_OS_GO` -/
def Sub.state : Sub → Nat
  | .loados => 0x2
  | .ramdisk => 0x4
  | .fdt => 0x8
  | .cmdline => 0x10
  | .bdt => 0x20
  | .prep => 0x40
  | .go => 0x80

def Sub.callsBootFn : Sub → Bool
  | .cmdline | .bdt | .prep | .go => true
  | _ => false

/-- What a command meets outside of the state: the image, the decompressor, what the called functions return,
and whether the word read behind `boot_os` is not zero. -/
structure Input where
  start : StartInput
  unc : Option UInt32
  ret : Int
  garbage : Bool

/-- A command line: `bootm` with an image, or with the name of a subcommand as `find_cmd_tbl` finds it. -/
inductive Cmd where
  | bootm (i : Input)
  | start (i : Input)
  | sub (s : Sub) (i : Input)
  | unrecognized

/-- What can be seen of a run: what `bootm_start` returned, a subcommand that was carried out and what it
returned, a call through an entry of `boot_os`, a reset. -/
inductive Act where
  | started (ret : Int)
  | carriedOut (s : Sub) (ret : Int)
  | called (index : Nat)
  | reset

/-- `do_bootm_subcommand` for a subcommand but `start`. -/
def doSub (c : Config) (images : Images) (s : Sub) (i : Input) : Images × List Act :=
  if s.state ≤ images.state then (images, [])
  else
    let images := { images with state := images.state ||| s.state }
    let ret := match s with
      | .loados => bootmLoadOs c images.os i.unc
      | .go => 0
      | _ => i.ret
    (images, .carriedOut s ret :: if s.callsBootFn then [.called images.os.os.toNat] else [])

/-- The end of `do_bootm`: the function of the operating system, and a reset when it returns. -/
def doBootOs (c : Config) (images : Images) (i : Input) : Images × List Act :=
  match (bootOs c)[images.os.os.toNat]? with
  | some none => (images, [])
  | some (some _) => (Images.zero, [.called images.os.os.toNat, .reset])
  | none => if i.garbage then (Images.zero, [.called images.os.os.toNat, .reset]) else (images, [])

/-- `do_bootm` with an image. What `bootm_load_os` returns is no act here, only that of `loados` is. -/
def doBootm (c : Config) (i : Input) : Images × List Act :=
  let started := bootmStart i.start
  if started.1 ≠ 0 then (started.2, [.started started.1])
  else
    let images := started.2
    let ret := bootmLoadOs c images.os i.unc
    if ret = -1 ∨ ret = -2 ∧ images.legacyHdrValid = false then (Images.zero, [.started 0, .reset])
    else if ret = -3 then (images, [.started 0])
    else if images.os.type = ihTypeStandalone then (images, [.started 0])
    else ((doBootOs c images i).1, .started 0 :: (doBootOs c images i).2)

def step (c : Config) (images : Images) : Cmd → Images × List Act
  | .bootm i => doBootm c i
  | .start i => ((bootmStart i.start).2, [.started (bootmStart i.start).1])
  | .sub s i => doSub c images s i
  | .unrecognized => (images, [])

def acts (c : Config) (images : Images) : List Cmd → List Act
  | [] => []
  | cmd :: rest => (step c images cmd).2 ++ acts c (step c images cmd).1 rest

variable {c : Config} {images : Images} {cmd : Cmd} {cmds : List Cmd} {s t : Sub} {i : Input}

/-- What has happened since the last `bootm_start` or reset. -/
structure Since where
  started : Bool
  done : List Sub
  loadFailed : Bool

def Since.nothing : Since := ⟨false, [], false⟩

def Since.next (m : Since) : Act → Since
  | .started ret => ⟨decide (ret = 0), [], false⟩
  | .carriedOut s ret => ⟨m.started, s :: m.done, m.loadFailed || s == .loados && decide (ret ≠ 0)⟩
  | .called _ => m
  | .reset => .nothing

/-- The states of the subcommands carried out since are smaller. -/
def Since.Before (m : Since) (s : Sub) : Prop := ∀ t ∈ m.done, t.state < s.state

/-- A subcommand comes after a start that returned 0, after smaller states only and after no `loados` that
failed; a call goes through an entry of the table that is not NULL. -/
def Allowed (c : Config) (m : Since) : Act → Prop
  | .carriedOut s _ => m.started = true ∧ m.Before s ∧ m.loadFailed = false
  | .called index => ∃ f, (bootOs c)[index]? = some (some f)
  | _ => True

def Always (P : Since → Act → Prop) : Since → List Act → Prop
  | _, [] => True
  | m, a :: rest => P m a ∧ Always P (m.next a) rest

/-- The end of `do_bootm` is reached and there reads an entry that is not NULL. -/
def ReachesBootOs (c : Config) (i : Input) : Prop :=
  (bootmStart i.start).1 = 0 ∧
    (bootmLoadOs c (bootmStart i.start).2.os i.unc = 0 ∨ bootmLoadOs c (bootmStart i.start).2.os i.unc = -2 ∧
      (bootmStart i.start).2.legacyHdrValid = true) ∧
    (bootmStart i.start).2.os.type ≠ ihTypeStandalone ∧
    ((bootOs c)[(bootmStart i.start).2.os.os.toNat]? = none → i.garbage = true)

/-- The step takes none of the ways that go wrong: a subcommand that is carried out finds the bit of `start` in
the state, `loados` finds an image that it can load, and what calls through `boot_os` finds a function for the
image's operating system. -/
def Fine (c : Config) (images : Images) : Cmd → Prop
  | .bootm i => ReachesBootOs c i → (bootmStart i.start).2.os.os.toNat < (bootOs c).length
  | .sub s i => images.state < s.state → images.state.testBit 0 = true ∧
      (s = .loados → bootmLoadOs c images.os i.unc = 0) ∧
      (s.callsBootFn = true → ∃ f, (bootOs c)[images.os.os.toNat]? = some (some f))
  | _ => True

/-- Every step of the sequence is fine. -/
def AllFine (c : Config) (images : Images) : List Cmd → Prop
  | [] => True
  | cmd :: rest => Fine c images cmd ∧ AllFine c (step c images cmd).1 rest

/-- The state tells whether the start returned 0, and bounds what was carried out since. -/
structure Tracks (images : Images) (m : Since) : Prop where
  start : images.state.testBit 0 = m.started
  done : ∀ t ∈ m.done, t.state ≤ images.state

theorem always_append {P : Since → Act → Prop} {m : Since} {a b : List Act} :
    Always P m (a ++ b) ↔ Always P m a ∧ Always P (a.foldl Since.next m) b := by
  induction a generalizing m with
  | nil => exact ⟨fun h => ⟨trivial, h⟩, fun h => h.2⟩
  | cons x rest ih => rw [List.cons_append, Always, Always, ih, List.foldl_cons, and_assoc]

theorem bootmStart_state (i : StartInput) :
    (bootmStart i).1 = 0 ∧ (bootmStart i).2.state = 1 ∨ (bootmStart i).1 = 1 ∧ (bootmStart i).2.state = 0 := by
  unfold bootmStart
  dsimp only
  split
  · exact .inr ⟨rfl, rfl⟩
  · split
    · exact .inr ⟨rfl, rfl⟩
    · split
      · exact .inr ⟨rfl, rfl⟩
      · split
        · exact .inr ⟨rfl, rfl⟩
        · exact .inl ⟨rfl, rfl⟩

theorem tracks_zero : Tracks Images.zero Since.nothing := ⟨rfl, fun _ h => (by cases h)⟩

theorem tracks_started (i : StartInput) (m : Since) :
    Tracks (bootmStart i).2 (m.next (.started (bootmStart i).1)) := by
  rcases bootmStart_state i with ⟨hret, hstate⟩ | ⟨hret, hstate⟩
  · refine ⟨?_, fun _ h => (by cases h)⟩
    rw [hstate, hret]
    rfl
  · refine ⟨?_, fun _ h => (by cases h)⟩
    rw [hstate, hret]
    rfl

theorem Sub.state_even (s : Sub) : s.state.testBit 0 = false := by cases s <;> rfl

theorem Tracks.carriedOut {m : Since} (h : Tracks images m) (ret : Int) :
    Tracks { images with state := images.state ||| s.state } (m.next (.carriedOut s ret)) := by
  refine ⟨?_, fun t ht => ?_⟩
  · change (images.state ||| s.state).testBit 0 = m.started
    rw [Nat.testBit_or, s.state_even, Bool.or_false, h.start]
  · rcases List.mem_cons.mp ht with rfl | ht
    · exact Nat.right_le_or
    · exact Nat.le_trans (h.done t ht) Nat.left_le_or

theorem Tracks.before {m : Since} (h : Tracks images m) (hlt : images.state < s.state) : m.Before s :=
  fun t ht => Nat.lt_of_le_of_lt (h.done t ht) hlt

theorem doSub_tracks {m : Since} (h : Tracks images m) (s : Sub) (i : Input) :
    Tracks (doSub c images s i).1 ((doSub c images s i).2.foldl Since.next m) := by
  unfold doSub
  split
  · exact h
  · have hafter := fun ret => h.carriedOut (s := s) ret
    cases s <;> exact hafter _

theorem doBootm_tracks (i : Input) (m : Since) :
    Tracks (doBootm c i).1 ((doBootm c i).2.foldl Since.next m) := by
  have hstart := tracks_started i.start m
  unfold doBootm
  dsimp only
  split
  · exact hstart
  next hzero =>
    rw [not_not.mp hzero] at hstart
    split
    · exact tracks_zero
    · split
      · exact hstart
      · split
        · exact hstart
        · unfold doBootOs
          split
          · exact hstart
          · exact tracks_zero
          · split
            · exact tracks_zero
            · exact hstart

theorem step_tracks {m : Since} (h : Tracks images m) (cmd : Cmd) :
    Tracks (step c images cmd).1 ((step c images cmd).2.foldl Since.next m) := by
  cases cmd with
  | bootm i => exact doBootm_tracks i m
  | start i => exact tracks_started i.start m
  | sub s i => exact doSub_tracks h s i
  | unrecognized => exact h

theorem bootmLoadOs_cases (c : Config) (os : ImageInfo) (unc : Option UInt32) :
    bootmLoadOs c os unc = 0 ∨ bootmLoadOs c os unc = -1 ∨ bootmLoadOs c os unc = -2 ∨
      bootmLoadOs c os unc = -3 := by
  have hoverlap : ∀ len : UInt32, (if os.load < os.end_ ∧ os.start < os.load + len then (-2 : Int) else 0) = 0 ∨
      (if os.load < os.end_ ∧ os.start < os.load + len then (-2 : Int) else 0) = -2 := by
    intro len
    split
    · exact .inr rfl
    · exact .inl rfl
  unfold bootmLoadOs
  split
  · rcases hoverlap os.imageLen with h | h
    · exact .inl h
    · exact .inr (.inr (.inl h))
  · split
    · cases unc with
      | none => exact .inr (.inl rfl)
      | some len =>
        rcases hoverlap len with h | h
        · exact .inl h
        · exact .inr (.inr (.inl h))
    · exact .inr (.inr (.inr rfl))

theorem doSub_good {m : Since} (h : Tracks images m) (hload : m.loadFailed = false)
    (hf : Fine c images (.sub s i)) : Always (Allowed c) m (doSub c images s i).2 ∧
      ((doSub c images s i).2.foldl Since.next m).loadFailed = false := by
  unfold doSub
  split
  · exact ⟨trivial, hload⟩
  next hlt =>
    have hlt := Nat.lt_of_not_le hlt
    obtain ⟨hstart, hfits, hfn⟩ := hf hlt
    rw [h.start] at hstart
    have hallowed : m.started = true ∧ m.Before s ∧ m.loadFailed = false := ⟨hstart, h.before hlt, hload⟩
    have hafter : ∀ t ret, t ≠ Sub.loados → (m.next (.carriedOut t ret)).loadFailed = false := by
      intro t ret ht
      change (m.loadFailed || t == .loados && _) = false
      rw [hload, beq_false_of_ne ht]
      rfl
    cases s with
    | loados =>
      refine ⟨⟨hallowed, trivial⟩, ?_⟩
      change (m.loadFailed || decide (bootmLoadOs c images.os i.unc ≠ 0)) = false
      rw [hload, hfits rfl]
      rfl
    | ramdisk => exact ⟨⟨hallowed, trivial⟩, hafter .ramdisk _ (by decide)⟩
    | fdt => exact ⟨⟨hallowed, trivial⟩, hafter .fdt _ (by decide)⟩
    | cmdline => exact ⟨⟨hallowed, hfn rfl, trivial⟩, hafter .cmdline _ (by decide)⟩
    | bdt => exact ⟨⟨hallowed, hfn rfl, trivial⟩, hafter .bdt _ (by decide)⟩
    | prep => exact ⟨⟨hallowed, hfn rfl, trivial⟩, hafter .prep _ (by decide)⟩
    | go => exact ⟨⟨hallowed, hfn rfl, trivial⟩, hafter .go _ (by decide)⟩

theorem doBootm_good {m : Since} (hf : Fine c images (.bootm i)) : Always (Allowed c) m (doBootm c i).2 ∧
    ((doBootm c i).2.foldl Since.next m).loadFailed = false := by
  unfold doBootm
  dsimp only
  split
  · exact ⟨⟨trivial, trivial⟩, rfl⟩
  next hstarted =>
    split
    · exact ⟨⟨trivial, trivial, trivial⟩, rfl⟩
    next hreset =>
      split
      · exact ⟨⟨trivial, trivial⟩, rfl⟩
      next hunimplemented =>
        split
        · exact ⟨⟨trivial, trivial⟩, rfl⟩
        next htype =>
          unfold doBootOs
          split
          · exact ⟨⟨trivial, trivial⟩, rfl⟩
          next f hfn => exact ⟨⟨trivial, ⟨f, hfn⟩, trivial, trivial⟩, rfl⟩
          next hnone =>
            split
            next hgarbage =>
              have hreaches : ReachesBootOs c i := by
                refine ⟨not_not.mp hstarted, ?_, htype, fun _ => hgarbage⟩
                rcases bootmLoadOs_cases c (bootmStart i.start).2.os i.unc with h | h | h | h
                · exact .inl h
                · exact absurd (.inl h) hreset
                · refine .inr ⟨h, ?_⟩
                  by_contra hvalid
                  exact hreset (.inr ⟨h, Bool.eq_false_iff.mpr hvalid⟩)
                · exact absurd h hunimplemented
              have hlt := hf hreaches
              rw [List.getElem?_eq_none_iff] at hnone
              omega
            · exact ⟨⟨trivial, trivial⟩, rfl⟩

theorem step_good {m : Since} (h : Tracks images m) (hload : m.loadFailed = false) (hf : Fine c images cmd) :
    Always (Allowed c) m (step c images cmd).2 ∧
      ((step c images cmd).2.foldl Since.next m).loadFailed = false := by
  cases cmd with
  | bootm i => exact doBootm_good hf
  | start i => exact ⟨⟨trivial, trivial⟩, rfl⟩
  | sub s i => exact doSub_good h hload hf
  | unrecognized => exact ⟨trivial, hload⟩

theorem doBootm_no_sub {ret : Int} : Act.carriedOut s ret ∉ (doBootm c i).2 := by
  have hboot : ∀ images, Act.carriedOut s ret ∉ (doBootOs c images i).2 := by
    intro images ha
    unfold doBootOs at ha
    split at ha
    · cases ha
    · simp at ha
    · split at ha
      · simp at ha
      · cases ha
  unfold doBootm
  dsimp only
  split
  · simp
  · split
    · simp
    · split
      · simp
      · split
        · simp
        · simpa using hboot _

theorem always_others {l : List Act} (h : ∀ s ret, Act.carriedOut s ret ∉ l) (m : Since) :
    Always (fun m a => ∀ s ret, a = .carriedOut s ret → m.Before s) m l := by
  induction l generalizing m with
  | nil => exact trivial
  | cons a l ih =>
    refine ⟨fun s ret ha => absurd ?_ (h s ret), ih (fun s ret hmem => h s ret (List.mem_cons_of_mem _ hmem)) _⟩
    rw [← ha]
    exact List.mem_cons_self

/-- In every sequence of commands a subcommand is carried out at most once for each start, and in the order of
the states. -/
theorem subcommands_in_order (c : Config) (cmds : List Cmd) :
    Always (fun m a => ∀ s ret, a = .carriedOut s ret → m.Before s) .nothing (acts c Images.zero cmds) := by
  suffices horder : ∀ images m, Tracks images m →
      Always (fun m a => ∀ s ret, a = .carriedOut s ret → m.Before s) m (acts c images cmds) from
    horder _ _ tracks_zero
  induction cmds with
  | nil => exact fun _ _ _ => trivial
  | cons cmd rest ih =>
    intro images m h
    refine always_append.mpr ⟨?_, ih _ _ (step_tracks h cmd)⟩
    cases cmd with
    | bootm i => exact always_others (fun s ret => doBootm_no_sub) m
    | start i => exact ⟨fun s ret ha => (by cases ha), trivial⟩
    | sub s i =>
      change Always _ m (doSub c images s i).2
      unfold doSub
      split
      · trivial
      next hlt =>
        have hbefore := h.before (Nat.lt_of_not_le hlt)
        refine ⟨fun t ret ha => ?_, always_others (fun t ret ha => ?_) _⟩
        · cases ha
          exact hbefore
        · split at ha
          · cases List.mem_singleton.mp ha
          · cases ha
    | unrecognized => trivial

/-- In a sequence of fine commands subcommands are carried out only after a start that returned 0, at most once,
in the order of the states and not after a `loados` that failed, and all calls through `boot_os` go to a
function of the table. -/
theorem bootm_steps_in_order (c : Config) (cmds : List Cmd) (h : AllFine c Images.zero cmds) :
    Always (Allowed c) .nothing (acts c Images.zero cmds) := by
  suffices hgood : ∀ images m, Tracks images m → m.loadFailed = false → AllFine c images cmds →
      Always (Allowed c) m (acts c images cmds) from hgood _ _ tracks_zero rfl h
  clear h
  induction cmds with
  | nil => exact fun _ _ _ _ _ => trivial
  | cons cmd rest ih =>
    rintro images m htracks hload ⟨hfine, hrest⟩
    obtain ⟨hgood, hload'⟩ := step_good htracks hload hfine
    exact always_append.mpr ⟨hgood, ih _ _ (step_tracks htracks cmd) hload' hrest⟩

def linuxStart : StartInput where
  osHdr := 0x1000
  imageStart := 0x1040
  imageLen := 100
  legacyHdrValid := true
  format := .legacy 2 0 ihOsLinux 0x10a4 0x8000
  legacyEp := 0x8000
  fitUnameOs := false
  fitEntry := none
  getRamdisk := 0
  getFdt := 0

def linuxInput : Input := ⟨linuxStart, none, 0, false⟩

def armConfig : Config := ⟨false, false, false, false, false⟩

theorem bootm_steps_linux : Always (Allowed armConfig) .nothing
    (acts armConfig Images.zero [.start linuxInput, .sub .loados linuxInput, .sub .cmdline linuxInput, .sub .go linuxInput]) := by
  refine bootm_steps_in_order armConfig _ ⟨trivial, fun _ => ?_, fun _ => ?_, fun _ => ?_, trivial⟩
  · exact ⟨by decide, fun _ => by decide, nofun⟩
  · exact ⟨by decide, nofun, fun _ => ⟨.linux, by decide⟩⟩
  · exact ⟨by decide, nofun, fun _ => ⟨.linux, by decide⟩⟩

/-- After power up `loados` is carried out without a start. -/
theorem loados_without_start : ¬∀ (c : Config) (cmds : List Cmd),
    Always (Allowed c) .nothing (acts c Images.zero cmds) := by
  intro h
  obtain ⟨⟨hstarted, -⟩, -⟩ := h armConfig [.sub .loados linuxInput]
  cases hstarted

end UBoot.Bootm
