import UBoot.FlashCells

namespace UBoot.Jffs2Nand

open FlashCells

def nandPageSize : Nat := 512
def nandCachePages : Nat := 16
def nandCacheSize : Nat := nandCachePages * nandPageSize

/-- A NAND device; `writesize` is the size of the pages that `nand_read` takes one by one. -/
structure Device where
  size : Nat
  writesize : Nat
  data : Flash
  size_lt : size < 4294967296

/-- A call of `read_nand_cached` with what it meets: the current device, the bytes at `buf`, whether
`malloc` finds a buffer, and which pages are read without an error. -/
structure Call where
  dev : Device
  off : Nat
  size : Nat
  buf : Flash
  alloc : Bool
  page : Nat → Bool
  inside : off + size ≤ dev.size

/-- What a new buffer holds, what a failed read leaves in it, and what is stored from address 0 on. -/
structure Memory where
  fresh : Flash
  left : Nat → Flash
  low : Flash

/-- `nand_cache`, `nand_cache_off`, and the reads so far. -/
structure Cache where
  cache : Option Flash
  off : Nat
  reads : Nat

def Cache.start : Cache := ⟨none, 4294967295, 0⟩

/-- Each page with a byte of the `len` bytes from `a` on is read without an error. -/
def Device.pages (d : Device) (page : Nat → Bool) (a len : Nat) : Bool :=
  (List.range' (a / d.writesize) ((a + len - 1) / d.writesize + 1 - a / d.writesize)).all page

/-- `nand_read` of a nonempty range: no read goes past the end of the device. -/
def nandRead (d : Device) (page : Nat → Bool) (a len : Nat) (left buf : Flash) : Bool × Flash :=
  if d.size < a + len then (false, buf)
  else if d.pages page a len then (true, patch buf 0 len fun i => d.data (a + i))
  else (false, patch buf 0 len left)

def Cache.misses (s : Cache) (a : Nat) : Bool :=
  decide (a < s.off) || decide ((s.off + nandCacheSize) % 4294967296 ≤ a)

variable (m : Memory) (c : Call)

def Cache.fill (s : Cache) (off : Nat) (buf : Flash) : Bool × Cache :=
  let r := nandRead c.dev c.page off nandCacheSize (m.left s.reads) buf
  (r.1, ⟨some r.2, off, s.reads + 1⟩)

def Cache.fetch (s : Cache) (a : Nat) : Bool × Cache :=
  let off := a - a % nandPageSize
  match s.cache with
  | some buf => s.fill m c off buf
  | none => if c.alloc then s.fill m c off m.fresh else (false, { s with off := off })

def Cache.load (s : Cache) (a : Nat) : Bool × Cache := if s.misses a then s.fetch m c a else (true, s)

def Cache.cpyBytes (s : Cache) (bytesRead : Nat) : Nat :=
  min (s.off + nandCacheSize - (c.off + bytesRead)) (c.size - bytesRead)

/-- The `memcpy` of a round. -/
def Cache.copy (s : Cache) (bytesRead : Nat) (buf : Flash) : Flash :=
  patch buf bytesRead (s.cpyBytes c bytesRead) fun i => s.cache.getD m.low (c.off + i - s.off)

/-- A count as the `int` that is returned. -/
def toInt (n : Nat) : Int := if n < 2147483648 then n else (n : Int) - 4294967296

structure Outcome where
  result : Int
  cache : Cache
  buf : Flash

def readLoop : Nat → Nat → Cache → Flash → Outcome
  | 0, _, s, buf => ⟨-1, s, buf⟩
  | fuel + 1, bytesRead, s, buf =>
    if bytesRead < c.size then
      let r := s.load m c (c.off + bytesRead)
      if r.1 then
        readLoop fuel (bytesRead + r.2.cpyBytes c bytesRead) r.2 (r.2.copy m c bytesRead buf)
      else ⟨-1, r.2, buf⟩
    else ⟨toInt bytesRead, s, buf⟩

/-- Each round but the last reads a byte or more. -/
def readNandCached (s : Cache) : Outcome := readLoop m c (c.size + 1) 0 s c.buf

/-- What the buffer has been filled with: nothing, `known` bytes of a device, or what was found in it. -/
inductive Content where
  | nothing
  | known (b : Flash)
  | spoilt

/-- The window that was last asked for, the reads so far, and the content of the buffer. -/
structure Held where
  off : Nat
  reads : Nat
  content : Content

def Held.start : Held := ⟨4294967295, 0, .nothing⟩

def Content.kept : Content → Content
  | .nothing => .spoilt
  | .known b => .known b
  | .spoilt => .spoilt

/-- The window of `w` is read. -/
def Held.read (h : Held) (w : Nat) : Bool × Held :=
  if c.dev.size < w + nandCacheSize then (false, ⟨w, h.reads + 1, h.content.kept⟩)
  else if c.dev.pages c.page w nandCacheSize then
    (true, ⟨w, h.reads + 1, .known fun i => c.dev.data (w + i)⟩)
  else (false, ⟨w, h.reads + 1, .spoilt⟩)

/-- The window of `w` is asked for. -/
def Held.ask (h : Held) (w : Nat) : Bool × Held :=
  match h.content with
  | .nothing => if c.alloc then h.read c w else (false, { h with off := w })
  | .known _ => h.read c w
  | .spoilt => h.read c w

/-- The windows from `a` on, up to the end of the call. -/
def Held.askFrom : Nat → Held → Nat → Bool × Held
  | 0, h, _ => (false, h)
  | fuel + 1, h, a =>
    if a < c.off + c.size then
      let r := h.ask c (a - a % nandPageSize)
      if r.1 then askFrom fuel r.2 (r.2.off + nandCacheSize) else r
    else (true, h)

def Held.Hits (h : Held) : Prop :=
  0 < c.size ∧ h.off ≤ c.off ∧ c.off < (h.off + nandCacheSize) % 4294967296

instance (h : Held) : Decidable (h.Hits c) := inferInstanceAs (Decidable (_ ∧ _ ∧ _))

def Held.begin (h : Held) : Nat := if h.Hits c then h.off + nandCacheSize else c.off

def Held.call (h : Held) : Bool × Held := h.askFrom c (c.size + 1) (h.begin c)

def Held.window (h : Held) : Nat := h.begin c - h.begin c % nandPageSize

/-- The windows that the call asks for are inside the device and read without an error, and there is a
buffer for them. -/
def Held.Served (h : Held) : Prop :=
  h.begin c < c.off + c.size → (h.content = .nothing → c.alloc = true) ∧
    ∀ k, h.window c + k * nandCacheSize < c.off + c.size →
      h.window c + k * nandCacheSize + nandCacheSize ≤ c.dev.size ∧
      c.dev.pages c.page (h.window c + k * nandCacheSize) nandCacheSize = true

/-- What the call takes from the window is what the device holds there. -/
def Held.Current (h : Held) : Prop :=
  match h.content with
  | .known b => ∀ i, i < c.size → c.off + i < h.off + nandCacheSize →
      b (c.off + i - h.off) = c.dev.data (c.off + i)
  | _ => False

def Call.Readable : Prop :=
  ∀ x, c.off ≤ x → x < c.off + c.size → c.page (x / c.dev.writesize) = true

def afterCalls (m : Memory) (calls : List Call) : Cache :=
  calls.foldl (fun s c => (readNandCached m c s).cache) Cache.start

def heldAfter (calls : List Call) : Held := calls.foldl (fun h c => (h.call c).2) Held.start

/-- Each call that returns a count has delivered the bytes of its device, and each call whose pages are
readable returns one, whatever the memory holds. -/
def Transparent (calls : List Call) : Prop :=
  ∀ (m : Memory) (before : List Call) (c : Call) (rest : List Call), calls = before ++ c :: rest →
    (0 ≤ (readNandCached m c (afterCalls m before)).result → ∀ i, i < c.size →
      (readNandCached m c (afterCalls m before)).buf i = c.dev.data (c.off + i)) ∧
    (c.Readable → 0 ≤ (readNandCached m c (afterCalls m before)).result)

/-- A call whose pages are readable is served, and what a call takes from the window is current. -/
structure Held.Right (h : Held) (c : Call) : Prop where
  served : c.Readable → h.Served c ∧ c.size < 2147483648
  current : h.Hits c → h.Served c → c.size < 2147483648 → h.Current c

/-- Memory in which every byte of junk is in `P`. -/
structure Memory.Only (m : Memory) (P : UInt8 → Prop) : Prop where
  fresh : ∀ i, P (m.fresh i)
  left : ∀ n i, P (m.left n i)
  low : ∀ i, P (m.low i)

def Content.In (P : UInt8 → Prop) (content : Content) (cache : Option Flash) : Prop :=
  match content with
  | .nothing => cache = none
  | .known b => ∃ buf, cache = some buf ∧ ∀ i, i < nandCacheSize → buf i = b i
  | .spoilt => ∃ buf, cache = some buf ∧ ∀ i, i < nandCacheSize → P (buf i)

/-- The cache is what has been asked for. -/
structure Follows (P : UInt8 → Prop) (s : Cache) (h : Held) : Prop where
  off : s.off = h.off
  reads : s.reads = h.reads
  content : h.content.In P s.cache

section Run

variable {m : Memory} {c : Call} {P : UInt8 → Prop} {s : Cache} {h : Held} {w a b fuel : Nat}

theorem Follows.start : Follows P Cache.start Held.start := ⟨rfl, rfl, rfl⟩

theorem Follows.fill {buf : Flash} (hm : m.Only P) (hf : Follows P s h)
    (hbuf : h.content.kept.In P (some buf)) :
    (s.fill m c w buf).1 = (h.read c w).1 ∧ Follows P (s.fill m c w buf).2 (h.read c w).2 := by
  have hreads : s.reads + 1 = h.reads + 1 := congrArg (· + 1) hf.reads
  unfold Cache.fill nandRead Held.read
  by_cases hend : c.dev.size < w + nandCacheSize
  · simp only [if_pos hend]
    exact ⟨trivial, rfl, hreads, hbuf⟩
  by_cases hpages : c.dev.pages c.page w nandCacheSize = true
  · simp only [if_neg hend, if_pos hpages]
    refine ⟨trivial, rfl, hreads, _, rfl, fun i hi => ?_⟩
    exact patch_inside (Nat.zero_le i) (by omega)
  · simp only [if_neg hend, if_neg hpages]
    refine ⟨trivial, rfl, hreads, _, rfl, fun i hi => ?_⟩
    rw [patch_inside (Nat.zero_le i) (by omega)]
    apply hm.left

theorem Follows.fetch (hm : m.Only P) (hf : Follows P s h) :
    (s.fetch m c a).1 = (h.ask c (a - a % nandPageSize)).1 ∧
      Follows P (s.fetch m c a).2 (h.ask c (a - a % nandPageSize)).2 := by
  have hin := hf.content
  unfold Cache.fetch Held.ask
  cases hcontent : h.content with
  | nothing =>
    rw [hcontent] at hin
    simp only [show s.cache = none from hin]
    cases c.alloc with
    | false => exact ⟨rfl, rfl, hf.reads, rfl⟩
    | true =>
      apply hf.fill hm
      rw [hcontent]
      exact ⟨_, rfl, fun i _ => hm.fresh i⟩
  | known b =>
    rw [hcontent] at hin
    obtain ⟨buf, hbuf, hb⟩ := hin
    simp only [hbuf]
    apply hf.fill hm
    rw [hcontent]
    exact ⟨buf, rfl, hb⟩
  | spoilt =>
    rw [hcontent] at hin
    obtain ⟨buf, hbuf, hb⟩ := hin
    simp only [hbuf]
    apply hf.fill hm
    rw [hcontent]
    exact ⟨buf, rfl, hb⟩

theorem Held.read_true (hr : (h.read c w).1 = true) : w + nandCacheSize ≤ c.dev.size ∧
      (h.read c w).2 = ⟨w, h.reads + 1, .known fun i => c.dev.data (w + i)⟩ := by
  unfold Held.read at hr ⊢
  by_cases hend : c.dev.size < w + nandCacheSize
  · simp [hend] at hr
  · by_cases hpages : c.dev.pages c.page w nandCacheSize = true
    · simp only [if_neg hend, if_pos hpages]
      exact ⟨Nat.le_of_not_lt hend, trivial⟩
    · simp [hend, hpages] at hr

theorem Held.ask_true (hr : (h.ask c w).1 = true) : w + nandCacheSize ≤ c.dev.size ∧
      (h.ask c w).2 = ⟨w, h.reads + 1, .known fun i => c.dev.data (w + i)⟩ := by
  unfold Held.ask at hr ⊢
  cases hcontent : h.content with
  | nothing =>
    rw [hcontent] at hr
    cases halloc : c.alloc with
    | false => simp [halloc] at hr
    | true =>
      simp only [halloc, if_true] at hr ⊢
      exact Held.read_true hr
  | known b =>
    rw [hcontent] at hr
    exact Held.read_true hr
  | spoilt =>
    rw [hcontent] at hr
    exact Held.read_true hr

theorem nandPageSize_mod (a : Nat) : a - a % nandPageSize ≤ a ∧ a < a - a % nandPageSize + nandCacheSize := by
  have hmod : a % nandPageSize < nandPageSize := Nat.mod_lt _ (by decide)
  have hsizes : nandCacheSize = 16 * nandPageSize := rfl
  omega

theorem Follows.copy {n i : Nat} {buf : Flash}
    (hf : Follows P s ⟨w, n, .known fun i => c.dev.data (w + i)⟩) (hw : w ≤ c.off + b) :
    s.copy m c b buf i =
      if b ≤ i ∧ i < b + min (w + nandCacheSize - (c.off + b)) (c.size - b) then c.dev.data (c.off + i)
      else buf i := by
  obtain ⟨got, hgot, hin⟩ := hf.content
  have hdata : ∀ i, i < nandCacheSize → got i = c.dev.data (w + i) := hin
  have hoff : s.off = w := hf.off
  rw [Cache.copy, patch, Cache.cpyBytes, hgot, hoff]
  split
  next hi =>
    rw [Option.getD_some, hdata _ (by omega)]
    congr 1
    omega
  · rfl

theorem Follows.loop (hm : m.Only P) (hf : Follows P s h) (buf : Flash)
    (hpos : c.off + b = min a (c.off + c.size)) (hmiss : a < c.off + c.size → s.misses a = true) :
    Follows P (readLoop m c fuel b s buf).cache (h.askFrom c fuel a).2 ∧
    ((h.askFrom c fuel a).1 = false → (readLoop m c fuel b s buf).result = -1) ∧
    ((h.askFrom c fuel a).1 = true → (readLoop m c fuel b s buf).result = toInt c.size ∧
      ∀ i, (readLoop m c fuel b s buf).buf i =
        if b ≤ i ∧ i < c.size then c.dev.data (c.off + i) else buf i) := by
  induction fuel generalizing s h buf b a with
  | zero => exact ⟨hf, fun _ => rfl, nofun⟩
  | succ fuel ih =>
    unfold readLoop Held.askFrom
    by_cases hend : a < c.off + c.size
    · have ha : c.off + b = a := by omega
      have hb : b < c.size := by omega
      obtain ⟨hsame, hnext⟩ := hf.fetch (c := c) (a := a) hm
      simp only [if_pos hend, if_pos hb, Cache.load, ha, hmiss hend, if_true]
      cases hr : (h.ask c (a - a % nandPageSize)).1 with
      | false =>
        rw [hr] at hsame
        simp [hsame, hnext, hr]
      | true =>
        rw [hr] at hsame
        obtain ⟨hin, hheld⟩ := Held.ask_true hr
        obtain ⟨hle, hlt⟩ := nandPageSize_mod a
        rw [hheld] at hnext
        have hcpy : (s.fetch m c a).2.cpyBytes c b =
            min (a - a % nandPageSize + nandCacheSize - (c.off + b)) (c.size - b) :=
          congrArg (fun x => min (x + nandCacheSize - (c.off + b)) (c.size - b)) hnext.off
        have hnomore : (s.fetch m c a).2.misses (a - a % nandPageSize + nandCacheSize) = true := by
          rw [Cache.misses, show (s.fetch m c a).2.off = _ from hnext.off]
          simp [Nat.mod_le]
        simp only [hsame, if_true, hheld]
        obtain ⟨hfollows, hfails, hserved⟩ := ih hnext ((s.fetch m c a).2.copy m c b buf)
          (a := a - a % nandPageSize + nandCacheSize) (b := b + (s.fetch m c a).2.cpyBytes c b)
          (by rw [hcpy]; omega) fun _ => hnomore
        refine ⟨hfollows, hfails, fun hr => ⟨(hserved hr).1, fun i => ?_⟩⟩
        rw [(hserved hr).2, hcpy, hnext.copy (by omega)]
        by_cases hi : b ≤ i ∧ i < c.size
        · rw [if_pos hi]
          split
          · rfl
          next hout => rw [if_pos (by omega)]
        · rw [if_neg hi, if_neg (by omega), if_neg (by omega)]
    · have hb : b = c.size := by omega
      simp [hend, hb, hf]

theorem Held.ask_off : (h.ask c w).2.off = w := by
  have hread : (h.read c w).2.off = w := by
    unfold Held.read
    split
    · rfl
    · split <;> rfl
  unfold Held.ask
  split
  · split
    · exact hread
    · rfl
  · exact hread
  · exact hread

theorem Held.askFrom_enough {n : Nat} (hn : c.off + c.size - a < n) (hle : n ≤ fuel) :
    h.askFrom c fuel a = h.askFrom c n a := by
  induction n generalizing fuel h a with
  | zero => omega
  | succ n ih =>
    obtain ⟨fuel, rfl⟩ : ∃ k, fuel = k + 1 := ⟨fuel - 1, by omega⟩
    obtain ⟨-, hlt⟩ := nandPageSize_mod a
    unfold Held.askFrom
    by_cases ha : a < c.off + c.size
    · simp only [if_pos ha, Held.ask_off]
      by_cases hr : (h.ask c (a - a % nandPageSize)).1 = true
      · simp only [if_pos hr]
        exact ih (by omega) (by omega)
      · simp only [if_neg hr]
    · simp only [if_neg ha]

theorem Held.read_iff : (h.read c w).1 = true ↔
    w + nandCacheSize ≤ c.dev.size ∧ c.dev.pages c.page w nandCacheSize = true := by
  unfold Held.read
  by_cases hend : c.dev.size < w + nandCacheSize
  · simp [hend]
  · by_cases hpages : c.dev.pages c.page w nandCacheSize = true
    · simp [hend, hpages, Nat.le_of_not_lt hend]
    · simp [hend, hpages]

theorem Held.ask_iff : (h.ask c w).1 = true ↔ (h.content = .nothing → c.alloc = true) ∧
    w + nandCacheSize ≤ c.dev.size ∧ c.dev.pages c.page w nandCacheSize = true := by
  unfold Held.ask
  cases hcontent : h.content with
  | nothing =>
    cases c.alloc with
    | false => simp
    | true => simpa using Held.read_iff
  | known g => simpa using Held.read_iff
  | spoilt => simpa using Held.read_iff

theorem Held.askFrom_iff (hn : c.off + c.size - a < fuel) :
    (h.askFrom c fuel a).1 = true ↔ (a < c.off + c.size → (h.content = .nothing → c.alloc = true) ∧
      ∀ k, a - a % nandPageSize + k * nandCacheSize < c.off + c.size →
        a - a % nandPageSize + k * nandCacheSize + nandCacheSize ≤ c.dev.size ∧
        c.dev.pages c.page (a - a % nandPageSize + k * nandCacheSize) nandCacheSize = true) := by
  induction fuel generalizing h a with
  | zero => omega
  | succ fuel ih =>
    obtain ⟨hle, hlt⟩ := nandPageSize_mod a
    unfold Held.askFrom
    by_cases ha : a < c.off + c.size
    · have hnext : a - a % nandPageSize + nandCacheSize -
          (a - a % nandPageSize + nandCacheSize) % nandPageSize = a - a % nandPageSize + nandCacheSize := by
        unfold nandCacheSize nandCachePages nandPageSize
        omega
      have hstep : ∀ k, a - a % nandPageSize + (k + 1) * nandCacheSize =
          a - a % nandPageSize + nandCacheSize + k * nandCacheSize := fun k => by rw [Nat.add_mul]; omega
      simp only [ha, if_true, forall_const]
      by_cases hr : (h.ask c (a - a % nandPageSize)).1 = true
      · obtain ⟨halloc, hwindow⟩ := Held.ask_iff.mp hr
        obtain ⟨-, hheld⟩ := Held.ask_true hr
        simp only [if_pos hr, Held.ask_off]
        rw [ih (a := a - a % nandPageSize + nandCacheSize) (by omega), hnext, hheld]
        constructor
        · intro hrest
          refine ⟨halloc, fun k hk => ?_⟩
          cases k with
          | zero => simpa using hwindow
          | succ k =>
            rw [hstep] at hk ⊢
            exact (hrest (by omega)).2 k hk
        · rintro ⟨-, hall⟩ -
          refine ⟨nofun, fun k hk => ?_⟩
          rw [← hstep] at hk ⊢
          exact hall (k + 1) hk
      · simp only [if_neg hr]
        refine ⟨fun h => absurd h hr, fun hall => Held.ask_iff.mpr ⟨hall.1, ?_⟩⟩
        have hfirst := hall.2 0 (by omega)
        simpa using hfirst
    · simp [ha]

theorem Held.Hits.begin (hhit : h.Hits c) :
    h.begin c = h.off + nandCacheSize ∧ c.off < h.off + nandCacheSize :=
  ⟨if_pos hhit, lt_of_lt_of_le hhit.2.2 (Nat.mod_le _ _)⟩

theorem Held.call_iff : (h.call c).1 = true ↔ h.Served c := by
  apply Held.askFrom_iff
  by_cases hhit : h.Hits c
  · obtain ⟨hbegin, hlt⟩ := hhit.begin
    omega
  · have hbegin : h.begin c = c.off := if_neg hhit
    omega

theorem Follows.call (hm : m.Only P) (hf : Follows P s h) :
    Follows P (readNandCached m c s).cache (h.call c).2 ∧
    (¬h.Served c → (readNandCached m c s).result = -1) ∧
    (h.Served c → (readNandCached m c s).result = toInt c.size ∧
      ∀ i, i < c.size → (readNandCached m c s).buf i =
        if h.Hits c ∧ c.off + i < h.off + nandCacheSize then s.cache.getD m.low (c.off + i - h.off)
        else c.dev.data (c.off + i)) := by
  rw [← Held.call_iff]
  unfold readNandCached Held.call
  by_cases hhit : h.Hits c
  · obtain ⟨hbegin, hlt⟩ := hhit.begin
    obtain ⟨hsize, hle, hwrap⟩ := hhit
    have hload : s.load m c (c.off + 0) = (true, s) := by
      rw [Cache.load, if_neg]
      simp only [Cache.misses, hf.off, Bool.or_eq_true, decide_eq_true_eq]
      omega
    have hcpy : s.cpyBytes c 0 = min (h.off + nandCacheSize - c.off) c.size := by
      rw [Cache.cpyBytes, hf.off]
      rfl
    rw [hbegin, Held.askFrom_enough (n := c.size) (by omega) (by omega)]
    unfold readLoop
    simp only [if_pos hsize, hload, if_true]
    obtain ⟨hfollows, hfails, hserved⟩ := @Follows.loop m c P s h (h.off + nandCacheSize) (0 + s.cpyBytes c 0)
      c.size hm hf (s.copy m c 0 c.buf) (by rw [hcpy]; omega) fun _ => by
        rw [Cache.misses, hf.off]
        simp [Nat.mod_le]
    refine ⟨hfollows, fun hr => hfails (Bool.eq_false_iff.mpr hr), fun hr => ⟨(hserved hr).1, fun i hi => ?_⟩⟩
    rw [(hserved hr).2, Cache.copy, patch, hcpy, hf.off]
    by_cases hin : c.off + i < h.off + nandCacheSize
    · rw [if_neg (by omega), if_pos (by omega), if_pos ⟨⟨hsize, hle, hwrap⟩, hin⟩]
    · rw [if_pos (by omega), if_neg (by omega)]
  · have hbegin : h.begin c = c.off := if_neg hhit
    obtain ⟨hfollows, hfails, hserved⟩ := @Follows.loop m c P s h c.off 0 (c.size + 1) hm hf
      c.buf (by omega) fun hsize => by
        unfold Held.Hits at hhit
        simp only [Cache.misses, hf.off, Bool.or_eq_true, decide_eq_true_eq]
        omega
    rw [hbegin]
    refine ⟨hfollows, fun hr => hfails (Bool.eq_false_iff.mpr hr), fun hr => ⟨(hserved hr).1, fun i hi => ?_⟩⟩
    rw [(hserved hr).2, if_pos ⟨Nat.zero_le i, hi⟩, if_neg fun h => hhit h.1]

theorem afterCalls_follows (hm : m.Only P) (calls : List Call) :
    Follows P (afterCalls m calls) (heldAfter calls) := by
  have hrun : ∀ (calls : List Call) {s : Cache} {h : Held}, Follows P s h →
      Follows P (calls.foldl (fun s c => (readNandCached m c s).cache) s)
        (calls.foldl (fun h c => (h.call c).2) h) := by
    intro calls
    induction calls with
    | nil => exact fun hf => hf
    | cons c calls ih => exact fun hf => ih (hf.call hm).1
  exact hrun calls Follows.start

theorem Follows.known {g : Flash} {i : Nat} (hf : Follows P s h) (hg : h.content = .known g)
    (hi : i < nandCacheSize) : s.cache.getD m.low i = g i := by
  have hin := hf.content
  rw [hg] at hin
  obtain ⟨buf, hbuf, hsame⟩ := hin
  rw [hbuf, Option.getD_some]
  exact hsame i hi

theorem Follows.junk {i : Nat} (hm : m.Only P) (hf : Follows P s h) (hg : ∀ g, h.content ≠ .known g)
    (hi : i < nandCacheSize) : P (s.cache.getD m.low i) := by
  have hin := hf.content
  cases hcontent : h.content with
  | nothing =>
    rw [hcontent] at hin
    rw [show s.cache = none from hin]
    exact hm.low i
  | known g => exact absurd hcontent (hg g)
  | spoilt =>
    rw [hcontent] at hin
    obtain ⟨buf, hbuf, hjunk⟩ := hin
    rw [hbuf]
    exact hjunk i hi

theorem toInt_nonneg {n : Nat} (hn : n < 4294967296) : 0 ≤ toInt n ↔ n < 2147483648 := by
  unfold toInt
  split <;> omega

theorem Call.size_lt (c : Call) : c.size < 4294967296 := by
  have hinside := c.inside
  have hsize := c.dev.size_lt
  omega

theorem Follows.nonneg (hm : m.Only P) (hf : Follows P s h) :
    0 ≤ (readNandCached m c s).result ↔ h.Served c ∧ c.size < 2147483648 := by
  obtain ⟨-, hfails, hserved⟩ := hf.call (c := c) hm
  by_cases hs : h.Served c
  · rw [(hserved hs).1, toInt_nonneg c.size_lt]
    simp [hs]
  · rw [hfails hs]
    simp [hs]

theorem Held.current_of_exact (hhit : h.Hits c) (hs : h.Served c)
    (hexact : ∀ P m, Memory.Only m P → ∃ s, Follows P s h ∧
      ∀ i, i < c.size → (readNandCached m c s).buf i = c.dev.data (c.off + i)) : h.Current c := by
  obtain ⟨-, hlt⟩ := hhit.begin
  have hle := hhit.2.1
  have htaken : ∀ P m, Memory.Only m P → ∃ s, Follows P s h ∧
      ∀ i, i < c.size → c.off + i < h.off + nandCacheSize →
        s.cache.getD m.low (c.off + i - h.off) = c.dev.data (c.off + i) := by
    intro P m hm
    obtain ⟨s, hf, hbuf⟩ := hexact P m hm
    refine ⟨s, hf, fun i hi hin => ?_⟩
    rw [← hbuf i hi, ((hf.call hm).2.2 hs).2 i hi, if_pos ⟨hhit, hin⟩]
  by_cases hg : ∃ g, h.content = .known g
  · obtain ⟨g, hg⟩ := hg
    obtain ⟨s, hf, hbytes⟩ := htaken (fun _ => True) ⟨fun _ => 0, fun _ _ => 0, fun _ => 0⟩
      ⟨fun _ => trivial, fun _ _ => trivial, fun _ => trivial⟩
    unfold Held.Current
    rw [hg]
    intro i hi hin
    rw [← hbytes i hi hin]
    exact (hf.known hg (by omega)).symm
  · -- the junk is another byte than the first one of the range
    obtain ⟨x, hx⟩ : ∃ x : UInt8, x ≠ c.dev.data c.off := by
      by_cases hzero : c.dev.data c.off = 0
      · exact ⟨1, by rw [hzero]; decide⟩
      · exact ⟨0, fun h => hzero h.symm⟩
    have hm : Memory.Only ⟨fun _ => x, fun _ _ => x, fun _ => x⟩ (· = x) :=
      ⟨fun _ => rfl, fun _ _ => rfl, fun _ => rfl⟩
    obtain ⟨s, hf, hbytes⟩ := htaken _ _ hm
    have hbyte := hbytes 0 hhit.1 hlt
    rw [hf.junk hm (fun g h => hg ⟨g, h⟩) (by omega)] at hbyte
    exact absurd hbyte hx

end Run

/-- The cache is transparent for exactly the sequences of calls in which every call whose pages are
readable is served, and every call takes nothing but current bytes of its device from the window. -/
theorem read_nand_cached_transparent_iff (calls : List Call) :
    Transparent calls ↔ ∀ (before : List Call) (c : Call) (rest : List Call),
      calls = before ++ c :: rest → (heldAfter before).Right c := by
  constructor
  · intro ht before c rest hcalls
    have hm : Memory.Only ⟨fun _ => 0, fun _ _ => 0, fun _ => 0⟩ (fun _ => True) :=
      ⟨fun _ => trivial, fun _ _ => trivial, fun _ => trivial⟩
    refine ⟨fun hreadable => ?_, fun hhit hs hsize => ?_⟩
    · exact ((afterCalls_follows hm before).nonneg hm).mp ((ht _ before c rest hcalls).2 hreadable)
    · apply Held.current_of_exact hhit hs
      intro P m hm
      have hf := afterCalls_follows hm before
      exact ⟨_, hf, (ht m before c rest hcalls).1 ((hf.nonneg hm).mpr ⟨hs, hsize⟩)⟩
  · intro hright m before c rest hcalls
    obtain ⟨hserved, hcurrent⟩ := hright before c rest hcalls
    have hm : m.Only (fun _ => True) := ⟨fun _ => trivial, fun _ _ => trivial, fun _ => trivial⟩
    have hf := afterCalls_follows hm before
    refine ⟨fun hcount i hi => ?_, fun hreadable => (hf.nonneg hm).mpr (hserved hreadable)⟩
    obtain ⟨hs, hsize⟩ := (hf.nonneg hm).mp hcount
    rw [((hf.call hm).2.2 hs).2 i hi]
    split
    next hin =>
      obtain ⟨hhit, hin⟩ := hin
      have hheld := hcurrent hhit hs hsize
      unfold Held.Current at hheld
      split at hheld
      next g hg =>
        have hle := hhit.2.1
        rw [hf.known hg (by omega)]
        exact hheld i hi hin
      · exact absurd hheld id
    · rfl

def threeBlocks : Device := ⟨49152, 512, fun _ => 0x5a, by omega⟩

def lastPage : Call := ⟨threeBlocks, 48640, 512, fun _ => 0, true, fun _ => true, Nat.le_refl 49152⟩

/-- The window of the last page reaches beyond the device, so that the page is not read. -/
theorem last_page_not_read : ¬∀ calls : List Call, Transparent calls := by
  intro h
  have hright := (read_nand_cached_transparent_iff [lastPage]).mp (h _) [] lastPage [] rfl
  obtain ⟨hserved, -⟩ := hright.served fun _ _ _ => rfl
  have hwindow := ((hserved (by decide)).2 0 (by decide)).1
  revert hwindow
  decide

end UBoot.Jffs2Nand
