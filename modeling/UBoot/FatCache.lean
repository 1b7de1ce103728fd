import UBoot.FatEntries

namespace UBoot.Fat

open FlashCells Words

/-- What the buffer has been filled with: nothing, the block of its number, or what a read that failed
has left under that number. -/
inductive Held where
  | nothing
  | block (n : Nat)
  | spoilt (n : Nat)
deriving DecidableEq

def Held.number : Held → Option Nat
  | .nothing => none
  | .block n => some n
  | .spoilt n => some n

def Held.afterFailure : Held → Held
  | .nothing => .nothing
  | .block n => .spoilt n
  | .spoilt n => .spoilt n

/-- The reads made so far and what the buffer has been filled with. -/
structure Requests where
  reads : Nat
  held : Held

/-- The request for an entry. -/
def Requests.next (d : Disk) (fs : Fsdata) (q : Requests) (c : Nat) : Requests :=
  if q.held.number = some (blockOf fs c) then q
  else if blockRead d fs q.reads c then ⟨q.reads + 1, .block (blockOf fs c)⟩
  else ⟨q.reads + 1, q.held.afterFailure⟩

/-- The data of an entry can be read: no read is needed, or it succeeds. -/
def Requests.Answers (d : Disk) (fs : Fsdata) (q : Requests) (c : Nat) : Prop :=
  q.held.number = some (blockOf fs c) ∨ blockRead d fs q.reads c = true

def afterCalls (d : Disk) (fs : Fsdata) (st : Store) (calls : List Nat) : Store :=
  calls.foldl (fun st c => (getFatent d fs st c).2) st

def Answered (d : Disk) (fs : Fsdata) (st : Store) (c : Nat) : Prop :=
  st.fatbufnum = some (blockOf fs c) ∨ blockRead d fs st.reads c = true

def Disk.leaving (d : Disk) (junk : Nat → Nat → UInt8 → UInt8) : Disk := { d with spoilt := junk }

/-- Each call whose data can be read returns what the entry says, whatever reads that fail leave. -/
def Transparent (d : Disk) (fs : Fsdata) (st : Store) (calls : List Nat) : Prop :=
  ∀ (junk : Nat → Nat → UInt8 → UInt8) (before : List Nat) (c : Nat) (rest : List Nat),
    calls = before ++ c :: rest →
    Answered (d.leaving junk) fs (afterCalls (d.leaving junk) fs st before) c →
    (getFatent (d.leaving junk) fs (afterCalls (d.leaving junk) fs st before) c).1 =
      fatEntry fs.fatsize (fatTable d fs) c

/-- The store is one of a sequence of requests, with a property of what failed reads leave. -/
structure Follows (d : Disk) (fs : Fsdata) (Left : Flash → Prop) (st : Store) (q : Requests) : Prop where
  reads : st.reads = q.reads
  number : st.fatbufnum = q.held.number
  block : ∀ n, q.held = .block n → Holds d fs st.fatbuf n
  spoilt : ∀ n, q.held = .spoilt n → Left st.fatbuf

variable {d : Disk} {fs : Fsdata} {Left : Flash → Prop} {st : Store} {q : Requests} {c : Nat}

theorem Follows.answered (h : Follows d fs Left st q) : Answered d fs st c ↔ q.Answers d fs c := by
  unfold Answered Requests.Answers
  rw [h.number, h.reads]

theorem Follows.next (ht : HasTable d fs) (hc : InTable fs c)
    (hleft : ∀ n b, Left (afterFailure d n b)) (h : Follows d fs Left st q) :
    Follows d fs Left (getFatent d fs st c).2 (q.next d fs c) := by
  unfold Requests.next
  split
  next hhit =>
    rw [getFatent_buffered ht (h.number.trans hhit)]
    exact h
  next hmiss =>
    have hst : st.fatbufnum ≠ some (blockOf fs c) := by
      rw [h.number]
      exact hmiss
    split
    next hok =>
      obtain ⟨b, hb, heq⟩ := getFatent_read ht hc hst (by rw [h.reads]; exact hok)
      rw [heq]
      refine ⟨congrArg (· + 1) h.reads, rfl, ?_, ?_⟩
      · intro n hn
        cases hn
        exact hb
      · intro n hn
        cases hn
    next hbad =>
      rw [getFatent_failed ht hc hst (by rw [h.reads]; exact Bool.eq_false_iff.mpr hbad)]
      refine ⟨congrArg (· + 1) h.reads, ?_, ?_, ?_⟩
      · dsimp only
        rw [h.number]
        cases q.held with
        | nothing => rfl
        | block n => rfl
        | spoilt n => rfl
      · intro n hn
        cases hheld : q.held with
        | nothing => rw [hheld] at hn; cases hn
        | block m => rw [hheld] at hn; cases hn
        | spoilt m => rw [hheld] at hn; cases hn
      · intro n _
        exact hleft _ _

theorem afterCalls_follows (ht : HasTable d fs) (hleft : ∀ n b, Left (afterFailure d n b))
    (h : Follows d fs Left st q) (calls : List Nat) (hin : ∀ c ∈ calls, InTable fs c) :
    Follows d fs Left (afterCalls d fs st calls) (calls.foldl (Requests.next d fs) q) := by
  induction calls generalizing st q with
  | nil => exact h
  | cons c calls ih =>
    have hnext := h.next ht (hin c (List.mem_cons_self ..)) hleft
    exact ih hnext fun x hx => hin x (List.mem_cons_of_mem c hx)

theorem Follows.stored (ht : HasTable d fs) (hc : InTable fs c) (h : Follows d fs Left st q)
    (ha : q.Answers d fs c) (hq : q.held ≠ .spoilt (blockOf fs c)) :
    (getFatent d fs st c).1 = storedEntry fs.fatsize (fatTable d fs) c := by
  by_cases hhit : q.held.number = some (blockOf fs c)
  · rw [getFatent_buffered ht (h.number.trans hhit)]
    apply bufEntry_of_holds ht
    apply h.block
    cases hheld : q.held with
    | nothing => rw [hheld] at hhit; cases hhit
    | block n =>
      rw [hheld] at hhit
      rw [Option.some.inj hhit]
    | spoilt n =>
      rw [hheld] at hhit
      rw [hheld, Option.some.inj hhit] at hq
      exact absurd rfl hq
  · have hok : blockRead d fs st.reads c = true := by
      rw [h.reads]
      exact ha.resolve_left hhit
    obtain ⟨b, -, heq⟩ := getFatent_read ht hc (by rw [h.number]; exact hhit) hok
    rw [heq]

theorem storedEntry_const (hw : fs.fatsize = 12 ∨ fs.fatsize = 16 ∨ fs.fatsize = 32) :
    storedEntry fs.fatsize (fun _ => 0) c = 0 ∧ storedEntry fs.fatsize (fun _ => 255) c ≠ 0 := by
  have hzero : ∀ a, le16 (fun _ => 0) a = 0 := fun _ => rfl
  have hones : ∀ a, le16 (fun _ => 255) a = 65535 := by
    intro a
    have hbyte : (255 : UInt8).toNat = 255 := by decide
    rw [le16, hbyte]
  unfold storedEntry le32
  simp only [hzero, hones]
  rcases hw with hw | hw | hw
  · simp only [hw, Nat.reduceEqDiff, if_false]
    split <;> omega
  · simp [hw]
  · simp [hw]

theorem Follows.const (ht : HasTable d fs) {x : UInt8}
    (h : Follows d fs (fun b => ∀ y, y < 3072 → b y = x) st q) (hq : q.held = .spoilt (blockOf fs c)) :
    (getFatent d fs st c).1 = storedEntry fs.fatsize (fun _ => x) c := by
  have hnumber : st.fatbufnum = some (blockOf fs c) := by
    rw [h.number, hq]
    rfl
  rw [getFatent_buffered ht hnumber]
  exact bufEntry_of_holds (d := { d with bytes := fun _ => x }) ⟨ht.width, ht.fits⟩ (h.spoilt _ hq)

/-- The buffer is transparent for exactly the sequences of calls none of which is answered out of a
buffer that a failed read has spoilt or, for FAT32, gets an entry with reserved bits set. -/
theorem fat_cache_transparent_iff (d : Disk) (fs : Fsdata) (st : Store) (calls : List Nat)
    (ht : HasTable d fs) (hst : st.fatbufnum = none) (hin : ∀ c ∈ calls, InTable fs c) :
    Transparent d fs st calls ↔
      ∀ (before : List Nat) (c : Nat) (rest : List Nat), calls = before ++ c :: rest →
        (before.foldl (Requests.next d fs) ⟨st.reads, .nothing⟩).Answers d fs c →
        (before.foldl (Requests.next d fs) ⟨st.reads, .nothing⟩).held ≠ .spoilt (blockOf fs c) ∧
        (fs.fatsize = 32 → storedEntry fs.fatsize (fatTable d fs) c < 268435456) := by
  have hrun : ∀ (junk : Nat → Nat → UInt8 → UInt8) (Left : Flash → Prop)
      (_ : ∀ n b, Left (afterFailure (d.leaving junk) n b)) (before : List Nat) (c : Nat) (rest : List Nat),
      calls = before ++ c :: rest →
      Follows (d.leaving junk) fs Left (afterCalls (d.leaving junk) fs st before)
        (before.foldl (Requests.next d fs) ⟨st.reads, .nothing⟩) := by
    intro junk Left hleft before c rest hcalls
    refine afterCalls_follows (d := d.leaving junk) ⟨ht.width, ht.fits⟩ hleft
      ⟨rfl, hst, fun n hn => (by cases hn), fun n hn => (by cases hn)⟩ before fun x hx => ?_
    exact hin x (hcalls ▸ List.mem_append_left _ hx)
  have hmem : ∀ {before c rest}, calls = before ++ c :: rest → InTable fs c := by
    intro before c rest hcalls
    exact hin c (hcalls ▸ List.mem_append_right _ (List.mem_cons_self ..))
  constructor
  · intro h before c rest hcalls ha
    have hgood : (before.foldl (Requests.next d fs) ⟨st.reads, .nothing⟩).held ≠ .spoilt (blockOf fs c) := by
      intro hspoilt
      -- what the failed read leaves is chosen to differ from the entry
      obtain ⟨x, hx⟩ : ∃ x : UInt8, storedEntry fs.fatsize (fun _ => x) c ≠
          fatEntry fs.fatsize (fatTable d fs) c := by
        have hconst := storedEntry_const (c := c) ht.width
        by_cases hzero : fatEntry fs.fatsize (fatTable d fs) c = 0
        · exact ⟨255, by rw [hzero]; exact hconst.2⟩
        · exact ⟨0, by rw [hconst.1]; exact fun he => hzero he.symm⟩
      have hf := hrun (fun _ _ _ => x) (fun b => ∀ y, y < 3072 → b y = x)
        (fun n b y hy => patch_inside (Nat.zero_le y) (by omega)) before c rest hcalls
      have hvalue := hf.const (d := d.leaving fun _ _ _ => x) ⟨ht.width, ht.fits⟩ hspoilt
      exact hx (hvalue.symm.trans (h _ before c rest hcalls (hf.answered.mpr ha)))
    refine ⟨hgood, fun hw => ?_⟩
    have hf := hrun d.spoilt (fun _ => True) (fun _ _ => trivial) before c rest hcalls
    have hvalue := hf.stored (d := d.leaving d.spoilt) ⟨ht.width, ht.fits⟩ (hmem hcalls) ha hgood
    have hentry := h _ before c rest hcalls (hf.answered.mpr ha)
    rw [hvalue] at hentry
    change storedEntry fs.fatsize (fatTable d fs) c = _ at hentry
    unfold fatEntry at hentry
    rw [if_pos hw] at hentry
    rw [hentry]
    exact Nat.mod_lt _ (by omega)
  · intro h junk before c rest hcalls ha
    have hf := hrun junk (fun _ => True) (fun _ _ => trivial) before c rest hcalls
    have hq := hf.answered.mp ha
    obtain ⟨hgood, hbits⟩ := h before c rest hcalls hq
    rw [hf.stored (d := d.leaving junk) ⟨ht.width, ht.fits⟩ (hmem hcalls) hq hgood]
    unfold fatEntry
    split
    next hw => exact (Nat.mod_eq_of_lt (hbits hw)).symm
    · rfl

def failingDisk : Disk where
  size := 32
  bytes _ := 0
  ok n s c := n != 1 && (c == 0 || s + c ≤ 32)
  spoilt _ _ _ := 0xff
  partOffset := 0
  size_lt := by omega
  beyond := by
    intro n s c h
    simp only [Bool.and_eq_true, Bool.or_eq_true, beq_iff_eq, decide_eq_true_eq] at h
    exact h.2

def twoBlocks : Fsdata := ⟨16, 12, 1, 13, 1, 12⟩

/-- The buffer as `do_fat_read` leaves it. -/
def emptyBuffer : Store := ⟨0, fun _ => 0, none, fun _ => 0, fun _ => 0, fun _ => 0, fun _ => 0⟩

/-- The same disk with different entries. -/
def numberedDisk : Disk := { failingDisk with bytes := fun x => UInt8.ofNat (x / 2) }

/-- An entry that is read and one out of the buffer, the read of another block that fails, and entries of that
block and of the first one behind it. -/
def mixedCalls : List Nat := [3, 4, 1536, 1537, 1538, 5]

/-- The second read leaves any bytes in the buffer; the other five calls give what the table has. -/
theorem mixed_calls_transparent : Transparent numberedDisk twoBlocks emptyBuffer mixedCalls := by
  refine (fat_cache_transparent_iff numberedDisk twoBlocks emptyBuffer mixedCalls ⟨.inr (.inl rfl), by decide⟩ rfl
    (by unfold InTable; decide)).mpr fun before c rest hcalls _ => ⟨?_, nofun⟩
  have hall : ∀ i, i < 6 → ((mixedCalls.take i).foldl (Requests.next numberedDisk twoBlocks) ⟨0, .nothing⟩).held ≠
      .spoilt (blockOf twoBlocks (mixedCalls.getD i 0)) := by decide
  have hlen : before.length < 6 := by
    have := congrArg List.length hcalls
    rw [List.length_append, List.length_cons] at this
    change 6 = _ at this
    omega
  simpa [hcalls, emptyBuffer] using hall before.length hlen

/-- An entry of the first block after the second one could not be read. -/
theorem entry_after_a_failed_read :
    ¬∀ (d : Disk) (fs : Fsdata) (st : Store) (calls : List Nat), HasTable d fs → st.fatbufnum = none →
      (∀ c ∈ calls, InTable fs c) → Transparent d fs st calls := by
  intro h
  have htransparent := h failingDisk twoBlocks emptyBuffer [0, 1536, 1] ⟨.inr (.inl rfl), by decide⟩ rfl
    (by unfold InTable; decide)
  have hvalue := htransparent (fun _ _ _ => 0xff) [0, 1536] 1 [] rfl (.inl (by decide))
  revert hvalue
  decide

end UBoot.Fat
