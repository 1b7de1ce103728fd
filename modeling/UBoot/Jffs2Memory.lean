import UBoot.Blocks
import UBoot.Runs

namespace UBoot.Jffs2Memory

open Blocks List

def nodeChunk : Nat := 1024

/-- `struct b_list`: the blocks from `listMemBase` on, the `index` of the first, and `listCount`. -/
structure NodeList where
  memBase : List Nat
  index : Nat
  count : Nat

/-- `struct b_lists`. It is `complete` when the scan that fills it has come to its end. -/
structure Lists where
  frag : NodeList
  dir : NodeList
  readbuf : Option Nat
  complete : Bool

def NodeList.empty : NodeList := ⟨[], 0, 0⟩

def Lists.empty : Lists := ⟨NodeList.empty, NodeList.empty, none, false⟩

def Lists.blocks (l : Lists) : List Nat := l.frag.memBase ++ (l.dir.memBase ++ l.readbuf.toList)

def Lists.get (l : Lists) (dir : Bool) : NodeList := if dir then l.dir else l.frag

def Lists.put (l : Lists) (dir : Bool) (n : NodeList) : Lists :=
  if dir then { l with dir := n } else { l with frag := n }

/-- How the summary of a sector ends, if there is memory for its nodes: they are taken (`true` for an entry of a
directory), the sector is scanned nevertheless, or the whole scan fails. Its first pass settles that. -/
inductive SumEnd where
  | taken (nodes : List Bool)
  | refused
  | failed
deriving DecidableEq

/-- A summary, and whether it needs memory of its own. -/
structure Summary where
  own : Bool
  ends : SumEnd

def Summary.inserts (sum : Summary) : List Bool :=
  match sum.ends with
  | .taken nodes => nodes
  | .refused => []
  | .failed => []

/-- What the scan meets in a sector. -/
structure Sector where
  summary : Option Summary
  found : List Bool

/-- Which calls of `malloc` in a scan have memory: for the lists, for the buffer, for a node block and for the
summary of a sector, and for `readbuf`. -/
structure Oracle where
  lists : Bool
  buf : Bool
  block : Nat → Bool
  summary : Nat → Bool
  readbuf : Bool

/-- The scan: the heap, all lists, and how many node blocks it has asked for. -/
structure Work where
  heap : Heap
  lists : Nat → Lists
  asked : Nat

variable (o : Oracle)

/-- `insert_node` into a list of `pL`, or `none` where that looks at memory that is not live. -/
def insertNode (pL : Option Nat) (dir : Bool) (w : Work) : Option (Bool × Work) := do
  let b ← pL
  let l := (w.lists b).get dir
  if b ∈ w.heap.live ∧ ∀ c ∈ l.memBase, c ∈ w.heap.live then
    if l.memBase = [] ∨ l.index ≥ nodeChunk then
      let (memBase, heap) := w.heap.malloc (o.block w.asked)
      match memBase with
      | none => some (false, { w with asked := w.asked + 1 })
      | some c =>
        let lists := (w.lists b).put dir ⟨c :: l.memBase, 1, l.count + 1⟩
        some (true, ⟨heap, Function.update w.lists b lists, w.asked + 1⟩)
    else
      let lists := (w.lists b).put dir ⟨l.memBase, l.index + 1, l.count + 1⟩
      some (true, { w with lists := Function.update w.lists b lists })
  else none

def insertNodes (pL : Option Nat) : List Bool → Work → Option (Bool × Work)
  | [], w => some (true, w)
  | dir :: nodes, w => do
    let (ok, w) ← insertNode o pL dir w
    if ok then insertNodes pL nodes w else some (false, w)

def sumScan (pL : Option Nat) (sum : Summary) (w : Work) : Option (SumEnd × Work) := do
  let (ok, w) ← insertNodes o pL sum.inserts w
  some (if ok then sum.ends else .failed, w)

/-- The summary of sector `i`, with its memory. -/
def scanSummary (pL : Option Nat) (i : Nat) (sum : Summary) (w : Work) : Option (SumEnd × Work) :=
  if sum.own then
    let (sumptr, heap) := w.heap.malloc (o.summary i)
    match sumptr with
    | none => some (.failed, w)
    | some p => do
      let (ends, w) ← sumScan o pL sum { w with heap := heap }
      let heap ← w.heap.free p
      some (ends, { w with heap := heap })
  else sumScan o pL sum w

def scanSector (pL buf : Option Nat) (i : Nat) (s : Sector) (w : Work) : Option (Bool × Work) :=
  if buf = none then none
  else
    match s.summary with
    | none => insertNodes o pL s.found w
    | some sum => do
      let (ends, w) ← scanSummary o pL i sum w
      match ends with
      | .taken _ => some (true, w)
      | .refused => insertNodes o pL s.found w
      | .failed => some (false, w)

/-- The sectors from `i` on. -/
def scanSectors (pL buf : Option Nat) : Nat → List Sector → Work → Option (Bool × Work)
  | _, [], w => some (true, w)
  | i, s :: sectors, w => do
    let (on, w) ← scanSector o pL buf i s w
    if on then scanSectors pL buf (i + 1) sectors w else some (false, w)

/-- `free_nodes`, for the blocks of a list -/
def freeNodes : List Nat → Heap → Option Heap
  | [], h => some h
  | b :: bs, h => do
    let h ← h.free b
    freeNodes bs h

/-- The heap, `jffs2_priv` of each partition, and what is in the lists. -/
structure Memory (P : Type) where
  heap : Heap
  priv : P → Option Nat
  lists : Nat → Lists

def Memory.init {P : Type} : Memory P := ⟨⟨0, []⟩, fun _ => none, fun _ => Lists.empty⟩

variable {P : Type} [DecidableEq P]

/-- `jffs2_free_cache`. It leaves `jffs2_priv` as it is. -/
def freeCache (part : P) (m : Memory P) : Option (Memory P) :=
  match m.priv part with
  | none => some m
  | some pL =>
    if pL ∈ m.heap.live then do
      let heap ← freeNodes (m.lists pL).blocks m.heap
      let heap ← heap.free pL
      some { m with heap := heap }
    else none

def init1passList (part : P) (m : Memory P) : Option (Memory P) := do
  let m ← freeCache part m
  let (pL, heap) := m.heap.malloc o.lists
  let m := { m with heap := heap, priv := Function.update m.priv part pL }
  match pL with
  | none => some m
  | some b => some { m with lists := Function.update m.lists b Lists.empty }

/-- `jffs2_1pass_build_lists`, over the sectors that it scans. -/
def buildLists (part : P) (sectors : List Sector) (m : Memory P) : Option (Bool × Memory P) := do
  let m ← init1passList o part m
  let pL := m.priv part
  let (buf, heap) := m.heap.malloc o.buf
  let (done, w) ← scanSectors o pL buf 0 sectors ⟨heap, m.lists, 0⟩
  let heap ← freeNodes buf.toList w.heap
  let m := { m with heap := heap, lists := w.lists }
  if done then
    let b ← pL
    if b ∈ heap.live then
      let (readbuf, heap) := heap.malloc o.readbuf
      let lists := { m.lists b with readbuf := readbuf, complete := true }
      some (true, { m with heap := heap, lists := Function.update m.lists b lists })
    else none
  else do
    let m ← freeCache part m
    some (false, m)

/-- `jffs2_1pass_rescan_needed`; `changed` says whether an entry in the list is none any more on the flash. -/
def rescanNeeded (part : P) (changed : Bool) (m : Memory P) : Option Bool :=
  match m.priv part with
  | none => some true
  | some pL =>
    if pL ∈ m.heap.live then
      if (m.lists pL).frag.count = 0 then some true
      else if ∀ c ∈ (m.lists pL).dir.memBase, c ∈ m.heap.live then some (changed && (m.lists pL).dir.count != 0)
      else none
    else none

def lookAt (part : P) (m : Memory P) : Option Unit := do
  let pL ← m.priv part
  if pL ∈ m.heap.live ∧ ∀ c ∈ (m.lists pL).blocks, c ∈ m.heap.live then some () else none

/-- A command: the partition, whether the flash has changed under its lists, and what a scan meets and gets. -/
structure Command (P : Type) where
  part : P
  changed : Bool
  sectors : List Sector
  oracle : Oracle

/-- `jffs2_1pass_ls`, `jffs2_1pass_load` and `jffs2_1pass_info`: they get the lists from `jffs2_get_list` and look at
them, or stop where it has none for them. -/
def command (m : Memory P) (c : Command P) : Option (Bool × Memory P) := do
  let again ← rescanNeeded c.part c.changed m
  let (got, m) ← if again then buildLists c.oracle c.part c.sectors m else some (true, m)
  if got then do
    let _ ← lookAt c.part m
    some (true, m)
  else some (false, m)

def chunks (n : Nat) : Nat := (n + 1023) / 1024

def Sector.inserts (s : Sector) : List Bool :=
  match s.summary with
  | none => s.found
  | some sum => if sum.ends = .refused then s.found else sum.inserts

def inserts (sectors : List Sector) : List Bool := sectors.flatMap Sector.inserts

def blocksFor (nodes : List Bool) : Nat := chunks (nodes.count false) + chunks (nodes.count true)

/-- The summary of sector `i` has its memory and does not make the scan fail. -/
def Sector.Fine (o : Oracle) (i : Nat) (s : Sector) : Prop :=
  ∀ sum, s.summary = some sum → (sum.own = true → o.summary i = true) ∧ sum.ends ≠ .failed

/-- All memory that the scan asks for on its way is there, and no summary makes it fail. -/
structure Provided (o : Oracle) (sectors : List Sector) : Prop where
  lists : o.lists = true
  buf : o.buf = true ∨ sectors = []
  block : ∀ k, k < blocksFor (inserts sectors) → o.block k = true
  summary : ∀ i (s : Sector), sectors[i]? = some s → s.Fine o i

/-- The summary of the sector makes the scan fail before a node is inserted. -/
def Sector.Stops (o : Oracle) (i : Nat) (s : Sector) : Prop :=
  ∃ sum, s.summary = some sum ∧ (sum.own = true ∧ o.summary i = false ∨ sum.ends = .failed)

def StopsEarly (o : Oracle) : Nat → List Sector → Prop
  | _, [] => False
  | i, s :: sectors => s.Stops o i ∨ (s.Fine o i ∧ s.inserts = []) ∧ StopsEarly o (i + 1) sectors

/-- A scan after which all is well: it gets what it needs, or it has no lists and fails before it needs them. -/
def Harmless (o : Oracle) (sectors : List Sector) : Prop :=
  Provided o sectors ∨ o.lists = false ∧ o.buf = true ∧ StopsEarly o 0 sectors

/-- A list of `n` nodes. -/
structure NodeList.Fits (l : NodeList) (n : Nat) : Prop where
  count : l.count = n
  blocks : l.memBase.length = chunks n
  index : 0 < n → l.index + 1024 * l.memBase.length = n + 1024

/-- The scan has the lists at `b`, and `extra` besides. -/
structure Held (b : Nat) (lists₀ : Nat → Lists) (extra : List Nat) (rest : Nat → Prop) (w : Work) : Prop where
  owns : w.heap.Owns (b :: ((w.lists b).blocks ++ extra)) rest
  readbuf : (w.lists b).readbuf = none
  others : ∀ b', b' ≠ b → w.lists b' = lists₀ b'

/-- The lists at `b` hold so many nodes as have been inserted, in no more blocks than they need. -/
structure Counted (b : Nat) (past : List Bool) (w : Work) : Prop where
  fits : ∀ dir, ((w.lists b).get dir).Fits (past.count dir)
  asked : w.asked = blocksFor past

variable {o : Oracle} {b c i n : Nat} {lists₀ : Nat → Lists} {extra : List Nat} {rest : Nat → Prop} {w : Work}
  {past nodes : List Bool} {l : Lists}

theorem NodeList.Fits.full_iff {l : NodeList} (h : l.Fits n) : l.memBase = [] ∨ l.index ≥ nodeChunk ↔ n % 1024 = 0 := by
  have hlen := h.blocks
  have hindex := h.index
  unfold chunks at hlen
  unfold nodeChunk
  rw [← length_eq_zero_iff]
  omega

theorem NodeList.Fits.fresh {l : NodeList} (h : l.Fits n) (hfull : n % 1024 = 0) :
    NodeList.Fits ⟨c :: l.memBase, 1, l.count + 1⟩ (n + 1) := by
  have hlen := h.blocks
  unfold chunks at hlen
  refine ⟨congrArg Nat.succ h.count, ?_, fun _ => ?_⟩
  · rw [length_cons]
    unfold chunks
    omega
  · dsimp only
    rw [length_cons]
    omega

theorem NodeList.Fits.next {l : NodeList} (h : l.Fits n) (hroom : n % 1024 ≠ 0) :
    NodeList.Fits ⟨l.memBase, l.index + 1, l.count + 1⟩ (n + 1) := by
  have hlen := h.blocks
  have hindex := h.index (by omega)
  unfold chunks at hlen
  refine ⟨congrArg Nat.succ h.count, ?_, fun _ => ?_⟩
  · dsimp only
    unfold chunks
    omega
  · dsimp only
    omega

theorem chunks_succ (n : Nat) : chunks (n + 1) = chunks n + if n % 1024 = 0 then 1 else 0 := by
  unfold chunks
  split <;> omega

theorem Lists.get_put (dir dir' : Bool) (n : NodeList) :
    (l.put dir n).get dir' = if dir' = dir then n else l.get dir' := by
  cases dir <;> cases dir' <;> rfl

theorem Lists.put_readbuf (dir : Bool) (n : NodeList) : (l.put dir n).readbuf = l.readbuf := by
  cases dir <;> rfl

theorem Lists.blocks_same (dir : Bool) (index count : Nat) :
    (l.put dir ⟨(l.get dir).memBase, index, count⟩).blocks = l.blocks := by
  cases dir <;> rfl

theorem Lists.blocks_more (dir : Bool) (c index count : Nat) :
    (l.put dir ⟨c :: (l.get dir).memBase, index, count⟩).blocks.Perm (c :: l.blocks) := by
  cases dir with
  | false => exact List.Perm.refl _
  | true => exact perm_middle

theorem Lists.get_blocks (dir : Bool) (h : c ∈ (l.get dir).memBase) : c ∈ l.blocks := by
  unfold Lists.blocks
  cases dir with
  | false => exact mem_append_left _ h
  | true => exact mem_append_right _ (mem_append_left _ h)

theorem Lists.blocks_readbuf {p : Option Nat} (h : l.readbuf = none) :
    (p.toList ++ l.blocks).Perm ({ l with readbuf := p, complete := true } : Lists).blocks := by
  unfold Lists.blocks
  rw [h, Option.toList_none, append_nil, ← append_assoc l.frag.memBase]
  exact perm_append_comm

theorem blocksFor_snoc (dir : Bool) :
    blocksFor (past ++ [dir]) = blocksFor past + if past.count dir % 1024 = 0 then 1 else 0 := by
  unfold blocksFor
  rw [count_append, count_append]
  cases dir with
  | false =>
    have hother : [false].count true = 0 := by rfl
    rw [count_singleton_self, hother, chunks_succ, Nat.add_zero]
    omega
  | true =>
    have hother : [true].count false = 0 := by rfl
    rw [count_singleton_self, hother, chunks_succ, Nat.add_zero]
    omega

theorem Counted.put {n : NodeList} {asked : Nat} {heap : Heap} {dir : Bool} (h : Counted b past w)
    (hn : n.Fits (past.count dir + 1)) (hasked : asked = blocksFor (past ++ [dir])) :
    Counted b (past ++ [dir]) ⟨heap, Function.update w.lists b ((w.lists b).put dir n), asked⟩ := by
  refine ⟨fun dir' => ?_, hasked⟩
  dsimp only
  rw [Function.update_self, Lists.get_put, count_append]
  split
  next heq =>
    subst heq
    rwa [count_singleton_self]
  next hne =>
    rw [count_singleton, if_neg (by simpa using Ne.symm hne), Nat.add_zero]
    exact h.fits dir'

theorem blocksFor_append_le (past nodes : List Bool) : blocksFor past ≤ blocksFor (past ++ nodes) := by
  unfold blocksFor chunks
  rw [count_append, count_append]
  omega

theorem insertNode_spec (dir : Bool) (hh : Held b lists₀ extra rest w) (hc : Counted b past w) :
    ∃ w', Held b lists₀ extra rest w' ∧
      (insertNode o (some b) dir w = some (true, w') ∧ Counted b (past ++ [dir]) w' ∧
          (∀ k, w.asked ≤ k → k < w'.asked → o.block k = true) ∨
        insertNode o (some b) dir w = some (false, w') ∧ w.asked < blocksFor (past ++ [dir]) ∧
          o.block w.asked = false) := by
  have hfits := hc.fits dir
  have hlive : b ∈ w.heap.live ∧ ∀ c ∈ ((w.lists b).get dir).memBase, c ∈ w.heap.live := by
    refine ⟨hh.owns.live b mem_cons_self, fun c hc => hh.owns.live c ?_⟩
    exact mem_cons_of_mem b (mem_append_left extra (Lists.get_blocks dir hc))
  have hnext : blocksFor (past ++ [dir]) = _ := blocksFor_snoc dir
  have hasked := hc.asked
  have hothers : ∀ l' b', b' ≠ b → Function.update w.lists b l' b' = lists₀ b' := by
    intro l' b' hne
    rw [Function.update_of_ne hne]
    exact hh.others b' hne
  have hreadbuf : ∀ n, (Function.update w.lists b ((w.lists b).put dir n) b).readbuf = none := by
    intro n
    rw [Function.update_self, Lists.put_readbuf]
    exact hh.readbuf
  unfold insertNode
  simp only [Option.bind_eq_bind, Option.bind_some]
  rw [if_pos hlive]
  by_cases hfull : past.count dir % 1024 = 0
  · rw [if_pos (hfits.full_iff.mpr hfull)]
    rw [if_pos hfull] at hnext
    cases hblock : o.block w.asked with
    | false =>
      refine ⟨{ w with asked := w.asked + 1 }, ⟨hh.owns, hh.readbuf, hh.others⟩, .inr ⟨?_, by omega, rfl⟩⟩
      rw [Heap.malloc_fails]
    | true =>
      obtain ⟨c, heap, hmalloc, howns, -⟩ := hh.owns.malloc
      rw [hmalloc]
      refine ⟨_, ⟨?_, hreadbuf _, hothers _⟩, .inl ⟨rfl, hc.put (hfits.fresh hfull) (by omega), ?_⟩⟩
      · dsimp only
        rw [Function.update_self]
        refine howns.perm ((List.Perm.swap b c _).trans (List.Perm.cons b ?_))
        exact (((w.lists b).blocks_more dir c _ _).append_right extra).symm
      · intro k hk hlt
        have hsame : k = w.asked := by
          dsimp only at hlt
          omega
        rw [hsame]
        exact hblock
  · rw [if_neg (fun h => hfull (hfits.full_iff.mp h))]
    rw [if_neg hfull] at hnext
    refine ⟨_, ⟨?_, hreadbuf _, hothers _⟩, .inl ⟨rfl, hc.put (hfits.next hfull) (by omega), ?_⟩⟩
    · dsimp only
      rw [Function.update_self, Lists.blocks_same]
      exact hh.owns
    · intro k hk hlt
      exact absurd hlt (Nat.not_lt.mpr hk)

theorem insertNodes_spec (nodes : List Bool) (hh : Held b lists₀ extra rest w) (hc : Counted b past w) :
    ∃ w', Held b lists₀ extra rest w' ∧
      (insertNodes o (some b) nodes w = some (true, w') ∧ Counted b (past ++ nodes) w' ∧
          (∀ k, blocksFor past ≤ k → k < blocksFor (past ++ nodes) → o.block k = true) ∨
        insertNodes o (some b) nodes w = some (false, w') ∧
          ∃ k, blocksFor past ≤ k ∧ k < blocksFor (past ++ nodes) ∧ o.block k = false) := by
  induction nodes generalizing past w with
  | nil =>
    refine ⟨w, hh, .inl ⟨rfl, by rwa [append_nil], fun k hk hlt => ?_⟩⟩
    rw [append_nil] at hlt
    exact absurd hlt (Nat.not_lt.mpr hk)
  | cons dir nodes ih =>
    have hasked := hc.asked
    have hsplit : past ++ dir :: nodes = past ++ [dir] ++ nodes := by simp
    obtain ⟨w₁, hh₁, ⟨hrun, hc₁, hblocks⟩ | ⟨hrun, hless, hblock⟩⟩ := insertNode_spec (o := o) dir hh hc
    · have hasked₁ := hc₁.asked
      rw [hsplit]
      obtain ⟨w', hh', ⟨hrun', hc', hblocks'⟩ | ⟨hrun', k, hk, hlt, hblock⟩⟩ := ih hh₁ hc₁
      · refine ⟨w', hh', .inl ⟨?_, hc', fun k hk hlt => ?_⟩⟩
        · simp only [insertNodes, hrun, hrun', Option.bind_eq_bind, Option.bind_some, if_true]
        · rcases Nat.lt_or_ge k (blocksFor (past ++ [dir])) with hin | hout
          · exact hblocks k (by omega) (by omega)
          · exact hblocks' k hout hlt
      · refine ⟨w', hh', .inr ⟨?_, k, ?_, hlt, hblock⟩⟩
        · simp only [insertNodes, hrun, hrun', Option.bind_eq_bind, Option.bind_some, if_true]
        · exact Nat.le_trans (blocksFor_append_le past [dir]) hk
    · refine ⟨w₁, hh₁, .inr ⟨?_, w.asked, by omega, ?_, hblock⟩⟩
      · simp only [insertNodes, hrun, Option.bind_eq_bind, Option.bind_some, Bool.false_eq_true, if_false]
      · rw [hsplit]
        exact Nat.lt_of_lt_of_le hless (blocksFor_append_le _ nodes)

/-- There is memory for the node blocks that the nodes after `past` take. -/
def Room (o : Oracle) (past nodes : List Bool) : Prop :=
  ∀ k, blocksFor past ≤ k → k < blocksFor (past ++ nodes) → o.block k = true

theorem room_append {nodes' : List Bool} :
    Room o past (nodes ++ nodes') ↔ Room o past nodes ∧ Room o (past ++ nodes) nodes' := by
  unfold Room
  rw [← append_assoc]
  have hle := blocksFor_append_le past nodes
  have hle' := blocksFor_append_le (past ++ nodes) nodes'
  constructor
  · intro h
    exact ⟨fun k hk hlt => h k hk (by omega), fun k hk hlt => h k (by omega) hlt⟩
  · rintro ⟨h, h'⟩ k hk hlt
    rcases Nat.lt_or_ge k (blocksFor (past ++ nodes)) with hin | hout
    · exact h k hk hin
    · exact h' k hout hlt

theorem room_nil : Room o past [] := by
  intro k hk hlt
  rw [append_nil] at hlt
  omega

theorem not_room {k : Nat} (hk : blocksFor past ≤ k) (hlt : k < blocksFor (past ++ nodes)) (hno : o.block k = false) :
    ¬Room o past nodes := by
  intro h
  rw [h k hk hlt] at hno
  cases hno

theorem Summary.inserts_nil {sum : Summary} (h : sum.ends = .refused ∨ sum.ends = .failed) : sum.inserts = [] := by
  unfold Summary.inserts
  rcases h with h | h <;> rw [h]

theorem sumScan_spec (sum : Summary) (hh : Held b lists₀ extra rest w) (hc : Counted b past w) :
    ∃ w', Held b lists₀ extra rest w' ∧
      (sumScan o (some b) sum w = some (sum.ends, w') ∧ Counted b (past ++ sum.inserts) w' ∧ Room o past sum.inserts ∨
        sumScan o (some b) sum w = some (.failed, w') ∧ ¬Room o past sum.inserts) := by
  unfold sumScan
  obtain ⟨w', hh', ⟨hrun, hc', hroom⟩ | ⟨hrun, k, hk, hlt, hno⟩⟩ := insertNodes_spec (o := o) sum.inserts hh hc
  · exact ⟨w', hh', .inl ⟨by simp only [hrun, Option.bind_eq_bind, Option.bind_some, if_true], hc', hroom⟩⟩
  · refine ⟨w', hh', .inr ⟨?_, not_room hk hlt hno⟩⟩
    simp only [hrun, Option.bind_eq_bind, Option.bind_some, Bool.false_eq_true, if_false]

theorem scanSummary_spec (i : Nat) (sum : Summary) (hh : Held b lists₀ extra rest w) (hc : Counted b past w) :
    ∃ w', Held b lists₀ extra rest w' ∧
      (scanSummary o (some b) i sum w = some (sum.ends, w') ∧ Counted b (past ++ sum.inserts) w' ∧
          (sum.own = true → o.summary i = true) ∧ Room o past sum.inserts ∨
        scanSummary o (some b) i sum w = some (.failed, w') ∧
          ¬((sum.own = true → o.summary i = true) ∧ Room o past sum.inserts)) := by
  unfold scanSummary
  cases hown : sum.own with
  | false =>
    obtain ⟨w', hh', ⟨hrun, hc', hroom⟩ | ⟨hrun, hno⟩⟩ := sumScan_spec (o := o) sum hh hc
    · exact ⟨w', hh', .inl ⟨hrun, hc', nofun, hroom⟩⟩
    · exact ⟨w', hh', .inr ⟨hrun, fun h => hno h.2⟩⟩
  | true =>
    rw [if_pos rfl]
    cases hmem : o.summary i with
    | false =>
      refine ⟨w, hh, .inr ⟨rfl, fun h => ?_⟩⟩
      cases h.1 rfl
    | true =>
      obtain ⟨p, heap, hmalloc, howns, -⟩ := hh.owns.malloc
      have hheld : Held b lists₀ (p :: extra) rest { w with heap := heap } := by
        refine ⟨howns.perm ?_, hh.readbuf, hh.others⟩
        exact (List.Perm.swap b p _).trans (List.Perm.cons b perm_middle.symm)
      have hcounted : Counted b past { w with heap := heap } := ⟨hc.fits, hc.asked⟩
      rw [hmalloc]
      obtain ⟨w₁, hh₁, hcase⟩ := sumScan_spec (o := o) sum hheld hcounted
      have hback : w₁.heap.Owns (p :: b :: ((w₁.lists b).blocks ++ extra)) rest := by
        refine hh₁.owns.perm ?_
        exact (List.Perm.cons b perm_middle).trans (List.Perm.swap p b _)
      obtain ⟨heap', hfree, howns', -⟩ := hback.free
      refine ⟨{ w₁ with heap := heap' }, ⟨howns', hh₁.readbuf, hh₁.others⟩, ?_⟩
      rcases hcase with ⟨hrun, hc', hroom⟩ | ⟨hrun, hno⟩
      · left
        simp only [hrun, hfree, Option.bind_eq_bind, Option.bind_some]
        exact ⟨trivial, ⟨hc'.fits, hc'.asked⟩, fun _ => trivial, hroom⟩
      · right
        simp only [hrun, hfree, Option.bind_eq_bind, Option.bind_some]
        exact ⟨trivial, fun h => hno h.2⟩

theorem scanSector_spec {buf : Option Nat} (i : Nat) (s : Sector) (hbuf : buf ≠ none) (hh : Held b lists₀ extra rest w)
    (hc : Counted b past w) :
    ∃ w', Held b lists₀ extra rest w' ∧
      (scanSector o (some b) buf i s w = some (true, w') ∧ Counted b (past ++ s.inserts) w' ∧ s.Fine o i ∧
          Room o past s.inserts ∨
        scanSector o (some b) buf i s w = some (false, w') ∧ ¬(s.Fine o i ∧ Room o past s.inserts)) := by
  unfold scanSector
  rw [if_neg hbuf]
  obtain ⟨summary, found⟩ := s
  cases summary with
  | none =>
    have hfine : Sector.Fine o i ⟨none, found⟩ := fun sum h => (nomatch h)
    obtain ⟨w', hh', ⟨hrun, hc', hroom⟩ | ⟨hrun, k, hk, hlt, hno⟩⟩ := insertNodes_spec (o := o) found hh hc
    · exact ⟨w', hh', .inl ⟨hrun, hc', hfine, hroom⟩⟩
    · exact ⟨w', hh', .inr ⟨hrun, fun h => not_room hk hlt hno h.2⟩⟩
  | some sum =>
    obtain ⟨w₁, hh₁, ⟨hrun, hc₁, hmem, hroom⟩ | ⟨hrun, hno⟩⟩ := scanSummary_spec (o := o) i sum hh hc
    · simp only [hrun, Option.bind_eq_bind, Option.bind_some]
      have hfine : sum.ends ≠ .failed → Sector.Fine o i ⟨some sum, found⟩ := by
        intro hends sum' h
        cases h
        exact ⟨hmem, hends⟩
      cases hends : sum.ends with
      | taken =>
        have hinserts : Sector.inserts ⟨some sum, found⟩ = sum.inserts := by simp [Sector.inserts, hends]
        rw [hinserts]
        exact ⟨w₁, hh₁, .inl ⟨rfl, hc₁, hfine (by simp [hends]), hroom⟩⟩
      | refused =>
        have hinserts : Sector.inserts ⟨some sum, found⟩ = found := by simp [Sector.inserts, hends]
        rw [Summary.inserts_nil (.inl hends), append_nil] at hc₁
        rw [hinserts]
        obtain ⟨w', hh', ⟨hrun', hc', hroom'⟩ | ⟨hrun', k, hk, hlt, hno⟩⟩ := insertNodes_spec (o := o) found hh₁ hc₁
        · exact ⟨w', hh', .inl ⟨hrun', hc', hfine (by simp [hends]), hroom'⟩⟩
        · exact ⟨w', hh', .inr ⟨hrun', fun h => not_room hk hlt hno h.2⟩⟩
      | failed =>
        refine ⟨w₁, hh₁, .inr ⟨rfl, fun h => ?_⟩⟩
        exact (h.1 sum rfl).2 hends
    · simp only [hrun, Option.bind_eq_bind, Option.bind_some]
      refine ⟨w₁, hh₁, .inr ⟨rfl, fun h => hno ⟨(h.1 sum rfl).1, ?_⟩⟩⟩
      have hroom := h.2
      unfold Sector.inserts at hroom
      dsimp only at hroom
      split at hroom
      next hends =>
        rw [Summary.inserts_nil (.inl hends)]
        exact room_nil
      · exact hroom

theorem scanSectors_spec {buf : Option Nat} (i : Nat) (sectors : List Sector) (hbuf : buf ≠ none ∨ sectors = [])
    (hh : Held b lists₀ extra rest w) (hc : Counted b past w) :
    ∃ w', Held b lists₀ extra rest w' ∧ (scanSectors o (some b) buf i sectors w = some (true, w') ∧
          (∀ k (s : Sector), sectors[k]? = some s → s.Fine o (i + k)) ∧ Room o past (inserts sectors) ∨
        scanSectors o (some b) buf i sectors w = some (false, w') ∧
          ¬((∀ k (s : Sector), sectors[k]? = some s → s.Fine o (i + k)) ∧ Room o past (inserts sectors))) := by
  induction sectors generalizing i past w with
  | nil => exact ⟨w, hh, .inl ⟨rfl, fun k s hs => (nomatch hs), room_nil⟩⟩
  | cons s sectors ih =>
    have hbuf' : buf ≠ none := hbuf.resolve_right (by simp)
    have hinserts : inserts (s :: sectors) = s.inserts ++ inserts sectors := flatMap_cons
    have hfine : (∀ k (s' : Sector), (s :: sectors)[k]? = some s' → s'.Fine o (i + k)) ↔
        s.Fine o i ∧ ∀ k (s' : Sector), sectors[k]? = some s' → s'.Fine o (i + 1 + k) := by
      constructor
      · intro h
        refine ⟨h 0 s rfl, fun k s' hs' => ?_⟩
        rw [Nat.add_right_comm]
        exact h (k + 1) s' hs'
      · rintro ⟨h₀, h⟩ k s' hs'
        cases k with
        | zero =>
          cases hs'
          exact h₀
        | succ k =>
          have hk := h k s' hs'
          rwa [Nat.add_right_comm] at hk
    rw [hinserts, hfine, room_append]
    obtain ⟨w₁, hh₁, ⟨hrun, hc₁, hf, hroom⟩ | ⟨hrun, hno⟩⟩ := scanSector_spec (o := o) i s hbuf' hh hc
    · simp only [scanSectors, hrun, Option.bind_eq_bind, Option.bind_some, if_true]
      obtain ⟨w', hh', ⟨hrun', hfs, hrooms⟩ | ⟨hrun', hno⟩⟩ := ih (i + 1) (.inl hbuf') hh₁ hc₁
      · exact ⟨w', hh', .inl ⟨hrun', ⟨hf, hfs⟩, hroom, hrooms⟩⟩
      · exact ⟨w', hh', .inr ⟨hrun', fun h => hno ⟨h.1.2, h.2.2⟩⟩⟩
    · simp only [scanSectors, hrun, Option.bind_eq_bind, Option.bind_some, Bool.false_eq_true, if_false]
      exact ⟨w₁, hh₁, .inr ⟨rfl, fun h => hno ⟨h.1.1, h.2.1⟩⟩⟩

theorem insertNodes_null (nodes : List Bool) :
    insertNodes o none nodes w = if nodes = [] then some (true, w) else none := by
  cases nodes <;> rfl

theorem scanSummary_null (i : Nat) (sum : Summary) (hmem : sum.own = true → o.summary i = true)
    (ho : w.heap.Owns extra rest) :
    if sum.inserts = [] then
      ∃ w', scanSummary o none i sum w = some (sum.ends, w') ∧ w'.heap.Owns extra rest ∧ w'.lists = w.lists
    else scanSummary o none i sum w = none := by
  have hscan : ∀ w₁ : Work, sumScan o none sum w₁ = if sum.inserts = [] then some (sum.ends, w₁) else none := by
    intro w₁
    unfold sumScan
    rw [insertNodes_null]
    split <;> rfl
  unfold scanSummary
  cases hown : sum.own with
  | false =>
    simp only [Bool.false_eq_true, if_false, hscan]
    split
    · exact ⟨w, rfl, ho, rfl⟩
    · rfl
  | true =>
    obtain ⟨p, heap, hmalloc, ho₁, -⟩ := ho.malloc
    obtain ⟨heap', hfree, ho', -⟩ := ho₁.free
    simp only [if_true, hmem hown, hmalloc, hscan, Option.bind_eq_bind]
    split
    · exact ⟨{ w with heap := heap' }, by simp only [Option.bind_some, hfree], ho', rfl⟩
    · rfl

theorem scanSector_null {buf : Option Nat} (i : Nat) (s : Sector) (hbuf : buf ≠ none) (ho : w.heap.Owns extra rest) :
    (s.Stops o i ∧
        ∃ w', scanSector o none buf i s w = some (false, w') ∧ w'.heap.Owns extra rest ∧ w'.lists = w.lists) ∨
      ((s.Fine o i ∧ s.inserts = []) ∧ ¬s.Stops o i ∧
          ∃ w', scanSector o none buf i s w = some (true, w') ∧ w'.heap.Owns extra rest ∧ w'.lists = w.lists) ∨
        ¬(s.Fine o i ∧ s.inserts = []) ∧ ¬s.Stops o i ∧ scanSector o none buf i s w = none := by
  obtain ⟨summary, found⟩ := s
  unfold scanSector
  rw [if_neg hbuf]
  cases summary with
  | none =>
    have hgo : ¬Sector.Stops o i ⟨none, found⟩ := fun ⟨sum, h, _⟩ => (nomatch h)
    have hfine : Sector.Fine o i ⟨none, found⟩ := fun sum h => (nomatch h)
    have hinserts : Sector.inserts ⟨none, found⟩ = found := rfl
    rw [hinserts]
    simp only [insertNodes_null]
    by_cases hfound : found = []
    · exact .inr (.inl ⟨⟨hfine, hfound⟩, hgo, w, if_pos hfound, ho, rfl⟩)
    · exact .inr (.inr ⟨fun h => hfound h.2, hgo, if_neg hfound⟩)
  | some sum =>
    have hstops : Sector.Stops o i ⟨some sum, found⟩ ↔
        sum.own = true ∧ o.summary i = false ∨ sum.ends = .failed := by simp [Sector.Stops]
    have hfine : Sector.Fine o i ⟨some sum, found⟩ ↔ (sum.own = true → o.summary i = true) ∧ sum.ends ≠ .failed := by
      simp [Sector.Fine]
    rw [hstops, hfine]
    by_cases hlacks : sum.own = true ∧ o.summary i = false
    · refine .inl ⟨.inl hlacks, w, ?_, ho, rfl⟩
      simp [scanSummary, hlacks, Heap.malloc_fails]
    · have hmem : sum.own = true → o.summary i = true := fun h => by simpa [h] using hlacks
      have hscan := scanSummary_null (o := o) i sum hmem ho
      by_cases hnone : sum.inserts = []
      · rw [if_pos hnone] at hscan
        obtain ⟨w₁, hrun, ho₁, hl₁⟩ := hscan
        simp only [hrun, Option.bind_eq_bind, Option.bind_some]
        cases hends : sum.ends with
        | failed => exact .inl ⟨.inr rfl, w₁, rfl, ho₁, hl₁⟩
        | taken =>
          have hinserts : Sector.inserts ⟨some sum, found⟩ = [] := by simp [Sector.inserts, hends, hnone]
          refine .inr (.inl ⟨⟨⟨hmem, by simp⟩, hinserts⟩, ?_, w₁, rfl, ho₁, hl₁⟩)
          exact fun h => h.elim hlacks nofun
        | refused =>
          have hgo : ¬(sum.own = true ∧ o.summary i = false ∨ SumEnd.refused = .failed) :=
            fun h => h.elim hlacks nofun
          have hinserts : Sector.inserts ⟨some sum, found⟩ = found := by simp [Sector.inserts, hends]
          rw [hinserts]
          simp only [insertNodes_null]
          by_cases hfound : found = []
          · exact .inr (.inl ⟨⟨⟨hmem, by simp⟩, hfound⟩, hgo, w₁, if_pos hfound, ho₁, hl₁⟩)
          · exact .inr (.inr ⟨fun h => hfound h.2, hgo, if_neg hfound⟩)
      · rw [if_neg hnone] at hscan
        have hfailed : sum.ends ≠ .failed := fun h => hnone (Summary.inserts_nil (.inr h))
        have hrefused : sum.ends ≠ .refused := fun h => hnone (Summary.inserts_nil (.inl h))
        refine .inr (.inr ⟨fun h => hnone ?_, fun h => h.elim hlacks hfailed, ?_⟩)
        · have hall := h.2
          unfold Sector.inserts at hall
          dsimp only at hall
          rwa [if_neg hrefused] at hall
        · simp only [hscan, Option.bind_eq_bind, Option.bind_none]

theorem scanSectors_null {buf : Option Nat} (i : Nat) (sectors : List Sector) (hbuf : buf ≠ none)
    (ho : w.heap.Owns extra rest) :
    (StopsEarly o i sectors ∧
        ∃ w', scanSectors o none buf i sectors w = some (false, w') ∧ w'.heap.Owns extra rest ∧ w'.lists = w.lists) ∨
      ¬StopsEarly o i sectors ∧ ∀ ok w', scanSectors o none buf i sectors w = some (ok, w') → ok = true := by
  induction sectors generalizing i w with
  | nil =>
    refine .inr ⟨id, fun ok w' hrun => ?_⟩
    cases hrun
    rfl
  | cons s sectors ih =>
    have hcases := scanSector_null (o := o) i s hbuf ho
    rcases hcases with ⟨hstop, w₁, hrun, ho₁, hl₁⟩ | ⟨hquiet, hgo, w₁, hrun, ho₁, hl₁⟩ | ⟨hloud, hgo, hrun⟩
    · left
      simp only [scanSectors, hrun, Option.bind_eq_bind, Option.bind_some, Bool.false_eq_true, if_false]
      exact ⟨.inl hstop, w₁, rfl, ho₁, hl₁⟩
    · simp only [scanSectors, hrun, Option.bind_eq_bind, Option.bind_some, if_true]
      rcases ih (i + 1) ho₁ with ⟨hearly, w', hrun', ho', hl'⟩ | ⟨hlate, hall⟩
      · exact .inl ⟨.inr ⟨hquiet, hearly⟩, w', hrun', ho', hl'.trans hl₁⟩
      · exact .inr ⟨fun h => h.elim hgo fun h => hlate h.2, hall⟩
    · right
      simp only [scanSectors, hrun, Option.bind_eq_bind, Option.bind_none]
      exact ⟨fun h => h.elim hgo fun h => hloud h.1, fun ok w' h => (nomatch h)⟩

theorem freeNodes_spec {h : Heap} {bs own : List Nat} (ho : h.Owns (bs ++ own) rest) :
    ∃ h', freeNodes bs h = some h' ∧ h'.Owns own rest := by
  induction bs generalizing h with
  | nil => exact ⟨h, rfl, ho⟩
  | cons c bs ih =>
    obtain ⟨h₁, hfree, ho₁, -⟩ := Heap.Owns.free (show h.Owns (c :: (bs ++ own)) rest from ho)
    obtain ⟨h', hrun, ho'⟩ := ih ho₁
    refine ⟨h', ?_, ho'⟩
    simp only [freeNodes, hfree, Option.bind_eq_bind, Option.bind_some]
    exact hrun

section
variable {P : Type} {m m' : Memory P} {part : P} {sectors : List Sector}

def Memory.owned (m : Memory P) (part : P) : List Nat := (m.priv part).elim [] fun b => b :: (m.lists b).blocks

def Memory.others (m : Memory P) (part : P) (c : Nat) : Prop := ∃ part', part' ≠ part ∧ c ∈ m.owned part'

/-- Every partition has complete lists of its own, or none. -/
structure Good (m : Memory P) : Prop where
  owns : ∀ part, m.heap.Owns (m.owned part) (m.others part)
  complete : ∀ part b, m.priv part = some b → (m.lists b).complete = true

theorem Memory.owned_some (h : m.priv part = some b) : m.owned part = b :: (m.lists b).blocks := by
  unfold Memory.owned
  rw [h]
  rfl

theorem Memory.owned_none (h : m.priv part = none) : m.owned part = [] := by
  unfold Memory.owned
  rw [h]
  rfl

theorem Good.init : Good (Memory.init : Memory P) := by
  refine ⟨fun part => ⟨⟨nodup_nil, fun b hb => (nomatch hb)⟩, nodup_nil, fun b hb => (nomatch hb), ?_⟩, ?_⟩
  · rintro c ⟨part', -, hc⟩
    cases hc
  · intro part b hb
    cases hb

theorem Good.replace (h : Good m) (hpriv : ∀ part', part' ≠ part → m'.priv part' = m.priv part')
    (hlists : ∀ b, m.others part b → m'.lists b = m.lists b) (howns : m'.heap.Owns (m'.owned part) (m.others part))
    (hcomplete : ∀ b, m'.priv part = some b → (m'.lists b).complete = true) : Good m' := by
  have hmine : ∀ part' b, part' ≠ part → m.priv part' = some b → m.others part b := by
    intro part' b hne hb
    refine ⟨part', hne, ?_⟩
    rw [Memory.owned_some hb]
    exact mem_cons_self
  have howned : ∀ part', part' ≠ part → m'.owned part' = m.owned part' := by
    intro part' hne
    unfold Memory.owned
    rw [hpriv part' hne]
    cases hb : m.priv part' with
    | none => rfl
    | some b => exact congrArg (fun l : Lists => b :: l.blocks) (hlists b (hmine part' b hne hb))
  have hothers : ∀ c, m'.others part c → m.others part c := by
    rintro c ⟨part', hne, hc⟩
    rw [howned part' hne] at hc
    exact ⟨part', hne, hc⟩
  refine ⟨fun part' => ?_, fun part' b hb => ?_⟩
  · by_cases heq : part' = part
    · subst heq
      exact ⟨howns.tidy, howns.nodup, howns.live, fun c hc => howns.apart c (hothers c hc)⟩
    · have hold := h.owns part'
      rw [howned part' heq]
      refine ⟨howns.tidy, hold.nodup, fun c hc => (howns.apart c ⟨part', heq, hc⟩).1, ?_⟩
      rintro c ⟨part'', hne, hc⟩
      by_cases hpart : part'' = part
      · subst hpart
        exact ⟨howns.live c hc, fun hc' => (howns.apart c ⟨part', heq, hc'⟩).2 hc⟩
      · rw [howned part'' hpart] at hc
        exact ⟨(howns.apart c ⟨part'', hpart, hc⟩).1, (hold.apart c ⟨part'', hne, hc⟩).2⟩
  · by_cases heq : part' = part
    · subst heq
      exact hcomplete b hb
    · rw [hpriv part' heq] at hb
      rw [hlists b (hmine part' b heq hb)]
      exact h.complete part' b hb

theorem freeCache_none (h : m.priv part = none) : freeCache part m = some m := by
  unfold freeCache
  rw [h]

theorem freeCache_spec (ho : m.heap.Owns (m.owned part) rest) :
    ∃ heap, freeCache part m = some { m with heap := heap } ∧ heap.Owns [] rest ∧
      ∀ b, m.priv part = some b → b ∉ heap.live := by
  cases hb : m.priv part with
  | none =>
    rw [Memory.owned_none hb] at ho
    exact ⟨m.heap, freeCache_none hb, ho, fun b h => (nomatch h)⟩
  | some b =>
    rw [Memory.owned_some hb] at ho
    have hlive : b ∈ m.heap.live := ho.live b mem_cons_self
    have hlast : m.heap.Owns ((m.lists b).blocks ++ [b]) rest := ho.perm (perm_append_singleton b _).symm
    obtain ⟨heap, hnodes, ho₁⟩ := freeNodes_spec hlast
    obtain ⟨heap', hfree, ho', hdead⟩ := ho₁.free
    refine ⟨heap', ?_, ho', ?_⟩
    · unfold freeCache
      rw [hb]
      simp only [if_pos hlive, hnodes, hfree, Option.bind_eq_bind, Option.bind_some]
    · intro b' hb'
      cases hb'
      exact hdead

theorem Good.rescan (h : Good m) (part : P) (changed : Bool) :
    ∃ again, rescanNeeded part changed m = some again ∧ (m.priv part = none → again = true) := by
  unfold rescanNeeded
  cases hb : m.priv part with
  | none => exact ⟨true, rfl, fun _ => rfl⟩
  | some b =>
    have ho := h.owns part
    rw [Memory.owned_some hb] at ho
    have hdir : ∀ c ∈ (m.lists b).dir.memBase, c ∈ m.heap.live :=
      fun c hc => ho.live c (mem_cons_of_mem b (Lists.get_blocks true hc))
    simp only [if_pos (ho.live b mem_cons_self), if_pos hdir]
    split
    · exact ⟨true, rfl, fun _ => rfl⟩
    · exact ⟨_, rfl, nofun⟩

theorem Good.lookAt (h : Good m) (hsome : m.priv part ≠ none) : lookAt part m = some () := by
  obtain ⟨b, hb⟩ := Option.ne_none_iff_exists'.mp hsome
  have ho := h.owns part
  rw [Memory.owned_some hb] at ho
  unfold Jffs2Memory.lookAt
  rw [hb]
  exact if_pos ⟨ho.live b mem_cons_self, fun c hc => ho.live c (mem_cons_of_mem b hc)⟩

/-- `jffs2_priv` of every partition is NULL or the block of complete lists, which is live with all that belongs to
them. -/
def Sound (m : Memory P) : Prop :=
  ∀ part b, m.priv part = some b → (b ∈ m.heap.live ∧ ∀ c ∈ (m.lists b).blocks, c ∈ m.heap.live) ∧ (m.lists b).complete

theorem Good.sound (h : Good m) : Sound m := by
  intro part b hb
  have ho := h.owns part
  rw [Memory.owned_some hb] at ho
  exact ⟨⟨ho.live b mem_cons_self, fun c hc => ho.live c (mem_cons_of_mem b hc)⟩, h.complete part b hb⟩

end

section
variable {P : Type} [DecidableEq P] {m m' : Memory P} {part : P} {sectors : List Sector} {cmd : Command P}

theorem init1passList_spec (o : Oracle) (part : P) (h : Good m) :
    ∃ pL heap lists, init1passList o part m = some ⟨heap, Function.update m.priv part pL, lists⟩ ∧
      heap.Owns pL.toList (m.others part) ∧ (pL = none ↔ o.lists = false) ∧ (∀ b ∈ pL, lists b = Lists.empty) ∧
        ∀ b, m.others part b → lists b = m.lists b := by
  obtain ⟨heap, hfree, ho, -⟩ := freeCache_spec (h.owns part)
  obtain ⟨pL, heap', hmalloc, ho', hnone⟩ := ho.malloc_toList o.lists
  rw [append_nil] at ho'
  unfold init1passList
  rw [hfree]
  simp only [Option.bind_eq_bind, Option.bind_some, hmalloc]
  cases pL with
  | none => exact ⟨none, heap', m.lists, rfl, ho', hnone, fun b hb => (by cases hb), fun b _ => rfl⟩
  | some b =>
    refine ⟨some b, heap', _, rfl, ho', hnone, fun b' hb' => ?_, fun b' hb' => ?_⟩
    · cases hb'
      exact Function.update_self _ _ _
    · have hne : b' ≠ b := fun heq => (ho'.apart b' hb').2 (heq ▸ mem_singleton_self b)
      exact Function.update_of_ne hne _ _

theorem Held.start {heap : Heap} {lists : Nat → Lists} (hempty : lists b = Lists.empty)
    (ho : heap.Owns (extra ++ [b]) rest) : Held b lists extra rest ⟨heap, lists, 0⟩ := by
  refine ⟨?_, ?_, fun b' _ => rfl⟩
  · dsimp only
    rw [hempty]
    exact ho.perm (perm_append_singleton b extra)
  · dsimp only
    rw [hempty]
    rfl

theorem Counted.start {heap : Heap} {lists : Nat → Lists} (hempty : lists b = Lists.empty) :
    Counted b [] ⟨heap, lists, 0⟩ := by
  refine ⟨fun dir => ?_, rfl⟩
  dsimp only
  rw [hempty]
  cases dir with
  | false => exact ⟨rfl, rfl, nofun⟩
  | true => exact ⟨rfl, rfl, nofun⟩

theorem scanSectors_no_buf {pL : Option Nat} (hne : sectors ≠ []) : scanSectors o pL none i sectors w = none := by
  cases sectors with
  | nil => exact absurd rfl hne
  | cons s sectors => rfl

theorem provided_iff : Provided o sectors ↔ (o.lists = true ∧ (o.buf = true ∨ sectors = [])) ∧
      (∀ k (s : Sector), sectors[k]? = some s → s.Fine o (0 + k)) ∧ Room o [] (inserts sectors) := by
  have hroom : Room o [] (inserts sectors) ↔ ∀ k, k < blocksFor (inserts sectors) → o.block k = true := by
    unfold Room
    rw [nil_append]
    exact ⟨fun h k hk => h k (Nat.zero_le k) hk, fun h k _ hk => h k hk⟩
  simp only [Nat.zero_add, hroom]
  constructor
  · intro h
    exact ⟨⟨h.lists, h.buf⟩, h.summary, h.block⟩
  · rintro ⟨⟨hlists, hbuf⟩, hsummary, hblock⟩
    exact ⟨hlists, hbuf, hblock, hsummary⟩

theorem buildLists_lists (part : P) (sectors : List Sector) (h : Good m) (hlists : o.lists = true) :
    (Provided o sectors ∧ ∃ m', buildLists o part sectors m = some (true, m') ∧ Good m' ∧ m'.priv part ≠ none) ∨
      ¬Provided o sectors ∧ ∀ got m', buildLists o part sectors m = some (got, m') →
        got = false ∧ ∃ b, m'.priv part = some b ∧ b ∉ m'.heap.live := by
  obtain ⟨pL, heap, lists, hinit, ho, hnone, hempty, hothers⟩ := init1passList_spec o part h
  obtain ⟨buf, heap₁, hmalloc, ho₁, hbuf⟩ := ho.malloc_toList o.buf
  cases pL with
  | none => cases hlists.symm.trans (hnone.mp rfl)
  | some b =>
    have hheld := Held.start (hempty b rfl) ho₁
    have hcounted : Counted b [] ⟨heap₁, lists, 0⟩ := Counted.start (hempty b rfl)
    have hbuf' : buf ≠ none ↔ o.buf = true := by
      rw [Ne, hbuf, Bool.not_eq_false]
    have hothers' : ∀ w : Work, Held b lists buf.toList (m.others part) w →
        ∀ b', m.others part b' → w.lists b' = m.lists b' := by
      intro w hw b' hb'
      have hne : b' ≠ b := fun heq => (ho.apart b' hb').2 (heq ▸ mem_singleton_self b)
      rw [hw.others b' hne]
      exact hothers b' hb'
    unfold buildLists
    rw [provided_iff]
    simp only [hinit, hmalloc, Option.bind_eq_bind, Option.bind_some, Function.update_self]
    by_cases hin : buf ≠ none ∨ sectors = []
    · obtain ⟨w, hw, hcase⟩ := scanSectors_spec (o := o) 0 sectors hin hheld hcounted
      have hback : w.heap.Owns (buf.toList ++ (b :: (w.lists b).blocks)) (m.others part) := by
        refine hw.owns.perm ?_
        exact (List.Perm.cons b perm_append_comm).trans perm_middle.symm
      obtain ⟨heap₂, hfree, ho₂⟩ := freeNodes_spec hback
      rcases hcase with ⟨hrun, hneed⟩ | ⟨hrun, hlack⟩
      · left
        obtain ⟨p, heap₃, hread, ho₃, -⟩ := ho₂.malloc_toList o.readbuf
        have hlive : b ∈ heap₂.live := ho₂.live b mem_cons_self
        simp only [hrun, hfree, Option.bind_some, if_true, if_pos hlive, hread]
        refine ⟨⟨⟨hlists, hin.imp_left hbuf'.mp⟩, hneed⟩, _, rfl, ?_, by simp⟩
        refine h.replace (fun part' hne => Function.update_of_ne hne _ _) (fun b' hb' => ?_) ?_ fun b' hb' => ?_
        · have hne : b' ≠ b := fun heq => (ho.apart b' hb').2 (heq ▸ mem_singleton_self b)
          exact (Function.update_of_ne hne _ _).trans (hothers' w hw b' hb')
        · rw [Memory.owned_some (Function.update_self part (some b) m.priv)]
          dsimp only
          rw [Function.update_self]
          exact ho₃.perm (perm_middle.trans (List.Perm.cons b (Lists.blocks_readbuf hw.readbuf)))
        · cases (Function.update_self part (some b) m.priv).symm.trans hb'
          dsimp only
          rw [Function.update_self]
      · right
        simp only [hrun, hfree, Option.bind_some, Bool.false_eq_true, if_false]
        have hpriv : Function.update m.priv part (some b) part = some b := Function.update_self part (some b) m.priv
        have howned := Memory.owned_some (m := ⟨heap₂, Function.update m.priv part (some b), w.lists⟩) hpriv
        rw [← howned] at ho₂
        obtain ⟨heap₃, hfree', -, hdead⟩ := freeCache_spec (m := ⟨heap₂, _, w.lists⟩) ho₂
        simp only [hfree', Option.bind_some]
        refine ⟨fun h => hlack h.2, fun got m' hrun' => ?_⟩
        cases hrun'
        exact ⟨rfl, b, hpriv, hdead b hpriv⟩
    · right
      have hnobuf : buf = none := by simpa using fun h => hin (.inl h)
      have hsome : sectors ≠ [] := fun h => hin (.inr h)
      subst hnobuf
      simp only [scanSectors_no_buf hsome, Option.bind_none]
      refine ⟨fun h => hin (h.1.2.imp_left hbuf'.mpr), fun got m' h => (nomatch h)⟩

theorem buildLists_null (part : P) (sectors : List Sector) (h : Good m) (hlists : o.lists = false) :
    ((o.buf = true ∧ StopsEarly o 0 sectors) ∧
        ∃ m', buildLists o part sectors m = some (false, m') ∧ Good m' ∧ m'.priv part = none) ∨
      ¬(o.buf = true ∧ StopsEarly o 0 sectors) ∧ buildLists o part sectors m = none := by
  obtain ⟨pL, heap, lists, hinit, ho, hnone, -, hothers⟩ := init1passList_spec o part h
  obtain ⟨buf, heap₁, hmalloc, ho₁, hbuf⟩ := ho.malloc_toList o.buf
  have hpL : pL = none := hnone.mpr hlists
  subst hpL
  rw [Option.toList_none, append_nil] at ho₁
  -- A scan that comes to its end writes `readbuf` into lists that are not there.
  have hend : ∀ buf', (∀ ok w', scanSectors o none buf' 0 sectors ⟨heap₁, lists, 0⟩ = some (ok, w') → ok = true) →
      buf = buf' → buildLists o part sectors m = none := by
    rintro buf' hdone rfl
    unfold buildLists
    simp only [hinit, hmalloc, Option.bind_eq_bind, Option.bind_some, Function.update_self]
    cases hrun : scanSectors o none buf 0 sectors ⟨heap₁, lists, 0⟩ with
    | none => rfl
    | some res =>
      obtain ⟨ok, w⟩ := res
      cases hdone ok w hrun
      rw [Option.bind_some]
      cases freeNodes buf.toList w.heap <;> rfl
  cases hok : o.buf with
  | false =>
    refine .inr ⟨fun h => (nomatch h.1), hend none ?_ (hbuf.mpr hok)⟩
    cases sectors with
    | nil =>
      intro ok w' hrun
      cases hrun
      rfl
    | cons s sectors =>
      intro ok w' hrun
      cases hrun
  | true =>
    have hsome : buf ≠ none := fun heq => by cases hok.symm.trans (hbuf.mp heq)
    have hcases := scanSectors_null (o := o) (w := ⟨heap₁, lists, 0⟩) 0 sectors hsome ho₁
    rcases hcases with ⟨hearly, w, hrun, hw, hsame⟩ | ⟨hlate, hdone⟩
    · rw [← append_nil buf.toList] at hw
      obtain ⟨heap₂, hfree, ho₂⟩ := freeNodes_spec hw
      have hpriv : Function.update m.priv part none part = none := Function.update_self part none m.priv
      refine .inl ⟨⟨rfl, hearly⟩, ⟨heap₂, Function.update m.priv part none, w.lists⟩, ?_, ?_, hpriv⟩
      · unfold buildLists
        simp only [hinit, hmalloc, Option.bind_eq_bind, Option.bind_some, Function.update_self, hrun, hfree,
          Bool.false_eq_true, if_false]
        rw [freeCache_none hpriv]
        rfl
      · refine h.replace (fun part' hne => Function.update_of_ne hne _ _) (fun b' hb' => ?_) ?_ fun b' hb' => ?_
        · dsimp only
          rw [hsame]
          exact hothers b' hb'
        · rwa [Memory.owned_none hpriv]
        · cases hpriv.symm.trans hb'
    · exact .inr ⟨fun h => hlate h.2, hend buf hdone rfl⟩

/-- The command leaves the lists of all partitions sound, and after a failed scan the next one scans again. -/
def LeavesSound (_ : Memory P) (cmd : Command P) (got : Bool) (m' : Memory P) : Prop :=
  Sound m' ∧ (got = false → ∀ changed, rescanNeeded cmd.part changed m' = some true)

def ScansWell (m : Memory P) (cmd : Command P) : Prop :=
  rescanNeeded cmd.part cmd.changed m = some true → Harmless cmd.oracle cmd.sectors

theorem buildLists_spec (o : Oracle) (part : P) (sectors : List Sector) (h : Good m) :
    (Harmless o sectors ∧ ∃ got m', buildLists o part sectors m = some (got, m') ∧ Good m' ∧
        (got = false ↔ m'.priv part = none)) ∨
      ¬Harmless o sectors ∧ ∀ got m', buildLists o part sectors m = some (got, m') →
        got = false ∧ ∃ b, m'.priv part = some b ∧ b ∉ m'.heap.live := by
  unfold Harmless
  cases hlists : o.lists with
  | true =>
    rcases buildLists_lists part sectors h hlists with ⟨hall, m', hrun, hgood, hpriv⟩ | ⟨hlack, hbad⟩
    · exact .inl ⟨.inl hall, true, m', hrun, hgood, iff_of_false (fun heq => (nomatch heq)) hpriv⟩
    · exact .inr ⟨fun h => h.elim hlack fun h => (nomatch h.1), hbad⟩
  | false =>
    rcases buildLists_null part sectors h hlists with ⟨hearly, m', hrun, hgood, hpriv⟩ | ⟨hlate, hbad⟩
    · exact .inl ⟨.inr ⟨rfl, hearly⟩, false, m', hrun, hgood, iff_of_true rfl hpriv⟩
    · right
      refine ⟨fun h => h.elim (fun hall => ?_) fun h => hlate h.2, fun got m' hrun => ?_⟩
      · cases hlists.symm.trans hall.lists
      · cases hbad.symm.trans hrun

theorem command_sound (h : Good m) (hwell : ScansWell m cmd) :
    ∃ got m', command m cmd = some (got, m') ∧ LeavesSound m cmd got m' ∧ Good m' := by
  obtain ⟨again, hagain, hnull⟩ := h.rescan cmd.part cmd.changed
  unfold command
  simp only [hagain, Option.bind_eq_bind, Option.bind_some]
  cases again with
  | false =>
    have hlook : lookAt cmd.part m = some () := h.lookAt fun heq => (nomatch hnull heq)
    simp only [Bool.false_eq_true, if_false, if_true, Option.bind_some, hlook]
    exact ⟨true, m, rfl, ⟨h.sound, nofun⟩, h⟩
  | true =>
    rcases buildLists_spec cmd.oracle cmd.part cmd.sectors h with ⟨-, got, m', hrun, hgood, hpriv⟩ | ⟨hill, -⟩
    · simp only [if_true, hrun, Option.bind_some]
      cases got with
      | true =>
        have hlook : lookAt cmd.part m' = some () := hgood.lookAt fun heq => (nomatch hpriv.mpr heq)
        simp only [if_true, hlook, Option.bind_some]
        exact ⟨true, m', rfl, ⟨hgood.sound, nofun⟩, hgood⟩
      | false =>
        refine ⟨false, m', rfl, ⟨hgood.sound, fun _ changed => ?_⟩, hgood⟩
        unfold rescanNeeded
        rw [hpriv.mp rfl]
    · exact absurd (hwell hagain) hill

theorem command_unsound (h : Good m) (hill : ¬ScansWell m cmd) {got : Bool} (hrun : command m cmd = some (got, m')) :
    ¬LeavesSound m cmd got m' := by
  obtain ⟨hagain, hill⟩ := Classical.not_imp.mp hill
  unfold command at hrun
  simp only [hagain, if_true, Option.bind_eq_bind, Option.bind_some] at hrun
  rcases buildLists_spec cmd.oracle cmd.part cmd.sectors h with ⟨hwell, -⟩ | ⟨-, hbad⟩
  · exact absurd hwell hill
  · cases hbuild : buildLists cmd.oracle cmd.part cmd.sectors m with
    | none =>
      rw [hbuild] at hrun
      cases hrun
    | some res =>
      obtain ⟨got', m₁⟩ := res
      obtain ⟨rfl, b, hpriv, hdead⟩ := hbad got' m₁ hbuild
      rw [hbuild, Option.bind_some] at hrun
      cases hrun
      intro hleft
      exact hdead (hleft.1 cmd.part b hpriv).1.1

/-- However the commands follow one another, the lists stay sound just where each scan does no harm. -/
theorem commands_leave_lists_sound_iff (cmds : List (Command P)) :
    Runs.Along command LeavesSound Memory.init cmds ↔ Runs.Meets command ScansWell Memory.init cmds :=
  Runs.run_along_iff (fun _ _ h hwell => command_sound h hwell) (fun _ _ _ _ h hill hrun => command_unsound h hill hrun)
    Good.init

end

def scanWithoutBlock : Command Unit :=
  ⟨(), false, [⟨none, [false]⟩], ⟨true, true, fun _ => false, fun _ => true, true⟩⟩

/-- The failed scan frees the lists, and the next command looks at them. -/
theorem command_uses_freed_lists :
    (∃ m b, command Memory.init scanWithoutBlock = some (false, m) ∧ m.priv () = some b ∧ b ∉ m.heap.live ∧
        command m scanWithoutBlock = none) ∧
      ¬Runs.Along command LeavesSound Memory.init [scanWithoutBlock, scanWithoutBlock] := by
  have hfirst : command Memory.init scanWithoutBlock = some (false, ⟨⟨2, []⟩, _, _⟩) := rfl
  have hdead : (0 : Nat) ∉ ([] : List Nat) := not_mem_nil
  refine ⟨⟨_, 0, hfirst, rfl, hdead, rfl⟩, ?_⟩
  rintro ⟨got, m, hrun, hleft, -⟩
  cases hfirst.symm.trans hrun
  exact hdead (hleft.1 () 0 rfl).1.1

end UBoot.Jffs2Memory
