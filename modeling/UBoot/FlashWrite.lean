import Mathlib.Algebra.GroupWithZero.Nat
import Mathlib.Data.List.Range

namespace UBoot.FlashWrite

open List

/-- `start` and `protect` of one sector. -/
structure Sector where
  start : Nat
  protect : Bool

/-- `flash_info_t`; there are as many sectors as `sector_count` says, and a `short` holds their number. -/
structure FlashInfo where
  size : Nat
  flashId : Nat
  sectors : List Sector

def flashUnknown : Nat := 0xFFFF

def errOk : Int := 0
def errProtected : Int := 4
def errInval : Int := 8

/-- `info->start[0]` -/
def FlashInfo.start (info : FlashInfo) : Nat := (info.sectors.head?.map Sector.start).getD 0

/-- Each sector with the address behind it, which is `bEnd` for the last one. -/
def spans (bEnd : Nat) : List Sector → List (Sector × Nat)
  | [] => []
  | [s] => [(s, bEnd)]
  | s :: s' :: sectors => (s, s'.start) :: spans bEnd (s' :: sectors)

/-- `addr2info`: which bank -/
def addr2info (banks : List FlashInfo) (addr : Nat) : Option Nat :=
  banks.findIdx? fun info => decide (info.flashId ≠ flashUnknown ∧ addr ≥ info.start ∧
    addr ≤ (info.start + info.size + (2 ^ 32 - 1)) % 2 ^ 32)

/-- A call of `write_buff`. -/
structure WriteCall where
  info : FlashInfo
  src : Nat
  addr : Nat
  len : Nat

/-- The test of the sectors of one bank, with a `b_end` of 32 bits. -/
def FlashInfo.protects (info : FlashInfo) (addr last : Nat) : Bool :=
  (spans ((info.start + info.size) % 2 ^ 32) info.sectors).any fun s =>
    decide (last ≥ s.1.start ∧ addr < s.2) && s.1.protect

/-- The loop that writes. What `write_buff` returns may depend on the calls so far. -/
def writeLoop (writeBuff : List WriteCall → Int) : List FlashInfo → Nat → Nat → Nat → List WriteCall →
    Int × List WriteCall
  | [], _, _, _, calls => (errOk, calls)
  | info :: infos, src, addr, cnt, calls =>
    if cnt = 0 then (errOk, calls)
    else
      let room := (info.start + info.size + (2 ^ 32 - addr)) % 2 ^ 32
      let len := if room > cnt then cnt else room
      let calls := calls ++ [⟨info, src, addr, len⟩]
      if writeBuff calls ≠ 0 then (writeBuff calls, calls)
      else writeLoop writeBuff infos (src + len) ((addr + len) % 2 ^ 32) (cnt - len) calls

/-- `flash_write`: what it returns, and its calls of `write_buff`. -/
def flashWrite (banks : List FlashInfo) (writeBuff : List WriteCall → Int) (addr cnt : Nat) : Int × List WriteCall :=
  let last := (addr + cnt + (2 ^ 32 - 1)) % 2 ^ 32
  if cnt = 0 then (errOk, [])
  else
    match addr2info banks addr, addr2info banks last with
    | some infoFirst, some infoLast =>
      let infos := (banks.take (infoLast + 1)).drop infoFirst
      if infos.any fun info => info.protects addr last then (errProtected, [])
      else writeLoop writeBuff infos 0 addr cnt []
    | _, _ => (errInval, [])

/-- A bank of known flash, with sectors in ascending order up to its end. -/
structure FlashInfo.IsBank (info : FlashInfo) : Prop where
  known : info.flashId ≠ flashUnknown
  sectors : info.sectors ≠ []
  ascending : info.sectors.Pairwise fun s s' => s.start < s'.start
  below : ∀ s ∈ info.sectors, s.start < info.start + info.size
  size : info.size < 2 ^ 32
  addressable : info.start + info.size ≤ 2 ^ 32

/-- `flash_info`: banks that ascend and have no address in common, and behind them the places without flash. -/
structure FlashTable where
  banks : List FlashInfo
  missing : List FlashInfo
  whole : ∀ info ∈ banks, info.IsBank
  ascending : banks.Pairwise fun a b => a.start + a.size ≤ b.start
  unknown : ∀ info ∈ missing, info.flashId = flashUnknown

def FlashTable.infos (t : FlashTable) : List FlashInfo := t.banks ++ t.missing

/-- A sector of the table, which goes up to `stop`. -/
def FlashTable.Has (t : FlashTable) (s : Sector) (stop : Nat) : Prop :=
  ∃ info ∈ t.banks, (s, stop) ∈ spans (info.start + info.size) info.sectors

/-- An address from `addr` on is in a protected sector. -/
def FlashTable.Touched (t : FlashTable) (addr cnt : Nat) : Prop :=
  ∃ s stop, t.Has s stop ∧ s.protect = true ∧ ∃ k < cnt, s.start ≤ (addr + k) % 2 ^ 32 ∧ (addr + k) % 2 ^ 32 < stop

def passed (calls : List WriteCall) : List (Nat × Nat) :=
  calls.flatMap fun c => (List.range c.len).map fun i => (c.src + i, (c.addr + i) % 2 ^ 32)

/-- Nothing is written where a protected sector is touched, and everything where it returns `ERR_OK`. -/
structure FlashTable.Honoured (t : FlashTable) (addr cnt : Nat) (r : Int × List WriteCall) : Prop where
  guarded : t.Touched addr cnt → (r.1 = errProtected ∨ r.1 = errInval) ∧ passed r.2 = []
  whole : r.1 = errOk → (passed r.2).Perm ((List.range cnt).map fun k => (k, (addr + k) % 2 ^ 32))

/-- The scan finds a protected sector, as it does if the sector ends below 2^32. -/
def FlashTable.Found (t : FlashTable) (addr last : Nat) : Prop :=
  ∃ s stop, t.Has s stop ∧ stop < 2 ^ 32 ∧ s.protect = true ∧ s.start ≤ last ∧ addr < stop

section
variable {s : Sector} {stop bEnd b : Nat} {sectors : List Sector} {info : FlashInfo} {addr last : Nat}

theorem spans_bounds (hasc : sectors.Pairwise fun s s' => s.start < s'.start) (hbelow : ∀ s ∈ sectors, s.start < bEnd)
    (h : (s, stop) ∈ spans bEnd sectors) : s ∈ sectors ∧ s.start < stop ∧ stop ≤ bEnd := by
  fun_induction spans bEnd sectors with
  | case1 => cases h
  | case2 s' =>
    obtain ⟨rfl, rfl⟩ := Prod.mk.inj (mem_singleton.mp h)
    exact ⟨mem_singleton.mpr rfl, hbelow s (mem_singleton.mpr rfl), le_refl _⟩
  | case3 s₁ s₂ sectors ih =>
    obtain ⟨hfirst, hrest⟩ := pairwise_cons.mp hasc
    rcases mem_cons.mp h with h | h
    · obtain ⟨rfl, rfl⟩ := Prod.mk.inj h
      exact ⟨mem_cons_self, hfirst s₂ mem_cons_self,
        le_of_lt (hbelow s₂ (mem_cons_of_mem _ mem_cons_self))⟩
    · obtain ⟨hs, hlt, hle⟩ := ih hrest (fun s hs => hbelow s (mem_cons_of_mem _ hs)) h
      exact ⟨mem_cons_of_mem _ hs, hlt, hle⟩

theorem mem_spans_zero (hbelow : ∀ s ∈ sectors, s.start < bEnd) :
    (s, stop) ∈ spans 0 sectors ∧ addr < stop ↔ (s, stop) ∈ spans bEnd sectors ∧ stop < bEnd ∧ addr < stop := by
  induction sectors with
  | nil => simp [spans]
  | cons s₁ sectors ih =>
    cases sectors with
    | nil =>
      simp only [spans, mem_singleton, Prod.mk.injEq]
      omega
    | cons s₂ sectors =>
      have hnext := ih fun s hs => hbelow s (mem_cons_of_mem _ hs)
      have hlt := hbelow s₂ (mem_cons_of_mem _ mem_cons_self)
      simp only [spans, mem_cons, Prod.mk.injEq, or_and_right] at hnext ⊢
      rw [hnext]
      refine or_congr_left (and_congr_right fun heq => ?_)
      rw [heq.2]
      exact ⟨fun h => ⟨hlt, h⟩, fun h => h.2⟩

theorem FlashInfo.IsBank.protects_iff (h : info.IsBank) : info.protects addr last = true ↔
    ∃ s stop, (s, stop) ∈ spans (info.start + info.size) info.sectors ∧ stop < 2 ^ 32 ∧ s.protect = true ∧
      s.start ≤ last ∧ addr < stop := by
  have htop := h.addressable
  have hspans : ∀ s stop, (s, stop) ∈ spans ((info.start + info.size) % 2 ^ 32) info.sectors ∧ addr < stop ↔
      (s, stop) ∈ spans (info.start + info.size) info.sectors ∧ stop < 2 ^ 32 ∧ addr < stop := by
    intro s stop
    rcases Nat.lt_or_eq_of_le htop with hlt | heq
    · rw [Nat.mod_eq_of_lt hlt]
      refine and_congr_right fun hs => ⟨fun h' => ⟨?_, h'⟩, fun h' => h'.2⟩
      exact lt_of_le_of_lt (spans_bounds h.ascending h.below hs).2.2 hlt
    · have hzero : (s, stop) ∈ spans 0 info.sectors ∧ addr < stop ↔ _ := mem_spans_zero h.below
      rw [heq] at hzero ⊢
      exact hzero
  unfold FlashInfo.protects
  rw [any_eq_true]
  constructor
  · rintro ⟨⟨s, stop⟩, hs, htest⟩
    obtain ⟨hrange, hprotect⟩ := Bool.and_eq_true_iff.mp htest
    obtain ⟨hlast, haddr⟩ := of_decide_eq_true hrange
    obtain ⟨hs, hstop, _⟩ := (hspans s stop).mp ⟨hs, haddr⟩
    exact ⟨s, stop, hs, hstop, hprotect, hlast, haddr⟩
  · rintro ⟨s, stop, hs, hstop, hprotect, hlast, haddr⟩
    obtain ⟨hs, _⟩ := (hspans s stop).mpr ⟨hs, hstop, haddr⟩
    exact ⟨(s, stop), hs, Bool.and_eq_true_iff.mpr ⟨decide_eq_true ⟨hlast, haddr⟩, hprotect⟩⟩

theorem FlashInfo.IsBank.start_le (h : info.IsBank) : ∀ s ∈ info.sectors, info.start ≤ s.start := by
  obtain ⟨s₁, sectors, hs⟩ := exists_cons_of_ne_nil h.sectors
  have hasc := h.ascending
  unfold FlashInfo.start
  rw [hs] at hasc ⊢
  intro s hmem
  rcases mem_cons.mp hmem with rfl | hmem
  · exact le_refl _
  · exact le_of_lt ((pairwise_cons.mp hasc).1 s hmem)

theorem FlashInfo.IsBank.size_pos (h : info.IsBank) : 0 < info.size := by
  obtain ⟨s, hs⟩ := exists_mem_of_ne_nil _ h.sectors
  have hlow := h.start_le s hs
  have hhigh := h.below s hs
  omega

end

section
variable {t : FlashTable} {addr last first i j cnt : Nat} {info : FlashInfo} {infos : List FlashInfo}

theorem FlashTable.addr2info_infos (t : FlashTable) : addr2info t.infos addr = addr2info t.banks addr := by
  have hmissing : addr2info t.missing addr = none := by
    apply List.findIdx?_eq_none_iff.mpr
    intro info hinfo
    exact decide_eq_false fun htest => htest.1 (t.unknown info hinfo)
  unfold addr2info FlashTable.infos at *
  rw [List.findIdx?_append, hmissing, Option.map_none, Option.or_none]

theorem FlashTable.addr2info_some (h : addr2info t.banks addr = some i) :
    ∃ info, t.banks[i]? = some info ∧ info.IsBank ∧ info.start ≤ addr ∧ addr < info.start + info.size := by
  obtain ⟨hi, htest, _⟩ := List.findIdx?_eq_some_iff_getElem.mp h
  obtain ⟨_, hlow, hhigh⟩ := of_decide_eq_true htest
  have hbank := t.whole _ (getElem_mem hi)
  have hpos := hbank.size_pos
  exact ⟨t.banks[i], List.getElem?_eq_getElem hi, hbank, hlow, by omega⟩

theorem FlashTable.end_le {a b : FlashInfo} (hi : t.banks[i]? = some a) (hj : t.banks[j]? = some b) (hlt : i < j) :
    a.start + a.size ≤ b.start := by
  obtain ⟨hi', rfl⟩ := List.getElem?_eq_some_iff.mp hi
  obtain ⟨hj', rfl⟩ := List.getElem?_eq_some_iff.mp hj
  exact pairwise_iff_getElem.mp t.ascending i j hi' hj' hlt

theorem mem_between (hj : t.banks[j]? = some info) (hfirst : first ≤ j) (hlast : j ≤ i) :
    info ∈ (t.banks.take (i + 1)).drop first := by
  apply mem_of_getElem? (i := j - first)
  rw [List.getElem?_drop, Nat.add_sub_cancel' hfirst, List.getElem?_take_of_lt (Nat.lt_succ_of_le hlast), hj]

theorem FlashTable.scan_iff (hfirst : addr2info t.banks addr = some first) (hlast : addr2info t.banks last = some i) :
    ((t.banks.take (i + 1)).drop first).any (fun info => info.protects addr last) = true ↔ t.Found addr last := by
  obtain ⟨a, ha, _, _, haddr⟩ := t.addr2info_some hfirst
  obtain ⟨b, hb, _, hlow, _⟩ := t.addr2info_some hlast
  rw [any_eq_true]
  constructor
  · rintro ⟨info, hinfo, hprotects⟩
    have hmem := mem_of_mem_take (mem_of_mem_drop hinfo)
    obtain ⟨s, stop, hs, htest⟩ := (t.whole info hmem).protects_iff.mp hprotects
    exact ⟨s, stop, ⟨info, hmem, hs⟩, htest⟩
  · rintro ⟨s, stop, ⟨info, hmem, hs⟩, hstop, hprotect, hstart, hend⟩
    have hbank := t.whole info hmem
    obtain ⟨hsector, _, hle⟩ := spans_bounds hbank.ascending hbank.below hs
    have hbegin := hbank.start_le s hsector
    obtain ⟨j, hj⟩ := mem_iff_getElem?.mp hmem
    refine ⟨info, mem_between hj ?_ ?_, hbank.protects_iff.mpr ⟨s, stop, hs, hstop, hprotect, hstart, hend⟩⟩
    · by_contra hbefore
      have := t.end_le hj ha (not_le.mp hbefore)
      omega
    · by_contra hbehind
      have := t.end_le hb hj (not_le.mp hbehind)
      omega

/-- The bytes from 0 to `n`, each for its own address. -/
def inOrder (addr n : Nat) : List (Nat × Nat) := (List.range n).map fun k => (k, (addr + k) % 2 ^ 32)

theorem inOrder_add (addr n len : Nat) : inOrder addr (n + len) =
    inOrder addr n ++ (List.range len).map fun i => (n + i, ((addr + n) % 2 ^ 32 + i) % 2 ^ 32) := by
  unfold inOrder
  rw [range_add, map_append, map_map]
  refine congrArg _ (map_congr_left fun i _ => ?_)
  rw [Function.comp_apply, Nat.mod_add_mod, add_assoc]

theorem passed_append (calls : List WriteCall) (c : WriteCall) : passed (calls ++ [c]) =
    passed calls ++ (List.range c.len).map fun i => (c.src + i, (c.addr + i) % 2 ^ 32) := by
  unfold passed
  rw [flatMap_append, flatMap_singleton]

variable {writeBuff : List WriteCall → Int}

theorem writeLoop_ok (infos : List FlashInfo) (src addr cnt : Nat) (calls : List WriteCall) :
    (writeLoop (fun _ => errOk) infos src addr cnt calls).1 = errOk := by
  induction infos generalizing src addr cnt calls with
  | nil => rfl
  | cons info infos ih =>
    unfold writeLoop
    split
    · rfl
    · exact (congrArg Prod.fst (if_neg (not_not_intro rfl))).trans (ih _ _ _ _)

theorem FlashInfo.IsBank.room (h : info.IsBank) (hend : addr < info.start + info.size)
    (hfar : info.start + info.size < addr + 2 ^ 32) :
    (info.start + info.size + (2 ^ 32 - addr)) % 2 ^ 32 = info.start + info.size - addr := by
  have htop := h.addressable
  omega

theorem writeLoop_whole {n : Nat} {calls : List WriteCall} (hbanks : ∀ info ∈ infos, info.IsBank)
    (hasc : infos.Pairwise fun a b => a.start + a.size ≤ b.start) (hfits : addr + n + cnt ≤ 2 ^ 32)
    (hplace : cnt = 0 ∨ ∃ info ∈ infos.head?, addr + n < info.start + info.size ∧
      info.start + info.size < addr + n + 2 ^ 32 ∧ ∃ info ∈ infos.getLast?, addr + n + cnt ≤ info.start + info.size)
    (hcalls : passed calls = inOrder addr n)
    (hok : (writeLoop writeBuff infos n ((addr + n) % 2 ^ 32) cnt calls).1 = errOk) :
    passed (writeLoop writeBuff infos n ((addr + n) % 2 ^ 32) cnt calls).2 = inOrder addr (n + cnt) := by
  induction infos generalizing n cnt calls with
  | nil =>
    rcases hplace with rfl | ⟨info, hhead, _⟩
    · exact hcalls
    · cases hhead
  | cons info infos ih =>
    rw [writeLoop] at hok ⊢
    split
    next hzero => rw [hzero, add_zero, hcalls]
    next hcnt =>
      rw [if_neg hcnt] at hok
      dsimp only at hok ⊢
      obtain ⟨info', hhead, hend, hfar, final, hfinal, hlast⟩ := hplace.resolve_left hcnt
      obtain rfl : info' = info := (Option.mem_some_iff.mp hhead).symm
      obtain ⟨hfirst, hrest⟩ := pairwise_cons.mp hasc
      have hbank := hbanks info' mem_cons_self
      have hsmall : (addr + n) % 2 ^ 32 = addr + n := Nat.mod_eq_of_lt (by omega)
      have hroom := hbank.room hend hfar
      rw [hsmall, hroom] at hok ⊢
      obtain ⟨len, hlen⟩ : ∃ len, (if info'.start + info'.size - (addr + n) > cnt then cnt
        else info'.start + info'.size - (addr + n)) = len := ⟨_, rfl⟩
      rw [hlen] at hok ⊢
      have hmin : len = min cnt (info'.start + info'.size - (addr + n)) := by
        rw [← hlen]
        split <;> omega
      have hpassed : passed (calls ++ [⟨info', n, addr + n, len⟩]) = inOrder addr (n + len) := by
        rw [passed_append, hcalls, inOrder_add, hsmall]
      split at hok
      next hbad => exact absurd hok hbad
      next hgood =>
        rw [if_neg hgood]
        have htotal : n + cnt = n + len + (cnt - len) := by omega
        rw [htotal, add_assoc addr n len] at *
        refine ih (fun x hx => hbanks x (mem_cons_of_mem _ hx)) hrest (by omega) ?_ hpassed hok
        rcases Nat.eq_zero_or_pos (cnt - len) with hdone | hmore
        · exact .inl hdone
        right
        cases infos with
        | nil =>
          obtain rfl : info' = final := Option.mem_some_iff.mp hfinal
          omega
        | cons next infos =>
          have hnext := hfirst next mem_cons_self
          have hsize := (hbanks next (mem_cons_of_mem _ mem_cons_self)).size_pos
          have htop := (hbanks next (mem_cons_of_mem _ mem_cons_self)).addressable
          exact ⟨next, rfl, by omega, by omega, final, hfinal, by omega⟩

theorem FlashTable.infos_between (hi : t.banks[i]? = some info) :
    (t.infos.take (i + 1)).drop first = (t.banks.take (i + 1)).drop first := by
  obtain ⟨hlt, _⟩ := List.getElem?_eq_some_iff.mp hi
  unfold FlashTable.infos
  rw [take_append_of_le_length hlt]

theorem flashWrite_none {banks : List FlashInfo} (hcnt : 0 < cnt)
    (h : addr2info banks addr = none ∨ addr2info banks ((addr + cnt + (2 ^ 32 - 1)) % 2 ^ 32) = none) :
    flashWrite banks writeBuff addr cnt = (errInval, []) := by
  unfold flashWrite
  rw [if_neg (ne_of_gt hcnt)]
  rcases h with h | h
  · rw [h]
  · rw [h]
    split
    next hlast => cases hlast
    · rfl

theorem FlashTable.flashWrite_some (hcnt : 0 < cnt) (hlast : last = (addr + cnt + (2 ^ 32 - 1)) % 2 ^ 32)
    (hf : addr2info t.banks addr = some first) (hl : addr2info t.banks last = some i) :
    flashWrite t.infos writeBuff addr cnt =
      if ((t.banks.take (i + 1)).drop first).any (fun info => info.protects addr last) then (errProtected, [])
      else writeLoop writeBuff ((t.banks.take (i + 1)).drop first) 0 addr cnt [] := by
  obtain ⟨info, hi, _⟩ := t.addr2info_some hl
  unfold flashWrite
  rw [if_neg (ne_of_gt hcnt), t.addr2info_infos, t.addr2info_infos, ← hlast, hf, hl]
  dsimp only
  rw [t.infos_between hi]

theorem FlashTable.between (hf : addr2info t.banks addr = some first) (hl : addr2info t.banks last = some i)
    (h : addr ≤ last) : ∃ a b, ((t.banks.take (i + 1)).drop first).head? = some a ∧
      ((t.banks.take (i + 1)).drop first).getLast? = some b ∧ a.start ≤ addr ∧ addr < a.start + a.size ∧
      last < b.start + b.size := by
  obtain ⟨a, ha, _, hlow, haddr⟩ := t.addr2info_some hf
  obtain ⟨b, hb, _, hstart, hend⟩ := t.addr2info_some hl
  obtain ⟨hi, rfl⟩ := List.getElem?_eq_some_iff.mp hb
  have hle : first ≤ i := by
    by_contra hafter
    have := t.end_le hb ha (not_le.mp hafter)
    omega
  refine ⟨a, t.banks[i], ?_, ?_, hlow, haddr, hend⟩
  · rw [List.head?_drop, List.getElem?_take_of_lt (Nat.lt_succ_of_le hle), ha]
  · rw [List.getLast?_drop, List.getLast?_take, if_neg (Nat.succ_ne_zero i), Nat.add_sub_cancel, hb,
      if_neg (by rw [length_take]; omega), Option.some_or]

theorem FlashTable.wrapped (hf : addr2info t.banks addr = some first) (hl : addr2info t.banks last = some i)
    (h : last < addr) (hcnt : 2 ^ 32 < addr + cnt) :
    (passed (writeLoop (fun _ => errOk) ((t.banks.take (i + 1)).drop first) 0 addr cnt []).2).length < cnt := by
  obtain ⟨a, ha, hbank, hlow, haddr⟩ := t.addr2info_some hf
  obtain ⟨b, hb, _, hstart, _⟩ := t.addr2info_some hl
  have htop := hbank.addressable
  have hle : i ≤ first := by
    by_contra hafter
    have := t.end_le ha hb (not_le.mp hafter)
    omega
  rcases Nat.lt_or_eq_of_le hle with hlt | rfl
  · rw [drop_eq_nil_of_le (le_trans (length_take_le _ _) hlt)]
    show 0 < cnt
    omega
  · have hone : (t.banks.take (i + 1)).drop i = [a] := by
      rw [take_add_one, ha]
      obtain ⟨hi, _⟩ := List.getElem?_eq_some_iff.mp ha
      exact drop_left' (length_take_of_le (le_of_lt hi))
    have hroom := hbank.room haddr (by omega)
    rw [hone, writeLoop, if_neg (by omega), hroom]
    dsimp only
    rw [if_neg (show ¬a.start + a.size - addr > cnt by omega), if_neg (show ¬errOk ≠ 0 from not_not_intro rfl)]
    show (passed [_]).length < cnt
    unfold passed
    rw [flatMap_singleton, length_map, length_range]
    show a.start + a.size - addr < cnt
    omega

theorem FlashTable.honoured_of_whole (hf : addr2info t.banks addr = some first)
    (hl : addr2info t.banks last = some i) (hcnt : 0 < cnt) (hlast : last = (addr + cnt + (2 ^ 32 - 1)) % 2 ^ 32)
    (hfits : addr + cnt ≤ 2 ^ 32) (hfree : ¬t.Touched addr cnt) :
    t.Honoured addr cnt (writeLoop writeBuff ((t.banks.take (i + 1)).drop first) 0 addr cnt []) := by
  refine ⟨fun h => absurd h hfree, fun hok => ?_⟩
  have hsub : List.Sublist ((t.banks.take (i + 1)).drop first) t.banks :=
    (drop_sublist _ _).trans (take_sublist _ _)
  have hasc := t.ascending.sublist hsub
  have hbanks : ∀ info ∈ (t.banks.take (i + 1)).drop first, info.IsBank := fun info h => t.whole info (hsub.mem h)
  obtain ⟨a, b, ha, hb, hlow, haddr, hend⟩ := t.between hf hl (by omega)
  have hsmall : (addr + 0) % 2 ^ 32 = addr := Nat.mod_eq_of_lt (by omega)
  have hsize := (hbanks a (mem_of_mem_head? ha)).size
  have hwhole := @writeLoop_whole addr cnt _ writeBuff 0 [] hbanks hasc hfits
    (.inr ⟨a, ha, haddr, by omega, b, hb, by omega⟩) rfl
  rw [hsmall, zero_add] at hwhole
  rw [hwhole hok]
  exact List.Perm.refl _

end

/-- `flash_write` honours protection and writes everything where an address is outside the flash, where the scan finds
a protected sector, and where there is none to be found and the addresses do not wrap. -/
theorem flash_write_honoured_iff (t : FlashTable) (addr cnt : UInt32) (hcnt : 0 < cnt) :
    (∀ writeBuff, t.Honoured addr.toNat cnt.toNat (flashWrite t.infos writeBuff addr.toNat cnt.toNat)) ↔
      addr2info t.infos addr.toNat = none ∨ addr2info t.infos (addr + cnt - 1).toNat = none ∨
      t.Found addr.toNat (addr + cnt - 1).toNat ∨
      addr.toNat + cnt.toNat ≤ 2 ^ 32 ∧ ¬t.Touched addr.toNat cnt.toNat := by
  have hpos : 0 < cnt.toNat := UInt32.lt_iff_toNat_lt.mp hcnt
  have hlast : (addr + cnt - 1).toNat = (addr.toNat + cnt.toNat + (2 ^ 32 - 1)) % 2 ^ 32 := by
    rw [UInt32.toNat_sub, UInt32.toNat_add]
    have hone : (1 : UInt32).toNat = 1 := rfl
    omega
  have hsize := cnt.toNat_lt
  rw [t.addr2info_infos, t.addr2info_infos]
  generalize (addr + cnt - 1).toNat = last at *
  generalize addr.toNat = addr, cnt.toNat = cnt at *
  rcases hf : addr2info t.banks addr with _ | first
  · refine iff_of_true (fun writeBuff => ?_) (.inl rfl)
    rw [flashWrite_none hpos (.inl (t.addr2info_infos.trans hf))]
    exact ⟨fun _ => ⟨.inr rfl, rfl⟩, fun hok => absurd hok (by decide)⟩
  rcases hl : addr2info t.banks last with _ | i
  · refine iff_of_true (fun writeBuff => ?_) (.inr (.inl rfl))
    rw [flashWrite_none hpos (.inr (hlast ▸ t.addr2info_infos.trans hl))]
    exact ⟨fun _ => ⟨.inr rfl, rfl⟩, fun hok => absurd hok (by decide)⟩
  have hscan := t.scan_iff hf hl
  by_cases hfound : t.Found addr last
  · refine iff_of_true (fun writeBuff => ?_) (.inr (.inr (.inl hfound)))
    rw [t.flashWrite_some hpos hlast hf hl, if_pos (hscan.mpr hfound)]
    exact ⟨fun _ => ⟨.inl rfl, rfl⟩, fun hok => absurd hok (by decide)⟩
  constructor
  · intro h
    have hgood := h fun _ => errOk
    rw [t.flashWrite_some hpos hlast hf hl, if_neg (mt hscan.mp hfound)] at hgood
    have hok := writeLoop_ok ((t.banks.take (i + 1)).drop first) 0 addr cnt []
    refine .inr (.inr (.inr ⟨?_, fun htouched => ?_⟩))
    · by_contra hwrap
      have hall := (hgood.whole hok).length_eq
      rw [length_map, length_range] at hall
      have hfew := t.wrapped hf hl (by omega) (not_le.mp hwrap)
      omega
    · have hreport := (hgood.guarded htouched).1
      rw [hok] at hreport
      exact absurd hreport (by decide)
  · rintro (h | h | h | ⟨hfits, hfree⟩) writeBuff
    · cases h
    · cases h
    · exact absurd h hfound
    · rw [t.flashWrite_some hpos hlast hf hl, if_neg (mt hscan.mp hfound)]
      exact t.honoured_of_whole hf hl hpos hlast hfits hfree

def topBank : FlashInfo := ⟨0x100000, 1, [⟨0xFFF00000, false⟩, ⟨0xFFF80000, true⟩]⟩

def topTable : FlashTable where
  banks := [topBank]
  missing := []
  whole := by
    intro info hinfo
    obtain rfl := mem_singleton.mp hinfo
    exact ⟨by decide, by decide, by decide, by decide, by decide, by decide⟩
  ascending := pairwise_singleton _ _
  unknown := by
    intro info hinfo
    cases hinfo

theorem flash_write_honoured_low :
    topTable.Honoured 0xFFF00000 4 (flashWrite topTable.infos (fun _ => errOk) 0xFFF00000 4) := by
  refine (flash_write_honoured_iff topTable 0xFFF00000 4 (by decide)).mpr (.inr (.inr (.inr ⟨by decide, ?_⟩))) _
  rintro ⟨s, stop, ⟨info, hinfo, hs⟩, hprotect, k, hk, hlow, hhigh⟩
  obtain rfl := mem_singleton.mp hinfo
  have hsector : s = ⟨0xFFF80000, true⟩ := by
    rcases mem_cons.mp hs with h | h
    · obtain ⟨rfl, _⟩ := Prod.mk.inj h
      cases hprotect
    · exact (Prod.mk.inj (mem_singleton.mp h)).1
  subst hsector
  have hstart : 0xFFF80000 ≤ (0xFFF00000 + k) % 2 ^ 32 := hlow
  have hsmall : k < 4 := hk
  omega

/-- The end of the protected sector is 0, and the write goes into it. -/
theorem protected_sector_written : ¬∀ (t : FlashTable) (addr cnt : UInt32), 0 < cnt → ∀ writeBuff,
    t.Honoured addr.toNat cnt.toNat (flashWrite t.infos writeBuff addr.toNat cnt.toNat) := by
  intro h
  have hgood := h topTable 0xFFF80000 2 (by decide) fun _ => errOk
  have htouched : topTable.Touched (0xFFF80000 : UInt32).toNat (2 : UInt32).toNat :=
    ⟨⟨0xFFF80000, true⟩, 2 ^ 32,
      ⟨topBank, mem_singleton.mpr rfl, mem_cons_of_mem _ (mem_singleton.mpr rfl)⟩,
      rfl, 0, by decide, by decide, by decide⟩
  exact absurd (hgood.guarded htouched).1 (by decide)

end UBoot.FlashWrite
