import UBoot.CString
import UBoot.FdtProps

namespace UBoot.Fdt

open FlashCells List Loops Words
open Loops.Comp (returns_bind returns_pure)

variable {m m' : Flash} {fdt off k n r : Nat}
  {a b strs strs' base name prop val key pname pval compat stop : List UInt8} {create : Bool} {p q : Piece}
  {run x y : List Piece} {cur cur' : Item} {items items' todo : List Item}

def startOf (a : List UInt8) : List Item → Nat
  | [] => notFound
  | _ :: _ => a.length

def offsets : List UInt8 → List Item → List Nat
  | _, [] => []
  | a, i :: is => a.length :: offsets (a ++ i.bytes) is

section Nodes

theorem Shows.behind (h : Shows m fdt (a ++ (itemBytes (cur :: todo) ++ stop)) strs) :
    Shows m fdt ((a ++ cur.bytes) ++ (itemBytes todo ++ stop)) strs := by
  simpa only [itemBytes_cons, append_assoc] using h

theorem Rest.behind (h : Rest m fdt a (cur :: todo) stop strs) : Rest m fdt (a ++ cur.bytes) todo stop strs :=
  ⟨h.shows.behind, aligned_append h.aligned cur.bytes_aligned, h.stops, h.clean, h.good.2⟩

theorem Rest.cons (h : Rest m fdt (a ++ cur.bytes) todo stop strs) (ha : a.length % 4 = 0) (hg : Good strs cur todo) :
    Rest m fdt a (cur :: todo) stop strs := by
  refine ⟨?_, ha, h.stops, h.clean, hg, h.good⟩
  have hshows := h.shows
  rwa [itemBytes_cons, append_assoc, ← append_assoc a cur.bytes]

theorem nodeFrom_start (h : Block m fdt (a ++ (itemBytes items ++ stop))) (ha : a.length % 4 = 0) (hc : Clean stop) :
    (nodeFrom m fdt a.length).Returns (startOf a items) := by
  cases items with
  | nil => exact stop_clean h ha hc
  | cons i is => exact nodeFrom_here (item_node h ha).1.tag

theorem next_start (h : Block m fdt (a ++ (itemBytes (cur :: todo) ++ stop))) (ha : a.length % 4 = 0)
    (hc : Clean stop) : (fdtNextNode m fdt a.length).Returns (startOf (a ++ cur.bytes) todo) :=
  (next_iff h ha).mpr (nodeFrom_start (behind_item h) (aligned_append ha cur.bytes_aligned) hc)

theorem Rest.next (h : Rest m fdt a (cur :: todo) stop strs) :
    (fdtNextNode m fdt a.length).Returns (startOf (a ++ cur.bytes) todo) :=
  next_start h.shows.block h.aligned h.clean

end Nodes

/-- What a search looks for: a property of a node. -/
structure Searches (fdt : Nat) (founds : Flash → Nat → Comp (Option Nat)) (matched : Flash → Nat → Prop)
    (key : List UInt8) (P : Option Piece → Prop) : Prop where
  text : 0 ∉ key
  found : ∀ {m a cur todo stop strs}, Rest m fdt a (cur :: todo) stop strs → P (lookup strs cur.run key) →
    (founds m a.length).Returns (some a.length)
  passed : ∀ {m a cur todo stop strs}, Rest m fdt a (cur :: todo) stop strs → ¬P (lookup strs cur.run key) →
    (founds m a.length).Returns none
  matched_iff : ∀ {m a cur todo stop strs}, Rest m fdt a (cur :: todo) stop strs →
    (matched m a.length ↔ P (lookup strs cur.run key))

def Picks (prop : List UInt8) (create : Bool) (key : List UInt8) (P : Option Piece → Prop) (strs : List UInt8)
    (run : List Piece) : Prop :=
  P (lookup strs run key) ∧ (create = true ∨ lookup strs run prop ≠ none)

/-- What the fix-ups leave of a node. -/
structure Fixed (prop val : List UInt8) (create : Bool) (key : List UInt8) (P : Option Piece → Prop)
    (base strs : List UInt8) (cur cur' : Item) : Prop where
  picked : Picks prop create key P base cur.run → (lookup strs cur'.run prop).map Piece.value = some val
  passed : ¬Picks prop create key P base cur.run → lookup strs cur'.run prop = lookup base cur.run prop
  others : SameOthers prop base strs cur.run cur'.run

/-- There is room for a new property in each of the nodes that get one. -/
def RoomFor (m : Flash) (fdt : Nat) (prop val : List UInt8) (create : Bool) (key : List UInt8)
    (P : Option Piece → Prop) (base strs : List UInt8) (items : List Item) : Prop :=
  ∀ picked : List Item, picked.Sublist items → (∀ i ∈ picked, Picks prop create key P base i.run) →
    offDtStrings m fdt + strs.length + nameNeed strs prop + picked.length * (12 + tagAlign val.length) ≤ totalsize m fdt

section Run

variable {founds : Flash → Nat → Comp (Option Nat)} {matched : Flash → Nat → Prop} {P : Option Piece → Prop}

theorem Rest.isOk (h : Rest m fdt a (cur :: todo) stop strs) (hprop : 0 ∉ prop) :
    ∃ e, (fdtGetProperty m fdt a.length prop).Returns e ∧ (e.isOk = true ↔ lookup strs cur.run prop ≠ none) := by
  rcases h.property hprop with ⟨hnone, hret⟩ | ⟨x, p, y, hsome, -, -, hret⟩
  · exact ⟨_, hret, by rw [hnone]; simp [Except.isOk, Except.toBool]⟩
  · exact ⟨_, hret, by rw [hsome]; simp [Except.isOk, Except.toBool]⟩

theorem Rest.wanted (h : Rest m fdt a (cur :: todo) stop strs) (create : Bool) (hprop : 0 ∉ prop) :
    ∃ c, (Fdt.wanted fdt prop create m a.length).Returns c ∧
      (c = true ↔ create = true ∨ lookup strs cur.run prop ≠ none) := by
  unfold Fdt.wanted
  cases create with
  | true => exact ⟨true, returns_pure _, by simp⟩
  | false =>
    obtain ⟨e, he, hiff⟩ := h.isOk hprop
    exact ⟨e.isOk, returns_bind.mpr ⟨e, he, returns_pure _⟩, by simp [hiff]⟩

theorem Rest.fix_passed (h : Rest m fdt a (cur :: todo) stop strs) (hprop : 0 ∉ prop)
    (hno : ¬(create = true ∨ lookup strs cur.run prop ≠ none)) :
    (fixNode fdt prop val create m a.length).Returns m := by
  obtain ⟨c, hc, hiff⟩ := h.wanted create hprop
  refine returns_bind.mpr ⟨c, hc, ?_⟩
  rw [if_neg fun htrue => hno (hiff.mp htrue)]
  exact returns_pure _

theorem Rest.fix_picked (h : Rest m fdt a (cur :: todo) stop strs) (create : Bool) (hprop : 0 ∉ prop)
    (hlen : prop.length < 2147483648) (hval : val.length < 2147483648)
    (hyes : create = true ∨ lookup strs cur.run prop ≠ none)
    (hroom : offDtStrings m fdt + strs.length + nameNeed strs prop + (12 + tagAlign val.length) ≤ totalsize m fdt) :
    ∃ m' cur' strs', (fixNode fdt prop val create m a.length).Returns m' ∧
      Rest m' fdt a (cur' :: todo) stop strs' ∧ SetTo prop val strs strs' cur cur' ∧
      totalsize m' fdt = totalsize m fdt ∧
      offDtStrings m' fdt + strs'.length + nameNeed strs' prop ≤
        offDtStrings m fdt + strs.length + nameNeed strs prop + (12 + tagAlign val.length) := by
  obtain ⟨c, hc, hiff⟩ := h.wanted create hprop
  obtain ⟨e, m', cur', strs', hset, hrest⟩ := h.setprop hprop hlen hval hroom
  refine ⟨m', cur', strs', returns_bind.mpr ⟨c, hc, ?_⟩, hrest⟩
  rw [if_pos (hiff.mpr hyes)]
  exact returns_bind.mpr ⟨(e, m'), hset, returns_pure _⟩

theorem Fixed.same (hg : ∀ p ∈ cur.run, Sound base p) (hprop : 0 ∉ prop)
    (hno : ¬Picks prop create key P base cur.run) (t : List UInt8) :
    Fixed prop val create key P base (base ++ t) cur cur :=
  ⟨fun hyes => absurd hyes hno, fun _ => lookup_grow hg hprop t, fun _ hname _ => lookup_grow hg hname t⟩

/-- The loop of the fix-ups, from the search behind a node on. -/
def loopFrom (fdt : Nat) (prop val : List UInt8) (create : Bool) (founds : Flash → Nat → Comp (Option Nat)) (m : Flash)
    (off : Nat) : Comp Flash :=
  (searchFrom m fdt (founds m) off).bind fun off =>
    fixFrom fdt prop val create (fun m off => searchNodes m fdt (founds m) off) off m

theorem loopFrom_skip {r : Flash} (h : neg off = false) (hf : (founds m off).Returns none)
    (hnext : (fdtNextNode m fdt off).Returns k) (hr : (loopFrom fdt prop val create founds m k).Returns r) :
    (loopFrom fdt prop val create founds m off).Returns r := by
  obtain ⟨j, hj, hr⟩ := returns_bind.mp hr
  exact returns_bind.mpr ⟨j, searchFrom_skip h hf (returns_bind.mpr ⟨k, hnext, hj⟩), hr⟩

theorem loopFrom_fix {r : Flash} (h : neg off = false) (hne : off ≠ notFound) (hf : (founds m off).Returns (some off))
    (hfix : (fixNode fdt prop val create m off).Returns m') (hh : fdtCheckHeader m' fdt = 0)
    (hnext : (fdtNextNode m' fdt off).Returns k) (hr : (loopFrom fdt prop val create founds m' k).Returns r) :
    (loopFrom fdt prop val create founds m off).Returns r := by
  obtain ⟨j, hj, hr⟩ := returns_bind.mp hr
  refine returns_bind.mpr ⟨off, searchFrom_found h hf, Comp.loop_again ?_ hr⟩
  dsimp only
  rw [if_neg hne]
  refine returns_bind.mpr ⟨m', hfix, returns_bind.mpr ⟨j, ?_, returns_pure _⟩⟩
  unfold searchNodes
  rw [if_neg (not_not.mpr hh)]
  exact returns_bind.mpr ⟨k, hnext, hj⟩

theorem Good.behind (h : Good strs cur todo) (hlen : todo.length = items.length) (t : List UInt8) :
    Good (strs ++ t) cur items := by
  refine ⟨h.1.imp id fun hne hnil => hne ?_, fun p hp => (h.2 p hp).grow t⟩
  rw [hnil] at hlen
  exact eq_nil_of_length_eq_zero hlen

theorem Rest.fixed (hf : Searches fdt founds matched key P) (create : Bool) (hprop : 0 ∉ prop)
    (hlen : prop.length < 2147483648) (hval : val.length < 2147483648) (h : Rest m fdt a items stop strs)
    (hbase : AllGood base items) (hgrown : ∃ t, strs = base ++ t)
    (hroom : RoomFor m fdt prop val create key P base strs items) :
    ∃ m' items' strs', (loopFrom fdt prop val create founds m (startOf a items)).Returns m' ∧
      Rest m' fdt a items' stop strs' ∧ (∃ t, strs' = strs ++ t) ∧
      List.Forall₂ (Fixed prop val create key P base strs') items items' := by
  induction items generalizing m a strs with
  | nil =>
    refine ⟨m, [], strs, ?_, h, ⟨[], (append_nil _).symm⟩, List.Forall₂.nil⟩
    exact returns_bind.mpr ⟨notFound, searchFrom_neg rfl, Comp.loop_done (returns_pure _)⟩
  | cons cur todo ih =>
    obtain ⟨hgood, hbase⟩ := hbase
    obtain ⟨hnode, -⟩ := item_node h.shows.block h.aligned
    have hnone := notFound_of_aligned h.aligned
    have hkeyed : lookup strs cur.run key = lookup base cur.run key := by
      obtain ⟨t, rfl⟩ := hgrown
      exact lookup_grow hgood.2 hf.text t
    have hset : lookup strs cur.run prop = lookup base cur.run prop := by
      obtain ⟨t, rfl⟩ := hgrown
      exact lookup_grow hgood.2 hprop t
    by_cases hpick : Picks prop create key P base cur.run
    · have hfix : offDtStrings m fdt + strs.length + nameNeed strs prop + 1 * (12 + tagAlign val.length) ≤
          totalsize m fdt :=
        hroom [cur] (singleton_sublist.mpr mem_cons_self) (by simpa using hpick)
      obtain ⟨m₁, cur₁, strs₁, hret, hrest, hto, htotal, hused⟩ :=
        h.fix_picked create hprop hlen hval (by rw [hset]; exact hpick.2) (by omega)
      obtain ⟨t₀, rfl⟩ := hgrown
      obtain ⟨t₁, rfl⟩ := hto.grown
      have hroom₁ : RoomFor m₁ fdt prop val create key P base (base ++ t₀ ++ t₁) todo := by
        intro picked hsub hall
        have hmore := hroom (cur :: picked) (hsub.cons_cons cur) (forall_mem_cons.mpr ⟨hpick, hall⟩)
        rw [length_cons, Nat.succ_mul] at hmore
        rw [htotal]
        omega
      obtain ⟨m', todo', strs', hloop, hrest', ⟨t, rfl⟩, hall⟩ :=
        ih hrest.behind hbase ⟨t₀ ++ t₁, append_assoc _ _ _⟩ hroom₁
      refine ⟨m', cur₁ :: todo', _, ?_, hrest'.cons h.aligned (hrest.good.1.behind hall.length_eq t),
        ⟨t₁ ++ t, append_assoc _ _ _⟩, List.Forall₂.cons ?_ hall⟩
      · exact loopFrom_fix hnode.nonneg hnone (hf.found h (by rw [hkeyed]; exact hpick.1)) hret hrest.shows.header
          hrest.next hloop
      · refine ⟨fun _ => ?_, fun hno => absurd hpick hno, fun name hname hne => ?_⟩
        · rw [lookup_grow hrest.good.1.2 hprop, hto.value]
        · rw [lookup_grow hrest.good.1.2 hname, hto.others name hname hne, lookup_grow hgood.2 hname]
    · have hroom₁ : RoomFor m fdt prop val create key P base strs todo :=
        fun picked hsub hall => hroom picked (hsub.cons cur) hall
      obtain ⟨m', todo', strs', hloop, hrest', ⟨t, rfl⟩, hall⟩ := ih h.behind hbase hgrown hroom₁
      refine ⟨m', cur :: todo', _, ?_, hrest'.cons h.aligned (h.good.1.behind hall.length_eq t), ⟨t, rfl⟩,
        List.Forall₂.cons ?_ hall⟩
      · by_cases hP : P (lookup strs cur.run key)
        · have hno : ¬(create = true ∨ lookup strs cur.run prop ≠ none) := by
            rw [hset]
            rw [hkeyed] at hP
            exact fun hyes => hpick ⟨hP, hyes⟩
          exact loopFrom_fix hnode.nonneg hnone (hf.found h hP) (h.fix_passed hprop hno) h.shows.header h.next hloop
        · exact loopFrom_skip hnode.nonneg (hf.passed h hP) h.next hloop
      · obtain ⟨t₀, rfl⟩ := hgrown
        rw [append_assoc]
        exact Fixed.same hgood.2 hprop hpick (t₀ ++ t)

end Run

/-- A node has a property with this value. -/
def Carries (m : Flash) (fdt off : Nat) (name v : List UInt8) : Prop :=
  ∃ p, (fdtGetProperty m fdt off name).Returns (.ok p) ∧ read m (p + 12) (be32 m (p + 4)) = v

section Search

theorem piece_behind (h : Closed cur todo) (y : List Piece) (stop : List UInt8) :
    ∃ (q : Piece) (b : List UInt8), bytesOf y ++ (bytesOf cur.tail ++ (itemBytes todo ++ stop)) = q.bytes ++ b := by
  cases y with
  | cons q y => exact ⟨q, _, by rw [bytesOf_cons, append_assoc]⟩
  | nil =>
    obtain ⟨q, b, -, hb⟩ := closed_piece h stop
    exact ⟨q, b, by rw [bytesOf_nil, nil_append, hb]⟩

theorem Rest.place (h : Rest m fdt a (cur :: todo) stop strs) (hx : cur.run = x ++ p :: y) :
    ∃ (q : Piece) (b : List UInt8),
      Shows m fdt ((a ++ cur.head.bytes ++ bytesOf x) ++ (p.bytes ++ (q.bytes ++ b))) strs := by
  obtain ⟨q, b, hb⟩ := piece_behind h.good.1.1 y stop
  have hshows := h.shows
  rw [item_split, hx, bytesOf_append, bytesOf_cons] at hshows
  refine ⟨q, b, ?_⟩
  rw [← hb]
  simpa only [append_assoc] using hshows

theorem Rest.read_property (h : Rest m fdt a (cur :: todo) stop strs) (hname : 0 ∉ name) :
    lookup strs cur.run name = none ∧ (fdtGetProperty m fdt a.length name).Returns (.error notFound) ∨
      ∃ k p, lookup strs cur.run name = some p ∧ (fdtGetProperty m fdt a.length name).Returns (.ok k) ∧
        be32 m (k + 4) = word (p.bytes.drop 4) ∧ read m (k + 12) (word (p.bytes.drop 4)) = p.value ∧
        ∀ i, i ≤ word (p.bytes.drop 4) → m (k + 12 + i) = (p.bytes.drop 12).getD i 0 := by
  rcases h.property hname with hnone | ⟨x, p, y, hsome, hx, hp, hret⟩
  · exact .inl hnone
  · obtain ⟨q, b, hshows⟩ := h.place hx
    obtain ⟨hlen, -⟩ := h.good.1.2 p (by rw [hx]; simp) hp
    obtain ⟨hword, hvalue⟩ := property_read hshows hlen
    exact .inr ⟨_, p, hsome, hret, hword, hvalue, fun i hi => property_byte hshows (by omega)⟩

theorem Rest.carries_iff {v : List UInt8} (h : Rest m fdt a (cur :: todo) stop strs) (hname : 0 ∉ name) :
    Carries m fdt a.length name v ↔ (lookup strs cur.run name).map Piece.value = some v := by
  unfold Carries
  rcases h.read_property hname with ⟨hnone, hret⟩ | ⟨k, p, hsome, hret, hword, hvalue, -⟩
  · rw [hnone]
    constructor
    · rintro ⟨k, hk, -⟩
      cases hk.unique hret
    · intro hv
      cases hv
  · rw [hsome, Option.map_some, Option.some_inj, ← hvalue, ← hword]
    constructor
    · rintro ⟨k', hk', hv⟩
      cases hk'.unique hret
      exact hv
    · intro hv
      exact ⟨k, hret, hv⟩

theorem hasValue_iff (m : Flash) (k : Nat) (pval : List UInt8) :
    hasValue m pval (.ok k) = true ↔ read m (k + 12) (be32 m (k + 4)) = pval := by
  unfold hasValue
  simp only [Bool.and_eq_true, beq_iff_eq]
  constructor
  · rintro ⟨hlen, hval⟩
    rw [hlen, hval]
  · intro hval
    have hlen : be32 m (k + 4) = pval.length := by
      rw [← hval, read_length]
    rw [← hlen]
    exact ⟨rfl, hval⟩

theorem searches_value (fdt : Nat) (hname : 0 ∉ pname) (pval : List UInt8) :
    Searches fdt (fun m off => (fdtGetProperty m fdt off pname).bind fun prop =>
        Comp.pure (if hasValue m pval prop then some off else none))
      (fun m off => Carries m fdt off pname pval) pname fun o => o.map Piece.value = some pval := by
  refine ⟨hname, fun h hP => ?_, fun h hP => ?_, fun h => h.carries_iff hname⟩
  · obtain ⟨k, hret, hv⟩ := (h.carries_iff hname).mpr hP
    refine returns_bind.mpr ⟨.ok k, hret, ?_⟩
    rw [if_pos ((hasValue_iff _ k pval).mpr hv)]
    exact returns_pure _
  · rw [← h.carries_iff hname] at hP
    rcases h.read_property hname with ⟨-, hret⟩ | ⟨k, p, -, hret, -⟩
    · exact returns_bind.mpr ⟨_, hret, returns_pure _⟩
    · refine returns_bind.mpr ⟨_, hret, ?_⟩
      rw [if_neg fun hv => hP ⟨k, hret, (hasValue_iff _ k pval).mp hv⟩]
      exact returns_pure _

theorem contains_congr {str : List UInt8} {x x' len : Nat} (h : ∀ i, i ≤ len → m' (x' + i) = m (x + i)) :
    stringlistContains m' str n x' len = stringlistContains m str n x len := by
  induction n generalizing x x' len with
  | zero => rfl
  | succ n ih =>
    have hread : ∀ j, j ≤ len + 1 → read m' x' j = read m x j := fun j hj => read_congr fun i hi => h i (by omega)
    unfold stringlistContains
    by_cases hshort : neg len = true ∨ len < str.length
    · rw [if_pos hshort, if_pos hshort]
    · rw [if_neg hshort, if_neg hshort, hread _ (by omega), hread _ (by omega)]
      cases hi : (read m x len).findIdx? (· == 0) with
      | none => rfl
      | some i =>
        have hlt := (List.findIdx?_eq_some_iff_findIdx_eq.mp hi).1
        rw [read_length] at hlt
        have hrest : ∀ j, j ≤ len - (i + 1) → m' (x' + (i + 1) + j) = m (x + (i + 1) + j) := by
          intro j hj
          rw [add_assoc x', add_assoc x]
          exact h (i + 1 + j) (by omega)
        dsimp only
        rw [ih hrest]

/-- A property lists a string. -/
def Lists (compat : List UInt8) (p : Piece) : Prop :=
  stringlistContains (fun i => (p.bytes.drop 12).getD i 0) compat (word (p.bytes.drop 4) + 1) 0
    (word (p.bytes.drop 4)) = true

theorem compatible_text : 0 ∉ compatibleChars := by decide

theorem Rest.compatible (h : Rest m fdt a (cur :: todo) stop strs) (compat : List UInt8) :
    ∃ e, (fdtNodeCheckCompatible m fdt a.length compat).Returns e ∧ (neg e = true → e = notFound) ∧
      (e = 0 ↔ ∃ p, lookup strs cur.run compatibleChars = some p ∧ Lists compat p) := by
  rcases h.read_property compatible_text with ⟨hnone, hret⟩ | ⟨k, p, hsome, hret, hword, -, hbytes⟩
  · refine ⟨notFound, returns_bind.mpr ⟨_, hret, returns_pure _⟩, fun _ => rfl, ?_⟩
    rw [hnone]
    simp [notFound, err]
  · refine ⟨_, returns_bind.mpr ⟨_, hret, returns_pure _⟩, ?_⟩
    have hlists : stringlistContains m compat (be32 m (k + 4) + 1) (k + 12) (be32 m (k + 4)) = true ↔
        ∃ p, lookup strs cur.run compatibleChars = some p ∧ Lists compat p := by
      have hcongr : stringlistContains m compat (word (p.bytes.drop 4) + 1) (k + 12) (word (p.bytes.drop 4)) =
          stringlistContains (fun i => (p.bytes.drop 12).getD i 0) compat (word (p.bytes.drop 4) + 1) 0
            (word (p.bytes.drop 4)) :=
        contains_congr fun i hi => by rw [hbytes i hi, zero_add]
      rw [hword, hcongr, hsome]
      simp [Lists]
    unfold isCompatible
    dsimp only
    by_cases hin : stringlistContains m compat (be32 m (k + 4) + 1) (k + 12) (be32 m (k + 4)) = true
    · rw [if_pos hin]
      exact ⟨fun _ => by contradiction, iff_of_true rfl (hlists.mp hin)⟩
    · rw [if_neg hin]
      exact ⟨fun _ => by contradiction, iff_of_false (by decide) fun hp => hin (hlists.mpr hp)⟩

theorem searches_compatible (fdt : Nat) (compat : List UInt8) :
    Searches fdt (fun m off => (fdtNodeCheckCompatible m fdt off compat).bind fun e =>
        Comp.pure (if neg e ∧ e ≠ notFound then some e else if e = 0 then some off else none))
      (fun m off => (fdtNodeCheckCompatible m fdt off compat).Returns 0) compatibleChars
      fun o => ∃ p, o = some p ∧ Lists compat p := by
  refine ⟨compatible_text, fun h hP => ?_, fun h hP => ?_, fun h => ?_⟩
  · obtain ⟨e, he, hneg, hzero⟩ := h.compatible compat
    refine returns_bind.mpr ⟨e, he, ?_⟩
    rw [if_neg fun hbad => hbad.2 (hneg hbad.1), if_pos (hzero.mpr hP)]
    exact returns_pure _
  · obtain ⟨e, he, hneg, hzero⟩ := h.compatible compat
    refine returns_bind.mpr ⟨e, he, ?_⟩
    rw [if_neg fun hbad => hbad.2 (hneg hbad.1), if_neg fun hz => hP (hzero.mp hz)]
    exact returns_pure _
  · obtain ⟨e, he, hneg, hzero⟩ := h.compatible compat
    rw [← hzero]
    exact ⟨fun h₀ => he.unique h₀, fun h₀ => h₀ ▸ he⟩

end Search

end UBoot.Fdt
