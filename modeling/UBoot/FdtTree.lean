import UBoot.FdtFixup

namespace UBoot.Fdt

open FlashCells List Loops Words
open Loops.Comp (loop_returns returns_bind returns_pure returns_pure_iff)

/-- The blocks lie in the lower half of memory, and the structure block is a whole number of words. -/
structure Placed (m : Flash) (fdt : Nat) : Prop where
  low : fdt + totalsize m fdt ≤ 2147483632
  rsv : offMemRsvmap m fdt + 16 < 4294967296
  struct : offDtStruct m fdt + sizeDtStruct m fdt < 4294967296
  strings : offDtStrings m fdt + sizeDtStrings m fdt < 4294967296
  words : sizeDtStruct m fdt % 4 = 0

def stringsOf (m : Flash) (fdt : Nat) : List UInt8 := read m (fdt + offDtStrings m fdt) (sizeDtStrings m fdt)

/-- A blob that is taken for writing, with its structure block in pieces. -/
structure Tree (m : Flash) (fdt : Nat) (v : View) : Prop where
  taken : (rwCheckHeader m fdt).1 = 0
  placed : Placed m fdt
  bytes : v.bytes = read m (fdt + offDtStruct m fdt) (sizeDtStruct m fdt)

variable {m m' : Flash} {fdt k off r : Nat} {a b s strs strs' prop val key pname pval compat stop : List UInt8}
  {create : Bool} {cur cur' : Item} {items items' todo : List Item} {v : View}
  {founds : Flash → Nat → Comp (Option Nat)} {matched : Flash → Nat → Prop} {P : Option Piece → Prop}

theorem rwCheckHeader_taken (h : (rwCheckHeader m fdt).1 = 0) :
    fdtCheckHeader m fdt = 0 ∧ 17 ≤ version m fdt ∧ blocksMisordered m fdt 16 (sizeDtStruct m fdt) = false := by
  have hversion : badVersion ≠ 0 := by decide
  have hlayout : badLayout ≠ 0 := by decide
  unfold rwCheckHeader at h
  by_cases hheader : fdtCheckHeader m fdt = 0
  · rw [if_neg (not_not.mpr hheader)] at h
    by_cases hold : version m fdt < 17
    · rw [if_pos hold] at h
      exact absurd h hversion
    · rw [if_neg hold] at h
      cases hordered : blocksMisordered m fdt 16 (sizeDtStruct m fdt) with
      | true =>
        rw [hordered, if_pos rfl] at h
        exact absurd h hlayout
      | false => exact ⟨hheader, by omega, rfl⟩
  · rw [if_pos hheader] at h
    exact absurd h hheader

theorem Tree.shows (h : Tree m fdt v) : Shows m fdt v.bytes (stringsOf m fdt) := by
  obtain ⟨hw, hp, hbytes⟩ := h
  have hlow := hp.low
  have hrsv := hp.rsv
  have hstruct := hp.struct
  have hstrings := hp.strings
  obtain ⟨hheader, hversion, hordered⟩ := rwCheckHeader_taken hw
  unfold blocksMisordered u32 at hordered
  simp only [Bool.or_eq_false_iff, decide_eq_false_iff_not] at hordered
  obtain ⟨⟨⟨h₁, h₂⟩, h₃⟩, h₄⟩ := hordered
  have hlen : (stringsOf m fdt).length = sizeDtStrings m fdt := read_length _ _ _
  have hsize : v.bytes.length = sizeDtStruct m fdt := by
    rw [hbytes, read_length]
  refine ⟨hheader, hversion, by omega, by omega, hsize.symm, by omega, hlen.symm, by omega, hlow, ?_, ?_⟩
  · rw [hsize, hbytes]
  · rw [hlen]
    rfl

theorem tree_exists (hw : (rwCheckHeader m fdt).1 = 0) (hp : Placed m fdt) : ∃ v, Tree m fdt v := by
  have hlow := hp.low
  have hstruct := hp.struct
  have hstrings := hp.strings
  obtain ⟨-, -, hordered⟩ := rwCheckHeader_taken hw
  unfold blocksMisordered u32 at hordered
  simp only [Bool.or_eq_false_iff, decide_eq_false_iff_not] at hordered
  obtain ⟨v, hv⟩ := view_exists (s := read m (fdt + offDtStruct m fdt) (sizeDtStruct m fdt))
    (by rw [read_length]; exact hp.words) (by rw [read_length]; omega)
  exact ⟨v, hw, hp, hv⟩

section Ends

def Each (R : Item → List Item → Prop) : List Item → Prop
  | [] => True
  | i :: is => R i is ∧ Each R is

/-- What a search makes of a node: it passes it, or gives its offset or an error. -/
structure Answers (fdt : Nat) (founds : Flash → Nat → Comp (Option Nat)) (closed : Item → List Item → Prop) : Prop where
  answer : ∀ {m off r}, (founds m off).Returns (some r) → r = off ∨ neg r = true ∧ r ≠ notFound
  ends : ∀ {m a cur todo stop strs}, Shows m fdt (a ++ (itemBytes (cur :: todo) ++ stop)) strs → a.length % 4 = 0 →
    Stops stop → Clean stop → closed cur todo →
    (founds m a.length).Returns none ∨ (founds m a.length).Returns (some a.length)

theorem answers_value (fdt : Nat) (pname pval : List UInt8) :
    Answers fdt (fun m off => (fdtGetProperty m fdt off pname).bind fun prop =>
      Comp.pure (if hasValue m pval prop then some off else none)) fun _ _ => True := by
  refine ⟨fun {m off r} h => ?_, fun {m a cur todo stop strs} h ha _ hc _ => ?_⟩
  · obtain ⟨e, -, h⟩ := returns_bind.mp h
    have h := returns_pure_iff.mp h
    split at h
    · exact .inl (Option.some.inj h)
    · cases h
  · obtain ⟨e, he⟩ := node_property_ends h.block h.header ha hc pname
    by_cases hv : hasValue m pval e = true
    · exact .inr (returns_bind.mpr ⟨e, he, by rw [if_pos hv]; exact returns_pure _⟩)
    · exact .inl (returns_bind.mpr ⟨e, he, by rw [if_neg hv]; exact returns_pure _⟩)

theorem closed_property (h : Shows m fdt (a ++ (itemBytes (cur :: todo) ++ stop)) strs) (ha : a.length % 4 = 0)
    (hs : Stops stop) (hc : Clean stop) (hclosed : Closed cur todo) (name : List UInt8) :
    (fdtGetProperty m fdt a.length name).Returns (.error notFound) ∨
      ∃ p, (fdtGetProperty m fdt a.length name).Returns (.ok p) := by
  obtain ⟨e, hret⟩ := node_property_ends h.block h.header ha hc name
  obtain ⟨hnode, hnext⟩ := item_node h.block ha
  have he := hret
  rw [fdtGetProperty_node h.header hnode, hnext] at he
  rw [item_split] at h
  have hH : (a ++ cur.head.bytes).length % 4 = 0 := aligned_append ha cur.head.aligned
  rcases propertyFrom_run h.block hH cur.run_tag he with ⟨x, p, y, -, -, -, -, rfl⟩ | ⟨-, he⟩
  · exact .inr ⟨_, hret⟩
  · rw [← append_assoc] at h
    rcases propertyFrom_end h.block (aligned_append hH (bytesOf_aligned _)) hs he with ⟨-, rfl⟩ | ⟨hopen, -⟩
    · exact .inl hret
    · exact absurd hclosed hopen

theorem answers_compatible (fdt : Nat) (compat : List UInt8) :
    Answers fdt (fun m off => (fdtNodeCheckCompatible m fdt off compat).bind fun e =>
      Comp.pure (if neg e ∧ e ≠ notFound then some e else if e = 0 then some off else none)) Closed := by
  refine ⟨fun {m off r} h => ?_, fun {m a cur todo stop strs} h ha hs hc hclosed => ?_⟩
  · obtain ⟨e, -, h⟩ := returns_bind.mp h
    have h := returns_pure_iff.mp h
    split at h
    next hneg =>
      rw [Option.some.inj h]
      exact .inr hneg
    · split at h
      · exact .inl (Option.some.inj h)
      · cases h
  · obtain ⟨e, he, hneg⟩ : ∃ e, (fdtNodeCheckCompatible m fdt a.length compat).Returns e ∧
        ¬(neg e = true ∧ e ≠ notFound) := by
      rcases closed_property h ha hs hc hclosed compatibleChars with hnone | ⟨p, hp⟩
      · exact ⟨notFound, returns_bind.mpr ⟨_, hnone, returns_pure _⟩, fun hbad => hbad.2 rfl⟩
      · refine ⟨_, returns_bind.mpr ⟨_, hp, returns_pure _⟩, ?_⟩
        unfold isCompatible
        dsimp only
        split <;> decide
    by_cases hzero : e = 0
    · exact .inr (returns_bind.mpr ⟨e, he, by rw [if_neg hneg, if_pos hzero]; exact returns_pure _⟩)
    · exact .inl (returns_bind.mpr ⟨e, he, by rw [if_neg hneg, if_neg hzero]; exact returns_pure _⟩)

variable {closed : Item → List Item → Prop}

theorem loopFrom_ends (hf : Answers fdt founds closed) (hprop : prop.length < 2147483648)
    (hval : val.length < 2147483648) (h : Shows m fdt (a ++ (itemBytes items ++ stop)) strs) (ha : a.length % 4 = 0)
    (hs : Stops stop) (hc : Clean stop) (hall : Each closed items) :
    (loopFrom fdt prop val create founds m (startOf a items)).Ends := by
  induction items generalizing m a strs with
  | nil =>
    exact ⟨m, returns_bind.mpr ⟨notFound, searchFrom_neg rfl, Comp.loop_done (returns_pure _)⟩⟩
  | cons cur todo ih =>
    obtain ⟨hclosed, hall⟩ := hall
    obtain ⟨hnode, -⟩ := item_node h.block ha
    rcases hf.ends h ha hs hc hclosed with hnone | hsome
    · obtain ⟨m', hret⟩ := ih h.behind (aligned_append ha cur.bytes_aligned) hall
      exact ⟨m', loopFrom_skip hnode.nonneg hnone (next_start h.block ha hc) hret⟩
    · obtain ⟨m₁, hfix⟩ : (fixNode fdt prop val create m a.length).Ends := fixNode_ends h ha hc
      obtain ⟨cur₁, strs₁, h₁, -⟩ := fixNode_node h ha hs hprop hval hfix
      obtain ⟨m', hret⟩ := ih h₁.behind (aligned_append ha cur₁.bytes_aligned) hall
      have hnext := next_start h₁.block ha hc
      exact ⟨m', loopFrom_fix hnode.nonneg (notFound_of_aligned ha) hsome hfix h₁.header hnext hret⟩

/-- An offset is one of a node, or an error other than that there are no more. -/
def Astray (v : View) (off : Nat) : Prop :=
  (neg off = true ∧ off ≠ notFound) ∨
    ∃ done cur todo, v.items = done ++ cur :: todo ∧ off = (bytesOf v.pre ++ itemBytes done).length

theorem view_split {done : List Item} (hitems : v.items = done ++ todo) :
    v.bytes = (bytesOf v.pre ++ itemBytes done) ++ (itemBytes todo ++ v.stop) := by
  rw [View.bytes, hitems, itemBytes_append]
  simp only [append_assoc]

theorem done_aligned (v : View) (done : List Item) : (bytesOf v.pre ++ itemBytes done).length % 4 = 0 :=
  aligned_append (bytesOf_aligned _) (itemBytes_aligned _)

theorem nodeFrom_astray (done : List Item) (h : Block m fdt v.bytes) (hc : ¬Clean v.stop)
    (hitems : v.items = done ++ todo) (hr : (nodeFrom m fdt (bytesOf v.pre ++ itemBytes done).length).Returns r) :
    Astray v r := by
  rw [view_split hitems] at h
  cases todo with
  | nil => exact .inl (stop_astray h (done_aligned v done) v.stops hc hr)
  | cons cur todo =>
    have hhere := nodeFrom_here (item_node h (done_aligned v done)).1.tag
    exact .inr ⟨done, cur, todo, hitems, hr.unique hhere⟩

theorem next_astray (h : Block m fdt v.bytes) (hc : ¬Clean v.stop) (hoff : Astray v off ∨ neg off = true)
    (hr : (fdtNextNode m fdt off).Returns r) : Astray v r := by
  by_cases hneg : neg off = true
  · rw [fdtNextNode_start hneg] at hr
    refine nodeFrom_astray [] h hc rfl ?_
    rw [itemBytes_nil, append_nil]
    exact (nodeFrom_over (a := []) h rfl v.pre_tag).mp hr
  · obtain ⟨done, cur, todo, hitems, rfl⟩ : ∃ done cur todo, v.items = done ++ cur :: todo ∧
        off = (bytesOf v.pre ++ itemBytes done).length := by
      rcases hoff with (⟨hbad, -⟩ | hat) | hbad
      · exact absurd hbad hneg
      · exact hat
      · exact absurd hbad hneg
    have hblock := h
    rw [view_split hitems] at hblock
    have hnext := (next_iff hblock (done_aligned v done)).mp hr
    refine nodeFrom_astray (done ++ [cur]) h hc (by rw [hitems, append_assoc]; rfl) ?_
    rw [itemBytes_append, itemBytes_cons, itemBytes_nil, append_nil, ← append_assoc]
    exact hnext

theorem search_astray (hf : Answers fdt founds closed) (h : Shows m fdt v.bytes strs) (hc : ¬Clean v.stop)
    (hoff : Astray v off ∨ neg off = true) (hr : (searchNodes m fdt (founds m) off).Returns r) : Astray v r := by
  unfold searchNodes at hr
  rw [if_neg (not_not.mpr h.header)] at hr
  obtain ⟨k, hk, hr⟩ := returns_bind.mp hr
  refine loop_returns (Astray v) (fun s s' hs hagain => ?_) (fun s r hs hdone => ?_)
    (next_astray h.block hc hoff hk) hr
  · split at hagain
    · cases returns_pure_iff.mp hagain
    · obtain ⟨o, -, hagain⟩ := returns_bind.mp hagain
      cases o with
      | some answer => cases returns_pure_iff.mp hagain
      | none =>
        obtain ⟨next, hnext, hagain⟩ := returns_bind.mp hagain
        rw [Sum.inl.inj (returns_pure_iff.mp hagain)]
        exact next_astray h.block hc (.inl hs) hnext
  · split at hdone
    · rwa [Sum.inr.inj (returns_pure_iff.mp hdone)]
    · obtain ⟨o, ho, hdone⟩ := returns_bind.mp hdone
      cases o with
      | some answer =>
        rw [Sum.inr.inj (returns_pure_iff.mp hdone)]
        rcases hf.answer ho with rfl | hbad
        · exact hs
        · exact .inl hbad
      | none =>
        obtain ⟨next, -, hdone⟩ := returns_bind.mp hdone
        cases returns_pure_iff.mp hdone

theorem Astray.ne (h : Astray v off) : off ≠ notFound := by
  rcases h with ⟨-, hne⟩ | ⟨done, cur, todo, -, rfl⟩
  · exact hne
  · exact notFound_of_aligned (done_aligned v done)

/-- The loop of the fix-ups has gone astray: no search will say that there are no more nodes. -/
def Lost (fdt : Nat) (s : Nat × Flash) : Prop :=
  ∃ (v : View) (strs : List UInt8), Shows s.2 fdt v.bytes strs ∧ ¬Clean v.stop ∧ Astray v s.1

theorem lost_fixed (hprop : prop.length < 2147483648) (hval : val.length < 2147483648) (hs : Lost fdt (off, m))
    (hfix : (fixNode fdt prop val create m off).Returns m') : Lost fdt (off, m') := by
  obtain ⟨v, strs, h, hc, hoff⟩ := hs
  rcases hoff with ⟨hneg, hne⟩ | ⟨done, cur, todo, hitems, rfl⟩
  · exact ⟨v, strs, fixNode_back h hneg hfix, hc, .inl ⟨hneg, hne⟩⟩
  · dsimp only at h
    rw [view_split hitems] at h
    obtain ⟨cur', strs', h', -⟩ := fixNode_node h (done_aligned v done) v.stops hprop hval hfix
    let v' : View := ⟨v.pre, done ++ cur' :: todo, v.stop, v.pre_tag, v.stops⟩
    refine ⟨v', strs', ?_, hc, .inr ⟨done, cur', todo, rfl, rfl⟩⟩
    rw [view_split (v := v') rfl]
    exact h'

theorem lost_never_ends (hf : Answers fdt founds closed) (hprop : prop.length < 2147483648)
    (hval : val.length < 2147483648) (hs : Lost fdt (off, m)) :
    ¬(fixFrom fdt prop val create (fun m off => searchNodes m fdt (founds m) off) off m).Ends := by
  rintro ⟨m', hr⟩
  refine loop_returns (Q := fun _ => False) (Lost fdt) (fun s s' hs hagain => ?_) (fun s r hs hdone => ?_) hs hr
  · have hne := hs.choose_spec.choose_spec.2.2.ne
    rw [if_neg hne] at hagain
    obtain ⟨m₁, hfix, hagain⟩ := returns_bind.mp hagain
    obtain ⟨off₁, hsearch, hagain⟩ := returns_bind.mp hagain
    rw [Sum.inl.inj (returns_pure_iff.mp hagain)]
    obtain ⟨v, strs, h, hc, hoff⟩ := lost_fixed hprop hval hs hfix
    exact ⟨v, strs, h, hc, search_astray hf h hc (.inl hoff) hsearch⟩
  · have hne := hs.choose_spec.choose_spec.2.2.ne
    rw [if_neg hne] at hdone
    obtain ⟨m₁, -, hdone⟩ := returns_bind.mp hdone
    obtain ⟨off₁, -, hdone⟩ := returns_bind.mp hdone
    cases returns_pure_iff.mp hdone

theorem view_start (h : Block m fdt v.bytes) (hc : Clean v.stop) :
    (nodeFrom m fdt 0).Returns (startOf (bytesOf v.pre) v.items) :=
  (nodeFrom_over (a := []) h rfl v.pre_tag).mpr (nodeFrom_start h (bytesOf_aligned _) hc)

theorem fixup_start (h : fdtCheckHeader m fdt = 0) (hk : (nodeFrom m fdt 0).Returns k)
    (hr : (loopFrom fdt prop val create founds m k).Returns m') :
    (doFixup fdt prop val create (fun m off => searchNodes m fdt (founds m) off) m).Returns m' := by
  obtain ⟨off, hoff, hr⟩ := returns_bind.mp hr
  refine returns_bind.mpr ⟨off, ?_, hr⟩
  dsimp only
  rw [searchNodes_start h rfl]
  exact returns_bind.mpr ⟨k, hk, hoff⟩

theorem fixup_ends_iff (hf : Answers fdt founds closed) (hprop : prop.length < 2147483648)
    (hval : val.length < 2147483648) (h : Shows m fdt v.bytes strs) (hall : Each closed v.items) :
    (doFixup fdt prop val create (fun m off => searchNodes m fdt (founds m) off) m).Ends ↔ Clean v.stop := by
  constructor
  · intro hends
    by_contra hc
    obtain ⟨m', hr⟩ := hends
    obtain ⟨off, hoff, hr⟩ := returns_bind.mp hr
    exact lost_never_ends hf hprop hval ⟨v, strs, h, hc, search_astray hf h hc (.inr rfl) hoff⟩ ⟨m', hr⟩
  · intro hc
    obtain ⟨m', hr⟩ : (loopFrom fdt prop val create founds m (startOf (bytesOf v.pre) v.items)).Ends :=
      loopFrom_ends hf hprop hval h (bytesOf_aligned _) v.stops hc hall
    exact ⟨m', fixup_start h.header (view_start h.block hc) hr⟩

theorem fixNode_refused (h : fdtCheckHeader m fdt ≠ 0) (hfix : (fixNode fdt prop val create m off).Returns m') :
    m' = m := by
  rcases fixNode_returns hfix with heq | ⟨e, hset⟩
  · exact heq
  · have hw : rwCheckHeader m fdt = (fdtCheckHeader m fdt, m) := if_pos h
    unfold fdtSetprop at hset
    rw [hw] at hset
    rw [if_pos h] at hset
    exact congrArg Prod.snd (returns_pure_iff.mp hset)

theorem fixup_refused (h : fdtCheckHeader m fdt ≠ 0) :
    ¬(doFixup fdt prop val create (fun m off => searchNodes m fdt (founds m) off) m).Ends := by
  have hsearch : ∀ {off r}, (searchNodes m fdt (founds m) off).Returns r → r = fdtCheckHeader m fdt := by
    intro off r hr
    unfold searchNodes at hr
    rw [if_pos h] at hr
    exact returns_pure_iff.mp hr
  have hne : fdtCheckHeader m fdt ≠ notFound := (checkHeader_error h).2
  rintro ⟨m', hr⟩
  obtain ⟨off, hoff, hr⟩ := returns_bind.mp hr
  refine loop_returns (Q := fun _ => False) (fun s => s = (fdtCheckHeader m fdt, m)) (fun s s' hs hagain => ?_)
    (fun s r hs hdone => ?_) (congrArg (·, m) (hsearch hoff)) hr
  · subst hs
    rw [if_neg hne] at hagain
    obtain ⟨m₁, hfix, hagain⟩ := returns_bind.mp hagain
    obtain ⟨off₁, hoff₁, hagain⟩ := returns_bind.mp hagain
    rw [fixNode_refused h hfix] at hoff₁ hagain
    rw [Sum.inl.inj (returns_pure_iff.mp hagain), hsearch hoff₁]
  · subst hs
    rw [if_neg hne] at hdone
    obtain ⟨m₁, -, hdone⟩ := returns_bind.mp hdone
    obtain ⟨off₁, -, hdone⟩ := returns_bind.mp hdone
    cases returns_pure_iff.mp hdone

end Ends

/-- What is to be set. -/
structure Fix where
  prop : CString
  val : List UInt8
  create : Bool
  prop_length : prop.bytes.length < 2147483648
  val_length : val.length < 2147483648

/-- The nodes behind an offset, in their order. -/
inductive NodesFrom (m : Flash) (fdt : Nat) : Nat → List Nat → Prop
  | last {k : Nat} : (fdtNextNode m fdt k).Returns notFound → NodesFrom m fdt k []
  | next {k off : Nat} {offs : List Nat} : (fdtNextNode m fdt k).Returns off → neg off = false →
      NodesFrom m fdt off offs → NodesFrom m fdt k (off :: offs)

def Nodes (m : Flash) (fdt : Nat) (offs : List Nat) : Prop := NodesFrom m fdt 4294967295 offs

namespace Fix

variable (fx : Fix) (fdt : Nat) (matched : Flash → Nat → Prop)

/-- A node is to get the property. -/
def Sets (m : Flash) (off : Nat) : Prop :=
  matched m off ∧ (fx.create = true ∨ ∃ v, Carries m fdt off fx.prop.bytes v)

/-- What is to be left of a node. -/
structure NodeDone (m m' : Flash) (off off' : Nat) : Prop where
  set : fx.Sets fdt matched m off → Carries m' fdt off' fx.prop.bytes fx.val
  kept : ¬fx.Sets fdt matched m off → ∀ v, Carries m' fdt off' fx.prop.bytes v ↔ Carries m fdt off fx.prop.bytes v
  others : ∀ name : CString, name ≠ fx.prop → ∀ v,
    Carries m' fdt off' name.bytes v ↔ Carries m fdt off name.bytes v

/-- The nodes are what they are to be. -/
def Done (m m' : Flash) : Prop :=
  ∃ offs offs', Nodes m fdt offs ∧ Nodes m' fdt offs' ∧ List.Forall₂ (fx.NodeDone fdt matched m m') offs offs'

/-- There is room for the name, and for a property in each of the nodes that are to get it. -/
def Room (m : Flash) : Prop :=
  ∀ offs chosen : List Nat, Nodes m fdt offs → chosen.Sublist offs → (∀ off ∈ chosen, fx.Sets fdt matched m off) →
    offDtStrings m fdt + sizeDtStrings m fdt + (fx.prop.bytes.length + 1) +
      chosen.length * (12 + tagAlign fx.val.length) ≤ totalsize m fdt

end Fix

/-- A blob that is taken for writing and whose tags end as the searches expect, with its nodes closed and its
properties sound. -/
def Valid (m : Flash) (fdt : Nat) : Prop :=
  ∃ (v : View) (strs : List UInt8), Shows m fdt v.bytes strs ∧ Clean v.stop ∧ AllGood strs v.items

section Done

variable {fx : Fix}

theorem Rest.nodes (h : Rest m fdt a items stop strs) (hk : (fdtNextNode m fdt k).Returns (startOf a items)) :
    NodesFrom m fdt k (offsets a items) := by
  induction items generalizing a k with
  | nil => exact NodesFrom.last hk
  | cons i is ih => exact NodesFrom.next hk (item_node h.shows.block h.aligned).1.nonneg (ih h.behind h.next)

theorem Rest.sets_iff (hf : Searches fdt founds matched key P) (fx : Fix) (h : Rest m fdt a (cur :: todo) stop strs) :
    fx.Sets fdt matched m a.length ↔ Picks fx.prop.bytes fx.create key P strs cur.run := by
  refine and_congr (hf.matched_iff h) (or_congr Iff.rfl ?_)
  simp only [h.carries_iff fx.prop.nulFree]
  cases lookup strs cur.run fx.prop.bytes <;> simp

theorem Rest.chosen (hf : Searches fdt founds matched key P) (fx : Fix) {picked : List Item}
    (hsub : picked.Sublist items) (h : Rest m fdt a items stop strs)
    (hall : ∀ i ∈ picked, Picks fx.prop.bytes fx.create key P strs i.run) :
    ∃ chosen : List Nat, chosen.Sublist (offsets a items) ∧ chosen.length = picked.length ∧
      ∀ off ∈ chosen, fx.Sets fdt matched m off := by
  induction hsub generalizing a with
  | slnil => exact ⟨[], List.Sublist.slnil, rfl, by simp⟩
  | cons i _ ih =>
    obtain ⟨chosen, hsub, hlen, hsets⟩ := ih h.behind hall
    exact ⟨chosen, hsub.cons _, hlen, hsets⟩
  | cons_cons i _ ih =>
    obtain ⟨hi, hall⟩ := forall_mem_cons.mp hall
    obtain ⟨chosen, hsub, hlen, hsets⟩ := ih h.behind hall
    refine ⟨a.length :: chosen, hsub.cons_cons _, congrArg (· + 1) hlen, forall_mem_cons.mpr ⟨?_, hsets⟩⟩
    exact (h.sets_iff hf fx).mpr hi

theorem nameNeed_le (strs name : List UInt8) : nameNeed strs name ≤ name.length + 1 := by
  unfold nameNeed
  split
  · exact Nat.zero_le _
  · exact le_refl _

theorem Fixed.done (hf : Searches fdt founds matched key P) (h : Rest m fdt a (cur :: todo) stop strs)
    (h' : Rest m' fdt b (cur' :: items) stop strs')
    (hfix : Fixed fx.prop.bytes fx.val fx.create key P strs strs' cur cur') :
    fx.NodeDone fdt matched m m' a.length b.length := by
  have hsets := h.sets_iff hf fx
  refine ⟨fun hset => ?_, fun hno v => ?_, fun name hne v => ?_⟩
  · rw [h'.carries_iff fx.prop.nulFree]
    exact hfix.picked (hsets.mp hset)
  · rw [h'.carries_iff fx.prop.nulFree, h.carries_iff fx.prop.nulFree,
      hfix.passed fun hpick => hno (hsets.mpr hpick)]
  · have hbytes : name.bytes ≠ fx.prop.bytes := by
      intro heq
      apply hne
      cases name
      cases hp : fx.prop
      simp_all
    rw [h'.carries_iff name.nulFree, h.carries_iff name.nulFree, hfix.others _ name.nulFree hbytes]

theorem nodes_done (hf : Searches fdt founds matched key P) (h : Rest m fdt a items stop strs)
    (h' : Rest m' fdt b items' stop strs')
    (hall : List.Forall₂ (Fixed fx.prop.bytes fx.val fx.create key P strs strs') items items') :
    List.Forall₂ (fx.NodeDone fdt matched m m') (offsets a items) (offsets b items') := by
  induction hall generalizing a b with
  | nil => exact List.Forall₂.nil
  | cons hfix _ ih => exact List.Forall₂.cons (hfix.done hf h h') (ih h.behind h'.behind)

/-- On a valid blob with enough room the fix-ups do what they are to do, and leave a valid one. -/
theorem fixup_done (hf : Searches fdt founds matched key P) (hv : Valid m fdt) (hroom : fx.Room fdt matched m) :
    ∃ m', (doFixup fdt fx.prop.bytes fx.val fx.create (fun m off => searchNodes m fdt (founds m) off) m).Returns m' ∧
      Valid m' fdt ∧ fx.Done fdt matched m m' := by
  obtain ⟨v, strs, hshows, hc, hg⟩ := hv
  have hrest : Rest m fdt (bytesOf v.pre) v.items v.stop strs := ⟨hshows, bytesOf_aligned _, v.stops, hc, hg⟩
  have hstart := view_start hshows.block hc
  have hnodes : Nodes m fdt (offsets (bytesOf v.pre) v.items) := hrest.nodes hstart
  have hroomFor : RoomFor m fdt fx.prop.bytes fx.val fx.create key P strs strs v.items := by
    intro picked hsub hall
    obtain ⟨chosen, hsub, hlen, hsets⟩ := hrest.chosen hf fx hsub hall
    have henough := hroom _ chosen hnodes hsub hsets
    have hneed := nameNeed_le strs fx.prop.bytes
    have hsize := hshows.stringsSize
    rw [hlen] at henough
    omega
  obtain ⟨m', items', strs', hloop, hrest', -, hall⟩ := hrest.fixed hf fx.create fx.prop.nulFree fx.prop_length
    fx.val_length hg ⟨[], (append_nil _).symm⟩ hroomFor
  let v' : View := ⟨v.pre, items', v.stop, v.pre_tag, v.stops⟩
  refine ⟨m', fixup_start hshows.header hstart hloop, ⟨v', strs', hrest'.shows, hc, hrest'.good⟩, _, _, hnodes, ?_,
    nodes_done hf hrest hrest' hall⟩
  exact hrest'.nodes (view_start (v := v') hrest'.shows.block hc)

theorem each_true (items : List Item) : Each (fun _ _ => True) items := by
  induction items with
  | nil => trivial
  | cons i is ih => exact ⟨trivial, ih⟩

/-- The fix-ups never end where the header is refused. Where the blob is taken for writing they end exactly if the
tags end as the searches expect; the one by compatible string asks each node for its list, and the nodes are to be
closed for it. -/
theorem fixups_end_iff (fx : Fix) (m : Flash) (fdt : Nat) : (fdtCheckHeader m fdt ≠ 0 →
      (∀ pname pval, ¬(doFixupByProp fdt fx.prop.bytes fx.val fx.create pname pval m).Ends) ∧
        ∀ compat, ¬(doFixupByCompat fdt fx.prop.bytes fx.val fx.create compat m).Ends) ∧
      ((rwCheckHeader m fdt).1 = 0 → Placed m fdt → (∃ v, Tree m fdt v) ∧ ∀ v, Tree m fdt v →
        (∀ pname pval, (doFixupByProp fdt fx.prop.bytes fx.val fx.create pname pval m).Ends ↔ Clean v.stop) ∧
          (Each Closed v.items →
            ∀ compat, (doFixupByCompat fdt fx.prop.bytes fx.val fx.create compat m).Ends ↔ Clean v.stop)) := by
  refine ⟨fun h => ⟨fun _ _ => fixup_refused h, fun _ => fixup_refused h⟩, fun hw hp => ⟨tree_exists hw hp, ?_⟩⟩
  intro v ht
  refine ⟨fun pname pval => ?_, fun hclosed compat => ?_⟩
  · exact fixup_ends_iff (answers_value fdt pname pval) fx.prop_length fx.val_length ht.shows (each_true v.items)
  · exact fixup_ends_iff (answers_compatible fdt compat) fx.prop_length fx.val_length ht.shows hclosed

/-- On a valid blob the fix-ups end where there is room: the blob is valid again, and every node is what it is to be. -/
theorem fixups_done (fx : Fix) (hv : Valid m fdt) :
    (∀ (pname : CString) (pval : List UInt8), fx.Room fdt (fun m off => Carries m fdt off pname.bytes pval) m →
      ∃ m', (doFixupByProp fdt fx.prop.bytes fx.val fx.create pname.bytes pval m).Returns m' ∧ Valid m' fdt ∧
        fx.Done fdt (fun m off => Carries m fdt off pname.bytes pval) m m') ∧
      ∀ compat : List UInt8, fx.Room fdt (fun m off => (fdtNodeCheckCompatible m fdt off compat).Returns 0) m →
        ∃ m', (doFixupByCompat fdt fx.prop.bytes fx.val fx.create compat m).Returns m' ∧ Valid m' fdt ∧
          fx.Done fdt (fun m off => (fdtNodeCheckCompatible m fdt off compat).Returns 0) m m' :=
  ⟨fun pname pval hroom => fixup_done (searches_value fdt pname.nulFree pval) hv hroom,
    fun compat hroom => fixup_done (searches_compatible fdt compat) hv hroom⟩

end Done

section Sample

def nodeStruct : List UInt8 :=
  [0, 0, 0, 1, 0, 0, 0, 0, 0, 0, 0, 3, 0, 0, 0, 2, 0, 0, 0, 0, 97, 0, 0, 0, 0, 0, 0, 2, 0, 0, 0, 9]

/-- A blob with it and the one string `"compatible"`. -/
def blobBytes : List UInt8 :=
  [0xd0, 0x0d, 0xfe, 0xed, 0, 0, 2, 0, 0, 0, 0, 56, 0, 0, 0, 88, 0, 0, 0, 40, 0, 0, 0, 17, 0, 0, 0, 16, 0, 0, 0, 0,
    0, 0, 0, 11, 0, 0, 0, 32] ++ List.replicate 16 0 ++ nodeStruct ++ (compatibleChars ++ [0])

def nodeBlob : Flash := store (fun _ => 0) 4096 blobBytes

theorem node_taken : (rwCheckHeader nodeBlob 4096).1 = 0 := by decide

theorem node_placed : Placed nodeBlob 4096 := ⟨by decide, by decide, by decide, by decide, by decide⟩

theorem closed_bytes {t : Nat} (h : tok s = .tag t s.length) (hs : s.length < 2147483648) (h₀ : 4 ≤ s.length)
    (h₈ : t = propTag → 8 ≤ s.length) (rest : List UInt8) : tok (s ++ rest) = .tag t s.length := by
  have htake := tok_take h hs le_rfl h₀ h₈ rest
  rwa [take_length] at htake

theorem head_closed : ∀ rest, tok ([0, 0, 0, 1, 0, 0, 0, 0] ++ rest) = .tag beginNode 8 :=
  closed_bytes rfl (by decide) (by decide) (by decide)

theorem prop_closed :
    ∀ rest, tok ([0, 0, 0, 3, 0, 0, 0, 2, 0, 0, 0, 0, 97, 0, 0, 0] ++ rest) = .tag propTag 16 :=
  closed_bytes rfl (by decide) (by decide) (by decide)

theorem end_closed : ∀ rest, tok ([0, 0, 0, 2] ++ rest) = .tag endNode 4 :=
  closed_bytes rfl (by decide) (by decide) (by decide)

theorem endNode_ne_end : endNode ≠ endTag := by decide

theorem closing_tags : (endNode ≠ propTag) ∧ endNode ≠ nopTag := by decide

theorem endNode_ne_begin : endNode ≠ beginNode := by decide

def propPiece : Piece := ⟨propTag, _, rfl, prop_ne_end, prop_closed⟩

def endPiece : Piece := ⟨endNode, _, rfl, endNode_ne_end, end_closed⟩

theorem node_first (p : Piece) (hp : [endPiece].head? = some p) : p.tag ≠ propTag ∧ p.tag ≠ nopTag := by
  cases hp
  exact closing_tags

def nodeItem : Item where
  head := ⟨beginNode, _, rfl, begin_ne_end, head_closed⟩
  run := [propPiece]
  tail := [endPiece]
  head_tag := rfl
  run_tag := forall_mem_singleton.mpr (Or.inl rfl)
  tail_tag := forall_mem_singleton.mpr endNode_ne_begin
  tail_first := node_first

theorem end_clean : Clean [0, 0, 0, 9] := .inr ⟨4, rfl⟩

theorem end_stops : Stops [0, 0, 0, 9] := by
  intro t n h
  cases h
  exact .inl rfl

def nodeView : View := ⟨[], [nodeItem], [0, 0, 0, 9], fun _ hp => absurd hp not_mem_nil, end_stops⟩

theorem node_tree : Tree nodeBlob 4096 nodeView := ⟨node_taken, node_placed, by decide⟩

theorem node_good : AllGood (stringsOf nodeBlob 4096) nodeView.items := by
  refine ⟨⟨.inl (cons_ne_nil _ _), forall_mem_singleton.mpr fun _ => ?_⟩, trivial⟩
  decide

theorem value_text : (0 : UInt8) ∉ [115] := by decide

theorem value_length : [(115 : UInt8)].length < 2147483648 := by decide

/-- The property `"s"` is to get the value `"s"` in every node that matches. -/
def sampleFix : Fix := ⟨⟨[115], value_text⟩, [115], true, value_length, value_length⟩

theorem nodes_unique {offs offs' : List Nat} (h : NodesFrom m fdt k offs) (h' : NodesFrom m fdt k offs') :
    offs = offs' := by
  induction h generalizing offs' with
  | last hnone =>
    cases h' with
    | last _ => rfl
    | next hsome hneg _ =>
      rw [hsome.unique hnone] at hneg
      cases hneg
  | next hsome hneg _ ih =>
    cases h' with
    | last hnone =>
      rw [hsome.unique hnone] at hneg
      cases hneg
    | next hsome' _ hrest =>
      obtain rfl := hsome.unique hsome'
      rw [ih hrest]

theorem node_room (matched : Flash → Nat → Prop) : sampleFix.Room 4096 matched nodeBlob := by
  intro offs chosen hoffs hsub _
  have hrest : Rest nodeBlob 4096 [] nodeView.items nodeView.stop (stringsOf nodeBlob 4096) :=
    ⟨node_tree.shows, rfl, nodeView.stops, end_clean, node_good⟩
  have hone : Nodes nodeBlob 4096 [0] := hrest.nodes (view_start node_tree.shows.block end_clean)
  have hlen : chosen.length ≤ 1 := by
    rw [nodes_unique hoffs hone] at hsub
    exact hsub.length_le
  have hused : offDtStrings nodeBlob 4096 + sizeDtStrings nodeBlob 4096 + (sampleFix.prop.bytes.length + 1) +
      (12 + tagAlign sampleFix.val.length) ≤ totalsize nodeBlob 4096 := by decide
  have hmost := Nat.mul_le_mul_right (12 + tagAlign sampleFix.val.length) hlen
  omega

/-- The property `"compatible"`, whose value in the node is `"a"`. -/
def compatibleText : CString := ⟨compatibleChars, compatible_text⟩

theorem fixups_done_node :
    (∃ m', (doFixupByProp 4096 sampleFix.prop.bytes sampleFix.val sampleFix.create compatibleText.bytes [97, 0]
        nodeBlob).Returns m' ∧ Valid m' 4096 ∧
      sampleFix.Done 4096 (fun m off => Carries m 4096 off compatibleText.bytes [97, 0]) nodeBlob m') ∧
      ∃ m', (doFixupByCompat 4096 sampleFix.prop.bytes sampleFix.val sampleFix.create [97] nodeBlob).Returns m' ∧
        Valid m' 4096 ∧
        sampleFix.Done 4096 (fun m off => (fdtNodeCheckCompatible m 4096 off [97]).Returns 0) nodeBlob m' := by
  have hdone := fixups_done sampleFix ⟨nodeView, _, node_tree.shows, end_clean, node_good⟩
  exact ⟨hdone.1 compatibleText [97, 0] (node_room _), hdone.2 [97] (node_room _)⟩

theorem fixups_end_node :
    (doFixupByProp 4096 sampleFix.prop.bytes sampleFix.val sampleFix.create compatibleText.bytes [97, 0]
        nodeBlob).Ends ∧
      (doFixupByCompat 4096 sampleFix.prop.bytes sampleFix.val sampleFix.create [97] nodeBlob).Ends := by
  have hends := ((fixups_end_iff sampleFix nodeBlob 4096).2 node_taken node_placed).2 nodeView node_tree
  have hclosed : Each Closed nodeView.items := ⟨.inl (cons_ne_nil _ _), trivial⟩
  exact ⟨(hends.1 compatibleText.bytes [97, 0]).mpr end_clean, (hends.2 hclosed [97]).mpr end_clean⟩

end Sample

end UBoot.Fdt
