import UBoot.BootpReplies

namespace UBoot.Bootp

open Cells List Loops

/-- An item of an area: a pad, or an option with its value. -/
inductive Item where
  | pad
  | opt (code : UInt8) (value : List UInt8)
deriving DecidableEq

def Item.bytes : Item → List UInt8
  | .pad => [0]
  | .opt code value => code :: UInt8.ofNat value.length :: value

def encode (items : List Item) : List UInt8 := items.flatMap Item.bytes

/-- The lengths that options have: four bytes, whole addresses, one byte, or a name. -/
def LengthOk (code : UInt8) (n : Nat) : Prop :=
  (code ∈ [1, 2, 51, 54] → n = 4) ∧ (code ∈ [3, 6, 42] → 4 ≤ n ∧ n % 4 = 0) ∧ (code = 53 → n = 1) ∧
    (code ∈ [12, 17] → 1 ≤ n)

instance (code : UInt8) (n : Nat) : Decidable (LengthOk code n) := inferInstanceAs (Decidable (_ ∧ _))

def Item.WellFormed : Item → Prop
  | .pad => True
  | .opt code value => code ≠ 0 ∧ code ≠ 0xff ∧ value.length < 256 ∧ LengthOk code value.length

instance (item : Item) : Decidable item.WellFormed :=
  match item with
  | .pad => inferInstanceAs (Decidable True)
  | .opt _ _ => inferInstanceAs (Decidable (_ ∧ _))

/-- A packet whose area holds the items. -/
structure Area (pkt : List UInt8) (items : List Item) : Prop where
  length : bpVend + 4 ≤ pkt.length
  magic : cookie pkt = bootpVendorMagic
  wellFormed : ∀ item ∈ items, item.WellFormed
  holds : encode items ++ [0xff] <+: pkt.drop (bpVend + 4)

def Item.valueOf (code : UInt8) : Item → Option (List UInt8)
  | .pad => none
  | .opt c value => if c = code then some value else none

def lastValue (code : UInt8) (items : List Item) : Option (List UInt8) := (items.filterMap (Item.valueOf code)).getLast?

def firstType (items : List Item) : Int :=
  match items.filterMap (Item.valueOf 53) with
  | (type :: _) :: _ => type.toNat
  | _ => -1

def parameters : List (UInt8 × Var) :=
  [(1, .netOurSubnetMask), (3, .netOurGatewayIP), (6, .netOurDNSIP), (12, .netOurHostName), (17, .netOurRootPath),
    (51, .dhcpLeasetime), (54, .netDHCPServerIP)]

/-- A value as long as the variable takes it: the first address, or a string in front of the NUL. -/
def cut (x : Var) (value : List UInt8) : List UInt8 := value.take (if x.isString then x.size - 1 else 4)

/-- The variables behind the area: what the last options say, and no change where no option says anything. -/
structure ReadAs (cfg : Config) (items : List Item) (v v' : Vars) : Prop where
  stored : ∀ code x, (code, x) ∈ parameters → ∀ value, lastValue code items = some value →
    x.stored (cut x value) <+: v'.bytes x
  same : ∀ x, (∀ code value, Item.opt code value ∈ items → ∀ c ∈ optionCopies cfg code value.length, c.dest ≠ x) →
    v'.bytes x = v.bytes x
  fileSize : v'.netBootFileSize = v.netBootFileSize

/-- Pads stand in pairs. -/
def Paired : List Item → Bool
  | [] => true
  | .pad :: .pad :: items => Paired items
  | .pad :: _ => false
  | .opt _ _ :: items => Paired items

/-- The items that begin in the first `room` bytes. -/
def within : Nat → List Item → List Item
  | _, [] => []
  | room, item :: items => if room = 0 then [] else item :: within (room - item.bytes.length) items

def untilType (items : List Item) : List Item := items.takeWhile fun item => (item.valueOf 53).isNone

/-- The options that set a variable begin in front of `room`. -/
def Early (cfg : Config) (room : Nat) (items : List Item) : Prop :=
  ∀ front code value rest, items = front ++ .opt code value :: rest → optionCopies cfg code value.length ≠ [] →
    (encode front).length < room

variable {cfg : Config} {pkt cur rest : List UInt8} {items : List Item} {v v' w : Vars} {p stop room : Nat}
  {code : UInt8} {value : List UInt8} {x : Var} {c : Copy}

theorem encode_cons (item : Item) (items : List Item) : encode (item :: items) = item.bytes ++ encode items :=
  flatMap_cons

theorem lastValue_cons (item : Item) :
    lastValue code (item :: items) = (lastValue code items).or (item.valueOf code) := by
  unfold lastValue
  rw [filterMap_cons]
  cases item.valueOf code with
  | none => rw [Option.or_none]
  | some value =>
    rw [List.getLast?_cons]
    cases (items.filterMap (Item.valueOf code)).getLast? <;> rfl

theorem optionCopies_code {n : Nat} (h : c ∈ optionCopies cfg code n) : c.dest.code = code := by
  have hkind := optionCopies_kind cfg code n
  generalize optionCopies cfg code n = cs at h hkind
  cases hkind with
  | nil => cases h
  | address x hx =>
    rw [mem_singleton.mp h]
    exact hx.1
  | servers hx =>
    rcases mem_pair.mp h with rfl | rfl
    · exact hx.1
    · exact hx.1
  | name x hx =>
    rw [mem_singleton.mp h]
    exact hx.1

theorem parameters_copy (h : (code, x) ∈ parameters) (n : Nat) : x.code = code ∧
    ∃ c ∈ optionCopies cfg code n, c.dest = x ∧ c.off = 0 ∧
      c.len = if x.isString then truncateSz x.size n else 4 := by
  unfold parameters at h
  simp only [mem_cons, Prod.mk.injEq, not_mem_nil, or_false] at h
  rcases h with ⟨rfl, rfl⟩ | ⟨rfl, rfl⟩ | ⟨rfl, rfl⟩ | ⟨rfl, rfl⟩ | ⟨rfl, rfl⟩ | ⟨rfl, rfl⟩ | ⟨rfl, rfl⟩
  all_goals exact ⟨rfl, _, mem_cons_self, rfl, rfl, rfl⟩

theorem optionCopies_within {n : Nat} (hlen : LengthOk code n) (h : c ∈ optionCopies cfg code n) :
    c.off + c.len ≤ n := by
  obtain ⟨hfour, haddr, _, _⟩ := hlen
  have hkind := optionCopies_kind cfg code n
  generalize optionCopies cfg code n = cs at h hkind
  cases hkind with
  | nil => cases h
  | address x hx hstring _ =>
    rw [mem_singleton.mp h]
    obtain ⟨rfl, hcode⟩ := hx
    cases x with
    | netOurSubnetMask | netTimeOffset | dhcpLeasetime | netDHCPServerIP => exact le_of_eq (hfour (by decide)).symm
    | netOurGatewayIP | netOurDNSIP | netOurDNS2IP | netNtpServerIP => exact (haddr (by decide)).1
    | netOurIP | netServerIP | netServerEther | bootFile => exact absurd rfl hcode
    | netOurHostName | netOurRootPath | netOurNISDomain => cases hstring
  | servers hx hmore =>
    obtain ⟨rfl, _⟩ := hx
    obtain ⟨hmin, hmod⟩ := haddr (by decide)
    rcases mem_pair.mp h with rfl | rfl
    · exact hmin
    · show 4 + 4 ≤ n
      omega
  | name x _ _ =>
    rw [mem_singleton.mp h]
    show 0 + truncateSz x.size n ≤ n
    unfold truncateSz
    split <;> omega

/-- What the walk finds at the place of an option. -/
structure At (pkt : List UInt8) (p : Nat) (code : UInt8) (value tail : List UInt8) : Prop where
  first : pkt[p]? = some code
  second : pkt[p + 1]? = some (UInt8.ofNat value.length)
  body : pkt.drop (p + 2) = value ++ tail
  behind : pkt.drop (p + value.length + 2) = tail

theorem drop_option {tail : List UInt8} (h : pkt.drop p = (Item.opt code value).bytes ++ tail) :
    At pkt p code value tail := by
  have hbyte : ∀ i, pkt[p + i]? = ((Item.opt code value).bytes ++ tail)[i]? := by
    intro i
    rw [← h, List.getElem?_drop]
  have hvalue : pkt.drop (p + 2) = value ++ tail := by
    rw [← drop_drop, h]
    rfl
  refine ⟨hbyte 0, hbyte 1, hvalue, ?_⟩
  rw [add_right_comm, ← drop_drop, hvalue, drop_left]

theorem Copy.value_in {tail : List UInt8} (hdrop : pkt.drop (p + 2) = value ++ tail)
    (hin : c.off + c.len ≤ value.length) : Loads pkt (p + 2 + c.off) c.len ∧
      c.value pkt (p + 2) = (value.drop c.off).take c.len := by
  have hlen := congrArg List.length hdrop
  rw [length_drop, length_append] at hlen
  constructor
  · unfold Loads
    omega
  · unfold Copy.value
    rw [← drop_drop, hdrop, drop_append_of_le_length (by omega), take_append_of_le_length]
    rw [length_drop]
    omega

/-- The variables behind one option. -/
structure Stored (cfg : Config) (code : UInt8) (value : List UInt8) (v v' : Vars) : Prop where
  copied : ∀ c ∈ optionCopies cfg code value.length,
    v'.bytes c.dest = c.dest.filled ((value.drop c.off).take c.len) (v.bytes c.dest)
  other : ∀ x, (∀ c ∈ optionCopies cfg code value.length, c.dest ≠ x) → v'.bytes x = v.bytes x
  fileSize : v'.netBootFileSize = v.netBootFileSize

theorem optionProcess_stored {tail : List UInt8} (hwf : (Item.opt code value).WellFormed)
    (hat : At pkt p code value tail) (hp : bpVend ≤ p) (hkept : Kept pkt cur) (v : Vars) :
    ∃ cur' v', optionProcess cfg code value.length p cur v = some (cur', v') ∧ Kept pkt cur' ∧
      Stored cfg code value v v' := by
  obtain ⟨_, _, _, hlen⟩ := hwf
  have hvalue := congrArg List.length hat.body
  rw [length_drop, length_append] at hvalue
  have hin : p < pkt.length := exists_byte.mp ⟨code, hat.first⟩
  have hreads : ∀ c ∈ optionCopies cfg code value.length, Loads pkt (p + 2 + c.off) c.len := fun c hc =>
    (Copy.value_in hat.body (optionCopies_within hlen hc)).1
  have hname : Loads pkt (p + 2) (truncateSz 128 value.length) := by
    unfold Loads truncateSz
    split <;> omega
  rcases @optionProcess_cases cfg pkt p code value.length cur hkept hp (by omega) v with
    ⟨hbad, _⟩ | ⟨_, _, cur', v', hdone, hkept', _⟩
  · exact absurd ⟨hreads, fun _ _ => hname⟩ hbad
  · refine ⟨cur', v', hdone, hkept', ?_⟩
    unfold optionProcess at hdone
    split at hdone
    next hcode =>
      -- the boot file goes into the packet
      have hnone : optionCopies cfg code value.length = [] := by
        rw [hcode]
        rfl
      have hsame : v' = v := by
        obtain ⟨c, _, hdone⟩ := Option.bind_eq_some_iff.mp hdone
        split at hdone
        · obtain ⟨_, _, hdone⟩ := Option.bind_eq_some_iff.mp hdone
          obtain ⟨_, _, hdone⟩ := Option.bind_eq_some_iff.mp hdone
          exact (Prod.mk.inj (Option.some.inj hdone)).2.symm
        · exact (Prod.mk.inj (Option.some.inj hdone)).2.symm
      rw [hsame]
      refine ⟨?_, fun _ _ => rfl, rfl⟩
      rw [hnone]
      exact fun c hc => absurd hc not_mem_nil
    · obtain ⟨w, hrun, hdone⟩ := Option.bind_eq_some_iff.mp hdone
      cases hdone
      rw [hkept.runCopies (by omega)] at hrun
      obtain ⟨hsize, hother, hcopied⟩ := runCopies_bytes (optionCopies_copies cfg code value.length) hrun
      refine ⟨fun c hc => ?_, hother, hsize⟩
      rw [((hcopied c hc).1 fun h => absurd h Bool.false_ne_true).2,
        (Copy.value_in hat.body (optionCopies_within hlen hc)).2]

theorem lastValue_mem (h : lastValue code items = some value) : Item.opt code value ∈ items := by
  obtain ⟨item, hitem, hvalue⟩ := mem_filterMap.mp (mem_of_getLast? h)
  cases item with
  | pad => cases hvalue
  | opt c s =>
    rw [Item.valueOf] at hvalue
    split at hvalue
    next hc =>
      rw [← hc, ← Option.some.inj hvalue]
      exact hitem
    · cases hvalue

theorem ReadAs.of_late (h : Early cfg 0 items) (v : Vars) : ReadAs cfg items v v := by
  refine ⟨fun code x hx value hlast => ?_, fun _ _ => rfl, rfl⟩
  obtain ⟨front, back, hsplit⟩ := append_of_mem (lastValue_mem hlast)
  have hcopy : _ ∧ ∃ c ∈ optionCopies cfg code value.length, _ := parameters_copy hx value.length
  obtain ⟨_, c, hc, _⟩ := hcopy
  exact absurd (h front code value back hsplit (ne_nil_of_mem hc)) (Nat.not_lt_zero _)

theorem ReadAs.pads (h : ReadAs cfg items v v') : ReadAs cfg (.pad :: .pad :: items) v v' := by
  refine ⟨fun code x hx value hlast => h.stored code x hx value ?_, fun x hx => h.same x fun code value hmem => ?_,
    h.fileSize⟩
  · rw [lastValue_cons, lastValue_cons] at hlast
    unfold Item.valueOf at hlast
    rwa [Option.or_none, Option.or_none] at hlast
  · exact hx code value (mem_cons_of_mem _ (mem_cons_of_mem _ hmem))

theorem ReadAs.option (hfirst : Stored cfg code value v w) (h : ReadAs cfg items w v') :
    ReadAs cfg (.opt code value :: items) v v' := by
  refine ⟨fun code' x hx value' hlast => ?_, fun x hx => ?_, h.fileSize.trans hfirst.fileSize⟩
  · rw [lastValue_cons] at hlast
    rcases hrest : lastValue code' items with _ | last
    · rw [hrest, Option.none_or] at hlast
      rw [Item.valueOf] at hlast
      split at hlast
      next hcode =>
        subst code'
        cases hlast
        have hcopy : _ ∧ ∃ c ∈ optionCopies cfg code value.length, _ := parameters_copy hx value.length
        obtain ⟨hx', c, hc, rfl, hoff, hlen⟩ := hcopy
        have hkeep : v'.bytes c.dest = w.bytes c.dest := by
          refine h.same _ fun code' value' hmem d hd heq => ?_
          have hcode : code' = code := by
            rw [← optionCopies_code hd, heq, hx']
          subst code'
          have hnone : Item.valueOf code (.opt code value') = some value' := if_pos rfl
          have hempty := List.getLast?_eq_none_iff.mp hrest
          exact absurd (mem_filterMap.mpr ⟨_, hmem, hnone⟩) (hempty ▸ not_mem_nil)
        have hcut : cut c.dest value = (value.drop c.off).take c.len := by
          unfold cut
          rw [hoff, hlen, drop_zero]
          split
          · unfold truncateSz
            split
            · rfl
            next hshort => rw [take_of_length_le (by omega), take_length]
          · rfl
        rw [hkeep, hfirst.copied c hc, hcut]
        exact prefix_append _ _
      · cases hlast
    · rw [hrest, Option.some_or] at hlast
      exact h.stored code' x hx value' (hrest.trans hlast)
  · rw [h.same x fun code' value' hmem => hx code' value' (mem_cons_of_mem _ hmem)]
    exact hfirst.other x (hx code value mem_cons_self)

theorem at_end (h : encode [] ++ [0xff] <+: pkt.drop p) : pkt[p]? = some 0xff := by
  obtain ⟨tail, htail⟩ := h
  have hbyte := congrArg (fun l => l[0]?) htail
  rw [List.getElem?_drop] at hbyte
  exact hbyte.symm

theorem at_pads (h : encode (.pad :: .pad :: items) ++ [0xff] <+: pkt.drop p) :
    pkt[p]? = some 0 ∧ pkt[p + 1]? = some 0 ∧ encode items ++ [0xff] <+: pkt.drop (p + 2) := by
  obtain ⟨tail, htail⟩ := h
  have hbyte : ∀ i, pkt[p + i]? = (0 :: 0 :: (encode items ++ [0xff]) ++ tail)[i]? := by
    intro i
    rw [← List.getElem?_drop, ← htail]
    rfl
  refine ⟨hbyte 0, hbyte 1, tail, ?_⟩
  rw [← drop_drop, ← htail]
  rfl

theorem at_option (h : encode (.opt code value :: items) ++ [0xff] <+: pkt.drop p) :
    ∃ tail, At pkt p code value tail ∧ encode items ++ [0xff] <+: tail := by
  obtain ⟨tail, htail⟩ := h
  rw [encode_cons, append_assoc, append_assoc] at htail
  refine ⟨encode items ++ ([0xff] ++ tail), drop_option htail.symm, tail, ?_⟩
  rw [append_assoc]

theorem Early.next {item : Item} {n : Nat} (h : Early cfg room (item :: items)) (hn : item.bytes.length = n) :
    Early cfg (room - n) items := by
  intro front code value rest hsplit hcopies
  have hfront := h (item :: front) code value rest (by rw [hsplit, cons_append]) hcopies
  rw [encode_cons, length_append] at hfront
  omega

theorem paired_pad (h : ∀ items', items ≠ .pad :: items') : Paired (.pad :: items) = false := by
  cases items with
  | nil => rfl
  | cons item items =>
    cases item with
    | pad => exact absurd rfl (h items)
    | opt code value => rfl

theorem within_cons (item : Item) (h : 0 < room) :
    within room (item :: items) = item :: within (room - item.bytes.length) items :=
  if_neg (ne_of_gt h)

theorem within_pad {items' : List Item} (h : within room items = .pad :: items') :
    ∃ items', items = .pad :: items' := by
  cases items with
  | nil => cases h
  | cons item items =>
    unfold within at h
    split at h
    · cases h
    · exact ⟨items, by rw [(List.cons.inj h).1]⟩

theorem untilType_pad {items' : List Item} (h : untilType items = .pad :: items') :
    ∃ items', items = .pad :: items' := by
  cases items with
  | nil => cases h
  | cons item items =>
    unfold untilType at h
    rw [takeWhile_cons] at h
    split at h
    · exact ⟨items, by rw [(List.cons.inj h).1]⟩
    · cases h

theorem oplen_toNat (h : value.length < 256) : (UInt8.ofNat value.length).toNat = value.length :=
  UInt8.toNat_ofNat_of_lt' h

theorem options_late (hstop : ¬p < stop) (hearly : Early cfg (stop - p) items) :
    ∃ cur' v', Finishes (optionsRound cfg stop) ⟨p, cur, v⟩ (cur', v') ∧ ReadAs cfg items v v' := by
  rw [Nat.sub_eq_zero_of_le (not_lt.mp hstop)] at hearly
  exact ⟨cur, v, .done (if_neg hstop), ReadAs.of_late hearly v⟩

theorem options_walk (hpaired : Paired (within (stop - p) items) = true) (hwf : ∀ item ∈ items, item.WellFormed)
    (hdrop : encode items ++ [0xff] <+: pkt.drop p) (hp : bpVend ≤ p) (hearly : Early cfg (stop - p) items)
    (hkept : Kept pkt cur) : ∃ cur' v', Finishes (optionsRound cfg stop) ⟨p, cur, v⟩ (cur', v') ∧
      ReadAs cfg items v v' := by
  induction items using Paired.induct generalizing p cur v with
  | case1 =>
    by_cases hstop : p < stop
    swap
    · exact options_late hstop hearly
    refine ⟨cur, v, .done ?_, ⟨fun _ _ _ _ h => (by cases h), fun _ _ => rfl, rfl⟩⟩
    unfold optionsRound
    rw [if_pos hstop, hkept.byte hp, at_end hdrop]
    rfl
  | case2 items ih =>
    by_cases hstop : p < stop
    swap
    · exact options_late hstop hearly
    obtain ⟨hfirst, hsecond, hrest⟩ := at_pads hdrop
    rw [within_cons _ (Nat.sub_pos_of_lt hstop)] at hpaired
    by_cases hroom : stop - p = 1
    · rw [hroom] at hpaired
      cases hpaired
    rw [within_cons _ (by show 0 < stop - p - 1; omega)] at hpaired
    have hpaired' : Paired (within (stop - (p + 2)) items) = true := hpaired
    have hround : optionsRound cfg stop ⟨p, cur, v⟩ = some (.inl ⟨p + 2, cur, v⟩) := by
      unfold optionsRound
      rw [if_pos hstop, hkept.byte hp, hkept.byte (show bpVend ≤ p + 1 by omega), hfirst, hsecond]
      rfl
    have hearly' := (hearly.next (n := 1) rfl).next (n := 1) rfl
    rw [Nat.sub_sub, Nat.sub_sub] at hearly'
    have hwf' : ∀ item ∈ items, item.WellFormed := fun item h =>
      hwf item (mem_cons_of_mem _ (mem_cons_of_mem _ h))
    obtain ⟨cur', v', hfin, hread⟩ := ih hpaired' hwf' hrest (by omega) hearly' hkept
    exact ⟨cur', v', .again hround hfin, hread.pads⟩
  | case3 items hodd =>
    by_cases hstop : p < stop
    swap
    · exact options_late hstop hearly
    rw [within_cons _ (Nat.sub_pos_of_lt hstop), paired_pad] at hpaired
    · cases hpaired
    · intro items' hitems
      obtain ⟨items', rfl⟩ := within_pad hitems
      exact hodd items' rfl
  | case4 code value items ih =>
    by_cases hstop : p < stop
    swap
    · exact options_late hstop hearly
    have hitem := hwf _ mem_cons_self
    rw [within_cons _ (Nat.sub_pos_of_lt hstop)] at hpaired
    have hpaired' : Paired (within (stop - (p + value.length + 2)) items) = true := by
      rw [add_assoc, ← Nat.sub_sub]
      exact hpaired
    obtain ⟨tail, hat, hrest⟩ := at_option hdrop
    rw [← hat.behind] at hrest
    obtain ⟨cur₁, w, hdone, hkept', hstored⟩ := optionProcess_stored hitem hat hp hkept v
    have hround : optionsRound cfg stop ⟨p, cur, v⟩ = some (.inl ⟨p + value.length + 2, cur₁, w⟩) := by
      unfold optionsRound
      rw [if_pos hstop, hkept.byte hp, hkept.byte (show bpVend ≤ p + 1 by omega), hat.first, hat.second]
      simp only [Option.bind_eq_bind, Option.bind_some]
      rw [if_neg hitem.2.1, oplen_toNat hitem.2.2.1, hdone]
      rfl
    have hearly' := hearly.next (n := value.length + 2) rfl
    rw [Nat.sub_sub] at hearly'
    obtain ⟨cur', v', hfin, hread⟩ := ih hpaired' (fun item h => hwf item (mem_cons_of_mem _ h)) hrest (by omega)
      hearly' hkept'
    exact ⟨cur', v', .again hround hfin, hread.option hstored⟩

theorem firstType_option (hcode : code ≠ 53) : firstType (.opt code value :: items) = firstType items := by
  have hnone : Item.valueOf 53 (.opt code value) = none := if_neg hcode
  unfold firstType
  rw [filterMap_cons, hnone]

theorem message_walk (hpaired : Paired (untilType items) = true) (hwf : ∀ item ∈ items, item.WellFormed)
    (hdrop : encode items ++ [0xff] <+: pkt.drop p) : Finishes (messageRound pkt) p (firstType items) := by
  induction items using Paired.induct generalizing p with
  | case1 =>
    refine .done ?_
    unfold messageRound
    rw [at_end hdrop]
    rfl
  | case2 items ih =>
    obtain ⟨hfirst, hsecond, hrest⟩ := at_pads hdrop
    have hround : messageRound pkt p = some (.inl (p + 2)) := by
      unfold messageRound
      rw [hfirst, hsecond]
      rfl
    exact .again hround (ih hpaired (fun item h => hwf item (mem_cons_of_mem _ (mem_cons_of_mem _ h))) hrest)
  | case3 items hodd =>
    have hpad : untilType (.pad :: items) = .pad :: untilType items := rfl
    rw [hpad, paired_pad] at hpaired
    · cases hpaired
    · intro items' hitems
      obtain ⟨items', rfl⟩ := untilType_pad hitems
      exact hodd items' rfl
  | case4 code value items ih =>
    obtain ⟨_, hend, hlen, hrange⟩ := hwf _ mem_cons_self
    obtain ⟨tail, hat, hrest⟩ := at_option hdrop
    rw [← hat.behind] at hrest
    by_cases hcode : code = 53
    · subst hcode
      obtain ⟨type, hvalue⟩ := length_eq_one_iff.mp (hrange.2.2.1 rfl)
      subst hvalue
      have htype : pkt[p + 2]? = some type := by
        have hbyte := congrArg (fun l => l[0]?) hat.body
        rw [List.getElem?_drop] at hbyte
        exact hbyte
      refine .done ?_
      unfold messageRound
      rw [hat.first, htype]
      rfl
    · have hround : messageRound pkt p = some (.inl (p + value.length + 2)) := by
        unfold messageRound
        rw [hat.first, hat.second]
        simp only [Option.bind_eq_bind, Option.bind_some]
        rw [if_neg hend, if_neg hcode, oplen_toNat hlen]
      have hother : untilType (.opt code value :: items) = .opt code value :: untilType items := by
        have hnone : Item.valueOf 53 (.opt code value) = none := if_neg hcode
        unfold untilType
        rw [takeWhile_cons_of_pos (by rw [hnone]; rfl)]
      rw [hother] at hpaired
      rw [firstType_option hcode]
      exact .again hround (ih hpaired (fun item h => hwf item (mem_cons_of_mem _ h)) hrest)

/-- An area is read as it is encoded if the pads that the two walks come to stand in pairs, and the options that set
something begin within the bytes that `DhcpOptionsProcess` looks at. -/
theorem dhcp_options_read (h : Area pkt items) (htype : Paired (untilType items) = true)
    (hpaired : Paired (within bootpHdrSize items) = true) (hearly : Early cfg bootpHdrSize items) :
    (dhcpMessageType pkt bpVend).Returns (some (firstType items)) ∧
      ∃ pkt' v', (dhcpOptionsProcess cfg (bpVend + 4) pkt v).Returns (some (pkt', v')) ∧ ReadAs cfg items v v' := by
  constructor
  · refine Comp.returns_bind.mpr ⟨_, Comp.returns_pure _, ?_⟩
    rw [loadAll_of_loads (.inr h.length)]
    show (if cookie pkt ≠ bootpVendorMagic then _ else _ : Comp (Option Int)).Returns _
    rw [if_neg (not_not.mpr h.magic)]
    exact loop_returns_some.mpr (message_walk htype h.wellFormed h.holds)
  · rw [← Nat.add_sub_cancel_left (bpVend + 4) bootpHdrSize] at hearly hpaired
    obtain ⟨pkt', v', hfin, hread⟩ :=
      options_walk (v := v) hpaired h.wellFormed h.holds (Nat.le_add_right _ _) hearly ⟨rfl, rfl⟩
    exact ⟨pkt', v', loop_returns_some.mpr hfin, hread⟩

def packetOf (items : List Item) (tail : List UInt8) : List UInt8 :=
  List.replicate bpVend 0 ++ bootpVendorMagic ++ (encode items ++ [0xff] ++ tail)

theorem packetOf_area (tail : List UInt8) (hwf : ∀ item ∈ items, item.WellFormed) :
    Area (packetOf items tail) items := by
  have hfront : (List.replicate bpVend 0 ++ bootpVendorMagic).length = bpVend + 4 := by
    rw [length_append, length_replicate]
    rfl
  refine ⟨?_, ?_, hwf, tail, ?_⟩
  · unfold packetOf
    rw [length_append, hfront]
    exact Nat.le_add_right _ _
  · unfold cookie packetOf
    rw [append_assoc, drop_left' length_replicate]
    rfl
  · unfold packetOf
    rw [drop_left' hfront]

theorem early_of_length (h : (encode items).length < room) : Early cfg room items := by
  intro front code value rest hsplit _
  rw [hsplit, encode, flatMap_append, length_append] at h
  exact lt_of_le_of_lt (Nat.le_add_right _ _) h

theorem dhcp_options_read_mask :
    (dhcpMessageType (packetOf [.opt 53 [5], .pad, .pad, .opt 1 [255, 255, 255, 0]] []) bpVend).Returns (some 5) ∧
      ∃ pkt' v', (dhcpOptionsProcess ⟨false, false, false, false, false⟩ (bpVend + 4)
          (packetOf [.opt 53 [5], .pad, .pad, .opt 1 [255, 255, 255, 0]] []) cleared).Returns (some (pkt', v')) ∧
        ReadAs ⟨false, false, false, false, false⟩ [.opt 53 [5], .pad, .pad, .opt 1 [255, 255, 255, 0]] cleared v' :=
  dhcp_options_read (packetOf_area [] (by decide)) (by decide) (by decide) (early_of_length (by decide))

/-- One pad in front of the message type: the walk takes 53 for the length of an option 0 and goes on behind the
area, where it finds an end. -/
theorem pad_read_as_option : ¬∀ (cfg : Config) (pkt : List UInt8) (items : List Item) (v : Vars), Area pkt items →
    (dhcpMessageType pkt bpVend).Returns (some (firstType items)) ∧
      ∃ pkt' v', (dhcpOptionsProcess cfg (bpVend + 4) pkt v).Returns (some (pkt', v')) ∧ ReadAs cfg items v v' := by
  intro h
  have harea : Area (packetOf [.pad, .opt 53 [5]] (List.replicate 60 0xff)) [.pad, .opt 53 [5]] :=
    packetOf_area _ (by decide)
  have htype := (h ⟨false, false, false, false, false⟩ _ _ cleared harea).1
  have hrun : (dhcpMessageType (packetOf [.pad, .opt 53 [5]] (List.replicate 60 0xff)) bpVend).run 3 =
      some (some (-1)) := by decide +kernel
  exact absurd (Comp.Returns.unique htype ⟨3, hrun⟩) (by decide)

end UBoot.Bootp
