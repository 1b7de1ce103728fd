import UBoot.FdtNodes

namespace UBoot.Fdt

open FlashCells List Loops Words

instance (strs : List UInt8) (i : Nat) (name : List UInt8) : Decidable (StrAt strs i name) :=
  inferInstanceAs (Decidable (name ++ [0] <+: strs.drop i))

def lookup (strs : List UInt8) (run : List Piece) (name : List UInt8) : Option Piece :=
  run.find? fun p => decide (p.tag = propTag ∧ StrAt strs (word (p.bytes.drop 8)) name)

def Piece.value (p : Piece) : List UInt8 := (p.bytes.drop 12).take (word (p.bytes.drop 4))

/-- A property is whole and has a name among the strings. -/
def Sound (strs : List UInt8) (p : Piece) : Prop :=
  p.tag = propTag → 12 + word (p.bytes.drop 4) ≤ p.bytes.length ∧ 0 ∈ strs.drop (word (p.bytes.drop 8))

/-- Something closes the properties of a node, and they are sound. -/
def Good (strs : List UInt8) (cur : Item) (todo : List Item) : Prop := Closed cur todo ∧ ∀ p ∈ cur.run, Sound strs p

def AllGood (strs : List UInt8) : List Item → Prop
  | [] => True
  | i :: is => Good strs i is ∧ AllGood strs is

/-- The nodes from here on, all of them with sound properties. -/
structure Rest (m : Flash) (fdt : Nat) (a : List UInt8) (items : List Item) (stop strs : List UInt8) : Prop where
  shows : Shows m fdt (a ++ (itemBytes items ++ stop)) strs
  aligned : a.length % 4 = 0
  stops : Stops stop
  clean : Clean stop
  good : AllGood strs items

variable {m m' w : Flash} {fdt i : Nat} {s strs strs' a b name prop val stop : List UInt8} {run run' x y : List Piece}
  {p q : Piece} {cur cur' : Item} {items todo : List Item}

theorem Sound.grow (h : Sound strs p) (t : List UInt8) : Sound (strs ++ t) p := by
  intro hp
  obtain ⟨hlen, h₀⟩ := h hp
  exact ⟨hlen, mem_drop_append h₀ t⟩

theorem AllGood.grow (h : AllGood strs items) (t : List UInt8) : AllGood (strs ++ t) items := by
  induction items with
  | nil => trivial
  | cons i is ih => exact ⟨⟨h.1.1, fun p hp => (h.1.2 p hp).grow t⟩, ih h.2⟩

theorem StrAt.unique (h : StrAt strs i name) (h' : StrAt strs i prop) (hname : 0 ∉ name) (hprop : 0 ∉ prop) :
    name = prop := by
  have hside : ∀ {xs ys : List UInt8}, 0 ∉ ys → xs ++ [0] <+: ys ++ [0] → xs = ys := by
    intro xs ys hys hpre
    rcases prefix_concat_iff.mp hpre with heq | hpre
    · exact append_cancel_right heq
    · exact absurd (hpre.subset (mem_append_right _ mem_cons_self)) hys
  rcases prefix_or_prefix_of_prefix h h' with hpre | hpre
  · exact hside hprop hpre
  · exact (hside hname hpre).symm

theorem StrAt.zero_mem (h : StrAt strs i name) : 0 ∈ strs.drop i :=
  h.subset (mem_append_right _ mem_cons_self)

theorem lookup_grow (h : ∀ p ∈ run, Sound strs p) (hname : 0 ∉ name) (t : List UInt8) :
    lookup (strs ++ t) run name = lookup strs run name := by
  induction run with
  | nil => rfl
  | cons p run ih =>
    have hp : (p.tag = propTag ∧ StrAt (strs ++ t) (word (p.bytes.drop 8)) name) ↔
        (p.tag = propTag ∧ StrAt strs (word (p.bytes.drop 8)) name) :=
      and_congr_right fun htag => strAt_grow (h p mem_cons_self htag).2 hname t
    have ih := ih fun q hq => h q (mem_cons_of_mem _ hq)
    unfold lookup at ih ⊢
    rw [List.find?_cons, List.find?_cons, decide_eq_decide.mpr hp, ih]

theorem lookup_append (strs : List UInt8) (x y : List Piece) (name : List UInt8) :
    lookup strs (x ++ y) name = (lookup strs x name).or (lookup strs y name) := List.find?_append

theorem lookup_cons_of_neg (h : ¬(p.tag = propTag ∧ StrAt strs (word (p.bytes.drop 8)) name)) :
    lookup strs (p :: run) name = lookup strs run name := by
  unfold lookup
  rw [List.find?_cons, decide_eq_false h]

theorem lookup_cons_of_pos (hp : p.tag = propTag) (h : StrAt strs (word (p.bytes.drop 8)) name) :
    lookup strs (p :: run) name = some p := by
  unfold lookup
  rw [List.find?_cons, decide_eq_true ⟨hp, h⟩]

theorem hit_at (h : Shows m fdt (a ++ (bytesOf run ++ b)) strs) (hrun : ∀ p ∈ run, Sound strs p) (hname : 0 ∉ name)
    (hx : run = x ++ p :: y) (hp : p.tag = propTag) :
    Hit m fdt name (a ++ bytesOf x).length ↔ StrAt strs (word (p.bytes.drop 8)) name := by
  have hat : Shows m fdt ((a ++ bytesOf x) ++ (p.bytes ++ (bytesOf y ++ b))) strs := by
    rw [hx] at h
    simpa only [bytesOf_append, bytesOf_cons, append_assoc] using h
  obtain ⟨hlen, h₀⟩ := hrun p (by rw [hx]; simp) hp
  exact hit_iff hat (by omega) h₀ hname

theorem lookup_noHit (h : Shows m fdt (a ++ (bytesOf run ++ b)) strs) (hrun : ∀ p ∈ run, Sound strs p)
    (hname : 0 ∉ name) (hx : run = x ++ y) (hno : NoHit m fdt name a x) : lookup strs x name = none := by
  unfold lookup
  rw [List.find?_eq_none]
  intro p hp
  rw [decide_eq_true_iff]
  rintro ⟨htag, hat⟩
  obtain ⟨x₁, x₂, rfl⟩ := append_of_mem hp
  refine hno x₁ p x₂ rfl htag ((hit_at h hrun hname (y := x₂ ++ y) ?_ htag).mpr hat)
  rw [hx, append_assoc, cons_append]

theorem lookup_hit (h : Shows m fdt (a ++ (bytesOf run ++ b)) strs) (hrun : ∀ p ∈ run, Sound strs p)
    (hname : 0 ∉ name) (hx : run = x ++ p :: y) (hp : p.tag = propTag) (hno : NoHit m fdt name a x)
    (hhit : Hit m fdt name (a ++ bytesOf x).length) : lookup strs run name = some p := by
  have hat := (hit_at h hrun hname hx hp).mp hhit
  have hnone := lookup_noHit h hrun hname hx hno
  rw [hx, lookup_append, hnone, Option.none_or, lookup_cons_of_pos hp hat]

theorem Rest.property (h : Rest m fdt a (cur :: todo) stop strs) (hname : 0 ∉ name) :
    lookup strs cur.run name = none ∧ (fdtGetProperty m fdt a.length name).Returns (.error notFound) ∨
      ∃ x p y, lookup strs cur.run name = some p ∧ cur.run = x ++ p :: y ∧ p.tag = propTag ∧
        (fdtGetProperty m fdt a.length name).Returns
          (.ok (fdt + offDtStruct m fdt + (a ++ cur.head.bytes ++ bytesOf x).length)) := by
  obtain ⟨hshows, ha, hs, hc, hg, -⟩ := h
  obtain ⟨hnode, hnext⟩ := item_node hshows.block ha
  obtain ⟨e, hret⟩ := node_property_ends hshows.block hshows.header ha hc name
  have he := hret
  rw [fdtGetProperty_node hshows.header hnode, hnext] at he
  rw [item_split] at hshows
  have hH : (a ++ cur.head.bytes).length % 4 = 0 := aligned_append ha cur.head.aligned
  rcases propertyFrom_run hshows.block hH cur.run_tag he with ⟨x, p, y, hrun, hp, hhit, hno, rfl⟩ | ⟨hno, he⟩
  · exact .inr ⟨x, p, y, lookup_hit hshows hg.2 hname hrun hp hno hhit, hrun, hp, hret⟩
  · refine .inl ⟨lookup_noHit hshows hg.2 hname (append_nil _).symm hno, ?_⟩
    rw [← append_assoc] at hshows
    rcases propertyFrom_end hshows.block (aligned_append hH (bytesOf_aligned _)) hs he with ⟨-, rfl⟩ | ⟨hopen, -⟩
    · exact hret
    · exact absurd hg.1 hopen

theorem property_read (h : Shows m fdt (a ++ (p.bytes ++ b)) strs)
    (hlen : 12 + word (p.bytes.drop 4) ≤ p.bytes.length) :
    be32 m (fdt + offDtStruct m fdt + a.length + 4) = word (p.bytes.drop 4) ∧
      read m (fdt + offDtStruct m fdt + a.length + 12) (word (p.bytes.drop 4)) = p.value := by
  constructor
  · rw [h.word_at (by rw [length_append]; omega), drop_append_of_le_length (by omega),
      word_append (by rw [length_drop]; omega)]
  · have hpiece := (read_eq_append.mp (read_eq_append.mp h.block.bytes).2).1
    unfold Piece.value
    rw [← take_drop_read m hlen, hpiece]

theorem tag_byte (h : Shows m fdt (a ++ (q.bytes ++ b)) strs) : m (fdt + offDtStruct m fdt + a.length) = 0 := by
  obtain ⟨hshort, hword, -⟩ := tok_tag (q.closed [])
  rw [append_nil] at hshort hword
  have hword : q.tag = be32 m (fdt + offDtStruct m fdt + a.length) := by
    have hat := h.word_at (k := 0) (by rw [length_append]; omega)
    rw [drop_zero, word_append hshort, Nat.add_zero] at hat
    rw [hword, hat]
  have htag : q.tag < 16777216 := by
    rcases q.tag_cases with ht | ht | ht | ht <;> rw [ht] <;> decide
  have hbyte : (m (fdt + offDtStruct m fdt + a.length)).toNat = 0 := by
    rw [hword] at htag
    unfold be32 be16 at htag
    omega
  exact UInt8.toNat_inj.mp hbyte

theorem property_byte (h : Shows m fdt (a ++ (p.bytes ++ (q.bytes ++ b))) strs) (hi : i + 12 ≤ p.bytes.length) :
    m (fdt + offDtStruct m fdt + a.length + 12 + i) = (p.bytes.drop 12).getD i 0 := by
  by_cases hin : i + 12 < p.bytes.length
  · have hpiece := (read_eq_append.mp (read_eq_append.mp h.block.bytes).2).1
    have hbyte := getD_read (m := m) (a := fdt + offDtStruct m fdt + a.length) hin 0
    rw [hpiece, getD_eq_getElem _ _ hin] at hbyte
    rw [Nat.add_assoc, Nat.add_comm 12 i, ← hbyte, getD_eq_getElem _ _ (by rw [length_drop]; omega),
      getElem_drop]
    congr 1
    omega
  · have hbehind : Shows m fdt ((a ++ p.bytes) ++ (q.bytes ++ b)) strs := by
      rwa [append_assoc]
    have hzero := tag_byte hbehind
    rw [length_append, show p.bytes.length = 12 + i by omega] at hzero
    rw [getD_eq_default _ _ (by rw [length_drop]; omega), ← hzero]
    congr 1
    omega

/-- What is found under another name is what was found. -/
def SameOthers (prop : List UInt8) (strs strs' : List UInt8) (run run' : List Piece) : Prop :=
  ∀ name, 0 ∉ name → name ≠ prop → lookup strs' run' name = lookup strs run name

theorem IsProp.sound (h : IsProp q val i) (hval : val.length < 2147483648) (h₀ : 0 ∈ strs.drop i) : Sound strs q := by
  have hle := length_le_tagAlign hval
  intro _
  rw [h.len, h.length, h.nameoff]
  exact ⟨by omega, h₀⟩

theorem IsProp.piece_value (h : IsProp q val i) : q.value = val := by
  unfold Piece.value
  rw [h.len, h.value]

theorem other_name (hat : StrAt strs i prop) (hp : word (p.bytes.drop 8) = i) (hprop : 0 ∉ prop) (hname : 0 ∉ name)
    (hne : name ≠ prop) : ¬(p.tag = propTag ∧ StrAt strs (word (p.bytes.drop 8)) name) := by
  rintro ⟨-, hat'⟩
  rw [hp] at hat'
  exact hne (hat'.unique hat hname hprop)

/-- A node has a value for a property, and for the others what it had. -/
structure SetTo (prop val strs strs' : List UInt8) (cur cur' : Item) : Prop where
  grown : ∃ t, strs' = strs ++ t
  value : (lookup strs' cur'.run prop).map Piece.value = some val
  others : SameOthers prop strs strs' cur.run cur'.run

theorem need_add (strs prop : List UInt8) : nameNeed (strs ++ (prop ++ [0])) prop = 0 :=
  if_pos (suffix_append _ _).isInfix

theorem SetRun.sets {used used' total : Nat} {closed : Prop}
    (h : SetRun m fdt prop val a strs strs' closed used used' total run run')
    (hm : Shows m fdt (a ++ (bytesOf run ++ b)) strs) (hsound : ∀ p ∈ run, Sound strs p) (hclosed : closed)
    (hgrown : ∃ t, strs' = strs ++ t) (hprop : 0 ∉ prop) (hval : val.length < 2147483648)
    (hroom : used + strs.length + nameNeed strs prop + (12 + tagAlign val.length) ≤ total) :
    (∀ p ∈ run', Sound strs' p) ∧ (lookup strs' run' prop).map Piece.value = some val ∧
      SameOthers prop strs strs' run run' ∧ used' ≤ used + (12 + tagAlign val.length) := by
  cases h with
  | @resized x y p q hp h₁₂ hhit hno hq hsame hused =>
    subst hsame
    have hat := (hit_at hm hsound hprop rfl hp).mp hhit
    have hnone := lookup_noHit hm hsound hprop rfl hno
    have hqat : StrAt strs' (word (q.bytes.drop 8)) prop := by
      rwa [hq.nameoff]
    refine ⟨fun p' hp' => ?_, ?_, fun name hname hne => ?_, by rw [hq.length] at hused; omega⟩
    · rcases mem_append.mp hp' with hp' | hp'
      · exact hsound p' (mem_append_left _ hp')
      · rcases mem_cons.mp hp' with rfl | hp'
        · exact hq.sound hval hat.zero_mem
        · exact hsound p' (mem_append_right _ (mem_cons_of_mem _ hp'))
    · rw [lookup_append, hnone, Option.none_or, lookup_cons_of_pos hq.tag hqat, Option.map_some, hq.piece_value]
    · rw [lookup_append, lookup_append, lookup_cons_of_neg (other_name hat hq.nameoff hprop hname hne),
        lookup_cons_of_neg (other_name hat rfl hprop hname hne)]
  | @added _ q i _ hno hq hat hi hused =>
    have hqat : StrAt strs' (word (q.bytes.drop 8)) prop := by
      rwa [hq.nameoff]
    obtain ⟨t, rfl⟩ := hgrown
    refine ⟨fun p' hp' => ?_, ?_, fun name hname hne => ?_, by rw [hused, hq.length]⟩
    · rcases mem_cons.mp hp' with rfl | hp'
      · exact hq.sound hval hat.zero_mem
      · exact (hsound p' hp').grow t
    · rw [lookup_cons_of_pos hq.tag hqat, Option.map_some, hq.piece_value]
    · rw [lookup_cons_of_neg (other_name hat hq.nameoff hprop hname hne), lookup_grow hsound hname]
  | same hfull _ =>
    have hlow := hfull hclosed fun p hp htag => (by have := (hsound p hp htag).1; omega)
    omega

theorem Rest.setprop (h : Rest m fdt a (cur :: todo) stop strs) (hprop : 0 ∉ prop)
    (hlen : prop.length < 2147483648) (hval : val.length < 2147483648)
    (hroom : offDtStrings m fdt + strs.length + nameNeed strs prop + (12 + tagAlign val.length) ≤ totalsize m fdt) :
    ∃ e m' cur' strs', (fdtSetprop m fdt a.length prop val).Returns (e, m') ∧
      Rest m' fdt a (cur' :: todo) stop strs' ∧ SetTo prop val strs strs' cur cur' ∧
      totalsize m' fdt = totalsize m fdt ∧
      offDtStrings m' fdt + strs'.length + nameNeed strs' prop ≤
        offDtStrings m fdt + strs.length + nameNeed strs prop + (12 + tagAlign val.length) := by
  obtain ⟨hbefore, ha, hs, hc, hg, hall⟩ := h
  obtain ⟨r, hr⟩ : (fdtSetprop m fdt a.length prop val).Ends := setprop_ends hbefore ha hc
  obtain ⟨w, hw, -, hstrings, hsize, strs', run', hshows, htotal, hstrs, hneed, hrun⟩ :=
    setprop_node hbefore ha hs hlen hval hr
  rw [item_split] at hw
  have hgrown : ∃ t, strs' = strs ++ t := by
    rcases hstrs with rfl | rfl
    · exact ⟨[], (append_nil _).symm⟩
    · exact ⟨_, rfl⟩
  have hneed' : strs'.length + nameNeed strs' prop ≤ strs.length + nameNeed strs prop := by
    rcases hstrs with rfl | rfl
    · exact le_rfl
    · rw [need_add]
      exact hneed
  obtain ⟨hsound, hvalue, hothers, hused⟩ := hrun.sets hw hg.2 hg.1 hgrown hprop hval (by omega)
  have hrest : AllGood strs' todo := by
    obtain ⟨t, rfl⟩ := hgrown
    exact hall.grow t
  refine ⟨r.1, r.2, ⟨cur.head, run', cur.tail, cur.head_tag, hrun.tags cur.run_tag, cur.tail_tag, cur.tail_first⟩,
    strs', hr, ⟨?_, ha, hs, hc, ⟨hg.1, hsound⟩, hrest⟩, ⟨hgrown, hvalue, hothers⟩, htotal.trans hsize, by omega⟩
  rw [item_split]
  exact hshows

end UBoot.Fdt
