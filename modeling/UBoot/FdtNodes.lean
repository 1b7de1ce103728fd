import UBoot.FdtEdit

namespace UBoot.Fdt

open FlashCells List Loops Words

variable {m m' w : Flash} {fdt k n off r : Nat} {s strs a b name val stop : List UInt8} {run x y : List Piece}
  {p q : Piece} {cur : Item} {done todo : List Item}

/-- The name of the property at an offset is this one. -/
abbrev Hit (m : Flash) (fdt : Nat) (name : List UInt8) (k : Nat) : Prop :=
  stringEq m fdt (be32 m (offsetPtr m fdt k + 8)) name = true

/-- No property among these has the name. -/
def NoHit (m : Flash) (fdt : Nat) (name a : List UInt8) (ps : List Piece) : Prop :=
  ∀ x p y, ps = x ++ p :: y → p.tag = propTag → ¬Hit m fdt name (a ++ bytesOf x).length

theorem end_ne_prop : endNode ≠ propTag := by decide

theorem Piece.tag_cases (p : Piece) : p.tag = beginNode ∨ p.tag = endNode ∨ p.tag = propTag ∨ p.tag = nopTag := by
  obtain ⟨-, hword, j, hj, -⟩ := tok_tag (p.closed [])
  have hne := p.notEnd
  unfold tokLength at hj
  rw [← hword] at hj
  split_ifs at hj with hb hp hs ht
  · exact .inl hb
  · exact .inr (.inr (.inl hp))
  · rcases ht with he | he | he
    · exact absurd he hne
    · exact .inr (.inl he)
    · exact .inr (.inr (.inr he))

theorem NoHit.cons (hp : p.tag = propTag → ¬Hit m fdt name a.length)
    (h : NoHit m fdt name (a ++ p.bytes) run) : NoHit m fdt name a (p :: run) := by
  intro x q y hx hq
  cases x with
  | nil =>
    obtain ⟨rfl, rfl⟩ := List.cons.inj hx
    rw [bytesOf_nil, append_nil]
    exact hp hq
  | cons p' x =>
    obtain ⟨rfl, rfl⟩ := List.cons.inj hx
    have hnot := h x q y rfl hq
    rwa [bytesOf_cons, ← append_assoc]

theorem propertyFrom_round {e : Except Nat Nat} (h : (propertyFrom m fdt name k).Returns e) :
    propertyRound m fdt name k = .inr e ∨
      ∃ j, propertyRound m fdt name k = .inl j ∧ (propertyFrom m fdt name j).Returns e := by
  cases hround : propertyRound m fdt name k with
  | inr e' =>
    have heq := h.unique (propertyFrom_done hround)
    rw [heq]
    exact .inl rfl
  | inl j =>
    refine .inr ⟨j, rfl, Comp.Returns.behind h ?_⟩
    rw [hround]
    exact Comp.returns_pure _

theorem propertyRound_piece (h : Block m fdt (a ++ (p.bytes ++ b))) (ha : a.length % 4 = 0) :
    propertyRound m fdt name a.length =
      if p.tag = propTag ∧ Hit m fdt name a.length then .inr (.ok (fdt + offDtStruct m fdt + a.length))
      else if p.tag = beginNode ∨ p.tag = endNode then .inr (.error notFound)
      else .inl (a ++ p.bytes).length := by
  have hptr : offsetPtr m fdt a.length = fdt + offDtStruct m fdt + a.length :=
    h.offsetPtr (by rw [length_append]; omega)
  unfold propertyRound Hit
  rw [h.nextTag_piece ha, hptr, if_neg p.notEnd]

theorem propertyFrom_run {e : Except Nat Nat} (h : Block m fdt (a ++ (bytesOf run ++ b))) (ha : a.length % 4 = 0)
    (hrun : ∀ p ∈ run, p.tag = propTag ∨ p.tag = nopTag) (he : (propertyFrom m fdt name a.length).Returns e) :
    (∃ x p y, run = x ++ p :: y ∧ p.tag = propTag ∧ Hit m fdt name (a ++ bytesOf x).length ∧ NoHit m fdt name a x ∧
        e = .ok (fdt + offDtStruct m fdt + (a ++ bytesOf x).length)) ∨
      NoHit m fdt name a run ∧ (propertyFrom m fdt name (a ++ bytesOf run).length).Returns e := by
  induction run generalizing a with
  | nil =>
    refine .inr ⟨fun x p y hx _ => ?_, by rwa [bytesOf_nil, append_nil]⟩
    simp at hx
  | cons p run ih =>
    rw [bytesOf_cons, append_assoc] at h
    have hround : propertyRound m fdt name a.length = _ := propertyRound_piece h ha
    rw [← append_assoc] at h
    by_cases hhit : p.tag = propTag ∧ Hit m fdt name a.length
    · rw [if_pos hhit] at hround
      rw [he.unique (propertyFrom_done hround)]
      refine .inl ⟨[], p, run, rfl, hhit.1, ?_, fun x q y hx _ => ?_, ?_⟩
      · rw [bytesOf_nil, append_nil]
        exact hhit.2
      · simp at hx
      · rw [bytesOf_nil, append_nil]
    · have hopen : ¬(p.tag = beginNode ∨ p.tag = endNode) := by
        rcases hrun p mem_cons_self with hp | hp <;> rw [hp] <;> decide
      rw [if_neg hhit, if_neg hopen] at hround
      have hbehind : (propertyFrom m fdt name (a ++ p.bytes).length).Returns e := by
        rcases propertyFrom_round he with hdone | ⟨j, hj, he⟩
        · rw [hround] at hdone
          cases hdone
        · rw [hround] at hj
          cases hj
          exact he
      have hmiss : p.tag = propTag → ¬Hit m fdt name a.length := fun hp hh => hhit ⟨hp, hh⟩
      rcases ih h (aligned_append ha p.aligned) (fun q hq => hrun q (mem_cons_of_mem _ hq)) hbehind with
        ⟨x, q, y, rfl, hq, hh, hno, rfl⟩ | ⟨hno, he⟩
      · refine .inl ⟨p :: x, q, y, rfl, hq, ?_, hno.cons hmiss, ?_⟩
        · rwa [bytesOf_cons, ← append_assoc]
        · rw [bytesOf_cons, ← append_assoc]
      · refine .inr ⟨hno.cons hmiss, ?_⟩
        rwa [bytesOf_cons, ← append_assoc]

/-- Something closes the properties of a node. -/
def Closed (cur : Item) (todo : List Item) : Prop := cur.tail ≠ [] ∨ todo ≠ []

theorem closed_piece (h : Closed cur todo) (stop : List UInt8) : ∃ (p : Piece) (b : List UInt8),
    (p.tag = beginNode ∨ p.tag = endNode) ∧ bytesOf cur.tail ++ (itemBytes todo ++ stop) = p.bytes ++ b := by
  cases htail : cur.tail with
  | cons t ts =>
    refine ⟨t, _, ?_, by rw [bytesOf_cons, append_assoc]⟩
    obtain ⟨hprop, hnop⟩ := cur.tail_first t (by rw [htail]; rfl)
    rcases t.tag_cases with ht | ht | ht | ht
    · exact .inl ht
    · exact .inr ht
    · exact absurd ht hprop
    · exact absurd ht hnop
  | nil =>
    cases todo with
    | nil =>
      rcases h with hne | hne
      · exact absurd htail hne
      · exact absurd rfl hne
    | cons i is =>
      refine ⟨i.head, bytesOf i.run ++ bytesOf i.tail ++ (itemBytes is ++ stop), .inl i.head_tag, ?_⟩
      rw [bytesOf_nil, nil_append, itemBytes_cons, Item.bytes, append_assoc, append_assoc]

theorem closed_done (h : Block m fdt (a ++ (bytesOf cur.tail ++ (itemBytes todo ++ stop)))) (ha : a.length % 4 = 0)
    (hclosed : Closed cur todo) : (propertyFrom m fdt name a.length).Returns (.error notFound) := by
  obtain ⟨p, b, hp, hb⟩ := closed_piece hclosed stop
  rw [hb] at h
  apply propertyFrom_done
  rw [propertyRound_piece h ha, if_neg, if_pos hp]
  rintro ⟨hprop, -⟩
  rcases hp with hp | hp <;> rw [hp] at hprop <;> exact absurd hprop (by decide)

theorem not_closed (h : ¬Closed cur todo) : cur.tail = [] ∧ todo = [] := by
  unfold Closed at h
  rwa [not_or, not_not, not_not] at h

theorem property_error (h : (fdtNextTag m fdt k).1 = endTag) :
    ∃ c, (propertyFrom m fdt name k).Returns (.error c) ∧ neg c = true ∧ c ≠ notFound := by
  have hround : propertyRound m fdt name k = .inr (.error
      (if neg (fdtNextTag m fdt k).2 then (fdtNextTag m fdt k).2 else badStructure)) := if_pos h
  refine ⟨_, propertyFrom_done hround, ?_⟩
  split
  next hneg => exact ⟨hneg, nextTag_ne_notFound k⟩
  · exact ⟨by decide, by decide⟩

theorem propertyFrom_end {e : Except Nat Nat}
    (h : Block m fdt (a ++ (bytesOf cur.tail ++ (itemBytes todo ++ stop)))) (ha : a.length % 4 = 0) (hs : Stops stop)
    (he : (propertyFrom m fdt name a.length).Returns e) :
    Closed cur todo ∧ e = .error notFound ∨
      ¬Closed cur todo ∧ ((∃ c, e = .error c ∧ neg c = true ∧ c ≠ notFound) ∨
        ∃ n, tok stop = .tag propTag n ∧ n < 8 ∧ e = .ok (fdt + offDtStruct m fdt + a.length)) := by
  by_cases hclosed : Closed cur todo
  · exact .inl ⟨hclosed, he.unique (closed_done h ha hclosed)⟩
  · refine .inr ⟨hclosed, ?_⟩
    obtain ⟨htail, htodo⟩ := not_closed hclosed
    rw [htail, htodo, bytesOf_nil, itemBytes_nil, nil_append, nil_append] at h
    have hptr : offsetPtr m fdt a.length = fdt + offDtStruct m fdt + a.length :=
      h.offsetPtr (by rw [length_append]; omega)
    have htag := h.nextTag_at ha
    have herror : ∀ k, (fdtNextTag m fdt k).1 = endTag → (propertyFrom m fdt name k).Returns e →
        ∃ c, e = .error c ∧ neg c = true ∧ c ≠ notFound := by
      intro k hend hk
      obtain ⟨c, hc, hneg⟩ := property_error hend
      exact ⟨c, hk.unique hc, hneg⟩
    cases htok : tok stop with
    | cut => exact .inl (herror _ (by rw [htag, htok]; rfl) he)
    | bad => exact .inl (herror _ (by rw [htag, htok]; rfl) he)
    | tag t j =>
      rw [htok] at htag
      rcases hs t j htok with rfl | ⟨rfl, hj⟩
      · exact .inl (herror _ (by rw [htag]; rfl) he)
      · by_cases hhit : Hit m fdt name a.length
        · have hround : propertyRound m fdt name a.length = .inr (.ok (fdt + offDtStruct m fdt + a.length)) := by
            unfold propertyRound
            rw [htag, hptr, if_neg (show (Tok.next a.length (Tok.tag propTag j)).1 ≠ endTag from prop_ne_end), if_pos]
            rw [← hptr]
            exact ⟨rfl, hhit⟩
          exact .inr ⟨j, rfl, hj, he.unique (propertyFrom_done hround)⟩
        · have hround : propertyRound m fdt name a.length = .inl (a.length + j) := by
            unfold propertyRound
            rw [htag, if_neg (show (Tok.next a.length (Tok.tag propTag j)).1 ≠ endTag from prop_ne_end),
              if_neg (fun hh => hhit hh.2), if_neg]
            · rfl
            · rintro (hb | hb)
              · exact prop_ne_begin hb
              · exact end_ne_prop hb.symm
          have hbehind : (propertyFrom m fdt name (a.length + j)).Returns e := by
            refine Comp.Returns.behind he ?_
            rw [hround]
            exact Comp.returns_pure _
          rcases short_property htok hj with rfl | ⟨rfl, hbad⟩
          · -- the search stays where it is
            have hnever : ¬(propertyFrom m fdt name a.length).Ends := by
              refine Comp.loop_for_ever (fun k => k = a.length) (fun k hk => ⟨a.length, ?_, rfl⟩) rfl
              rw [hk, hround]
              exact Comp.returns_pure _
            exact absurd ⟨e, he⟩ hnever
          · exact .inl (herror _ (by rw [stop_short h ha htok hbad]) hbehind)

theorem property_ends (h : Block m fdt (a ++ (bytesOf run ++ (bytesOf cur.tail ++ (itemBytes todo ++ stop)))))
    (ha : a.length % 4 = 0) (hc : Clean stop) (hrun : ∀ p ∈ run, p.tag = propTag ∨ p.tag = nopTag) :
    (propertyFrom m fdt name a.length).Ends := by
  induction run generalizing a with
  | nil =>
    rw [bytesOf_nil, nil_append] at h
    by_cases hclosed : Closed cur todo
    · exact ⟨_, closed_done h ha hclosed⟩
    · obtain ⟨htail, htodo⟩ := not_closed hclosed
      rw [htail, htodo, bytesOf_nil, itemBytes_nil, nil_append, nil_append] at h
      obtain ⟨c, hret, -⟩ : ∃ c, (propertyFrom m fdt name a.length).Returns (.error c) ∧ neg c = true ∧ c ≠ notFound :=
        property_error (stop_end h ha hc).1
      exact ⟨_, hret⟩
  | cons p run ih =>
    rw [bytesOf_cons, append_assoc] at h
    have hround : propertyRound m fdt name a.length = _ := propertyRound_piece h ha
    rw [← append_assoc] at h
    by_cases hhit : p.tag = propTag ∧ Hit m fdt name a.length
    · rw [if_pos hhit] at hround
      exact ⟨_, propertyFrom_done hround⟩
    · have hopen : ¬(p.tag = beginNode ∨ p.tag = endNode) := by
        rcases hrun p mem_cons_self with hp | hp <;> rw [hp] <;> decide
      rw [if_neg hhit, if_neg hopen] at hround
      obtain ⟨e, he⟩ := ih h (aligned_append ha p.aligned) fun q hq => hrun q (mem_cons_of_mem _ hq)
      exact ⟨e, propertyFrom_again hround he⟩

theorem rwCheckHeader_shows (h : Shows m fdt s strs) :
    ∃ w, rwCheckHeader m fdt = (0, w) ∧ Shows w fdt s strs ∧ offDtStruct w fdt = offDtStruct m fdt ∧
      offDtStrings w fdt = offDtStrings m fdt ∧ totalsize w fdt = totalsize m fdt := by
  have hversion := h.version
  have hrsv := h.rsv
  have hstruct := h.struct
  have hstrings := h.strings
  have htotal := h.total
  have hlow := h.low
  have hordered : blocksMisordered m fdt 16 (sizeDtStruct m fdt) = false := by
    unfold blocksMisordered u32
    rw [h.size, h.stringsSize]
    simp only [Bool.or_eq_false_iff, decide_eq_false_iff_not]
    omega
  unfold rwCheckHeader
  rw [if_neg (not_not.mpr h.header), if_neg (by omega), hordered, if_neg Bool.false_ne_true]
  by_cases hlater : 17 < version m fdt
  · rw [if_pos hlater]
    generalize hw : setVersion m fdt 17 = w
    have hlen : ∀ v, (be32Bytes v).length = 4 := fun _ => rfl
    have hword : ∀ x, x + 4 ≤ fdt + 20 ∨ fdt + 24 ≤ x → be32 w x = be32 m x := by
      intro x hx
      rw [← hw, setVersion, be32_store_of_ne (by rw [hlen]; omega)]
    have hread : ∀ x n, fdt + 24 ≤ x → read w x n = read m x n := by
      intro x n hx
      rw [← hw, setVersion, read_store_outside (by rw [hlen]; omega)]
    have hversion' : version w fdt = 17 := by
      rw [← hw, version, setVersion, be32_store]
    have hmagic : magic w fdt = magic m fdt := hword _ (by omega)
    have hlast : lastCompVersion w fdt = lastCompVersion m fdt := hword _ (by omega)
    have hsize : sizeDtStruct w fdt = sizeDtStruct m fdt := hword _ (by omega)
    have hstruct' : offDtStruct w fdt = offDtStruct m fdt := hword _ (by omega)
    have hstrings' : offDtStrings w fdt = offDtStrings m fdt := hword _ (by omega)
    have htotal' : totalsize w fdt = totalsize m fdt := hword _ (by omega)
    have hrsv' : offMemRsvmap w fdt = offMemRsvmap m fdt := hword _ (by omega)
    have hstrsize : sizeDtStrings w fdt = sizeDtStrings m fdt := hword _ (by omega)
    refine ⟨w, rfl, ⟨?_, ?_, ?_, ?_, ?_, ?_, ?_, ?_, ?_, ?_, ?_⟩, hstruct', hstrings', htotal'⟩
    · have hheader := h.header
      unfold fdtCheckHeader at hheader ⊢
      rw [hmagic, hlast, hsize, hversion']
      split_ifs at hheader ⊢ <;> first | rfl | contradiction
    · rw [hversion']
    · rw [hrsv']
      exact hrsv
    · rw [hrsv', hstruct']
      exact hstruct
    · rw [hsize, h.size]
    · rw [hstruct', hstrings']
      exact hstrings
    · rw [hstrsize, h.stringsSize]
    · rw [hstrings', htotal']
      exact htotal
    · rw [htotal']
      exact hlow
    · rw [hstruct', hread _ _ (by omega)]
      exact h.bytes
    · rw [hstrings', hread _ _ (by omega)]
      exact h.text
  · rw [if_neg hlater]
    exact ⟨m, rfl, h, rfl, rfl, rfl⟩

/-- What `fdt_setprop` does to the properties of a node: one gets the value, or a new one has it, or nothing fits. -/
inductive SetRun (w : Flash) (fdt : Nat) (name val a strs strs' : List UInt8) (closed : Prop) (used used' total : Nat) :
    List Piece → List Piece → Prop
  | resized {x y : List Piece} {p q : Piece} : p.tag = propTag → 12 ≤ p.bytes.length →
      Hit w fdt name (a ++ bytesOf x).length → NoHit w fdt name a x → IsProp q val (word (p.bytes.drop 8)) →
      strs' = strs → used' + p.bytes.length = used + q.bytes.length →
      SetRun w fdt name val a strs strs' closed used used' total (x ++ p :: y) (x ++ q :: y)
  | added {run : List Piece} {q : Piece} {i : Nat} : closed → NoHit w fdt name a run → IsProp q val i →
      StrAt strs' i name → i < strs'.length → used' = used + q.bytes.length →
      SetRun w fdt name val a strs strs' closed used used' total run (q :: run)
  | same {run : List Piece} : (closed → (∀ p ∈ run, p.tag = propTag → 12 ≤ p.bytes.length) →
        total < used + strs.length + nameNeed strs name + (12 + tagAlign val.length)) → used' = used →
      SetRun w fdt name val a strs strs' closed used used' total run run

theorem SetRun.tags {closed : Prop} {used used' total : Nat} {run' : List Piece}
    {strs' : List UInt8}
    (h : SetRun w fdt name val a strs strs' closed used used' total run run')
    (hrun : ∀ p ∈ run, p.tag = propTag ∨ p.tag = nopTag) : ∀ p ∈ run', p.tag = propTag ∨ p.tag = nopTag := by
  intro r hr
  cases h with
  | @resized x y p q _ _ _ _ hq _ _ =>
    rcases mem_append.mp hr with hr | hr
    · exact hrun r (mem_append_left _ hr)
    · rcases mem_cons.mp hr with rfl | hr
      · exact .inl hq.tag
      · exact hrun r (mem_append_right _ (mem_cons_of_mem _ hr))
  | added _ _ hq _ _ _ =>
    rcases mem_cons.mp hr with rfl | hr
    · exact .inl hq.tag
    · exact hrun r hr
  | same _ _ => exact hrun r hr

theorem item_split (a : List UInt8) (cur : Item) (todo : List Item) (stop : List UInt8) :
    a ++ (itemBytes (cur :: todo) ++ stop) =
      (a ++ cur.head.bytes) ++ (bytesOf cur.run ++ (bytesOf cur.tail ++ (itemBytes todo ++ stop))) := by
  simp only [itemBytes_cons, Item.bytes, append_assoc]

theorem node_property_ends (h : Block m fdt (a ++ (itemBytes (cur :: todo) ++ stop))) (hh : fdtCheckHeader m fdt = 0)
    (ha : a.length % 4 = 0) (hc : Clean stop) (name : List UInt8) : (fdtGetProperty m fdt a.length name).Ends := by
  obtain ⟨hnode, hnext⟩ := item_node h ha
  rw [fdtGetProperty_node hh hnode, hnext]
  rw [item_split] at h
  exact property_ends h (aligned_append ha cur.head.aligned) hc cur.run_tag

theorem fdtSetprop_returns {r : Nat × Flash} (hw : rwCheckHeader m fdt = (0, w))
    (h : (fdtSetprop m fdt off name val).Returns r) :
    ∃ e c, (fdtGetProperty w fdt off name).Returns e ∧ c = resizeFound w fdt val.length e ∧
      r = setValue val (if c.1 = notFound then addProperty c.2.2 fdt off name val.length else c) := by
  unfold fdtSetprop at h
  rw [hw] at h
  rw [if_neg (not_not.mpr rfl)] at h
  obtain ⟨c, hc, h⟩ := Comp.returns_bind.mp h
  obtain ⟨e, he, hc⟩ := Comp.returns_bind.mp hc
  exact ⟨e, c, he, Comp.returns_pure_iff.mp hc, Comp.returns_pure_iff.mp h⟩

/-- What becomes of the node whose properties begin behind `a`. -/
def NodeSet (w m' : Flash) (fdt : Nat) (name val a strs : List UInt8) (cur : Item) (todo : List Item)
    (stop : List UInt8) : Prop :=
  ∃ strs' run', Shows m' fdt (a ++ (bytesOf run' ++ (bytesOf cur.tail ++ (itemBytes todo ++ stop)))) strs' ∧
    totalsize m' fdt = totalsize w fdt ∧ (strs' = strs ∨ strs' = strs ++ (name ++ [0])) ∧
    strs'.length ≤ strs.length + nameNeed strs name ∧
    SetRun w fdt name val a strs strs' (Closed cur todo) (offDtStrings w fdt) (offDtStrings m' fdt)
      (totalsize w fdt) cur.run run'

section Set

variable (h : Shows w fdt (a ++ (bytesOf cur.run ++ (bytesOf cur.tail ++ (itemBytes todo ++ stop)))) strs)
include h

/-- Nothing but the version is changed. -/
theorem NodeSet.same (hwhy : Closed cur todo → (∀ p ∈ cur.run, p.tag = propTag → 12 ≤ p.bytes.length) →
      totalsize w fdt < offDtStrings w fdt + strs.length + nameNeed strs name + (12 + tagAlign val.length)) :
    NodeSet w w fdt name val a strs cur todo stop :=
  ⟨strs, cur.run, h, rfl, .inl rfl, by omega, SetRun.same hwhy rfl⟩

theorem setprop_found {c : Nat × Nat × Flash} (ha : a ≠ []) (hval : val.length < 2147483648)
    (hrun : cur.run = x ++ p :: y) (hp : p.tag = propTag) (hhit : Hit w fdt name (a ++ bytesOf x).length)
    (hno : NoHit w fdt name a x)
    (hc : c = resizeFound w fdt val.length (.ok (fdt + offDtStruct w fdt + (a ++ bytesOf x).length))) :
    c.1 ≠ notFound ∧ NodeSet w (setValue val c).2 fdt name val a strs cur todo stop := by
  have hat := h
  rw [hrun, bytesOf_append, bytesOf_cons, append_assoc, append_assoc, ← append_assoc] at hat
  by_cases h₁₂ : 12 ≤ p.bytes.length
  · by_cases hroom : offDtStrings w fdt + strs.length + (12 + tagAlign val.length) ≤ totalsize w fdt + p.bytes.length
    · obtain ⟨m₁, q, hzero, hvalue, hshows₁, hprop, hfields, hused⟩ :=
        resizeFound_ok hat (fun hnil => ha (append_eq_nil_iff.mp hnil).1) hp h₁₂ hval hroom
      rw [← hc] at hzero hvalue
      rw [hzero, hvalue]
      refine ⟨by decide, strs, x ++ q :: y, ?_, hfields.total, .inl rfl, by omega, ?_⟩
      · simpa only [bytesOf_append, bytesOf_cons, append_assoc] using hshows₁
      · rw [hrun]
        exact SetRun.resized hp h₁₂ hhit hno hprop rfl hused
    · rw [hc, resizeFound_full hat hp h₁₂ hval (by omega)]
      exact ⟨show noSpace ≠ notFound by decide, NodeSet.same h fun _ _ => by omega⟩
  · have htok : tok (p.bytes ++ (bytesOf y ++ (bytesOf cur.tail ++ (itemBytes todo ++ stop)))) =
        .tag propTag p.bytes.length := by
      rw [p.closed, hp]
    rw [hc, resizeFound_short hat htok (by omega)]
    refine ⟨show badOffset ≠ notFound by decide, NodeSet.same h fun _ hall => ?_⟩
    exact absurd (hall p (by rw [hrun]; simp) hp) h₁₂

theorem setprop_added (ha : a ≠ []) (hcheck : checkNodeOffset w fdt off = a.length) (hname : name.length < 2147483648)
    (hval : val.length < 2147483648) (hclosed : Closed cur todo) (hno : NoHit w fdt name a cur.run) :
    NodeSet w (setValue val (addProperty w fdt off name val.length)).2 fdt name val a strs cur todo stop := by
  obtain ⟨e, m₁, strs', hadd, hfields, hstrs, hlen, hcase⟩ := addProperty_cases h ha hcheck hname hval
  rw [hadd]
  rcases hcase with ⟨q, i, hshows₁, hprop, hat, hi, hused⟩ | ⟨hshows₁, hused, hfull⟩
  · refine ⟨strs', q :: cur.run, ?_, hfields.total, hstrs, hlen, SetRun.added hclosed hno hprop hat hi hused⟩
    simpa only [bytesOf_cons, append_assoc] using hshows₁
  · exact ⟨strs', cur.run, hshows₁, hfields.total, hstrs, hlen, SetRun.same (fun _ _ => hfull) hused⟩

theorem setprop_absent {e : Except Nat Nat} {c : Nat × Nat × Flash} (hs : Stops stop)
    (ha : (a ++ bytesOf cur.run).length % 4 = 0)
    (he : (propertyFrom w fdt name (a ++ bytesOf cur.run).length).Returns e)
    (hc : c = resizeFound w fdt val.length e) :
    Closed cur todo ∧ c = (notFound, 0, w) ∨
      c.1 ≠ notFound ∧ NodeSet w (setValue val c).2 fdt name val a strs cur todo stop := by
  have hbehind := h
  rw [← append_assoc] at hbehind
  rcases propertyFrom_end hbehind.block ha hs he with
    ⟨hclosed, rfl⟩ | ⟨hopen, ⟨n, rfl, hneg, hn⟩ | ⟨n, htok, hn, rfl⟩⟩
  · exact .inl ⟨hclosed, hc⟩
  · refine .inr ?_
    have hzero : n ≠ 0 := by
      rintro rfl
      cases hneg
    rw [hc, resizeFound, setValue, if_pos hzero]
    exact ⟨hn, NodeSet.same h fun hclosed => absurd hclosed hopen⟩
  · refine .inr ?_
    obtain ⟨htail, htodo⟩ := not_closed hopen
    rw [htail, htodo, bytesOf_nil, itemBytes_nil, nil_append, nil_append] at hbehind
    rw [hc, resizeFound_short hbehind htok (by omega)]
    exact ⟨show badOffset ≠ notFound by decide, NodeSet.same h fun hclosed => absurd hclosed hopen⟩

end Set

theorem setprop_node {r : Nat × Flash} (h : Shows m fdt (a ++ (itemBytes (cur :: todo) ++ stop)) strs)
    (ha : a.length % 4 = 0) (hs : Stops stop) (hname : name.length < 2147483648) (hval : val.length < 2147483648)
    (hset : (fdtSetprop m fdt a.length name val).Returns r) :
    ∃ w, Shows w fdt (a ++ (itemBytes (cur :: todo) ++ stop)) strs ∧ offDtStruct w fdt = offDtStruct m fdt ∧
      offDtStrings w fdt = offDtStrings m fdt ∧ totalsize w fdt = totalsize m fdt ∧
      NodeSet w r.2 fdt name val (a ++ cur.head.bytes) strs cur todo stop := by
  obtain ⟨w, hw, hshows, hstruct, hstrings, htotal⟩ := rwCheckHeader_shows h
  obtain ⟨e, c, he, hc, hr⟩ := fdtSetprop_returns hw hset
  refine ⟨w, hshows, hstruct, hstrings, htotal, ?_⟩
  obtain ⟨hnode, hnext⟩ := item_node hshows.block ha
  rw [fdtGetProperty_node hshows.header hnode, hnext] at he
  have hwhole := hshows
  rw [item_split] at hwhole
  have hH : (a ++ cur.head.bytes).length % 4 = 0 := aligned_append ha cur.head.aligned
  have hne : a ++ cur.head.bytes ≠ [] := by
    intro hnil
    have htok := cur.head.closed []
    rw [(append_eq_nil_iff.mp hnil).2] at htok
    cases htok
  rcases propertyFrom_run hwhole.block hH cur.run_tag he with ⟨x, p, y, hrun, hp, hhit, hno, rfl⟩ | ⟨hno, he⟩
  · obtain ⟨hcode, hdone⟩ := setprop_found hwhole hne hval hrun hp hhit hno hc
    rwa [hr, if_neg hcode]
  · rcases setprop_absent hwhole hs (aligned_append hH (bytesOf_aligned cur.run)) he hc with
      ⟨hclosed, hcode⟩ | ⟨hcode, hdone⟩
    · rw [hr, hcode, if_pos rfl]
      have hcheck : checkNodeOffset w fdt a.length = (a ++ cur.head.bytes).length := by
        rw [checkNodeOffset_node hnode, hnext]
      exact setprop_added hwhole hne hcheck hname hval hclosed hno
    · rwa [hr, if_neg hcode]

theorem setprop_ends (h : Shows m fdt (a ++ (itemBytes (cur :: todo) ++ stop)) strs) (ha : a.length % 4 = 0)
    (hc : Clean stop) : (fdtSetprop m fdt a.length name val).Ends := by
  obtain ⟨w, hw, hshows, -⟩ := rwCheckHeader_shows h
  unfold fdtSetprop
  rw [hw]
  rw [if_neg (not_not.mpr rfl)]
  have hget := node_property_ends hshows.block hshows.header ha hc name
  exact (hget.bind fun _ _ => Comp.ends_pure _).bind fun _ _ => Comp.ends_pure _

section Fix

variable {create : Bool}

theorem fixNode_returns (h : (fixNode fdt name val create m off).Returns m') :
    m' = m ∨ ∃ e, (fdtSetprop m fdt off name val).Returns (e, m') := by
  obtain ⟨c, -, h⟩ := Comp.returns_bind.mp h
  cases c with
  | false => exact .inl (Comp.returns_pure_iff.mp h)
  | true =>
    obtain ⟨r, hr, h⟩ := Comp.returns_bind.mp h
    exact .inr ⟨r.1, by rwa [Comp.returns_pure_iff.mp h]⟩

theorem fixNode_back (hs : Shows m fdt s strs) (hneg : neg off = true)
    (h : (fixNode fdt name val create m off).Returns m') : Shows m' fdt s strs := by
  rcases fixNode_returns h with rfl | ⟨e, hset⟩
  · exact hs
  · obtain ⟨w, hw, hshows, -⟩ := rwCheckHeader_shows hs
    obtain ⟨c, rp, hc, hrp, hset⟩ := fdtSetprop_returns hw hset
    have hcheck : checkNodeOffset w fdt off = badOffset := if_pos (.inl hneg)
    have hget : fdtGetProperty w fdt off name = Comp.pure (.error badOffset) := by
      unfold fdtGetProperty
      rw [if_neg (not_not.mpr hshows.header), hcheck]
      rfl
    rw [hget] at hc
    rw [Comp.returns_pure_iff.mp hc] at hrp
    rw [hrp] at hset
    have heq := congrArg Prod.snd hset
    change m' = w at heq
    rw [heq]
    exact hshows

theorem fixNode_node (h : Shows m fdt (a ++ (itemBytes (cur :: todo) ++ stop)) strs) (ha : a.length % 4 = 0)
    (hs : Stops stop) (hname : name.length < 2147483648) (hval : val.length < 2147483648)
    (hfix : (fixNode fdt name val create m a.length).Returns m') :
    ∃ cur' strs', Shows m' fdt (a ++ (itemBytes (cur' :: todo) ++ stop)) strs' ∧ cur'.tail = cur.tail := by
  rcases fixNode_returns hfix with rfl | ⟨e, hset⟩
  · exact ⟨cur, strs, h, rfl⟩
  · obtain ⟨w, -, -, -, -, strs', run', hshows, -, -, -, hrun⟩ := setprop_node h ha hs hname hval hset
    refine ⟨⟨cur.head, run', cur.tail, cur.head_tag, hrun.tags cur.run_tag, cur.tail_tag, cur.tail_first⟩, strs', ?_,
      rfl⟩
    rw [item_split]
    exact hshows

theorem fixNode_ends (h : Shows m fdt (a ++ (itemBytes (cur :: todo) ++ stop)) strs) (ha : a.length % 4 = 0)
    (hc : Clean stop) : (fixNode fdt name val create m a.length).Ends := by
  refine Comp.Ends.bind ?_ fun c _ => ?_
  · unfold wanted
    cases create with
    | true => exact Comp.ends_pure _
    | false => exact (node_property_ends h.block h.header ha hc name).bind fun _ _ => Comp.ends_pure _
  · cases c with
    | false => exact Comp.ends_pure _
    | true => exact (setprop_ends h ha hc).bind fun _ _ => Comp.ends_pure _

end Fix

section Names

theorem prefix_of_zero {xs ys : List UInt8} (h₀ : 0 ∈ xs) (hname : 0 ∉ name) (h : name ++ [0] <+: xs ++ ys) :
    name ++ [0] <+: xs := by
  refine prefix_of_prefix_length_le h (prefix_append xs ys) ?_
  by_contra hlt
  rw [length_append, length_singleton, not_le] at hlt
  have hxs : xs <+: name :=
    prefix_of_prefix_length_le (prefix_append xs ys) ((prefix_append name [0]).trans h) (by omega)
  exact hname (hxs.subset h₀)

theorem strAt_grow {i : Nat} (h₀ : 0 ∈ strs.drop i) (hname : 0 ∉ name) (t : List UInt8) :
    StrAt (strs ++ t) i name ↔ StrAt strs i name := by
  have hi : i ≤ strs.length := by
    by_contra hlt
    rw [drop_eq_nil_of_le (by omega)] at h₀
    exact not_mem_nil h₀
  unfold StrAt
  rw [drop_append_of_le_length hi]
  exact ⟨prefix_of_zero h₀ hname, fun h => h.trans (prefix_append _ _)⟩

theorem hit_iff (h : Shows m fdt (a ++ (p.bytes ++ b)) strs) (h₁₂ : 12 ≤ p.bytes.length)
    (h₀ : 0 ∈ strs.drop (word (p.bytes.drop 8))) (hname : 0 ∉ name) :
    Hit m fdt name a.length ↔ StrAt strs (word (p.bytes.drop 8)) name := by
  have hptr : offsetPtr m fdt a.length = fdt + offDtStruct m fdt + a.length :=
    h.block.offsetPtr (by rw [length_append]; omega)
  have hoff : be32 m (fdt + offDtStruct m fdt + a.length + 8) = word (p.bytes.drop 8) := by
    rw [h.word_at (by rw [length_append]; omega), drop_append_of_le_length (by omega),
      word_append (by rw [length_drop]; omega)]
  have htotal := h.total
  have hlow := h.low
  unfold Hit stringEq
  rw [hptr, hoff]
  generalize word (p.bytes.drop 8) = i at h₀ ⊢
  have hi : i < strs.length := by
    by_contra hlt
    rw [drop_eq_nil_of_le (by omega)] at h₀
    exact not_mem_nil h₀
  have hdrop : strs.drop i = read m (fdt + offDtStrings m fdt + i) (strs.length - i) := by
    rw [← drop_read m (by omega), h.text]
  have hu : u32 (fdt + offDtStrings m fdt + i) = fdt + offDtStrings m fdt + i := u32_of_lt (by omega)
  have hone : ∀ x n, read m x (n + 1) = read m x n ++ [m (x + n)] := fun x n => read_append m x n 1
  unfold StrAt
  rw [hu]
  dsimp only
  constructor
  · intro heq
    simp only [Bool.and_eq_true, beq_iff_eq] at heq
    obtain ⟨⟨-, hzero⟩, hread⟩ := heq
    have hall : name ++ [0] <+:
        strs.drop i ++ read m (fdt + offDtStrings m fdt + i + (strs.length - i)) (name.length + 1) := by
      rw [hdrop, ← read_append, show strs.length - i + (name.length + 1) = name.length + 1 + (strs.length - i) by omega,
        read_append, hone, hread, hzero]
      exact prefix_append _ _
    exact prefix_of_zero h₀ hname hall
  · intro hpre
    have hlen : name.length + 1 ≤ strs.length - i := by
      have hle := hpre.length_le
      simpa using hle
    have htake : read m (fdt + offDtStrings m fdt + i) (name.length + 1) = name ++ [0] := by
      have hprefix : read m (fdt + offDtStrings m fdt + i) (name.length + 1) <+: strs.drop i := by
        have hsplit := read_append m (fdt + offDtStrings m fdt + i) (name.length + 1)
          (strs.length - i - (name.length + 1))
        rw [hdrop, show strs.length - i = name.length + 1 + (strs.length - i - (name.length + 1)) by omega, hsplit]
        exact prefix_append _ _
      refine List.IsPrefix.eq_of_length (prefix_of_prefix_length_le hprefix hpre ?_) ?_ <;> simp
    rw [hone] at htake
    obtain ⟨hread, hzero⟩ := append_inj htake (by simp)
    simp only [List.cons.injEq, and_true] at hzero
    rw [hread, hzero]
    have hnz : name.all (· != 0) = true := by
      simp only [all_eq_true, bne_iff_ne, ne_eq]
      exact fun x hx h0 => hname (h0 ▸ hx)
    rw [hnz]
    simp

theorem mem_drop_append {i : Nat} (h : 0 ∈ strs.drop i) (t : List UInt8) : 0 ∈ (strs ++ t).drop i := by
  have hi : i ≤ strs.length := by
    by_contra hlt
    rw [drop_eq_nil_of_le (by omega)] at h
    exact not_mem_nil h
  rw [drop_append_of_le_length hi]
  exact mem_append_left _ h

end Names

end UBoot.Fdt
