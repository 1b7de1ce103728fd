import UBoot.MtdGenerate

namespace UBoot.Mtd

open List

theorem digit_isxdigit : ∀ d < 10, isxdigit (digit d) = true := by decide

theorem digit_value : ∀ d < 10, digitValue (digit d) = d := by decide

theorem digit_ne_zero : ∀ d < 10, d ≠ 0 → digit d ≠ 48 := by decide

theorem strtoulDigits_decimal {fuel n : Nat} (h : n < 10 ^ fuel) (hn : n < 2 ^ 32) (rest : Str) :
    strtoulDigits 10 (decimalFuel fuel n ++ rest) 0 = strtoulDigits 10 rest n := by
  have hstep : ∀ (m d : Nat) (q : Str), d < 10 → m * 10 + d < 2 ^ 32 →
      strtoulDigits 10 (digit d :: q) m = strtoulDigits 10 q (m * 10 + d) := by
    intro m d q hd hm
    rw [strtoulDigits, digit_isxdigit d hd, digit_value d hd]
    rw [if_pos (by simp [hd]), Nat.mod_eq_of_lt hm]
  induction fuel generalizing n rest with
  | zero =>
    have hzero : n = 0 := by
      rw [pow_zero] at h
      omega
    rw [hzero]
    rfl
  | succ fuel ih =>
    unfold decimalFuel
    split
    next hlt =>
      rw [singleton_append, hstep 0 n rest hlt (by omega)]
      congr 1
      omega
    next hge =>
      have hdiv : n / 10 < 10 ^ fuel := by
        rw [pow_succ] at h
        omega
      rw [append_assoc, singleton_append, ih hdiv (by omega),
        hstep (n / 10) (n % 10) rest (Nat.mod_lt _ (by omega)) (by omega)]
      congr 1
      omega

theorem digit_isdigit : ∀ d < 10, isdigit (digit d) = true := by decide

theorem decimalFuel_head {fuel n : Nat} (h : n < 10 ^ fuel) (hn : n ≠ 0) :
    ∃ c p, decimalFuel fuel n = c :: p ∧ c ≠ 48 ∧ isdigit c = true := by
  induction fuel generalizing n with
  | zero =>
    rw [pow_zero] at h
    omega
  | succ fuel ih =>
    unfold decimalFuel
    split
    next hlt => exact ⟨digit n, [], rfl, digit_ne_zero n hlt hn, digit_isdigit n hlt⟩
    next hge =>
      have hdiv : n / 10 < 10 ^ fuel := by
        rw [pow_succ] at h
        omega
      obtain ⟨c, p, hp, hc⟩ := ih hdiv (by omega)
      exact ⟨c, p ++ [digit (n % 10)], by rw [hp, cons_append], hc⟩

theorem simpleStrtoul_decimal {n : Nat} {c : UInt8} (hn : n ≠ 0) (hlt : n < 2 ^ 32)
    (hc : isxdigit c = false) (rest : Str) :
    simpleStrtoul (decimal n ++ c :: rest) 0 = (n, c :: rest) := by
  have hpow : n < 10 ^ 10 := by omega
  obtain ⟨d, p, hd, hd48, _⟩ := decimalFuel_head hpow hn
  have hbase : simpleStrtoul (decimal n ++ c :: rest) 0 = strtoulDigits 10 (decimal n ++ c :: rest) 0 := by
    unfold decimal
    rw [hd, cons_append]
    unfold simpleStrtoul
    split
    next heq => exact absurd (List.cons.inj heq).1 hd48
    next heq => exact absurd (List.cons.inj heq).1 hd48
    · rfl
  rw [hbase]
  unfold decimal
  rw [strtoulDigits_decimal hpow hlt, strtoulDigits, hc]
  rfl

theorem shiftLeft_ten (a : UInt32) : (a <<< 10).toNat = a.toNat * 1024 % 2 ^ 32 := by
  rw [UInt32.toNat_shiftLeft]
  change a.toNat <<< 10 % 2 ^ 32 = _
  rw [Nat.shiftLeft_eq]

theorem ofNat_div (n m : UInt32) : UInt32.ofNat (n / m).toNat = n / m := UInt32.ofNat_toNat

theorem memsizeParse_format {n : UInt32} {c : UInt8} (hn : n ≠ 0) (hc : c = 64 ∨ c = 40) (rest : Str) :
    memsizeParse (memsizeFormat n ++ c :: rest) = (n, c :: rest) := by
  have hpos : n.toNat ≠ 0 := fun h0 => hn (UInt32.toNat_inj.mp h0)
  have hlt := n.toNat_lt
  unfold memsizeFormat
  split
  next hg =>
    have hmod : n.toNat % 1073741824 = 0 := congrArg UInt32.toNat hg
    have hq : (n / sizeGb).toNat = n.toNat / 1073741824 := UInt32.toNat_div n sizeGb
    have hread := simpleStrtoul_decimal (n := (n / sizeGb).toNat) (c := 103) (by omega)
      (UInt32.toNat_lt _) rfl (c :: rest)
    have htext : decimal (n / sizeGb).toNat ++ ascii ['g'] ++ c :: rest =
        decimal (n / sizeGb).toNat ++ 103 :: c :: rest := by rw [append_assoc]; rfl
    have hval : UInt32.ofNat (n / sizeGb).toNat <<< 10 <<< 10 <<< 10 = n := by
      rw [ofNat_div]
      apply UInt32.toNat_inj.mp
      rw [shiftLeft_ten, shiftLeft_ten, shiftLeft_ten, hq]
      omega
    rw [htext, memsizeParse, hread]
    dsimp only
    rw [if_pos (by decide), hval]
  · split
    next hm =>
      have hmod : n.toNat % 1048576 = 0 := congrArg UInt32.toNat hm
      have hq : (n / sizeMb).toNat = n.toNat / 1048576 := UInt32.toNat_div n sizeMb
      have hread := simpleStrtoul_decimal (n := (n / sizeMb).toNat) (c := 109) (by omega)
        (UInt32.toNat_lt _) rfl (c :: rest)
      have htext : decimal (n / sizeMb).toNat ++ ascii ['m'] ++ c :: rest =
          decimal (n / sizeMb).toNat ++ 109 :: c :: rest := by rw [append_assoc]; rfl
      have hval : UInt32.ofNat (n / sizeMb).toNat <<< 10 <<< 10 = n := by
        rw [ofNat_div]
        apply UInt32.toNat_inj.mp
        rw [shiftLeft_ten, shiftLeft_ten, hq]
        omega
      rw [htext, memsizeParse, hread]
      dsimp only
      rw [if_neg (by decide), if_pos (by decide), hval]
    · split
      next hk =>
        have hmod : n.toNat % 1024 = 0 := congrArg UInt32.toNat hk
        have hq : (n / sizeKb).toNat = n.toNat / 1024 := UInt32.toNat_div n sizeKb
        have hread := simpleStrtoul_decimal (n := (n / sizeKb).toNat) (c := 107) (by omega)
          (UInt32.toNat_lt _) rfl (c :: rest)
        have htext : decimal (n / sizeKb).toNat ++ ascii ['k'] ++ c :: rest =
            decimal (n / sizeKb).toNat ++ 107 :: c :: rest := by rw [append_assoc]; rfl
        have hval : UInt32.ofNat (n / sizeKb).toNat <<< 10 = n := by
          rw [ofNat_div]
          apply UInt32.toNat_inj.mp
          rw [shiftLeft_ten, hq]
          omega
        rw [htext, memsizeParse, hread]
        dsimp only
        rw [if_neg (by decide), if_neg (by decide), if_pos (by decide), hval]
      · have hxdigit : isxdigit c = false := by
          rcases hc with rfl | rfl
          · decide
          · decide
        rw [memsizeParse, simpleStrtoul_decimal hpos hlt hxdigit rest, UInt32.ofNat_toNat]
        rcases hc with rfl | rfl
        · rfl
        · rfl

theorem decimal_head {n : Nat} (hn : n ≠ 0) (hlt : n < 2 ^ 32) :
    ∃ c p, decimal n = c :: p ∧ isdigit c = true := by
  obtain ⟨c, p, hp, _, hc⟩ := decimalFuel_head (show n < 10 ^ 10 by omega) hn
  exact ⟨c, p, hp, hc⟩

theorem memsizeFormat_head {n : UInt32} (hn : n ≠ 0) :
    ∃ c p, memsizeFormat n = c :: p ∧ isdigit c = true := by
  have hpos : n.toNat ≠ 0 := fun h0 => hn (UInt32.toNat_inj.mp h0)
  have hunit : ∀ (m : UInt32) (unit : Str), n.toNat % m.toNat = 0 →
      ∃ c p, decimal (n / m).toNat ++ unit = c :: p ∧ isdigit c = true := by
    intro m unit hm
    have hq : (n / m).toNat ≠ 0 := fun h0 => by
      rw [UInt32.toNat_div] at h0
      have := Nat.div_add_mod n.toNat m.toNat
      rw [h0, hm, mul_zero] at this
      omega
    obtain ⟨c, p, hp, hc⟩ := decimal_head hq (UInt32.toNat_lt _)
    exact ⟨c, p ++ unit, by rw [hp, cons_append], hc⟩
  unfold memsizeFormat
  split
  next hg => exact hunit sizeGb _ (congrArg UInt32.toNat hg)
  · split
    next hm => exact hunit sizeMb _ (congrArg UInt32.toNat hm)
    · split
      next hk => exact hunit sizeKb _ (congrArg UInt32.toNat hk)
      · exact decimal_head hpos n.toNat_lt

open KeyOrder

variable {chips : Chips}

/-- A partition that the text of the table names in full. -/
structure Part.Named (part : Part) : Prop where
  user : part.autoName = false
  size : minPartSize ≤ part.size
  written : part.Written

def nameText (part : Part) : Str := 40 :: (part.name ++ [41])
def flagText (part : Part) : Str := if part.maskFlags ≠ 0 then ascii ['r', 'o'] else []
def gapText (prev : Option Part) (part : Part) : Str :=
  if Gap prev part then 64 :: memsizeFormat part.offset else []

theorem partPieces_flatten {numParts cnt : Nat} {prev : Option Part} {part : Part}
    (h : part.autoName = false) :
    (partPieces numParts cnt prev part).flatten = memsizeFormat part.size ++ gapText prev part ++
      nameText part ++ flagText part ++ (if cnt < numParts then [44] else []) := by
  unfold partPieces gapText nameText flagText
  rw [h]
  by_cases hg : Gap prev part
  · by_cases hf : part.maskFlags = 0
    · by_cases hc : cnt < numParts
      · simp [hg, hf, hc, ascii]
      · simp [hg, hf, hc, ascii]
    · by_cases hc : cnt < numParts
      · simp [hg, hf, hc, ascii]
      · simp [hg, hf, hc, ascii]
  · by_cases hf : part.maskFlags = 0
    · by_cases hc : cnt < numParts
      · simp [hg, hf, hc, ascii]
      · simp [hg, hf, hc, ascii]
    · by_cases hc : cnt < numParts
      · simp [hg, hf, hc, ascii]
      · simp [hg, hf, hc, ascii]

theorem size_ne_zero {size : UInt32} (h : minPartSize ≤ size) : size ≠ 0 := fun h0 => by
  rw [h0] at h
  exact absurd h (by decide)

theorem partSize_printed {size : UInt32} {c : UInt8} (h : minPartSize ≤ size) (hc : c = 64 ∨ c = 40)
    (rest : Str) : partSize (memsizeFormat size ++ c :: rest) = some (size, c :: rest) := by
  have hread := memsizeParse_format (size_ne_zero h) hc rest
  obtain ⟨d, p, hp, hd⟩ := memsizeFormat_head (size_ne_zero h)
  have hminus : ¬(memsizeFormat size ++ c :: rest).head? = some 45 := by
    rw [hp, cons_append, List.head?_cons]
    intro he
    cases he
    exact absurd hd (by decide)
  unfold partSize
  rw [if_neg hminus, hread, if_neg (UInt32.not_lt.mpr h)]

theorem partOffset_printed {prev : Option Part} {part : Part} (hz : Gap prev part → part.offset ≠ 0)
    (rest : Str) :
    partOffset (gapText prev part ++ 40 :: rest) =
      (if Gap prev part then part.offset else offsetNotSpecified, 40 :: rest) := by
  unfold gapText partOffset
  by_cases hg : Gap prev part
  · rw [if_pos hg, if_pos hg, if_pos (by rfl)]
    exact memsizeParse_format (hz hg) (.inr rfl) rest
  · rw [if_neg hg, if_neg hg, if_neg (by simp)]
    rfl

theorem partName_printed {part : Part} (h : part.Named) (rest : Str) :
    partName (nameText part ++ rest) = some (some part.name, rest) := by
  obtain ⟨hne, hclose⟩ := h.written.name h.user
  have hall : ∀ c ∈ part.name, decide (c ≠ 41) = true := fun c hc =>
    decide_eq_true fun he => hclose (he ▸ hc)
  have htext : nameText part ++ rest = 40 :: (part.name ++ 41 :: rest) := by
    unfold nameText
    simp
  rw [htext]
  unfold partName
  rw [if_pos (by rfl), drop_succ_cons, drop_zero, dropWhile_append_of_pos hall,
    takeWhile_append_of_pos hall, dropWhile_cons_of_neg (by simp),
    takeWhile_cons_of_neg (by simp), append_nil]
  dsimp only
  rw [if_neg hne]

/-- What follows a partition: a comma and more, or the end of the device. -/
def Follower (rest : Str) : Prop := AtEnd rest ∨ rest.head? = some 44

theorem partOptions_printed {part : Part} (h : part.Named) {rest : Str} (hrest : Follower rest) :
    partOptions (flagText part ++ rest) = (part.maskFlags, rest) := by
  unfold flagText partOptions
  rcases h.written.maskFlags with h0 | h1
  · have hstarts : ¬(ascii ['r', 'o']).isPrefixOf rest = true := by
      cases rest with
      | nil => decide
      | cons c rest =>
        have hc : c = 59 ∨ c = 44 := by
          rcases hrest with (hnil | hsemi) | hcomma
          · cases hnil
          · exact .inl (Option.some.inj hsemi)
          · exact .inr (Option.some.inj hcomma)
        rcases hc with rfl | rfl
        · simp [ascii, List.isPrefixOf]
        · simp [ascii, List.isPrefixOf]
    have hflag : (if part.maskFlags ≠ 0 then ascii ['r', 'o'] else []) = [] := if_neg (by simp [h0])
    rw [hflag, nil_append, if_neg hstarts, h0]
  · have hflag : (if part.maskFlags ≠ 0 then ascii ['r', 'o'] else []) = ascii ['r', 'o'] :=
      if_pos (by rw [h1]; decide)
    rw [hflag, if_pos (by rfl), h1]
    rfl

theorem partParse_printed {numParts cnt : Nat} (addr : Nat) {prev : Option Part} {part : Part} {rest : Str}
    (h : part.Named) (hz : Gap prev part → part.offset ≠ 0) (hrest : ¬cnt < numParts → AtEnd rest) :
    partParse addr ((partPieces numParts cnt prev part).flatten ++ rest) =
      if cnt < numParts ∧ part.size = sizeRemaining then none
      else some ({ part with
        addr := addr
        offset := if Gap prev part then part.offset else offsetNotSpecified }, rest) := by
  have hfollow : Follower ((if cnt < numParts then [44] else []) ++ rest) := by
    by_cases hc : cnt < numParts
    · rw [if_pos hc]
      exact .inr rfl
    · rw [if_neg hc]
      exact .inl (hrest hc)
  have hend : partEnd part.size ((if cnt < numParts then [44] else []) ++ rest) =
      if cnt < numParts ∧ part.size = sizeRemaining then none else some rest := by
    by_cases hc : cnt < numParts
    · rw [if_pos hc]
      by_cases hs : part.size = sizeRemaining
      · simp [partEnd, hs, hc]
      · simp [partEnd, hs]
    · rw [if_neg hc, if_neg (fun hcs => hc hcs.1), nil_append]
      rcases hrest hc with rfl | hsemi
      · rfl
      · cases rest with
        | nil => cases hsemi
        | cons c rest =>
          obtain rfl : c = 59 := Option.some.inj hsemi
          simp [partEnd]
  have hname := h.user
  rw [partPieces_flatten hname]
  obtain ⟨tail, htail⟩ : ∃ tail, tail = flagText part ++ ((if cnt < numParts then [44] else []) ++ rest) :=
    ⟨_, rfl⟩
  have htext : memsizeFormat part.size ++ gapText prev part ++ nameText part ++ flagText part ++
      (if cnt < numParts then [44] else []) ++ rest =
      memsizeFormat part.size ++ (gapText prev part ++ (nameText part ++ tail)) := by
    rw [htail]
    simp only [append_assoc]
  have hsize : partSize (memsizeFormat part.size ++ (gapText prev part ++ (nameText part ++ tail))) =
      some (part.size, gapText prev part ++ (nameText part ++ tail)) := by
    by_cases hg : Gap prev part
    · unfold gapText
      rw [if_pos hg, cons_append]
      exact partSize_printed h.size (.inl rfl) _
    · unfold gapText nameText
      rw [if_neg hg, nil_append, cons_append]
      exact partSize_printed h.size (.inr rfl) _
  have hoffset : partOffset (gapText prev part ++ (nameText part ++ tail)) =
      (if Gap prev part then part.offset else offsetNotSpecified, nameText part ++ tail) :=
    partOffset_printed hz _
  have hopt := partOptions_printed h hfollow
  rw [← htail] at hopt
  rw [htext]
  unfold partParse
  simp only [hsize, hoffset, partName_printed h tail, hopt, Option.bind_eq_bind, Option.bind_some, hend]
  by_cases hcs : cnt < numParts ∧ part.size = sizeRemaining
  · rw [if_pos hcs, if_pos hcs]
    rfl
  · rw [if_neg hcs, if_neg hcs]
    simp [hname]

theorem partValidate_addr {id : Id} {part : Part} (a : Nat) (h : partValidate chips id part = some part) :
    partValidate chips id { part with addr := a } = some { part with addr := a } := by
  obtain ⟨_, hlt, hend, herase⟩ := partValidate_eq_some h
  exact partValidate_self hlt hend herase

def readdress : Nat → List Part → List Part
  | _, [] => []
  | a, part :: parts => { part with addr := a } :: readdress (a + 1) parts

/-- A partition that reads as the rest of its device has none behind it. -/
def FillsLast (parts : List Part) : Prop := ∀ p ∈ parts.dropLast, p.size ≠ sizeRemaining

instance (parts : List Part) : Decidable (FillsLast parts) := inferInstanceAs (Decidable (∀ _ ∈ _, _))

/-- Where the parser goes on behind a partition. -/
def nextOffset (prev : Option Part) : UInt32 := prev.elim 0 fun p => p.offset + p.size

theorem gap_iff (prev : Option Part) (part : Part) : Gap prev part ↔ nextOffset prev ≠ part.offset := by
  cases prev with
  | none => exact ne_comm
  | some prev => exact Iff.rfl

theorem offset_ne_notSpecified {id : Id} {part : Part} (h : partValidate chips id part = some part) :
    part.offset ≠ offsetNotSpecified := by
  obtain ⟨_, hlt, _⟩ := partValidate_eq_some h
  intro he
  have hsum := sum_toNat hlt
  have hmax := (part.offset + part.size).toNat_lt
  rw [he] at hsum hmax
  have hoff : offsetNotSpecified.toNat = 4294967295 := rfl
  omega

theorem printed_not_atEnd {numParts cnt : Nat} {prev : Option Part} {part : Part} {parts : List Part}
    (h : part.Named) (rest : Str) :
    ¬AtEnd ((partsPieces numParts cnt prev (part :: parts)).flatten ++ rest) := by
  obtain ⟨c, p, hp, hc⟩ := memsizeFormat_head (size_ne_zero h.size)
  simp only [partsPieces, partPieces, flatten_append, flatten_cons, hp, cons_append]
  rintro (hnil | hsemi)
  · cases hnil
  · obtain rfl : c = 59 := Option.some.inj hsemi
    exact absurd hc (by decide)

theorem printed_back {id : Id} {prev : Option Part} {part : Part} (addr : Nat)
    (hvalid : partValidate chips id part = some part) :
    (if (if Gap prev part then part.offset else offsetNotSpecified) = offsetNotSpecified then
        { part with addr := addr, offset := nextOffset prev }
      else { part with
        addr := addr
        offset := if Gap prev part then part.offset else offsetNotSpecified }) = { part with addr := addr } := by
  by_cases hg : Gap prev part
  · simp only [if_pos hg]
    rw [if_neg (offset_ne_notSpecified hvalid)]
  · have hoff : nextOffset prev = part.offset := by
      by_contra hno
      exact hg ((gap_iff prev part).mpr hno)
    simp only [if_neg hg, if_true, hoff]

theorem fillsLast_cons {part : Part} {parts : List Part} (hne : parts ≠ []) (hsize : part.size ≠ sizeRemaining) :
    FillsLast (part :: parts) ↔ FillsLast parts := by
  unfold FillsLast
  rw [dropLast_cons_of_ne_nil hne]
  constructor
  · exact fun h p hp => h p (mem_cons_of_mem _ hp)
  · intro h p hp
    rcases mem_cons.mp hp with rfl | hp
    · exact hsize
    · exact h p hp

theorem parseParts_printed {id : Id} {numParts : Nat} {parts : List Part} {rest : Str}
    {fuel addr cnt : Nat} {prev : Option Part} (hne : parts ≠ []) (hfuel : parts.length ≤ fuel)
    (hcnt : cnt + parts.length = numParts)
    (hall : ∀ p ∈ parts, p.Named ∧ partValidate chips id p = some p)
    (hzero : (∀ p ∈ parts.tail, p.offset ≠ 0) ∧ (prev ≠ none → ∀ p ∈ parts, p.offset ≠ 0))
    (hrest : AtEnd rest) :
    parseParts chips id fuel addr (nextOffset prev) ((partsPieces numParts cnt prev parts).flatten ++ rest) =
      if FillsLast parts then some (readdress addr parts, rest) else none := by
  induction parts generalizing fuel addr cnt prev with
  | nil => exact absurd rfl hne
  | cons part parts ih =>
    obtain ⟨fuel, rfl⟩ : ∃ n, fuel = n + 1 := ⟨fuel - 1, by rw [length_cons] at hfuel; omega⟩
    obtain ⟨hnamed, hvalid⟩ := hall part mem_cons_self
    have hgap : Gap prev part → part.offset ≠ 0 := by
      intro hg
      cases prev with
      | none => exact hg
      | some q => exact hzero.2 (Option.some_ne_none q) part mem_cons_self
    have htext : (partsPieces numParts cnt prev (part :: parts)).flatten ++ rest =
        (partPieces numParts (cnt + 1) prev part).flatten ++
          ((partsPieces numParts (cnt + 1) (some part) parts).flatten ++ rest) := by
      simp only [partsPieces, flatten_append, append_assoc]
    have hcomma : cnt + 1 < numParts ↔ parts ≠ [] := by
      rw [length_cons] at hcnt
      rw [← length_pos_iff]
      omega
    have hend : ¬cnt + 1 < numParts →
        AtEnd ((partsPieces numParts (cnt + 1) (some part) parts).flatten ++ rest) := fun hlast => by
      have hnil : parts = [] := by
        by_contra hmore
        exact hlast (hcomma.mpr hmore)
      rw [hnil]
      exact hrest
    have hparse := partParse_printed addr hnamed hgap hend
    obtain ⟨q, hq⟩ : ∃ q, q = (partsPieces numParts (cnt + 1) (some part) parts).flatten ++ rest := ⟨_, rfl⟩
    rw [htext, parseParts, hparse, ← hq]
    by_cases hfill : cnt + 1 < numParts ∧ part.size = sizeRemaining
    · have hmore := hcomma.mp hfill.1
      rw [if_pos hfill, if_neg]
      · rfl
      · intro hlast
        refine hlast part ?_ hfill.2
        rw [dropLast_cons_of_ne_nil hmore]
        exact mem_cons_self
    · rw [if_neg hfill]
      simp only [Option.bind_eq_bind, Option.bind_some, printed_back addr hvalid, partValidate_addr addr hvalid]
      by_cases hnil : parts = []
      · subst hnil
        have hlast : FillsLast [part] := fun p hp => absurd hp not_mem_nil
        obtain rfl : q = rest := hq
        rw [if_pos hlast, if_pos hrest]
        rfl
      · obtain ⟨next, more, rfl⟩ := exists_cons_of_ne_nil hnil
        have hnext := hall next (mem_cons_of_mem _ mem_cons_self)
        have hmore : ¬AtEnd q := by
          rw [hq]
          exact printed_not_atEnd hnext.1 rest
        rw [if_neg hmore]
        have hih : parseParts chips id fuel (addr + 1) (nextOffset (some part)) q =
            if FillsLast (next :: more) then some (readdress (addr + 1) (next :: more), rest) else none := by
          rw [hq]
          refine ih hnil ?_ ?_ (fun p hp => hall p (mem_cons_of_mem _ hp))
            ⟨fun p hp => hzero.1 p (mem_of_mem_tail hp), fun _ p hp => hzero.1 p hp⟩
          · rw [length_cons] at hfuel
            omega
          · rw [length_cons] at hcnt
            omega
        have hoff : part.offset + part.size = nextOffset (some part) := rfl
        rw [hoff, hih]
        have hsize : part.size ≠ sizeRemaining := fun hs => hfill ⟨hcomma.mpr hnil, hs⟩
        have hfills := fillsLast_cons hnil hsize
        by_cases hf : FillsLast (next :: more)
        · rw [if_pos hf, if_pos (hfills.mpr hf)]
          rfl
        · rw [if_neg hf, if_neg (fun h => hf (hfills.mp h))]
          rfl

end UBoot.Mtd
