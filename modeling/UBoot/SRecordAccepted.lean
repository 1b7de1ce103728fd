import UBoot.SRecord

namespace UBoot.SRecord

open List

/-- `hex2_bin` where there may be nothing to read -/
def hex2BinRead : List UInt8 → Option (Option Nat)
  | [] => none
  | a :: input =>
    match hex1Bin a with
    | none => some none
    | some i =>
      match input with
      | [] => none
      | b :: _ => some ((hex1Bin b).map fun j => i * 16 + j)

/-- The loop that skips anything before the `S`, and the `S`. -/
def skipRead : List UInt8 → Option (List UInt8)
  | [] => none
  | c :: input => if c = 0 then some (c :: input) else if c = 83 then some input else skipRead input

def hexBytesRead : Nat → List UInt8 → Option (Option (List Nat × List UInt8))
  | 0, input => some (some ([], input))
  | n + 1, input =>
    match hex2BinRead input with
    | none => none
    | some none => some none
    | some (some v) => (hexBytesRead n (input.drop 2)).map fun r => r.map fun r => (v :: r.1, r.2)

/-- `srec_decode` on memory that ends somewhere: a read behind its end has no result. -/
def srecDecodeRead (input : List UInt8) : Option (Except RecError Rec) := do
  match ← skipRead input with
  | [] => none
  | v :: input =>
    if v = 0 then some (.ok ⟨.empty, 0, 0, []⟩)
    else match ← hex2BinRead input with
      | none => some (.error .noSrec)
      | some length =>
        match recType v length with
        | none => some (.error .badType)
        | some (type, addrBytes, count) =>
          match ← hexBytesRead addrBytes (input.drop 2) with
          | none => some (.error .noSrec)
          | some (addr, input) =>
            match ← hexBytesRead count.toNat input with
            | none => some (.error .noSrec)
            | some (data, input) =>
              match ← hex2BinRead input with
              | none => some (.error .noSrec)
              | some v =>
                if v ≠ 255 - (length + addr.sum + data.sum) % 256 then some (.error .badChks)
                else some (.ok ⟨type, count, addr.foldl (fun addr v => addr * 256 + v) 0, data.map UInt8.ofNat⟩)

def srecMaxbinlen : Nat := 255

def dataType : RecType → Option (UInt8 × Nat)
  | .data2 => some (49, 2)
  | .data3 => some (50, 3)
  | .data4 => some (51, 4)
  | _ => none

/-- Characters in hex, and the bytes that they stand for. -/
inductive HexField : List UInt8 → List Nat → Prop where
  | nil : HexField [] []
  | byte {a b : UInt8} {i j : Nat} {text : List UInt8} {vs : List Nat} : hex1Bin a = some i → hex1Bin b = some j →
      HexField text vs → HexField (a :: b :: text) ((i * 16 + j) :: vs)

/-- The first `S` of the line has this type behind it, and then these bytes. -/
def Fields (line : List UInt8) (v : UInt8) (bytes : List Nat) : Prop :=
  ∃ before text rest, line = before ++ 83 :: v :: (text ++ rest) ∧ (83 : UInt8) ∉ before ∧ HexField text bytes

/-- The record is in the line, with these fields. -/
structure WellFormed (line : List UInt8) (r : Rec) (v : UInt8) (length : Nat) (addr data : List Nat) (sum : Nat) :
    Prop where
  type : dataType r.type = some (v, addr.length)
  fields : Fields line v (length :: (addr ++ data ++ [sum]))
  room : addr.length + 1 ≤ length
  size : data.length = length - (addr.length + 1)
  count : r.count = data.length
  fits : data.length ≤ srecMaxbinlen
  stored : r.data = data.map UInt8.ofNat
  value : r.addr = addr.foldl (fun addr v => addr * 256 + v) 0
  checked : (length + addr.sum + data.sum + sum) % 256 = 255

/-- The line is decoded inside of it and its NUL, and what is taken for a data record is one. -/
def Accepts (line : CString) : Prop :=
  ∃ res, srecDecodeRead (line.bytes ++ [0]) = some res ∧
    ∀ r, res = .ok r → dataType r.type ≠ none → ∃ v length addr data sum, WellFormed line.bytes r v length addr data sum

/-- A data record of which the length does not even count the address and the checksum, which are both there. -/
def TooShort (line : List UInt8) : Prop :=
  ∃ type v length addr sum, dataType type = some (v, addr.length) ∧ Fields line v (length :: (addr ++ [sum])) ∧
    length < addr.length + 1 ∧ (length + addr.sum + sum) % 256 = 255

variable {s text rest input : List UInt8} {vs ws : List Nat} {v n length : Nat}

theorem hex1Bin_nul : hex1Bin 0 = none := by decide

theorem hex1Bin_lt {c : UInt8} {i : Nat} (h : hex1Bin c = some i) : i < 16 := by
  unfold hex1Bin at h
  simp only [UInt8.le_iff_toNat_le, UInt8.reduceToNat] at h
  split at h
  · cases h; omega
  · split at h
    · cases h; omega
    · split at h
      · cases h; omega
      · cases h

theorem hex2BinRead_line (s : List UInt8) : hex2BinRead (s ++ [0]) = some (hex2Bin s) := by
  match s with
  | [] => simp [hex2BinRead, hex2Bin, hex1Bin_nul]
  | [a] => cases ha : hex1Bin a <;> simp [hex2BinRead, hex2Bin, hex1Bin_nul, ha]
  | a :: b :: s => cases ha : hex1Bin a <;> cases hb : hex1Bin b <;> simp [hex2BinRead, hex2Bin, ha, hb]

theorem hex2Bin_iff : hex2Bin input = some v ↔
    ∃ a b i j, input = a :: b :: input.drop 2 ∧ hex1Bin a = some i ∧ hex1Bin b = some j ∧ v = i * 16 + j := by
  match input with
  | [] => simp [hex2Bin]
  | [a] => simp [hex2Bin]
  | a :: b :: input =>
    cases ha : hex1Bin a <;> cases hb : hex1Bin b <;> simp [hex2Bin, ha, hb, eq_comm]

theorem drop_line (h : hex2Bin s = some v) : (s ++ [0]).drop 2 = s.drop 2 ++ [0] := by
  obtain ⟨a, b, -, -, hs, -⟩ := hex2Bin_iff.mp h
  rw [hs]
  rfl

theorem hexBytesRead_line (n : Nat) (s : List UInt8) :
    hexBytesRead n (s ++ [0]) = some ((hexBytes n s).map fun r => (r.1, r.2 ++ [0])) := by
  induction n generalizing s with
  | zero => rfl
  | succ n ih =>
    rw [hexBytesRead, hexBytes, hex2BinRead_line]
    cases hv : hex2Bin s with
    | none => rfl
    | some v =>
      rw [drop_line hv, ih]
      cases hexBytes n (s.drop 2) <;> rfl

theorem skipRead_line (h : (0 : UInt8) ∉ s) : skipRead (s ++ [0]) = some ((s.dropWhile (· ≠ 83)).drop 1 ++ [0]) := by
  induction s with
  | nil => rfl
  | cons c s ih =>
    simp only [mem_cons, not_or] at h
    rw [cons_append, skipRead, if_neg fun hc => h.1 hc.symm]
    by_cases hc : c = 83
    · simp [hc]
    · rw [if_neg hc, ih h.2, dropWhile_cons_of_pos (by simpa using hc)]

theorem srecDecodeRead_line (line : CString) : srecDecodeRead (line.bytes ++ [0]) = some (srecDecode line.bytes) := by
  have hnul : (0 : UInt8) ∉ (line.bytes.dropWhile (· ≠ 83)).drop 1 := fun h =>
    line.nulFree ((dropWhile_suffix _).subset (mem_of_mem_drop h))
  unfold srecDecodeRead srecDecode
  rw [skipRead_line line.nulFree, Option.bind_eq_bind, Option.bind_some]
  cases hs : (line.bytes.dropWhile (· ≠ 83)).drop 1 with
  | nil => rfl
  | cons v input =>
    rw [hs, mem_cons, not_or] at hnul
    dsimp only [cons_append]
    rw [if_neg fun hv => hnul.1 hv.symm, hex2BinRead_line, Option.bind_eq_bind, Option.bind_some]
    cases hlength : hex2Bin input with
    | none => rfl
    | some length =>
      dsimp only
      cases recType v length with
      | none => rfl
      | some t =>
        obtain ⟨type, addrBytes, count⟩ := t
        dsimp only
        rw [drop_line hlength, hexBytesRead_line, Option.bind_eq_bind, Option.bind_some]
        cases hexBytes addrBytes (input.drop 2) with
        | none => rfl
        | some a =>
          dsimp only [Option.map_some]
          rw [hexBytesRead_line, Option.bind_some]
          cases hexBytes count.toNat a.2 with
          | none => rfl
          | some d =>
            dsimp only [Option.map_some]
            rw [hex2BinRead_line, Option.bind_some]
            cases hex2Bin d.2 with
            | none => rfl
            | some v =>
              dsimp only
              split <;> rfl

theorem hexBytes_iff : hexBytes n input = some (vs, rest) ↔
    ∃ text, input = text ++ rest ∧ HexField text vs ∧ vs.length = n := by
  induction n generalizing input vs with
  | zero =>
    simp only [hexBytes, Option.some.injEq, Prod.mk.injEq, length_eq_zero_iff]
    constructor
    · rintro ⟨rfl, rfl⟩
      exact ⟨[], rfl, .nil, rfl⟩
    · rintro ⟨text, rfl, hfield, rfl⟩
      cases hfield
      exact ⟨rfl, rfl⟩
  | succ n ih =>
    rw [hexBytes]
    constructor
    · intro h
      cases hv : hex2Bin input with
      | none => simp [hv] at h
      | some v =>
        simp only [hv, Option.map_eq_some_iff, Prod.mk.injEq] at h
        obtain ⟨⟨ws, rest'⟩, hws, rfl, rfl⟩ := h
        obtain ⟨text, htext, hfield, hlen⟩ := ih.mp hws
        obtain ⟨a, b, i, j, hin, ha, hb, rfl⟩ := hex2Bin_iff.mp hv
        refine ⟨a :: b :: text, ?_, .byte ha hb hfield, congrArg (· + 1) hlen⟩
        rw [hin, htext]
        rfl
    · rintro ⟨text, rfl, hfield, hlen⟩
      cases hfield with
      | nil => cases hlen
      | @byte a b i j text vs ha hb hfield =>
        have hv : hex2Bin (a :: b :: (text ++ rest)) = some (i * 16 + j) :=
          hex2Bin_iff.mpr ⟨a, b, i, j, rfl, ha, hb, rfl⟩
        have hvs : hexBytes n (text ++ rest) = some (vs, rest) :=
          ih.mpr ⟨text, rfl, hfield, Nat.succ.inj hlen⟩
        simp only [cons_append, hv, drop_succ_cons, drop_zero, hvs, Option.map_some]

theorem HexField.append (h : HexField s vs) (h' : HexField text ws) : HexField (s ++ text) (vs ++ ws) := by
  induction h with
  | nil => exact h'
  | byte ha hb _ ih => exact .byte ha hb ih

theorem HexField.split (h : HexField text (vs ++ ws)) : ∃ s t, text = s ++ t ∧ HexField s vs ∧ HexField t ws := by
  induction vs generalizing text with
  | nil => exact ⟨[], text, rfl, .nil, h⟩
  | cons v vs ih =>
    cases h with
    | @byte a b i j text _ ha hb h =>
      obtain ⟨s, t, rfl, hs, ht⟩ := ih h
      exact ⟨a :: b :: s, t, rfl, .byte ha hb hs, ht⟩

theorem HexField.lt (h : HexField text vs) : ∀ v ∈ vs, v < 256 := by
  induction h with
  | nil => simp
  | byte ha hb _ ih =>
    have hi := hex1Bin_lt ha
    have hj := hex1Bin_lt hb
    intro v hv
    rcases mem_cons.mp hv with rfl | hv
    · omega
    · exact ih v hv

theorem hex2Bin_eq_hexBytes : hex2Bin input = some v ↔ hexBytes 1 input = some ([v], input.drop 2) := by
  rw [hexBytes]
  cases hex2Bin input <;> simp [hexBytes]

theorem recType_data {c : UInt8} {t : RecType} {count : Int} (h : recType c length = some (t, n, count))
    (ht : dataType t ≠ none) : dataType t = some (c, n) ∧ count = length - (n + 1 : Nat) := by
  revert h
  unfold recType
  repeat' split
  all_goals
    simp only [Option.some.injEq, Prod.mk.injEq, reduceCtorEq, false_implies]
    try (rintro ⟨rfl, rfl, rfl⟩; simp_all [dataType])

theorem recType_of_dataType {c : UInt8} {t : RecType} (h : dataType t = some (c, n)) (length : Nat) :
    recType c length = some (t, n, (length : Int) - (n + 1 : Nat)) := by
  cases t <;> simp [dataType] at h <;> obtain ⟨rfl, rfl⟩ := h <;> rfl

theorem behind_s {before : List UInt8} (h : (83 : UInt8) ∉ before) :
    ((before ++ 83 :: rest).dropWhile (· ≠ 83)).drop 1 = rest := by
  induction before with
  | nil => simp
  | cons c before ih =>
    simp only [mem_cons, not_or] at h
    rw [cons_append, dropWhile_cons_of_pos (by simpa using Ne.symm h.1)]
    exact ih h.2

theorem exists_s {line : List UInt8} {c : UInt8} (h : (line.dropWhile (· ≠ 83)).drop 1 = c :: rest) :
    ∃ before, line = before ++ 83 :: c :: rest ∧ (83 : UInt8) ∉ before := by
  induction line with
  | nil => simp at h
  | cons x line ih =>
    by_cases hx : x = 83
    · subst x
      simp only [ne_eq, not_true_eq_false, decide_false, Bool.false_eq_true, not_false_eq_true,
        dropWhile_cons_of_neg, drop_succ_cons, drop_zero] at h
      exact ⟨[], by rw [h]; rfl, by simp⟩
    · rw [dropWhile_cons_of_pos (by simpa using hx)] at h
      obtain ⟨before, rfl, hbefore⟩ := ih h
      exact ⟨x :: before, rfl, by simp [hbefore, Ne.symm hx]⟩

theorem srecDecode_data_iff {line : List UInt8} {c : UInt8} {t : RecType} {r : Rec} (ht : dataType t = some (c, n)) :
    srecDecode line = .ok r ∧ r.type = t ↔
      ∃ length addr data sum, Fields line c (length :: (addr ++ data ++ [sum])) ∧ addr.length = n ∧
        data.length = length - (n + 1) ∧ (length + addr.sum + data.sum + sum) % 256 = 255 ∧
        r = ⟨t, (length : Int) - (n + 1 : Nat), addr.foldl (fun addr v => addr * 256 + v) 0, data.map UInt8.ofNat⟩ := by
  constructor
  · rintro ⟨hrun, rfl⟩
    unfold srecDecode at hrun
    split at hrun
    · cases hrun
      cases ht
    next c' input hs =>
      obtain ⟨before, hline, hbefore⟩ := exists_s hs
      cases hlength : hex2Bin input with
      | none => simp [hlength] at hrun
      | some length =>
        cases htype : recType c' length with
        | none => simp [hlength, htype] at hrun
        | some t =>
          obtain ⟨type, m, count⟩ := t
          simp only [hlength, htype] at hrun
          cases haddr : hexBytes m (input.drop 2) with
          | none => simp [haddr] at hrun
          | some a =>
            cases hdata : hexBytes count.toNat a.2 with
            | none => simp [haddr, hdata] at hrun
            | some d =>
              cases hsum : hex2Bin d.2 with
              | none => simp [haddr, hdata, hsum] at hrun
              | some sum =>
                simp only [haddr, hdata, hsum] at hrun
                split at hrun
                · cases hrun
                next hcheck =>
                  cases hrun
                  obtain ⟨hsame, rfl⟩ := recType_data htype (by simp [ht])
                  rw [ht, Option.some.injEq, Prod.mk.injEq] at hsame
                  obtain ⟨rfl, rfl⟩ := hsame
                  obtain ⟨l, hl, hlfield, -⟩ := hexBytes_iff.mp (hex2Bin_eq_hexBytes.mp hlength)
                  obtain ⟨s, hs, hsfield, hslen⟩ := hexBytes_iff.mp haddr
                  obtain ⟨u, hu, hufield, hulen⟩ := hexBytes_iff.mp hdata
                  obtain ⟨w, hw, hwfield, -⟩ := hexBytes_iff.mp (hex2Bin_eq_hexBytes.mp hsum)
                  have hlt := hwfield.lt sum mem_cons_self
                  refine ⟨length, a.1, d.1, sum, ⟨before, l ++ (s ++ u ++ w), d.2.drop 2, ?_, hbefore, ?_⟩, hslen, ?_,
                    by omega, rfl⟩
                  · rw [hline, hl, hs, hu]
                    conv_lhs => rw [hw]
                    simp
                  · exact hlfield.append ((hsfield.append hufield).append hwfield)
                  · rw [hulen]
                    omega
  · rintro ⟨length, addr, data, sum, ⟨before, text, rest, rfl, hbefore, hfield⟩, hn, hcount, hcheck, rfl⟩
    refine ⟨?_, rfl⟩
    obtain ⟨l, text, rfl, hlfield, hfield⟩ := @HexField.split _ [length] _ hfield
    obtain ⟨text, w, rfl, hfield, hwfield⟩ := hfield.split
    obtain ⟨s, u, rfl, hsfield, hufield⟩ := hfield.split
    have hlength : hexBytes 1 (l ++ (s ++ u ++ w) ++ rest) = some ([length], s ++ (u ++ (w ++ rest))) :=
      hexBytes_iff.mpr ⟨l, by simp, hlfield, rfl⟩
    have hdrop : (l ++ (s ++ u ++ w) ++ rest).drop 2 = s ++ (u ++ (w ++ rest)) := by
      cases hlfield with
      | byte _ _ hnil =>
        cases hnil
        simp
    rw [← hdrop, ← hex2Bin_eq_hexBytes] at hlength
    have haddr : hexBytes n (s ++ (u ++ (w ++ rest))) = some (addr, u ++ (w ++ rest)) :=
      hexBytes_iff.mpr ⟨s, rfl, hsfield, hn⟩
    have hdata : hexBytes ((length : Int) - (n + 1 : Nat)).toNat (u ++ (w ++ rest)) = some (data, w ++ rest) :=
      hexBytes_iff.mpr ⟨u, rfl, hufield, by omega⟩
    have hsum : hex2Bin (w ++ rest) = some sum := by
      cases hwfield with
      | @byte a b i j _ _ ha hb hnil =>
        cases hnil
        exact hex2Bin_iff.mpr ⟨a, b, i, j, rfl, ha, hb, rfl⟩
    have hlt := hwfield.lt sum mem_cons_self
    have hequal : ¬sum ≠ 255 - (length + addr.sum + data.sum) % 256 := by omega
    simp only [srecDecode, behind_s hbefore, hlength, recType_of_dataType ht, hdrop, haddr, hdata, hsum, hequal, if_false]

/-- The property fails exactly for a data record of which the length is too small: it is accepted with a negative
count. -/
theorem srec_decode_accepts_iff (line : CString) : Accepts line ↔ ¬TooShort line.bytes := by
  constructor
  · rintro ⟨res, hread, hright⟩ ⟨t, c, length, addr, sum, ht, hfields, hshort, hcheck⟩
    rw [srecDecodeRead_line, Option.some.injEq] at hread
    have hdecode := (srecDecode_data_iff ht).mpr ⟨length, addr, [], sum, by simpa using hfields, rfl, by
      rw [length_nil]
      omega, by simpa using hcheck, rfl⟩
    obtain ⟨_, _, _, data, _, hwell⟩ := hright _ (hread.symm.trans hdecode.1) (by simp [ht])
    have hcount := hwell.count
    dsimp only at hcount
    omega
  · intro hlong
    refine ⟨_, srecDecodeRead_line line, fun r hr hdata => ?_⟩
    obtain ⟨⟨c, n⟩, ht⟩ := Option.ne_none_iff_exists'.mp hdata
    obtain ⟨length, addr, data, sum, hfields, rfl, hsize, hcheck, heq⟩ := (srecDecode_data_iff ht).mp ⟨hr, rfl⟩
    have hroom : addr.length + 1 ≤ length := by
      by_contra hshort
      have hnil : data = [] := eq_nil_of_length_eq_zero (by omega)
      subst data
      exact hlong ⟨r.type, c, length, addr, sum, ht, by simpa using hfields, by omega, by simpa using hcheck⟩
    have hlt : length < 256 := by
      obtain ⟨_, _, _, -, -, hfield⟩ := hfields
      exact hfield.lt length mem_cons_self
    refine ⟨c, length, addr, data, sum, ht, hfields, hroom, hsize, ?_, ?_, ?_, ?_, hcheck⟩
    · rw [heq]
      dsimp only
      omega
    · unfold srecMaxbinlen
      omega
    · rw [heq]
    · rw [heq]

/-- The length counts the two bytes of the address and not the checksum. -/
theorem length_of_two_accepted : ¬∀ line : CString, Accepts line := by
  intro h
  obtain ⟨res, hread, hright⟩ := h ⟨ascii ['S', '1', '0', '2', '0', '0', '0', '0', 'F', 'D'], by decide⟩
  have hrun : (srecDecodeRead (ascii ['S', '1', '0', '2', '0', '0', '0', '0', 'F', 'D'] ++ [0])).map
      (fun r => r.toOption.map fun r => (r.type, r.count)) = some (some (.data2, -1)) := by decide
  rw [hread, Option.map_some, Option.some.injEq] at hrun
  cases res with
  | error e => cases hrun
  | ok r =>
    simp only [Except.toOption, Option.map_some, Option.some.injEq, Prod.mk.injEq] at hrun
    obtain ⟨_, _, _, data, _, hwell⟩ := hright r rfl (by simp [hrun.1, dataType])
    have hcount := hwell.count
    rw [hrun.2] at hcount
    omega

end UBoot.SRecord
