import UBoot.Cells
import UBoot.EnvScan

namespace UBoot

open List

def valueOf (es : List Entry) (n : CString) : Option (List UInt8) :=
  (es.find? fun e => e.name = n).map fun e => e.value.bytes

theorem searchFuel_end {as : List Entry} {rest n : List UInt8} {fuel : Nat} :
    searchFuel (lines as ++ 0 :: rest) n (fuel + 1) (lines as).length = some none := by
  simp [searchFuel]

/-- What both searches see of the line of `e`. -/
theorem line_at (as bs : List Entry) (e : Entry) (rest : List UInt8) :
    (∃ c, (lines (as ++ e :: bs) ++ 0 :: rest)[(lines as).length]? = some c ∧ c ≠ 0) ∧
      (lines (as ++ e :: bs) ++ 0 :: rest).drop (lines as).length = e.line ++ (lines bs ++ 0 :: rest) ∧
      (lines as).length + e.body.length + 1 = (lines (as ++ [e])).length := by
  obtain ⟨c, hc, hz⟩ := getElem?_lines as (e :: bs) rest
  refine ⟨⟨c, hc, fun h => by simpa using hz.mp h⟩, ?_, by simp [Entry.line, add_assoc]⟩
  rw [drop_lines, lines_cons, append_assoc]

section Search

variable {n : CString} (hn : equalsSign ∉ n.bytes) (as bs : List Entry)

include hn

theorem searchFuel_step (e : Entry) (rest : List UInt8) (fuel : Nat) :
    searchFuel (lines (as ++ e :: bs) ++ 0 :: rest) n.bytes (fuel + 1) (lines as).length =
      if e.name = n then
        some (some ⟨(lines as).length + n.bytes.length + 1, (lines as).length,
          (lines as).length + e.body.length⟩)
      else searchFuel (lines (as ++ e :: bs) ++ 0 :: rest) n.bytes fuel
        (lines (as ++ [e])).length := by
  obtain ⟨⟨c, hc, h0⟩, hdrop, hnext⟩ := line_at as bs e rest
  simp only [searchFuel, hc, h0, hdrop, strEnd_line, envmatch_line n e _ _ hn, if_false,
    Option.bind_eq_bind, Option.bind_some, hnext]
  by_cases he : e.name = n <;> simp [he]

theorem searchFuel_skips (cs : List Entry) (rest : List UInt8) (habs : ∀ x ∈ bs, x.name ≠ n) (fuel : Nat) :
    searchFuel (lines (as ++ (bs ++ cs)) ++ 0 :: rest) n.bytes (fuel + bs.length) (lines as).length =
      searchFuel (lines (as ++ bs ++ cs) ++ 0 :: rest) n.bytes fuel (lines (as ++ bs)).length := by
  induction bs generalizing as with
  | nil => simp
  | cons b bs ih =>
    rw [cons_append, length_cons, ← add_assoc, searchFuel_step hn, if_neg (habs b (by simp))]
    simpa using ih (as ++ [b]) (fun x hx => habs x (mem_cons_of_mem b hx))

theorem searchFuel_absent (rest : List UInt8) (habs : ∀ e ∈ bs, e.name ≠ n) {fuel : Nat} (hf : bs.length < fuel) :
    searchFuel (lines (as ++ bs) ++ 0 :: rest) n.bytes fuel (lines as).length = some none := by
  obtain ⟨k, rfl⟩ := Nat.exists_eq_add_of_lt hf
  have hskip := searchFuel_skips hn as bs [] rest habs (k + 1)
  rw [append_nil, append_nil, searchFuel_end] at hskip
  rw [← hskip, add_comm (k + 1), add_assoc]

theorem searchFuel_present (cs : List Entry) (e : Entry) (rest : List UInt8) (habs : ∀ x ∈ bs, x.name ≠ n)
    (he : e.name = n) {fuel : Nat} (hf : bs.length < fuel) :
    searchFuel (lines (as ++ (bs ++ e :: cs)) ++ 0 :: rest) n.bytes fuel (lines as).length =
      some (some ⟨(lines (as ++ bs)).length + n.bytes.length + 1, (lines (as ++ bs)).length,
        (lines (as ++ bs)).length + e.body.length⟩) := by
  obtain ⟨k, rfl⟩ := Nat.exists_eq_add_of_lt hf
  rw [show bs.length + k + 1 = k + 1 + bs.length by omega, searchFuel_skips hn as bs (e :: cs) rest habs,
    searchFuel_step hn, if_pos he]

end Search

theorem getenvFuel_end {as : List Entry} {rest n : List UInt8} {fuel size : Nat} :
    getenvFuel size (lines as ++ 0 :: rest) n (fuel + 1) (lines as).length = some none := by
  simp [getenvFuel]

theorem getenvFuel_step {n : CString} (hn : equalsSign ∉ n.bytes) (as bs : List Entry)
    (e : Entry) (rest : List UInt8) {fuel size : Nat}
    (hb : (lines (as ++ e :: bs) ++ 0 :: rest).length ≤ size) :
    getenvFuel size (lines (as ++ e :: bs) ++ 0 :: rest) n.bytes (fuel + 1) (lines as).length =
      if e.name = n then some (some ((lines as).length + n.bytes.length + 1))
      else getenvFuel size (lines (as ++ e :: bs) ++ 0 :: rest) n.bytes fuel
        (lines (as ++ [e])).length := by
  obtain ⟨⟨c, hc, h0⟩, hdrop, hnext⟩ := line_at as bs e rest
  have hend : (lines as).length + e.body.length < size := by
    simp only [lines_append, lines_cons, Entry.line, length_append, length_cons] at hb
    omega
  simp only [getenvFuel, hc, h0, hdrop, getenvEnd_line e _ hend, envmatch_line n e _ _ hn,
    if_false, Option.bind_eq_bind, Option.bind_some, hnext]
  by_cases he : e.name = n <;> simp [he]

theorem getenvFuel_lines {n : CString} (hn : equalsSign ∉ n.bytes) (as bs : List Entry)
    (rest : List UInt8) {fuel size : Nat} (hf : bs.length < fuel)
    (hb : (lines (as ++ bs) ++ 0 :: rest).length ≤ size) :
    ∃ i, getenvFuel size (lines (as ++ bs) ++ 0 :: rest) n.bytes fuel (lines as).length = some i ∧
      i.bind (cstrAt (lines (as ++ bs) ++ 0 :: rest)) = valueOf bs n ∧
      (i = none ↔ valueOf bs n = none) := by
  induction bs generalizing as fuel with
  | nil =>
    obtain ⟨fuel, rfl⟩ := Nat.exists_eq_add_one_of_ne_zero (Nat.ne_of_gt hf)
    rw [append_nil]
    exact ⟨none, getenvFuel_end, by simp [valueOf], by simp [valueOf]⟩
  | cons e bs ih =>
    obtain ⟨fuel, rfl⟩ := Nat.exists_eq_add_one_of_ne_zero (Nat.ne_of_gt (Nat.zero_lt_of_lt hf))
    rw [getenvFuel_step hn as bs e rest hb]
    by_cases he : e.name = n
    · have htext : lines (as ++ e :: bs) ++ 0 :: rest =
          (lines as ++ n.bytes ++ [equalsSign]) ++ e.value.bytes ++ 0 :: (lines bs ++ 0 :: rest) := by
        simp [Entry.line, Entry.body, he]
      have hpos : (lines as).length + n.bytes.length + 1 =
          (lines as ++ n.bytes ++ [equalsSign]).length := by simp [add_assoc]
      refine ⟨some _, if_pos he, ?_, by simp [valueOf, he]⟩
      rw [Option.bind_some, hpos, htext, cstrAt_append e.value.nulFree]
      simp [valueOf, he]
    · rw [if_neg he]
      have hrec := ih (as ++ [e]) (by simpa using hf) (by simpa using hb)
      simpa [valueOf, List.find?_cons, he] using hrec

theorem getenvValue_holds {d : List UInt8} {es : List Entry} {n : CString} {size : Nat}
    (h : Holds d es) (hn : equalsSign ∉ n.bytes) (hb : d.length ≤ size) :
    getenvValue size d n.bytes = some (valueOf es n) := by
  obtain ⟨rest, hd, _⟩ := h.text
  have hlen := length_le_lines es
  have hf : es.length < d.length + 1 := by
    rw [hd, length_append]
    omega
  obtain ⟨i, hi, hv, hz⟩ := getenvFuel_lines hn [] es rest hf (by simpa [← hd] using hb)
  simp only [nil_append, ← hd, lines_nil, length_nil] at hi hv
  simp only [getenvValue, getenv, hi, Option.bind_eq_bind, Option.bind_some]
  cases i with
  | none => simpa using (hz.mp rfl).symm
  | some i =>
    simp only [Option.bind_some] at hv
    cases hval : valueOf es n with
    | none => exact absurd (hz.mpr hval) (by simp)
    | some v => simp [hv, hval]

open Cells

/-- `while ((len > n++) && (*buf++ = env_get_char(val++)) != '\0')`, where `n` is also how far `buf` has come. It
leaves `n`, the place of `buf` and the buffer. -/
def copyOut (len : Nat) : List UInt8 → Nat → List UInt8 → Option (Nat × Nat × List UInt8)
  | [], n, buf => if len > n then none else some (n + 1, n, buf)
  | c :: chars, n, buf =>
    if len > n then do
      let buf ← store buf n c
      if c ≠ 0 then copyOut len chars (n + 1) buf else some (n + 1, n + 1, buf)
    else some (n + 1, n, buf)

/-- `getenv_r`, which looks for the name in the same way as `getenv`: what it returns and the buffer. -/
def getenvR (configEnvSize : Nat) (d name buf : List UInt8) (len : Nat) : Option (Int × List UInt8) := do
  match ← getenv configEnvSize d name with
  | none => some (-1, buf)
  | some val => do
    let (n, p, buf) ← copyOut len (d.drop val) 0 buf
    if len = n then do some (n, ← store buf p 0) else some (n, buf)

variable {v t p q : List UInt8} {len : Nat}

theorem copyOut_ends (hnul : (0 : UInt8) ∉ v) (hlen : len = p.length + q.length) (hfit : v.length < q.length) :
    copyOut len (v ++ 0 :: t) p.length (p ++ q) =
      some (p.length + v.length + 1, p.length + v.length + 1, p ++ v ++ 0 :: q.drop (v.length + 1)) := by
  induction v generalizing p q with
  | nil =>
    obtain ⟨x, q, rfl⟩ := exists_cons_of_length_pos hfit
    rw [nil_append, copyOut, if_pos (by rw [hlen, length_cons]; omega), store_at]
    simp
  | cons c v ih =>
    obtain ⟨hc, hv⟩ := not_or.mp (mt mem_cons.mpr hnul)
    obtain ⟨x, q, rfl⟩ := exists_cons_of_length_pos (Nat.zero_lt_of_lt hfit)
    have hstep : (p ++ [c]).length = p.length + 1 := length_append
    have hrest := ih (p := p ++ [c]) (q := q) hv (by rw [hstep, hlen, length_cons]; omega)
      (Nat.lt_of_succ_lt_succ hfit)
    rw [hstep, append_assoc p, singleton_append] at hrest
    rw [cons_append, copyOut, if_pos (by rw [hlen, length_cons]; omega), store_at]
    simp only [Option.bind_eq_bind, Option.bind_some, if_pos (Ne.symm hc)]
    rw [hrest]
    simp only [append_assoc, cons_append, nil_append, length_cons, drop_succ_cons]
    congr 3 <;> omega

theorem copyOut_fills (hnul : (0 : UInt8) ∉ v) (hlen : len = p.length + q.length) (hfit : q.length ≤ v.length) :
    copyOut len (v ++ 0 :: t) p.length (p ++ q) = some (len + 1, len, p ++ v.take q.length) := by
  induction v generalizing p q with
  | nil =>
    obtain rfl : q = [] := length_eq_zero_iff.mp (Nat.le_zero.mp hfit)
    rw [length_nil, add_zero] at hlen
    rw [nil_append, copyOut, if_neg (by omega), hlen]
    simp
  | cons c v ih =>
    obtain ⟨hc, hv⟩ := not_or.mp (mt mem_cons.mpr hnul)
    cases q with
    | nil =>
      rw [length_nil, add_zero] at hlen
      rw [cons_append, copyOut, if_neg (by omega), hlen]
      simp
    | cons x q =>
      have hstep : (p ++ [c]).length = p.length + 1 := length_append
      have hrest := ih (p := p ++ [c]) (q := q) hv (by rw [hstep, hlen, length_cons]; omega)
        (Nat.le_of_succ_le_succ hfit)
      rw [hstep, append_assoc p, singleton_append] at hrest
      rw [cons_append, copyOut, if_pos (by rw [hlen, length_cons]; omega), store_at]
      simp only [Option.bind_eq_bind, Option.bind_some, if_pos (Ne.symm hc)]
      rw [hrest, length_cons, take_succ_cons, append_assoc, singleton_append]

theorem getenv_defined {d : List UInt8} {es : List Entry} {e : Entry} {configEnvSize : Nat} (h : Holds d es)
    (hsize : d.length ≤ configEnvSize) (he : e ∈ es) :
    ∃ val t, getenv configEnvSize d e.name.bytes = some (some val) ∧ d.drop val = e.value.bytes ++ 0 :: t := by
  have hvalue := getenvValue_holds h e.plain hsize
  have hfind : es.find? (fun x => x.name = e.name) = some e := by
    obtain ⟨as, bs, rfl⟩ := append_of_mem he
    have hdistinct := h.distinct
    rw [map_append, map_cons, nodup_append] at hdistinct
    rw [List.find?_append, List.find?_eq_none.mpr]
    · simp
    · intro x hx hsame
      exact hdistinct.2.2 _ (mem_map_of_mem hx) _ mem_cons_self (of_decide_eq_true hsame)
  rw [valueOf, hfind] at hvalue
  obtain ⟨found, hfound, hstr⟩ := Option.bind_eq_some_iff.mp hvalue
  cases found with
  | none => cases hstr
  | some val =>
    obtain ⟨s, hs, hsome⟩ := Option.bind_eq_some_iff.mp hstr
    obtain rfl : s = e.value.bytes := Option.some.inj (Option.some.inj hsome)
    obtain ⟨_, t, ht⟩ := cstrAt_some hs
    exact ⟨val, t, hfound, ht⟩

/-- `getenv_r` leaves the value or its longest prefix as a string in the buffer, and writes nowhere else, exactly if
there is room for one character more than the value has. -/
theorem getenv_r_respects_iff {d buf : List UInt8} {es : List Entry} {e : Entry} {configEnvSize : Nat} (h : Holds d es)
    (hsize : d.length ≤ configEnvSize) (he : e ∈ es) :
    (∃ n buf', getenvR configEnvSize d e.name.bytes buf buf.length = some (n, buf') ∧
        cstrAt buf' 0 = some (e.value.bytes.take (buf.length - 1))) ↔
      e.value.bytes.length + 1 < buf.length := by
  obtain ⟨val, t, hval, hdrop⟩ := getenv_defined h hsize he
  have hnul := e.value.nulFree
  generalize e.value.bytes = v at hdrop hnul ⊢
  have hrun : ∀ {n p : Nat} {buf' : List UInt8}, copyOut buf.length (v ++ 0 :: t) 0 buf = some (n, p, buf') →
      getenvR configEnvSize d e.name.bytes buf buf.length =
        if buf.length = n then (store buf' p 0).map (Prod.mk (n : Int)) else some ((n : Int), buf') := by
    intro n p buf' hcopy
    unfold getenvR
    rw [hval]
    simp only [Option.bind_eq_bind, Option.bind_some, hdrop, hcopy]
    cases store buf' p 0 <;> rfl
  have hzero : buf.length = ([] : List UInt8).length + buf.length := (zero_add _).symm
  rcases Nat.lt_or_ge v.length buf.length with hlt | hge
  · have hcopy := copyOut_ends (p := []) (t := t) hnul hzero hlt
    rw [nil_append, nil_append, length_nil, zero_add] at hcopy
    rw [hrun hcopy]
    have hlength : (v ++ 0 :: buf.drop (v.length + 1)).length = buf.length := by
      rw [length_append, length_cons, length_drop]
      omega
    rcases Nat.lt_or_eq_of_le hlt with hroom | hfull
    · refine iff_of_true ⟨_, _, if_neg (Nat.ne_of_gt hroom), ?_⟩ hroom
      rw [take_of_length_le (by omega)]
      exact cstrAt_append (p := []) hnul
    · refine iff_of_false ?_ (by omega)
      rintro ⟨n, buf', hret, _⟩
      rw [if_pos hfull.symm, store, hlength, if_neg (by omega)] at hret
      cases hret
  · have hcopy := copyOut_fills (p := []) (t := t) hnul hzero hge
    rw [nil_append, nil_append, length_nil] at hcopy
    rw [hrun hcopy, if_neg (Nat.ne_of_lt (Nat.lt_succ_self _))]
    refine iff_of_false ?_ (by omega)
    rintro ⟨n, buf', hret, hstr⟩
    cases hret
    obtain ⟨_, t', ht'⟩ := cstrAt_some hstr
    have hmem : (0 : UInt8) ∈ v.take buf.length := by
      rw [← drop_zero (l := v.take buf.length), ht']
      exact mem_append_right _ mem_cons_self
    exact hnul (mem_of_mem_take hmem)

/-- The variable `v=on`. -/
def vIsOn : Entry := ⟨⟨[118], by decide⟩, ⟨[111, 110], by decide⟩, by decide⟩

theorem vIsOn_holds : Holds (lines [vIsOn] ++ [0]) [vIsOn] :=
  ⟨⟨[], rfl, fun h => absurd h (cons_ne_nil _ _)⟩, nodup_cons.mpr ⟨not_mem_nil, nodup_nil⟩⟩

theorem getenv_r_respects_four :
    (∃ n buf', getenvR 8 (lines [vIsOn] ++ [0]) [118] [7, 7, 7, 7] 4 = some (n, buf') ∧
        cstrAt buf' 0 = some ([111, 110].take 3)) ↔ 2 + 1 < 4 :=
  @getenv_r_respects_iff _ [7, 7, 7, 7] [vIsOn] vIsOn 8 vIsOn_holds (by decide) mem_cons_self

/-- With a buffer of three bytes the value fills it and a NUL is written behind its end, and with one of two
bytes no NUL is written. -/
theorem full_buffer_not_respected : getenvR 8 (lines [vIsOn] ++ [0]) [118] [7, 7, 7] 3 = none ∧
    getenvR 8 (lines [vIsOn] ++ [0]) [118] [7, 7] 2 = some (3, [111, 110]) ∧
    ¬∃ n buf', getenvR 8 (lines [vIsOn] ++ [0]) [118] [7, 7, 7] 3 = some (n, buf') ∧
      cstrAt buf' 0 = some ([111, 110].take 2) := by
  have hout : getenvR 8 (lines [vIsOn] ++ [0]) [118] [7, 7, 7] 3 = none := by decide
  refine ⟨hout, by decide, ?_⟩
  rintro ⟨n, buf', hrun, _⟩
  rw [hout] at hrun
  cases hrun

end UBoot
