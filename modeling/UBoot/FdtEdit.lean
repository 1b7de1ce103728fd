import UBoot.FdtTags
import Mathlib.Data.List.Infix

namespace UBoot.Fdt

open FlashCells List Loops Words

/-- A blob that the functions take for writing, with the bytes of its structure block and its strings. -/
structure Shows (m : Flash) (fdt : Nat) (s strs : List UInt8) : Prop where
  header : fdtCheckHeader m fdt = 0
  version : 17 ≤ version m fdt
  rsv : 40 ≤ offMemRsvmap m fdt
  struct : offMemRsvmap m fdt + 16 ≤ offDtStruct m fdt
  size : sizeDtStruct m fdt = s.length
  strings : offDtStruct m fdt + s.length ≤ offDtStrings m fdt
  stringsSize : sizeDtStrings m fdt = strs.length
  total : offDtStrings m fdt + strs.length ≤ totalsize m fdt
  low : fdt + totalsize m fdt ≤ 2147483632
  bytes : read m (fdt + offDtStruct m fdt) s.length = s
  text : read m (fdt + offDtStrings m fdt) strs.length = strs

/-- The words of the header that no edit changes. -/
structure SameFields (m m' : Flash) (fdt : Nat) : Prop where
  magic : magic m' fdt = magic m fdt
  version : version m' fdt = version m fdt
  last : lastCompVersion m' fdt = lastCompVersion m fdt
  rsv : offMemRsvmap m' fdt = offMemRsvmap m fdt
  struct : offDtStruct m' fdt = offDtStruct m fdt
  total : totalsize m' fdt = totalsize m fdt

variable {m m' m'' : Flash} {fdt p oldlen newlen v x n : Nat} {s strs a b bs old : List UInt8}

theorem be32_store_of_ne (h : x + 4 ≤ p ∨ p + bs.length ≤ x) : be32 (store m p bs) x = be32 m x :=
  be32_congr fun _ _ => store_outside (by omega)

theorem be32_store : be32 (store m p (be32Bytes v)) p = v % 4294967296 := be32_of_read (read_store m p (be32Bytes v))

theorem read_memmove (h : x + n ≤ v) (dst src : Nat) : read (memmove m dst src v) (dst + x) n = read m (src + x) n := by
  apply read_congr
  intro i hi
  unfold memmove
  rw [store_read, patch_inside (by omega) (by omega)]
  congr 1
  omega

theorem read_memmove_of_ne {dst src : Nat} (h : x + n ≤ dst ∨ dst + v ≤ x) :
    read (memmove m dst src v) x n = read m x n := by
  unfold memmove
  exact read_store_outside (by rwa [read_length])

theorem Shows.block (h : Shows m fdt s strs) : Block m fdt s := by
  have hstrings := h.strings
  have htotal := h.total
  have hlow := h.low
  exact ⟨h.version, h.size, h.bytes, by omega⟩

theorem SameFields.trans (h : SameFields m m' fdt) (h' : SameFields m' m'' fdt) : SameFields m m'' fdt :=
  ⟨h'.magic.trans h.magic, h'.version.trans h.version, h'.last.trans h.last, h'.rsv.trans h.rsv,
    h'.struct.trans h.struct, h'.total.trans h.total⟩

theorem header_congr (m m' : Flash) (fdt : Nat) (h : ∀ y, fdt ≤ y → y < fdt + 40 → m' y = m y) :
    SameFields m m' fdt ∧ offDtStrings m' fdt = offDtStrings m fdt ∧ sizeDtStrings m' fdt = sizeDtStrings m fdt ∧
      sizeDtStruct m' fdt = sizeDtStruct m fdt := by
  have hword : ∀ k, k + 4 ≤ 40 → be32 m' (fdt + k) = be32 m (fdt + k) :=
    fun k hk => be32_congr fun i hi => h _ (by omega) (by omega)
  exact ⟨⟨hword 0 (by omega), hword 20 (by omega), hword 24 (by omega), hword 16 (by omega), hword 8 (by omega),
    hword 4 (by omega)⟩, hword 12 (by omega), hword 32 (by omega), hword 36 (by omega)⟩

theorem checkHeader_congr (h : SameFields m m' fdt) (hh : fdtCheckHeader m fdt = 0)
    (hsize : sizeDtStruct m' fdt ≠ 0 ∨ sizeDtStruct m' fdt = sizeDtStruct m fdt) : fdtCheckHeader m' fdt = 0 := by
  unfold fdtCheckHeader at hh ⊢
  rw [h.magic, h.version, h.last]
  rcases hsize with hsize | hsize
  · rw [if_neg hsize]
    split_ifs at hh ⊢ <;> first | rfl | contradiction
  · rw [hsize]
    exact hh

theorem Shows.edit {s' strs' : List UInt8} (h : Shows m fdt s strs) (hf : SameFields m m' fdt) (hs : s' ≠ [] ∨ s' = s)
    (hsize : sizeDtStruct m' fdt = s'.length) (hstrings : offDtStruct m fdt + s'.length ≤ offDtStrings m' fdt)
    (hstrsize : sizeDtStrings m' fdt = strs'.length) (htotal : offDtStrings m' fdt + strs'.length ≤ totalsize m fdt)
    (hbytes : read m' (fdt + offDtStruct m fdt) s'.length = s')
    (htext : read m' (fdt + offDtStrings m' fdt) strs'.length = strs') : Shows m' fdt s' strs' := by
  obtain ⟨hheader, hversion, hrsv, hstruct, hold, -, -, -, hlow, -, -⟩ := h
  have hsame : sizeDtStruct m' fdt ≠ 0 ∨ sizeDtStruct m' fdt = sizeDtStruct m fdt := by
    rw [hsize, hold]
    exact hs.imp (fun hne hzero => hne (eq_nil_of_length_eq_zero hzero)) (congrArg List.length)
  rw [← hf.version] at hversion
  rw [← hf.rsv] at hrsv hstruct
  rw [← hf.struct] at hstruct hstrings hbytes
  rw [← hf.total] at htotal hlow
  exact ⟨checkHeader_congr hf hheader hsame, hversion, hrsv, hstruct, hsize, hstrings, hstrsize, htotal, hlow, hbytes,
    htext⟩

theorem Shows.last (h : Shows m fdt s strs) :
    u32 (fdt + u32 (offDtStrings m fdt + strs.length)) = fdt + offDtStrings m fdt + strs.length := by
  have htotal := h.total
  have hlow := h.low
  rw [u32_of_lt (n := offDtStrings m fdt + strs.length) (by omega), u32_of_lt (by omega), Nat.add_assoc]

theorem splice_ok (h : Shows m fdt s strs) (hp : p + oldlen ≤ fdt + offDtStrings m fdt + strs.length)
    (hroom : offDtStrings m fdt + strs.length + newlen ≤ totalsize m fdt + oldlen) :
    splice m fdt p oldlen newlen =
      (0, memmove m (p + newlen) (p + oldlen) (fdt + offDtStrings m fdt + strs.length - (p + oldlen))) := by
  have htotal := h.total
  have hlow := h.low
  unfold splice dataSize
  rw [h.stringsSize]
  rw [h.last, u32_of_lt (show p + oldlen < _ by omega), if_neg (by omega), if_neg, u32_of_lt (by omega)]
  unfold u32
  omega

theorem splice_full (h : Shows m fdt s strs) (hp : p + oldlen ≤ fdt + offDtStrings m fdt + strs.length)
    (hlen : newlen < 2147483664) (hroom : totalsize m fdt + oldlen < offDtStrings m fdt + strs.length + newlen) :
    splice m fdt p oldlen newlen = (noSpace, m) := by
  have htotal := h.total
  have hlow := h.low
  unfold splice dataSize
  rw [h.stringsSize]
  rw [h.last, u32_of_lt (show p + oldlen < _ by omega), if_neg (by omega), if_pos]
  unfold u32
  omega

theorem resized_fields (m : Flash) (fdt : Nat) {size off : Nat} (hs : size < 4294967296) (ho : off < 4294967296)
    (hm : m' = setOffDtStrings (setSizeDtStruct m fdt size) fdt off) :
    SameFields m m' fdt ∧ sizeDtStruct m' fdt = size ∧ offDtStrings m' fdt = off ∧
      sizeDtStrings m' fdt = sizeDtStrings m fdt ∧ ∀ x n, fdt + 40 ≤ x → read m' x n = read m x n := by
  subst hm
  have hlen : ∀ v, (be32Bytes v).length = 4 := fun _ => rfl
  have hword : ∀ x, x + 4 ≤ fdt + 12 ∨ fdt + 16 ≤ x ∧ x + 4 ≤ fdt + 36 →
      be32 (setOffDtStrings (setSizeDtStruct m fdt size) fdt off) x = be32 m x := by
    intro x hx
    unfold setOffDtStrings setSizeDtStruct
    rw [be32_store_of_ne (by rw [hlen]; omega), be32_store_of_ne (by rw [hlen]; omega)]
  refine ⟨⟨hword _ (by omega), hword _ (by omega), hword _ (by omega), hword _ (by omega), hword _ (by omega),
    hword _ (by omega)⟩, ?_, ?_, hword _ (by omega), fun x n hx => ?_⟩
  · unfold sizeDtStruct setOffDtStrings setSizeDtStruct
    rw [be32_store_of_ne (by rw [hlen]; omega), be32_store, Nat.mod_eq_of_lt hs]
  · unfold offDtStrings setOffDtStrings
    rw [be32_store, Nat.mod_eq_of_lt ho]
  · unfold setOffDtStrings setSizeDtStruct
    rw [read_store_outside (by rw [hlen]; omega), read_store_outside (by rw [hlen]; omega)]

/-- The structure block is open for new bytes, between those before and those behind. -/
structure Spliced (m m' : Flash) (fdt newlen : Nat) (a b strs : List UInt8) : Prop where
  fields : SameFields m m' fdt
  size : sizeDtStruct m' fdt = a.length + newlen + b.length
  strings : offDtStruct m' fdt + (a.length + newlen + b.length) ≤ offDtStrings m' fdt
  stringsSize : sizeDtStrings m' fdt = strs.length
  total : offDtStrings m' fdt + strs.length ≤ totalsize m' fdt
  before : read m' (fdt + offDtStruct m' fdt) a.length = a
  behind : read m' (fdt + offDtStruct m' fdt + a.length + newlen) b.length = b
  text : read m' (fdt + offDtStrings m' fdt) strs.length = strs

theorem spliceStruct_ok (h : Shows m fdt (a ++ (old ++ b)) strs) (newlen : Nat)
    (hroom : offDtStrings m fdt + strs.length + newlen ≤ totalsize m fdt + old.length) :
    ∃ m', spliceStruct m fdt (fdt + offDtStruct m fdt + a.length) old.length newlen = (0, m') ∧
      Spliced m m' fdt newlen a b strs ∧
      offDtStrings m' fdt + old.length = offDtStrings m fdt + newlen := by
  have hrsv := h.rsv
  have hstruct := h.struct
  have hstrings := h.strings
  have htotal := h.total
  have hlow := h.low
  simp only [length_append] at hstrings
  have hsplice := splice_ok h
    (show fdt + offDtStruct m fdt + a.length + old.length ≤ _ by omega) hroom
  generalize hdst : fdt + offDtStruct m fdt + a.length + newlen = dst at hsplice
  generalize hsrc : fdt + offDtStruct m fdt + a.length + old.length = src at hsplice
  generalize hcount : fdt + offDtStrings m fdt + strs.length - src = count at hsplice
  obtain ⟨hfields, hoff, hstrsize, hsize⟩ := header_congr m (memmove m dst src count) fdt
    fun y _ hy => store_outside (by omega)
  have hsizeval : u32 (sizeDtStruct (memmove m dst src count) fdt + u32 (newlen + 4294967296 - old.length)) =
      a.length + newlen + b.length := by
    rw [hsize, h.size, length_append, length_append]
    unfold u32
    omega
  have hoffval : u32 (offDtStrings m fdt + u32 (newlen + 4294967296 - old.length)) =
      offDtStrings m fdt + newlen - old.length := by
    unfold u32
    omega
  obtain ⟨hsame, hsize', hoff', hstrsize', hread⟩ := resized_fields (memmove m dst src count) fdt
    (show a.length + newlen + b.length < 4294967296 by omega)
    (show offDtStrings m fdt + newlen - old.length < 4294967296 by omega) rfl
  have hsetoff : offDtStrings (setSizeDtStruct (memmove m dst src count) fdt (a.length + newlen + b.length)) fdt =
      offDtStrings m fdt := by
    have hlen : ∀ v, (be32Bytes v).length = 4 := fun _ => rfl
    rw [← hoff]
    exact be32_store_of_ne (by rw [hlen]; omega)
  generalize hm' : setOffDtStrings (setSizeDtStruct (memmove m dst src count) fdt (a.length + newlen + b.length)) fdt
    (offDtStrings m fdt + newlen - old.length) = m' at hsame hsize' hoff' hstrsize' hread
  have hstruct' : offDtStruct m' fdt = offDtStruct m fdt := (hfields.trans hsame).struct
  have hparts := (read_eq_append (m := m) (a := fdt + offDtStruct m fdt)).mp h.bytes
  have hbehind := ((read_eq_append (m := m)).mp hparts.2).2
  refine ⟨m', ?_, ⟨hfields.trans hsame, hsize', ?_, ?_, ?_, ?_, ?_, ?_⟩, ?_⟩
  · unfold spliceStruct
    rw [hsplice]
    dsimp only
    rw [if_neg (by simp), hsizeval, hsetoff, hoffval, hm']
  · rw [hstruct', hoff']
    omega
  · rw [hstrsize', hstrsize, h.stringsSize]
  · rw [hoff', (hfields.trans hsame).total]
    omega
  · rw [hstruct', hread _ _ (by omega), read_memmove_of_ne (by omega)]
    exact hparts.1
  · have hmoved := read_memmove (m := m) (x := 0) (n := b.length) (v := count) (by omega) dst src
    rw [hstruct', hread _ _ (by omega), hdst]
    rw [Nat.add_zero, Nat.add_zero, ← hsrc] at hmoved
    rw [hsrc] at hmoved hbehind
    exact hmoved.trans hbehind
  · rw [hoff', hread _ _ (by omega), show fdt + (offDtStrings m fdt + newlen - old.length) =
      dst + (fdt + offDtStrings m fdt - src) by omega, read_memmove (by omega),
      show src + (fdt + offDtStrings m fdt - src) = fdt + offDtStrings m fdt by omega]
    exact h.text
  · rw [hoff']
    omega

theorem spliceStruct_full (h : Shows m fdt (a ++ (old ++ b)) strs) (hlen : newlen < 2147483664)
    (hroom : totalsize m fdt + old.length < offDtStrings m fdt + strs.length + newlen) :
    spliceStruct m fdt (fdt + offDtStruct m fdt + a.length) old.length newlen = (noSpace, m) := by
  have hstrings := h.strings
  simp only [length_append] at hstrings
  unfold spliceStruct
  rw [splice_full h (by omega) hlen hroom]
  rfl

theorem Spliced.shows {a₀ hdr : List UInt8} (h : Spliced m m' fdt newlen (a₀ ++ hdr) b strs)
    (hm : Shows m fdt s strs) (ha : a₀ ≠ []) (m'' : Flash)
    (hsame : ∀ x, x < fdt + offDtStruct m fdt + a₀.length ∨
      fdt + offDtStruct m fdt + a₀.length + hdr.length + newlen ≤ x → m'' x = m' x) :
    Shows m'' fdt (a₀ ++ (read m'' (fdt + offDtStruct m fdt + a₀.length) (hdr.length + newlen) ++ b)) strs := by
  have hrsv := hm.rsv
  have hstruct := hm.struct
  have htotal := h.total
  have hstrings := h.strings
  have hbefore := h.before
  have hbehind := h.behind
  have hsize := h.size
  have hsame₀ : offDtStruct m' fdt = offDtStruct m fdt := h.fields.struct
  rw [hsame₀] at hstrings hbefore hbehind
  rw [h.fields.total] at htotal
  rw [length_append] at hstrings hbehind hsize
  obtain ⟨hfields, hoff, hstrsize, hsize'⟩ := header_congr m' m'' fdt
    fun y _ hy => hsame y (by omega)
  have hall := h.fields.trans hfields
  have hlength : (a₀ ++ (read m'' (fdt + offDtStruct m fdt + a₀.length) (hdr.length + newlen) ++ b)).length =
      a₀.length + hdr.length + newlen + b.length := by
    simp only [length_append, read_length]
    omega
  have hread₀ : read m'' (fdt + offDtStruct m fdt) a₀.length = a₀ := by
    have heq : read m'' (fdt + offDtStruct m fdt) a₀.length = read m' (fdt + offDtStruct m fdt) a₀.length :=
      read_congr fun i hi => hsame _ (by omega)
    exact heq.trans (read_eq_append.mp hbefore).1
  have hread₁ : read m'' (fdt + offDtStruct m fdt + a₀.length + (hdr.length + newlen)) b.length = b := by
    have heq : read m'' (fdt + offDtStruct m fdt + a₀.length + (hdr.length + newlen)) b.length =
        read m' (fdt + offDtStruct m fdt + (a₀.length + hdr.length) + newlen) b.length :=
      read_congr fun i hi => (hsame _ (by omega)).trans (congrArg m' (by omega))
    exact heq.trans hbehind
  have hne : a₀ ++ (read m'' (fdt + offDtStruct m fdt + a₀.length) (hdr.length + newlen) ++ b) ≠ [] :=
    fun hnil => ha (append_eq_nil_iff.mp hnil).1
  refine hm.edit hall (.inl hne) (by rw [hsize', hsize, hlength]) (by rw [hoff, hlength]; omega)
    (by rw [hstrsize, h.stringsSize]) (by rw [hoff]; exact htotal) ?_ ?_
  · refine read_eq_append.mpr ⟨hread₀, read_eq_append.mpr ⟨?_, ?_⟩⟩
    · rw [read_length]
    · rw [read_length]
      exact hread₁
  · have heq : read m'' (fdt + offDtStrings m' fdt) strs.length = read m' (fdt + offDtStrings m' fdt) strs.length :=
      read_congr fun i hi => hsame _ (by omega)
    rw [hoff]
    exact heq.trans h.text

section Strings

variable {name : List UInt8} {i : Nat}

/-- A string with its zero byte lies in the strings. -/
def StrAt (strs : List UInt8) (i : Nat) (name : List UInt8) : Prop := name ++ [0] <+: strs.drop i

theorem strAt_behind (strs name : List UInt8) : StrAt (strs ++ (name ++ [0])) strs.length name := by
  have hdrop : (strs ++ (name ++ [0])).drop strs.length = name ++ [0] := drop_left
  exact ⟨[], (append_nil _).trans hdrop.symm⟩

theorem findString_some (h : Shows m fdt s strs)
    (hi : findString m (fdt + offDtStrings m fdt) strs.length name = some i) : StrAt strs i name ∧ i < strs.length := by
  unfold findString at hi
  have hread := List.find?_some hi
  have hmem := mem_range.mp (mem_of_find?_eq_some hi)
  refine ⟨?_, by omega⟩
  have hpiece : ((read m (fdt + offDtStrings m fdt) strs.length).drop i).take (name.length + 1) = name ++ [0] := by
    rw [take_drop_read m (by omega)]
    exact eq_of_beq hread
  rw [h.text] at hpiece
  unfold StrAt
  rw [← hpiece]
  exact take_prefix _ _

theorem findString_none (h : Shows m fdt s strs)
    (hi : findString m (fdt + offDtStrings m fdt) strs.length name = none) : ¬name ++ [0] <:+: strs := by
  rintro ⟨front, rest, rfl⟩
  have hlen : (front ++ (name ++ [0]) ++ rest).length = front.length + (name.length + 1) + rest.length := by
    simp only [length_append, length_cons, length_nil]
  unfold findString at hi
  rw [List.find?_eq_none] at hi
  refine hi front.length (mem_range.mpr (by omega)) ?_
  have hread := h.text
  rw [append_assoc] at hread
  have hpart := (read_eq_append.mp (read_eq_append.mp hread).2).1
  rw [length_append, length_singleton] at hpart
  rw [hpart]
  exact beq_self_eq_true _

def nameNeed (strs name : List UInt8) : Nat := if name ++ [0] <:+: strs then 0 else name.length + 1

theorem spliceString_ok (h : Shows m fdt s strs)
    (hroom : offDtStrings m fdt + strs.length + newlen ≤ totalsize m fdt) :
    spliceString m fdt newlen = (0, setSizeDtStrings m fdt (strs.length + newlen)) := by
  have hlow := h.low
  have hnew : u32 (fdt + offDtStrings m fdt + strs.length) = fdt + offDtStrings m fdt + strs.length :=
    u32_of_lt (by omega)
  have hsplice := splice_ok h (show fdt + offDtStrings m fdt + strs.length + 0 ≤ _ from le_rfl) hroom
  have hmove : ∀ dst src, memmove m dst src 0 = m := by
    intro dst src
    funext x
    exact store_outside (by rw [read_length]; omega)
  rw [Nat.add_zero, Nat.sub_self, hmove] at hsplice
  unfold spliceString
  rw [h.stringsSize, hnew, hsplice]
  rw [if_neg (by simp), h.stringsSize, u32_of_lt (by omega)]

theorem Shows.added (h : Shows m fdt s strs)
    (hroom : offDtStrings m fdt + strs.length + bs.length ≤ totalsize m fdt)
    (hm : m' = store (setSizeDtStrings m fdt (strs.length + bs.length)) (fdt + offDtStrings m fdt + strs.length) bs) :
    Shows m' fdt s (strs ++ bs) ∧ SameFields m m' fdt ∧ offDtStrings m' fdt = offDtStrings m fdt := by
  have hrsv := h.rsv
  have hstruct := h.struct
  have hstrings := h.strings
  have hlow := h.low
  have hlen : ∀ v, (be32Bytes v).length = 4 := fun _ => rfl
  have hword : ∀ x, x + 4 ≤ fdt + 32 ∨ fdt + 36 ≤ x ∧ x + 4 ≤ fdt + 40 → be32 m' x = be32 m x := by
    intro x hx
    rw [hm, be32_store_of_ne (by left; omega), setSizeDtStrings, be32_store_of_ne (by rw [hlen]; omega)]
  have hread : ∀ x n, fdt + 40 ≤ x → x + n ≤ fdt + offDtStrings m fdt + strs.length → read m' x n = read m x n := by
    intro x n hx hxn
    rw [hm, read_store_outside (by left; omega), setSizeDtStrings, read_store_outside (by rw [hlen]; omega)]
  have hfields : SameFields m m' fdt :=
    ⟨hword _ (by omega), hword _ (by omega), hword _ (by omega), hword _ (by omega), hword _ (by omega),
      hword _ (by omega)⟩
  have hoff : offDtStrings m' fdt = offDtStrings m fdt := hword _ (by omega)
  have hsize : sizeDtStruct m' fdt = sizeDtStruct m fdt := hword _ (by omega)
  have hstrsize : sizeDtStrings m' fdt = strs.length + bs.length := by
    rw [hm, sizeDtStrings, be32_store_of_ne (by left; omega), setSizeDtStrings, be32_store,
      Nat.mod_eq_of_lt (by omega)]
  have hlength : (strs ++ bs).length = strs.length + bs.length := length_append
  have hbytes : read m' (fdt + offDtStruct m fdt) s.length = s := (hread _ _ (by omega) (by omega)).trans h.bytes
  refine ⟨h.edit hfields (.inr rfl) (by rw [hsize, h.size]) (by rw [hoff]; exact hstrings)
    (by rw [hstrsize, hlength]) (by rw [hoff, hlength]; omega) hbytes ?_, hfields, hoff⟩
  rw [hoff]
  refine read_eq_append.mpr ⟨(hread _ _ (by omega) (by omega)).trans h.text, ?_⟩
  rw [hm]
  exact read_store _ _ _

theorem findAddString_cases (h : Shows m fdt s strs) (hname : name.length < 2147483648) :
    (∃ i, findAddString m fdt name = (i, m) ∧ StrAt strs i name ∧ i < strs.length) ∨
      (nameNeed strs name = name.length + 1 ∧
        ∃ m', findAddString m fdt name = (strs.length, m') ∧ Shows m' fdt s (strs ++ (name ++ [0])) ∧
          SameFields m m' fdt ∧ offDtStrings m' fdt = offDtStrings m fdt) ∨
      totalsize m fdt < offDtStrings m fdt + strs.length + nameNeed strs name ∧
        findAddString m fdt name = (noSpace, m) := by
  have htotal := h.total
  have hlow := h.low
  have htab : u32 (fdt + offDtStrings m fdt) = fdt + offDtStrings m fdt := u32_of_lt (by omega)
  have hnew : u32 (fdt + offDtStrings m fdt + strs.length) = fdt + offDtStrings m fdt + strs.length :=
    u32_of_lt (by omega)
  unfold findAddString
  rw [h.stringsSize, htab, hnew]
  cases hfind : findString m (fdt + offDtStrings m fdt) strs.length name with
  | some i =>
    obtain ⟨hat, hlt⟩ := findString_some h hfind
    exact .inl ⟨i, rfl, hat, hlt⟩
  | none =>
    have hneed : nameNeed strs name = name.length + 1 := if_neg (findString_none h hfind)
    rw [hneed]
    refine .inr ?_
    by_cases hroom : offDtStrings m fdt + strs.length + (name.length + 1) ≤ totalsize m fdt
    · have hbytes : (name ++ [(0 : UInt8)]).length = name.length + 1 := by simp
      rw [← hbytes] at hroom ⊢
      obtain ⟨hshows, hfields, hoff⟩ := h.added hroom rfl
      rw [spliceString_ok h hroom, if_neg (by simp)]
      exact .inl ⟨rfl, _, rfl, hshows, hfields, hoff⟩
    · refine .inr ⟨by omega, ?_⟩
      have hsplice := splice_full h (show fdt + offDtStrings m fdt + strs.length + 0 ≤ _ from le_rfl)
        (show name.length + 1 < 2147483664 by omega) (by omega)
      unfold spliceString
      rw [h.stringsSize, hnew, hsplice]
      rfl

end Strings

section Property

variable {q : Piece} {val name : List UInt8} {nameoff : Nat}

/-- A property with this value. -/
structure IsProp (q : Piece) (val : List UInt8) (nameoff : Nat) : Prop where
  tag : q.tag = propTag
  length : q.bytes.length = 12 + tagAlign val.length
  len : word (q.bytes.drop 4) = val.length
  nameoff : word (q.bytes.drop 8) = nameoff
  value : (q.bytes.drop 12).take val.length = val

theorem length_le_tagAlign (h : n < 2147483648) : n ≤ tagAlign n ∧ tagAlign n ≤ 2147483648 := by
  unfold tagAlign u32
  omega

theorem property_length (h : tok s = .tag propTag n) (hs : s.length < 2147483648) :
    tagAlign (word (s.drop 4)) = if 12 ≤ n then n - 12 else 4294967296 + n - 12 := by
  obtain ⟨-, hword, j, hj, hjs, rfl⟩ := tok_tag h
  unfold tokLength at hj
  rw [if_neg (fun hb => prop_ne_begin (hword.trans hb)), if_pos hword.symm] at hj
  split_ifs at hj with h₈
  have hj := Option.some.inj hj
  unfold tagAlign u32 at *
  split <;> omega

theorem property_exists (hw : word bs = propTag) (hl : word (bs.drop 4) = val.length)
    (hlen : bs.length = 12 + tagAlign val.length) (hval : val.length < 2147483648)
    (hv : (bs.drop 12).take val.length = val) : ∃ q : Piece, q.bytes = bs ∧ IsProp q val (word (bs.drop 8)) := by
  have haligned := tagAlign_aligned val.length
  have hle := length_le_tagAlign hval
  refine ⟨⟨propTag, bs, by omega, prop_ne_end, fun rest => ?_⟩, rfl, rfl, hlen, hl, rfl, hv⟩
  have hlength : (bs ++ rest).length = 12 + tagAlign val.length + rest.length := by
    rw [length_append, hlen]
  have hdrop : word ((bs ++ rest).drop 4) = val.length := by
    rw [drop_append_of_le_length (by omega), word_append (by rw [length_drop]; omega), hl]
  have hbytes : tokLength (bs ++ rest) = some (12 + val.length) := by
    unfold tokLength
    rw [word_append (by omega), hw, if_neg prop_ne_begin, if_pos rfl, if_neg (by omega), hdrop]
    congr 1
    unfold u32
    omega
  unfold tok
  rw [if_neg (by omega), hbytes]
  dsimp only
  rw [if_neg (by omega), word_append (by omega), hw, hlen]
  congr 1
  unfold tagAlign u32
  omega

theorem Shows.word_at (h : Shows m fdt (a ++ b) strs) {k : Nat} (hk : k + 4 ≤ b.length) :
    be32 m (fdt + offDtStruct m fdt + a.length + k) = word (b.drop k) := by
  have hword := h.block.word (k := a.length + k) (by rw [length_append]; omega)
  rw [← Nat.add_assoc, drop_length_add_append] at hword
  exact hword.symm

theorem Shows.pointer (h : Shows m fdt (a ++ b) strs) {k : Nat} (hk : k ≤ b.length) :
    u32 (fdt + offDtStruct m fdt + a.length + k) = fdt + offDtStruct m fdt + a.length + k := by
  have hlow := h.block.low
  rw [length_append] at hlow
  unfold u32
  omega

theorem Shows.property {p : Piece} (h : Shows m fdt (a ++ (p.bytes ++ b)) strs) (hp : p.tag = propTag)
    (h₁₂ : 12 ≤ p.bytes.length) :
    tok p.bytes = .tag propTag p.bytes.length ∧
      tagAlign (be32 m (fdt + offDtStruct m fdt + a.length + 4)) = p.bytes.length - 12 ∧
      Shows m fdt ((a ++ p.bytes.take 12) ++ (p.bytes.drop 12 ++ b)) strs ∧ (p.bytes.take 12).length = 12 := by
  have htok : tok p.bytes = .tag propTag p.bytes.length := by
    have hclosed := p.closed []
    rwa [append_nil, hp] at hclosed
  have hlow := h.block.low
  simp only [length_append] at hlow
  refine ⟨htok, ?_, ?_, length_take_of_le h₁₂⟩
  · rw [h.word_at (by rw [length_append]; omega), drop_append_of_le_length (by omega),
      word_append (by rw [length_drop]; omega), property_length htok (by omega), if_pos h₁₂]
  · rwa [append_assoc, ← append_assoc (p.bytes.take 12), take_append_drop]

theorem resizeFound_ok {p : Piece} (h : Shows m fdt (a ++ (p.bytes ++ b)) strs) (ha : a ≠ []) (hp : p.tag = propTag)
    (h₁₂ : 12 ≤ p.bytes.length) (hval : val.length < 2147483648)
    (hroom : offDtStrings m fdt + strs.length + (12 + tagAlign val.length) ≤ totalsize m fdt + p.bytes.length) :
    ∃ m₁ q, (resizeFound m fdt val.length (.ok (fdt + offDtStruct m fdt + a.length))).1 = 0 ∧
      setValue val (resizeFound m fdt val.length (.ok (fdt + offDtStruct m fdt + a.length))) = (0, m₁) ∧
      Shows m₁ fdt (a ++ (q.bytes ++ b)) strs ∧ IsProp q val (word (p.bytes.drop 8)) ∧ SameFields m m₁ fdt ∧
      offDtStrings m₁ fdt + p.bytes.length = offDtStrings m fdt + q.bytes.length := by
  have hrsv := h.rsv
  have hstruct := h.struct
  have hle := length_le_tagAlign hval
  obtain ⟨htok, hold, hsplit, hhdr⟩ := h.property hp h₁₂
  have hdata : (p.bytes.drop 12).length = p.bytes.length - 12 := length_drop
  obtain ⟨m', hsplice, hspliced, hoff⟩ := spliceStruct_ok hsplit (tagAlign val.length) (by rw [hdata]; omega)
  rw [hdata, length_append, hhdr, ← Nat.add_assoc] at hsplice
  have hptr := h.pointer (k := 12) (by rw [length_append]; omega)
  generalize hprop : fdt + offDtStruct m fdt + a.length = prop at hold hsplice hptr
  have hresize : resizeFound m fdt val.length (.ok prop) = (0, prop, store m' (prop + 4) (be32Bytes val.length)) := by
    unfold resizeFound
    dsimp only
    rw [hptr, hold, hsplice]
    rfl
  -- the words of the property, two of which are still the old ones
  have hfour : ∀ v, (be32Bytes v).length = 4 := fun _ => rfl
  have hwords : read m' prop 12 = p.bytes.take 12 := by
    have hbefore := hspliced.before
    rw [hspliced.fields.struct] at hbefore
    have hpart := (read_eq_append.mp hbefore).2
    rwa [hprop, hhdr] at hpart
  generalize hm₁ : store (store m' (prop + 4) (be32Bytes val.length)) (prop + 12) val = m₁
  have hsame : ∀ x, x < prop + 4 ∨ prop + 8 ≤ x ∧ x < prop + 12 ∨ prop + 12 + val.length ≤ x → m₁ x = m' x := by
    intro x hx
    rw [← hm₁, store_outside (by omega), store_outside (by rw [hfour]; omega)]
  have hshows := hspliced.shows h ha m₁ fun x hx => hsame x (by omega)
  rw [hprop, hhdr] at hshows
  have htag : word (read m₁ prop (12 + tagAlign val.length)) = propTag := by
    obtain ⟨-, hword, -⟩ := tok_tag htok
    rw [word_read (by omega), be32_congr (m := m') (b := prop) fun i hi => hsame _ (by omega),
      ← word_read (m := m') (k := prop) (n := 12) (by omega), hwords, hword,
      ← word_take_append (k := 12) (by omega) h₁₂ [], append_nil]
  have hlen : word ((read m₁ prop (12 + tagAlign val.length)).drop 4) = val.length := by
    rw [drop_read m₁ (by omega), word_read (by omega), ← hm₁, be32_store_of_ne (by omega), be32_store,
      Nat.mod_eq_of_lt (by omega)]
  have hname : word ((read m₁ prop (12 + tagAlign val.length)).drop 8) = word (p.bytes.drop 8) := by
    have hold₈ : word ((read m' prop 12).drop 8) = word (p.bytes.drop 8) := by
      rw [hwords, drop_take, ← append_nil (List.take _ _), word_take_append (by omega)
        (by rw [length_drop]; omega)]
    rw [drop_read m₁ (by omega), word_read (by omega), be32_congr (m := m') (b := prop + 8)
      fun i hi => hsame _ (by omega), ← hold₈, drop_read m' (by omega), word_read (by omega)]
  have hvalue : ((read m₁ prop (12 + tagAlign val.length)).drop 12).take val.length = val := by
    rw [take_drop_read m₁ (by omega), ← hm₁]
    exact read_store _ _ _
  obtain ⟨q, hq, hisProp⟩ := property_exists htag hlen (read_length _ _ _) hval hvalue
  rw [← hq] at hshows hisProp
  have hoff₁ : offDtStrings m₁ fdt = offDtStrings m' fdt :=
    (header_congr m' m₁ fdt fun y _ hy => hsame y (by omega)).2.1
  have hfields := hspliced.fields.trans (header_congr m' m₁ fdt fun y _ hy => hsame y (by omega)).1
  refine ⟨m₁, q, by rw [hresize], ?_, hshows, ⟨hisProp.tag, hisProp.length, hisProp.len, ?_, hisProp.value⟩, hfields,
    ?_⟩
  · rw [hresize, ← hm₁]
    rfl
  · rw [hq, hname]
  · rw [hoff₁, hisProp.length]
    omega

theorem resizeFound_full {p : Piece} (h : Shows m fdt (a ++ (p.bytes ++ b)) strs) (hp : p.tag = propTag)
    (h₁₂ : 12 ≤ p.bytes.length) (hval : val.length < 2147483648)
    (hroom : totalsize m fdt + p.bytes.length < offDtStrings m fdt + strs.length + (12 + tagAlign val.length)) :
    resizeFound m fdt val.length (.ok (fdt + offDtStruct m fdt + a.length)) =
      (noSpace, fdt + offDtStruct m fdt + a.length, m) := by
  have hle := length_le_tagAlign hval
  obtain ⟨htok, hold, hsplit, hhdr⟩ := h.property hp h₁₂
  have hdata : (p.bytes.drop 12).length = p.bytes.length - 12 := length_drop
  have hfull := spliceStruct_full hsplit (show tagAlign val.length < 2147483664 by omega)
    (by rw [hdata]; omega)
  rw [hdata, length_append, hhdr, ← Nat.add_assoc] at hfull
  unfold resizeFound
  dsimp only
  rw [h.pointer (by rw [length_append]; omega), hold, hfull]
  rfl

theorem resizeFound_short (h : Shows m fdt (a ++ b) strs) (htok : tok b = .tag propTag n) (hn : n < 12) (len : Nat) :
    resizeFound m fdt len (.ok (fdt + offDtStruct m fdt + a.length)) =
      (badOffset, fdt + offDtStruct m fdt + a.length, m) := by
  have hlow := h.block.low
  rw [length_append] at hlow
  have h₈ : 8 ≤ b.length := by
    obtain ⟨-, hword, j, hj, -⟩ := tok_tag htok
    rcases tokLength_word hj with ⟨hb, -⟩ | ⟨-, h₈⟩ | rfl
    · exact absurd (hword.trans hb) prop_ne_begin
    · exact h₈
    · unfold tokLength at hj
      rw [if_neg (fun hb => prop_ne_begin (hword.trans hb)), if_pos hword.symm] at hj
      split_ifs at hj with h₈
      omega
  have hold : tagAlign (be32 m (fdt + offDtStruct m fdt + a.length + 4)) = 4294967296 + n - 12 := by
    rw [h.word_at (by omega), property_length htok (by omega), if_neg (by omega)]
  have hptr : u32 (fdt + offDtStruct m fdt + a.length + 12) = fdt + offDtStruct m fdt + a.length + 12 :=
    u32_of_lt (by omega)
  have hback : u32 (fdt + offDtStruct m fdt + a.length + 12 + (4294967296 + n - 12)) <
      fdt + offDtStruct m fdt + a.length + 12 := by
    unfold u32
    omega
  unfold resizeFound spliceStruct splice
  dsimp only
  rw [hptr, hold, if_pos (Or.inl hback)]
  rfl

theorem word_be32Bytes (hv : v < 4294967296) (rest : List UInt8) : word (be32Bytes v ++ rest) = v := by
  have hread : read (fun i => (be32Bytes v).getD i 0) 0 4 = be32Bytes v := rfl
  rw [word_append (le_refl 4)]
  exact (be32_of_read hread).trans (Nat.mod_eq_of_lt hv)

theorem newProperty {i : Nat} (h : Shows m fdt (a ++ b) strs) (ha : a ≠ []) (hi : i < 4294967296)
    (hval : val.length < 2147483648)
    (hroom : offDtStrings m fdt + strs.length + (12 + tagAlign val.length) ≤ totalsize m fdt)
    (hm : m' = (spliceStruct m fdt (fdt + offDtStruct m fdt + a.length) 0 (12 + tagAlign val.length)).2)
    (hm₁ : m'' = store (store m' (fdt + offDtStruct m fdt + a.length)
      (be32Bytes propTag ++ be32Bytes val.length ++ be32Bytes i)) (fdt + offDtStruct m fdt + a.length + 12) val) :
    (spliceStruct m fdt (fdt + offDtStruct m fdt + a.length) 0 (12 + tagAlign val.length)).1 = 0 ∧
      SameFields m m'' fdt ∧ ∃ q, Shows m'' fdt (a ++ (q.bytes ++ b)) strs ∧ IsProp q val i ∧
        offDtStrings m'' fdt = offDtStrings m fdt + q.bytes.length := by
  have hrsv := h.rsv
  have hstruct := h.struct
  have hle := length_le_tagAlign hval
  have hopen : Shows m fdt (a ++ ([] ++ b)) strs := h
  obtain ⟨m₂, hsplice, hspliced, hoff⟩ := spliceStruct_ok hopen (12 + tagAlign val.length) hroom
  change spliceStruct m fdt (fdt + offDtStruct m fdt + a.length) 0 _ = _ at hsplice
  rw [hsplice] at hm ⊢
  change m' = m₂ at hm
  rw [← hm] at hspliced hoff
  generalize hprop : fdt + offDtStruct m fdt + a.length = prop at hm₁
  -- the words of the property
  have hwords : read m'' prop 12 = be32Bytes propTag ++ be32Bytes val.length ++ be32Bytes i := by
    rw [hm₁, read_store_outside (by omega)]
    exact read_store _ _ _
  have hsame : ∀ x, x < prop ∨ prop + 12 + val.length ≤ x → m'' x = m' x := by
    intro x hx
    rw [hm₁, store_outside (by omega), store_outside]
    simp only [length_append, show ∀ v, (be32Bytes v).length = 4 from fun _ => rfl]
    omega
  have hspliced' : Spliced m m' fdt (12 + tagAlign val.length) (a ++ []) b strs := by
    rwa [append_nil]
  have hshows := hspliced'.shows h ha m'' fun x hx => hsame x (by simp only [length_nil] at hx; omega)
  rw [length_nil, Nat.zero_add, hprop] at hshows
  have hword : ∀ k, k + 4 ≤ 12 → word ((read m'' prop (12 + tagAlign val.length)).drop k) =
      word ((be32Bytes propTag ++ be32Bytes val.length ++ be32Bytes i).drop k) := by
    intro k hk
    rw [← hwords, drop_read m'' (by omega), drop_read m'' (by omega), word_read (by omega), word_read (by omega)]
  have hlen : val.length < 4294967296 := by omega
  have hvalue : ((read m'' prop (12 + tagAlign val.length)).drop 12).take val.length = val := by
    rw [take_drop_read m'' (by omega), hm₁]
    exact read_store _ _ _
  have htag : word (read m'' prop (12 + tagAlign val.length)) = propTag :=
    (hword 0 (by omega)).trans (word_be32Bytes (by decide) _)
  obtain ⟨q, hq, hisProp⟩ := property_exists htag
    ((hword 4 (by omega)).trans (word_be32Bytes hlen _)) (read_length _ _ _) hval hvalue
  rw [hword 8 (by omega)] at hisProp
  rw [← hq] at hshows
  have hheader := header_congr m' m'' fdt fun y _ hy => hsame y (by omega)
  refine ⟨rfl, hspliced.fields.trans hheader.1, q, hshows, ?_, ?_⟩
  · have hname : word ((be32Bytes propTag ++ be32Bytes val.length ++ be32Bytes i).drop 8) = i := by
      have hlast := word_be32Bytes hi []
      rwa [append_nil] at hlast
    rwa [hname] at hisProp
  · rw [hheader.2.1, hisProp.length]
    simp only [length_nil] at hoff
    omega

theorem noSpace_ne : noSpace ≠ 0 := by decide

/-- The new property has come behind the name of the node, or there is no room for it. -/
def Adds (m m₁ : Flash) (fdt : Nat) (a b strs strs' name val : List UInt8) : Prop :=
  (∃ q i, Shows m₁ fdt (a ++ (q.bytes ++ b)) strs' ∧ IsProp q val i ∧ StrAt strs' i name ∧ i < strs'.length ∧
      offDtStrings m₁ fdt = offDtStrings m fdt + q.bytes.length) ∨
    Shows m₁ fdt (a ++ b) strs' ∧ offDtStrings m₁ fdt = offDtStrings m fdt ∧
      totalsize m fdt < offDtStrings m fdt + strs.length + nameNeed strs name + (12 + tagAlign val.length)

theorem addProperty_named {off i : Nat} {m₂ : Flash} {strs' : List UInt8} (hlow : a.length < 2147483648)
    (hcheck : checkNodeOffset m fdt off = a.length) (hval : val.length < 2147483648)
    (ha : a ≠ []) (h₂ : Shows m₂ fdt (a ++ b) strs') (hfields : SameFields m m₂ fdt)
    (hoff : offDtStrings m₂ fdt = offDtStrings m fdt) (hfind : findAddString m fdt name = (i, m₂))
    (hat : StrAt strs' i name) (hi : i < strs'.length) (hlen : strs'.length ≤ strs.length + nameNeed strs name) :
    ∃ e m₁, setValue val (addProperty m fdt off name val.length) = (e, m₁) ∧ SameFields m m₁ fdt ∧
      Adds m m₁ fdt a b strs strs' name val := by
  have htotal₂ := h₂.total
  have htop₂ := h₂.low
  have hle := length_le_tagAlign hval
  generalize hr : spliceStruct m₂ fdt (fdt + offDtStruct m₂ fdt + a.length) 0 (12 + tagAlign val.length) = r
  have hadd : addProperty m fdt off name val.length =
      if r.1 ≠ 0 then (r.1, fdt + offDtStruct m₂ fdt + a.length, r.2)
      else (0, fdt + offDtStruct m₂ fdt + a.length, store r.2 (fdt + offDtStruct m₂ fdt + a.length)
        (be32Bytes propTag ++ be32Bytes val.length ++ be32Bytes i)) := by
    unfold addProperty
    dsimp only
    rw [hcheck, neg_of_lt hlow, hfind]
    rw [neg_of_lt (show i < 2147483648 by omega), h₂.block.offsetPtr (by rw [length_append]; omega),
      u32_of_lt (by omega), hr]
    rfl
  rw [hadd]
  by_cases hroom : offDtStrings m₂ fdt + strs'.length + (12 + tagAlign val.length) ≤ totalsize m₂ fdt
  · obtain ⟨hzero, hfields₁, q, hshows, hprop, hoff₁⟩ :=
      newProperty h₂ ha (show i < 4294967296 by omega) hval hroom rfl rfl
    rw [hr] at hzero hfields₁ hshows hoff₁
    rw [if_neg (by rw [hzero]; simp)]
    exact ⟨_, _, rfl, hfields.trans hfields₁, .inl ⟨q, i, hshows, hprop, hat, hi, by rw [hoff₁, hoff]⟩⟩
  · have hopen : Shows m₂ fdt (a ++ ([] ++ b)) strs' := h₂
    have hfull := spliceStruct_full hopen (show 12 + tagAlign val.length < 2147483664 by omega)
      (by simp only [length_nil]; omega)
    change spliceStruct m₂ fdt (fdt + offDtStruct m₂ fdt + a.length) 0 _ = _ at hfull
    rw [← hr, hfull, if_pos noSpace_ne]
    refine ⟨_, _, rfl, hfields, .inr ⟨h₂, hoff, ?_⟩⟩
    rw [hoff, hfields.total] at hroom
    omega

theorem addProperty_cases {off : Nat} (h : Shows m fdt (a ++ b) strs) (ha : a ≠ [])
    (hcheck : checkNodeOffset m fdt off = a.length) (hname : name.length < 2147483648)
    (hval : val.length < 2147483648) :
    ∃ e m₁ strs', setValue val (addProperty m fdt off name val.length) = (e, m₁) ∧ SameFields m m₁ fdt ∧
      (strs' = strs ∨ strs' = strs ++ (name ++ [0])) ∧ strs'.length ≤ strs.length + nameNeed strs name ∧
      Adds m m₁ fdt a b strs strs' name val := by
  have hlow := h.block.low
  rw [length_append] at hlow
  rcases findAddString_cases h hname with ⟨i, hfind, hat, hi⟩ | ⟨hneed, m₂, hfind, h₂, hfields, hoff⟩ | ⟨hroom, hfind⟩
  · obtain ⟨e, m₁, hset, hfields, hcase⟩ := addProperty_named (by omega) hcheck hval ha h ⟨rfl, rfl, rfl, rfl, rfl, rfl⟩
      rfl hfind hat hi (Nat.le_add_right _ _)
    exact ⟨e, m₁, strs, hset, hfields, .inl rfl, by omega, hcase⟩
  · obtain ⟨e, m₁, hset, hfields, hcase⟩ := addProperty_named (by omega) hcheck hval ha h₂ hfields hoff
      hfind (strAt_behind strs name) (by simp) (show _ ≤ strs.length + nameNeed strs name by rw [hneed]; simp)
    exact ⟨e, m₁, _, hset, hfields, .inr rfl, by rw [hneed]; simp, hcase⟩
  · refine ⟨noSpace, m, strs, ?_, ⟨rfl, rfl, rfl, rfl, rfl, rfl⟩, .inl rfl, by omega, .inr ⟨h, rfl, by omega⟩⟩
    unfold addProperty
    dsimp only
    rw [hcheck, neg_of_lt (by omega), hfind]
    rfl

end Property

end UBoot.Fdt
