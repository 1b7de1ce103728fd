import UBoot.Cells
import UBoot.MtdCommands

namespace UBoot.Mtd

open Cells List

/-- The pieces are copied to `p` as long as `maxlen` allows: whether all are, where `p` is then, and the buffer.
A store outside the buffer has no result. -/
def emitTo (maxlen : Nat) : List Str → Nat → List UInt8 → Option (Bool × Nat × List UInt8)
  | [], p, buf => some (true, p, buf)
  | piece :: pieces, p, buf =>
    if piece.length ≤ maxlen then do
      let buf ← storeAll buf p piece
      emitTo (maxlen - piece.length) pieces (p + piece.length) buf
    else some (false, p, buf)

/-- What `generate_mtdparts` returns, with the buffer and `last_parts`. -/
structure Generated where
  ret : Int
  buf : List UInt8
  lastParts : Str

/-- `generate_mtdparts` with its buffer. `sprintf` writes the nine characters and a NUL. -/
def generateMtdpartsTo (devices : List Dev) (lastParts : Str) (buf : List UInt8) (buflen : Nat) : Option Generated := do
  if devices = [] then some ⟨0, ← store buf 0 0, lastParts⟩
  else
    let buf ← storeAll buf 0 (mtdpartsPrefix ++ [0])
    let (ok, p, buf) ← emitTo (buflen - 1) (tablePieces devices) 9 buf
    if ok then some ⟨0, ← store buf p 0, lastParts⟩ else some ⟨1, buf, []⟩

def mtdpartsText (devices : List Dev) : Str :=
  if devices = [] then [] else mtdpartsPrefix ++ (tablePieces devices).flatten

/-- The length of the first `k` pieces. -/
def leading (pieces : List Str) (k : Nat) : Nat := (pieces.take k).flatten.length

/-- The buffer has the text where `generate_mtdparts` returns 0, and it returns 1 where the text does not fit. -/
structure Generated.Right (g : Generated) (devices : List Dev) (buflen : Nat) : Prop where
  ret : g.ret = 0 ∨ g.ret = 1
  text : g.ret = 0 → cstrAt g.buf 0 = some (mtdpartsText devices)
  full : g.ret = 1 ↔ buflen < (mtdpartsText devices).length + 1

section
variable {maxlen : Nat} {pieces : List Str} {piece : Str} {done rest : List UInt8}

theorem leading_zero : leading pieces 0 = 0 := rfl

theorem leading_succ (k : Nat) : leading (piece :: pieces) (k + 1) = piece.length + leading pieces k := by
  unfold leading
  rw [take_succ_cons, flatten_cons, length_append]

/-- No run of leading pieces that the counter allows leaves the buffer. -/
def Stays (maxlen room : Nat) (pieces : List Str) : Prop := ∀ k, leading pieces k ≤ maxlen → leading pieces k ≤ room

theorem Stays.first (h : Stays maxlen rest.length (piece :: pieces)) (hfit : piece.length ≤ maxlen) :
    piece.length ≤ rest.length := by
  have hone := h 1
  rw [leading_succ, leading_zero, add_zero] at hone
  exact hone hfit

theorem Stays.next (h : Stays maxlen rest.length (piece :: pieces)) (hfit : piece.length ≤ maxlen) :
    Stays (maxlen - piece.length) (rest.drop piece.length).length pieces := by
  intro k hk
  have hnext := h (k + 1)
  rw [leading_succ] at hnext
  rw [length_drop]
  omega

theorem storeAll_piece (h : piece.length ≤ rest.length) :
    storeAll (done ++ rest) done.length piece = some (done ++ piece ++ rest.drop piece.length) := by
  have hsplit := take_append_drop piece.length rest
  have hat := storeAll_at (p := done) (q := rest.drop piece.length) (length_take_of_le h)
  rwa [append_assoc, hsplit] at hat

theorem emitTo_copies (h : Stays maxlen rest.length pieces) (hall : pieces.flatten.length ≤ maxlen) :
    emitTo maxlen pieces done.length (done ++ rest) =
      some (true, done.length + pieces.flatten.length, done ++ pieces.flatten ++ rest.drop pieces.flatten.length) := by
  induction pieces generalizing maxlen done rest with
  | nil => simp [emitTo]
  | cons piece pieces ih =>
    rw [flatten_cons, length_append] at hall
    have hfit : piece.length ≤ maxlen := by omega
    have hrest := @ih (maxlen - piece.length) (done ++ piece) _ (h.next hfit) (by omega)
    rw [length_append] at hrest
    rw [emitTo, if_pos hfit, storeAll_piece (h.first hfit)]
    simp only [Option.bind_eq_bind, Option.bind_some]
    rw [hrest, flatten_cons, length_append, drop_drop]
    simp only [append_assoc, add_assoc]

theorem emitTo_stops (h : Stays maxlen rest.length pieces) (hmore : maxlen < pieces.flatten.length) :
    ∃ p buf, emitTo maxlen pieces done.length (done ++ rest) = some (false, p, buf) := by
  induction pieces generalizing maxlen done rest with
  | nil => exact absurd hmore (Nat.not_lt_zero _)
  | cons piece pieces ih =>
    rw [emitTo]
    split
    next hfit =>
      rw [flatten_cons, length_append] at hmore
      obtain ⟨p, buf, hrun⟩ := @ih (maxlen - piece.length) (done ++ piece) _ (h.next hfit) (by omega)
      rw [length_append] at hrun
      rw [storeAll_piece (h.first hfit)]
      exact ⟨p, buf, hrun⟩
    · exact ⟨_, _, rfl⟩

theorem emitTo_outside (h : ¬Stays maxlen rest.length pieces) :
    emitTo maxlen pieces done.length (done ++ rest) = none := by
  induction pieces generalizing maxlen done rest with
  | nil =>
    refine absurd (fun k _ => ?_) h
    unfold leading
    rw [take_nil]
    exact Nat.zero_le _
  | cons piece pieces ih =>
    obtain ⟨k, hk⟩ := Classical.not_forall.mp h
    obtain ⟨hallow, hout⟩ := Classical.not_imp.mp hk
    cases k with
    | zero => exact absurd (Nat.zero_le _) hout
    | succ k =>
      rw [leading_succ] at hallow hout
      have hfit : piece.length ≤ maxlen := by omega
      rw [emitTo, if_pos hfit]
      by_cases hroom : piece.length ≤ rest.length
      · rw [storeAll_piece hroom, ← length_append]
        apply ih
        intro hstays
        have hin := hstays k (by omega)
        rw [length_drop] at hin
        omega
      · cases hput : storeAll (done ++ rest) done.length piece with
        | none => rfl
        | some buf =>
          have hne : piece ≠ [] := fun hnil => hroom (by rw [hnil]; exact Nat.zero_le _)
          have hfits := storeAll_fits hne hput
          rw [length_append] at hfits
          omega

end

section
variable {devices : List Dev} {dev : Dev} {buf : List UInt8}

def Dev.NulFree (dev : Dev) : Prop := (0 : UInt8) ∉ dev.id.mtdId ∧ ∀ part ∈ dev.parts, (0 : UInt8) ∉ part.name

theorem digit_nulFree : ∀ n < 10, digit n ≠ 0 := by decide

theorem decimalFuel_nulFree (fuel n : Nat) : (0 : UInt8) ∉ decimalFuel fuel n := by
  induction fuel generalizing n with
  | zero => exact not_mem_nil
  | succ fuel ih =>
    unfold decimalFuel
    split
    next hlt => exact fun h => digit_nulFree n hlt (mem_singleton.mp h).symm
    · intro h
      rcases mem_append.mp h with h | h
      · exact ih _ h
      · exact digit_nulFree (n % 10) (Nat.mod_lt _ (by decide)) (mem_singleton.mp h).symm

theorem memsizeFormat_nulFree (size : UInt32) : (0 : UInt8) ∉ memsizeFormat size := by
  have hunit : ∀ n c, c ≠ 0 → (0 : UInt8) ∉ decimal n ++ [c] := by
    intro n c hc h
    rcases mem_append.mp h with h | h
    · exact decimalFuel_nulFree 10 n h
    · exact hc (mem_singleton.mp h).symm
  unfold memsizeFormat
  split
  · exact hunit _ _ (by decide)
  · split
    · exact hunit _ _ (by decide)
    · split
      · exact hunit _ _ (by decide)
      · exact decimalFuel_nulFree 10 _

theorem partPieces_nulFree {numParts partCnt : Nat} {prev : Option Part} {part : Part}
    (h : (0 : UInt8) ∉ part.name) : ∀ piece ∈ partPieces numParts partCnt prev part, (0 : UInt8) ∉ piece := by
  have hsize := memsizeFormat_nulFree part.size
  have hoffset := memsizeFormat_nulFree part.offset
  intro piece hpiece
  unfold partPieces at hpiece
  simp only [mem_append, mem_singleton] at hpiece
  rcases hpiece with (((rfl | hgap) | hname) | hro) | hcomma
  · exact hsize
  · split at hgap
    · rw [mem_singleton.mp hgap]
      simpa [ascii] using hoffset
    · cases hgap
  · split at hname
    · cases hname
    · rw [mem_singleton.mp hname]
      simpa [ascii] using h
  · split at hro
    · rw [mem_singleton.mp hro]
      decide
    · cases hro
  · split at hcomma
    · rw [mem_singleton.mp hcomma]
      decide
    · cases hcomma

theorem partsPieces_nulFree {numParts cnt : Nat} {prev : Option Part} {parts : List Part}
    (h : ∀ part ∈ parts, (0 : UInt8) ∉ part.name) :
    ∀ piece ∈ partsPieces numParts cnt prev parts, (0 : UInt8) ∉ piece := by
  induction parts generalizing cnt prev with
  | nil => exact fun piece hpiece => absurd hpiece not_mem_nil
  | cons part parts ih =>
    obtain ⟨hpart, hparts⟩ := forall_mem_cons.mp h
    intro piece hpiece
    rcases mem_append.mp hpiece with hpiece | hpiece
    · exact partPieces_nulFree hpart piece hpiece
    · exact ih hparts piece hpiece

theorem devPieces_nulFree (h : dev.NulFree) : ∀ piece ∈ devPieces dev, (0 : UInt8) ∉ piece := by
  intro piece hpiece
  rcases mem_cons.mp hpiece with rfl | hpiece
  · simpa [ascii] using h.1
  · exact partsPieces_nulFree h.2 piece hpiece

theorem tablePieces_nulFree (h : ∀ dev ∈ devices, dev.NulFree) :
    ∀ piece ∈ tablePieces devices, (0 : UInt8) ∉ piece := by
  fun_induction tablePieces devices with
  | case1 => exact fun piece hpiece => absurd hpiece not_mem_nil
  | case2 dev => exact devPieces_nulFree (h dev mem_cons_self)
  | case3 dev dev' devs ih =>
    obtain ⟨hdev, hdevs⟩ := forall_mem_cons.mp h
    intro piece hpiece
    rcases mem_append.mp hpiece with hpiece | hpiece
    · exact devPieces_nulFree hdev piece hpiece
    · rcases mem_cons.mp hpiece with rfl | hpiece
      · decide
      · exact ih hdevs piece hpiece

theorem mtdpartsText_nulFree (h : ∀ dev ∈ devices, dev.NulFree) : (0 : UInt8) ∉ mtdpartsText devices := by
  unfold mtdpartsText
  split
  · exact not_mem_nil
  · intro hmem
    rcases mem_append.mp hmem with hmem | hmem
    · exact absurd hmem (by decide)
    · obtain ⟨piece, hpiece, hmem⟩ := mem_flatten.mp hmem
      exact tablePieces_nulFree h piece hpiece hmem

theorem storeAll_prefix (hlen : 10 ≤ buf.length) :
    storeAll buf 0 (mtdpartsPrefix ++ [0]) = some (mtdpartsPrefix ++ 0 :: buf.drop 10) := by
  rw [storeAll_eq_splice (by rw [zero_add]; exact hlen)]
  rfl

theorem mtdpartsText_length (hnil : devices ≠ []) :
    (mtdpartsText devices).length = (tablePieces devices).flatten.length + 9 := by
  rw [mtdpartsText, if_neg hnil, length_append, add_comm]
  rfl

theorem generateMtdpartsTo_nil (hlen : 10 ≤ buf.length) (lastParts : Str) :
    ∃ g, generateMtdpartsTo [] lastParts buf buf.length = some g ∧ g.Right [] buf.length := by
  obtain ⟨c, rest, rfl⟩ := exists_cons_of_length_pos (lt_of_lt_of_le (by decide) hlen)
  refine ⟨⟨0, 0 :: rest, lastParts⟩, rfl, .inl rfl, fun _ => ?_, iff_of_false Int.zero_ne_one ?_⟩
  · exact cstrAt_append (p := []) (s := []) not_mem_nil
  · exact not_lt.mpr (le_trans (by decide) hlen)

theorem generateMtdpartsTo_emit (hnil : devices ≠ []) (hlen : 10 ≤ buf.length) (lastParts : Str) :
    generateMtdpartsTo devices lastParts buf buf.length =
      (emitTo (buf.length - 1) (tablePieces devices) mtdpartsPrefix.length (mtdpartsPrefix ++ 0 :: buf.drop 10)).bind
        fun r => if r.1 then (store r.2.2 r.2.1 0).map (Generated.mk 0 · lastParts) else some ⟨1, r.2.2, []⟩ := by
  rw [generateMtdpartsTo, if_neg hnil, storeAll_prefix hlen]
  simp only [Option.bind_eq_bind, Option.bind_some]
  apply Option.bind_congr
  rintro ⟨ok, p, buf'⟩ _
  cases ok with
  | false => rfl
  | true => cases store buf' p 0 <;> rfl

theorem generateMtdpartsTo_whole (hnul : ∀ dev ∈ devices, dev.NulFree) (hnil : devices ≠ []) (hlen : 10 ≤ buf.length)
    (lastParts : Str) (hstays : Stays (buf.length - 1) (0 :: buf.drop 10).length (tablePieces devices))
    (hbody : (tablePieces devices).flatten.length < buf.length) :
    (∃ g, generateMtdpartsTo devices lastParts buf buf.length = some g ∧ g.Right devices buf.length) ↔
      (tablePieces devices).flatten.length + 10 ≤ buf.length := by
  have htext := mtdpartsText_nulFree hnul
  have hsize := mtdpartsText_length hnil
  have hroom : (0 :: buf.drop 10).length = buf.length - 10 + 1 := by
    rw [length_cons, length_drop]
  rw [generateMtdpartsTo_emit hnil hlen, emitTo_copies hstays (by omega), Option.bind_some, if_pos rfl]
  constructor
  · rintro ⟨g, hg, _⟩
    obtain ⟨buf', hput, _⟩ := Option.map_eq_some_iff.mp hg
    unfold store at hput
    split at hput
    next hin =>
      simp only [length_append, length_drop, hroom] at hin
      omega
    · cases hput
  · intro hfull
    have hpos : 0 < ((0 :: buf.drop 10).drop (tablePieces devices).flatten.length).length := by
      rw [length_drop]
      omega
    obtain ⟨x, q, hq⟩ := exists_cons_of_length_pos hpos
    rw [hq, ← length_append, store_at]
    refine ⟨_, rfl, .inl rfl, fun _ => ?_, iff_of_false Int.zero_ne_one ?_⟩
    · rw [mtdpartsText, if_neg hnil] at htext ⊢
      exact cstrAt_append (p := []) htext
    · rw [hsize]
      omega

theorem generateMtdpartsTo_full (hnil : devices ≠ []) (hlen : 10 ≤ buf.length) (lastParts : Str)
    (hstays : Stays (buf.length - 1) (0 :: buf.drop 10).length (tablePieces devices))
    (hbody : buf.length ≤ (tablePieces devices).flatten.length) :
    ∃ g, generateMtdpartsTo devices lastParts buf buf.length = some g ∧ g.Right devices buf.length := by
  have hmore : buf.length - 1 < (tablePieces devices).flatten.length := by omega
  obtain ⟨p, buf', hemit⟩ := @emitTo_stops _ _ mtdpartsPrefix _ hstays hmore
  rw [generateMtdpartsTo_emit hnil hlen, hemit]
  refine ⟨_, rfl, .inr rfl, fun h => absurd h Int.one_ne_zero, iff_of_true rfl ?_⟩
  rw [mtdpartsText_length hnil]
  omega

/-- `generate_mtdparts` stays in its buffer and is right, exactly if there are no devices, or the text that it copies
stays nine characters below what its counter allows and there is room for the NUL then. -/
theorem generate_mtdparts_right_iff (hnul : ∀ dev ∈ devices, dev.NulFree) (hlen : 10 ≤ buf.length) (lastParts : Str) :
    (∃ g, generateMtdpartsTo devices lastParts buf buf.length = some g ∧ g.Right devices buf.length) ↔
      devices = [] ∨ (Stays (buf.length - 1) (buf.length - 9) (tablePieces devices) ∧
        ((tablePieces devices).flatten.length < buf.length →
          (tablePieces devices).flatten.length + 10 ≤ buf.length)) := by
  by_cases hnil : devices = []
  · subst hnil
    exact iff_of_true (generateMtdpartsTo_nil hlen lastParts) (.inl rfl)
  have hroom : (0 :: buf.drop 10).length = buf.length - 9 := by
    rw [length_cons, length_drop]
    omega
  rw [or_iff_right hnil, ← hroom]
  by_cases hstays : Stays (buf.length - 1) (0 :: buf.drop 10).length (tablePieces devices)
  case neg =>
    refine iff_of_false ?_ fun h => hstays h.1
    rintro ⟨g, hg, _⟩
    rw [generateMtdpartsTo_emit hnil hlen, emitTo_outside hstays] at hg
    cases hg
  rw [and_iff_right hstays]
  rcases lt_or_ge (tablePieces devices).flatten.length buf.length with hbody | hbody
  · rw [generateMtdpartsTo_whole hnul hnil hlen lastParts hstays hbody]
    exact ⟨fun h _ => h, fun h => h hbody⟩
  · refine iff_of_true ?_ fun h => absurd h (not_lt.mpr hbody)
    exact generateMtdpartsTo_full hnil hlen lastParts hstays hbody

theorem emitTo_ok {maxlen p q : Nat} {pieces : List Str} {buf' : List UInt8} {ok : Bool}
    (h : emitTo maxlen pieces p buf = some (ok, q, buf')) : ok = true ↔ pieces.flatten.length ≤ maxlen := by
  induction pieces generalizing maxlen p buf with
  | nil =>
    cases h
    exact iff_of_true rfl (Nat.zero_le _)
  | cons piece pieces ih =>
    rw [flatten_cons, length_append]
    rw [emitTo] at h
    split at h
    next hfit =>
      obtain ⟨b, _, hrest⟩ := Option.bind_eq_some_iff.mp h
      rw [ih hrest]
      omega
    next hfit =>
      cases h
      exact iff_of_false Bool.false_ne_true (by omega)

/-- Where it stays in its buffer, the text is the one without it. -/
theorem generateMtdpartsTo_text {lastParts : Str} {buflen : Nat} {g : Generated}
    (h : generateMtdpartsTo devices lastParts buf buflen = some g) :
    generateMtdparts devices buflen = if g.ret = 0 then some (mtdpartsText devices) else none := by
  unfold generateMtdpartsTo at h
  unfold generateMtdparts mtdpartsText
  split at h
  next hnil =>
    obtain ⟨b, _, hg⟩ := Option.bind_eq_some_iff.mp h
    rw [← Option.some.inj hg, if_pos rfl, if_pos hnil, if_pos hnil]
  next hnil =>
    obtain ⟨b, _, h⟩ := Option.bind_eq_some_iff.mp h
    obtain ⟨⟨ok, p, b'⟩, hemit, h⟩ := Option.bind_eq_some_iff.mp h
    have hok := emitTo_ok hemit
    rw [if_neg hnil, if_neg hnil]
    cases ok with
    | true =>
      obtain ⟨b'', _, hg⟩ := Option.bind_eq_some_iff.mp h
      rw [← Option.some.inj hg, if_pos rfl, emit_eq_some_iff.mpr ⟨rfl, hok.mp rfl⟩]
      rfl
    | false =>
      have hnone : emit (buflen - 1) (tablePieces devices) = none := by
        cases hall : emit (buflen - 1) (tablePieces devices) with
        | none => rfl
        | some t =>
          obtain ⟨rfl, hlen⟩ := emit_eq_some_iff.mp hall
          exact absurd (hok.mpr hlen) Bool.false_ne_true
      rw [← Option.some.inj h, hnone]
      rfl

/-- The text stands at the start of the buffer where it was complete. -/
theorem generateMtdpartsTo_buffer {lastParts : Str} {g : Generated} (hlen : 10 ≤ buf.length)
    (h : generateMtdpartsTo devices lastParts buf buf.length = some g) (hret : g.ret = 0) :
    ∃ rest, g.buf = mtdpartsText devices ++ 0 :: rest := by
  by_cases hnil : devices = []
  · subst hnil
    obtain ⟨c, rest, rfl⟩ := exists_cons_of_length_pos (lt_of_lt_of_le (by decide) hlen)
    cases Option.some.inj h
    exact ⟨rest, rfl⟩
  rw [generateMtdpartsTo_emit hnil hlen] at h
  by_cases hstays : Stays (buf.length - 1) (0 :: buf.drop 10).length (tablePieces devices)
  case neg =>
    rw [emitTo_outside hstays] at h
    cases h
  rcases lt_or_ge (buf.length - 1) (tablePieces devices).flatten.length with hmore | hall
  · obtain ⟨p, b, hemit⟩ := @emitTo_stops _ _ mtdpartsPrefix _ hstays hmore
    rw [hemit] at h
    cases Option.some.inj h
    cases hret
  · rw [emitTo_copies hstays hall, Option.bind_some, if_pos rfl] at h
    obtain ⟨b, hput, rfl⟩ := Option.map_eq_some_iff.mp h
    rw [mtdpartsText, if_neg hnil]
    cases hrest : (0 :: buf.drop 10).drop (tablePieces devices).flatten.length with
    | nil =>
      rw [hrest, append_nil, ← length_append, store, if_neg (lt_irrefl _)] at hput
      cases hput
    | cons x rest =>
      rw [hrest, ← length_append, store_at] at hput
      cases Option.some.inj hput
      exact ⟨rest, rfl⟩

end

/-- The table `nand0:1m(a)` -/
def oneMegabyte : List Dev :=
  [⟨0, ⟨.nand, 0, 0x4000000, ascii ['n', 'a', 'n', 'd', '0']⟩, 1, [⟨1, ascii ['a'], false, 0x100000, 0, 0⟩]⟩]

theorem generate_mtdparts_right_megabyte :
    (∃ g, generateMtdpartsTo oneMegabyte [] (List.replicate 21 7) 21 = some g ∧ g.Right oneMegabyte 21) ↔
      oneMegabyte = [] ∨ (Stays 20 12 (tablePieces oneMegabyte) ∧
        ((tablePieces oneMegabyte).flatten.length < 21 → (tablePieces oneMegabyte).flatten.length + 10 ≤ 21)) :=
  @generate_mtdparts_right_iff oneMegabyte (List.replicate 21 7)
    (forall_mem_singleton.mpr ⟨by decide, forall_mem_singleton.mpr (by decide)⟩) (by decide) []

/-- The text has twenty characters, and one byte less than they take with the NUL is not enough. -/
theorem text_leaves_buffer : (mtdpartsText oneMegabyte).length = 20 ∧
    ¬∃ g, generateMtdpartsTo oneMegabyte [] (List.replicate 20 7) 20 = some g ∧ g.Right oneMegabyte 20 := by
  have hout : generateMtdpartsTo oneMegabyte [] (List.replicate 20 7) 20 = none := by decide
  refine ⟨by decide, ?_⟩
  rintro ⟨g, hg, _⟩
  rw [hout] at hg
  cases hg

/-- `device_parse`, for a caller that gives a place for the rest of the text or none: it begins with `*ret = NULL`. -/
def deviceParseInto (ret : Bool) (chips : Chips) (s : State) (mtdDev : Str) :
    Option (Option (Dev × Str) × State) :=
  if ret then deviceParse chips s mtdDev else none

/-- The description in `tmpbuf`, if the command gets that far. -/
def addDescription (s : State) (tmpbuf : List UInt8) (mtdDev size name : Str) (opt : Option Str) :
    Option (Option (List UInt8)) :=
  match addId s mtdDev with
  | none => some none
  | some id =>
    if partAddDescMaxlen ≤ (addLen id size name opt).toNat then some none
    else (storeAll tmpbuf 0 (addText id size name opt ++ [0])).map some

/-- The branch of `do_mtdparts` for `add`, whether it returns 0, with a place for the rest of the text or none. -/
def mtdpartsAddInto (ret : Bool) (chips : Chips) (s : State) (tmpbuf : List UInt8) (mtdDev size name : Str)
    (opt : Option Str) : Option (Bool × State) := do
  match ← addDescription s tmpbuf mtdDev size name opt with
  | none => some (false, s)
  | some tmpbuf =>
    let (parsed, s) ← deviceParseInto ret chips s (← cstrAt tmpbuf 0)
    match parsed with
    | none => some (false, s)
    | some (dev, _) =>
      let (ok, s) ← mergeDevice chips s dev
      if ok then some (generateMtdpartsSave s) else some (false, s)

/-- The branch as it stands, which calls `device_parse` with `NULL`. -/
def mtdpartsAdd : Chips → State → List UInt8 → Str → Str → Str → Option Str → Option (Bool × State) :=
  mtdpartsAddInto false

section
variable {chips : Chips} {s : State} {tmpbuf : List UInt8} {mtdDev size name : Str} {opt : Option Str}

/-- The command refuses the arguments before it writes their text. -/
def AddRefused (s : State) (mtdDev size name : Str) (opt : Option Str) : Prop :=
  ∀ id, addId s mtdDev = some id → partAddDescMaxlen ≤ (addLen id size name opt).toNat

theorem addDescription_refused (h : AddRefused s mtdDev size name opt) :
    addDescription s tmpbuf mtdDev size name opt = some none := by
  unfold addDescription
  cases hid : addId s mtdDev with
  | none => rfl
  | some id => exact if_pos (h id hid)

theorem addDescription_written (hsize : tmpbuf.length = partAddDescMaxlen)
    (h : ¬AddRefused s mtdDev size name opt) :
    ∃ id, addId s mtdDev = some id ∧
      ((∃ text, addDescription s tmpbuf mtdDev size name opt = some (some text)) ∧ ¬Overruns id size name opt ∨
        addDescription s tmpbuf mtdDev size name opt = none ∧ Overruns id size name opt) := by
  obtain ⟨id, hid⟩ := Classical.not_forall.mp h
  obtain ⟨hid, hlen⟩ := Classical.not_imp.mp hid
  refine ⟨id, hid, ?_⟩
  unfold addDescription
  rw [hid]
  dsimp only
  rw [if_neg hlen]
  cases hput : storeAll tmpbuf 0 (addText id size name opt ++ [0]) with
  | none =>
    refine .inr ⟨rfl, not_le.mp hlen, not_lt.mp fun hlt => ?_⟩
    rw [storeAll_eq_splice (by rw [length_append, length_singleton]; omega)] at hput
    cases hput
  | some text =>
    have hin := storeAll_fits (append_ne_nil_of_right_ne_nil _ (cons_ne_nil _ _)) hput
    rw [length_append, length_singleton] at hin
    exact .inl ⟨⟨text, rfl⟩, fun hover => by have := hover.2; omega⟩

/-- Where the store of `device_parse` does no harm the command runs as `doAdd` has it. -/
theorem mtdpartsAdd_doAdd (hsize : tmpbuf.length = partAddDescMaxlen)
    (hnul : ∀ id, addId s mtdDev = some id → (0 : UInt8) ∉ addText id size name opt) :
    mtdpartsAddInto true chips s tmpbuf mtdDev size name opt = doAdd chips s mtdDev size name opt := by
  unfold mtdpartsAddInto doAdd addDescription
  unfold addId at hnul ⊢
  cases hid : mtdIdParse mtdDev with
  | none => rfl
  | some r =>
    obtain ⟨type, num, rest⟩ := r
    rw [hid, Option.bind_some] at hnul
    dsimp only [Option.bind_some] at hnul ⊢
    cases hfind : s.mtdids.find? fun id => id.type = type ∧ id.num = num with
    | none => rfl
    | some id =>
      dsimp only
      split
      · rfl
      · split
        next hlong =>
          cases hput : storeAll tmpbuf 0 (addText id size name opt ++ [0]) with
          | none => rfl
          | some buf =>
            have hin := storeAll_fits (append_ne_nil_of_right_ne_nil _ (cons_ne_nil _ _)) hput
            rw [length_append, length_singleton] at hin
            omega
        next hshort =>
          have hroom : 0 + (addText id size name opt ++ [0]).length ≤ tmpbuf.length := by
            rw [length_append, length_singleton]
            omega
          have hread : cstrAt (splice tmpbuf 0 (addText id size name opt ++ [0])) 0 =
              some (addText id size name opt) := by
            simpa [splice] using cstrAt_append (p := []) (t := tmpbuf.drop ((addText id size name opt).length + 1))
              (hnul id hfind)
          rw [storeAll_eq_splice hroom]
          simp only [Option.map_some, Option.bind_eq_bind, Option.bind_some, hread]
          rfl

theorem mtdpartsAdd_parses {text : List UInt8}
    (h : addDescription s tmpbuf mtdDev size name opt = some (some text)) :
    mtdpartsAdd chips s tmpbuf mtdDev size name opt = none := by
  unfold mtdpartsAdd mtdpartsAddInto
  rw [h]
  cases cstrAt text 0 <;> simp [deviceParseInto]

/-- The command keeps to valid pointers, and changes nothing for a text that does not fit, exactly if it refuses its
arguments before they are parsed. It keeps to `tmpbuf` exactly if the text is not counted as one that fits while it
does not. -/
theorem mtdparts_add_in_bounds_iff (hsize : tmpbuf.length = partAddDescMaxlen) :
    ((∃ r, mtdpartsAdd chips s tmpbuf mtdDev size name opt = some r ∧
        ∀ id, addId s mtdDev = some id → partAddDescMaxlen ≤ (addText id size name opt).length → r = (false, s)) ↔
        AddRefused s mtdDev size name opt) ∧
      (addDescription s tmpbuf mtdDev size name opt ≠ none ↔
        ¬∃ id, addId s mtdDev = some id ∧ Overruns id size name opt) := by
  by_cases hrefused : AddRefused s mtdDev size name opt
  · have hdesc : addDescription s tmpbuf mtdDev size name opt = some none := addDescription_refused hrefused
    refine ⟨iff_of_true ⟨(false, s), ?_, fun _ _ _ => rfl⟩ hrefused, iff_of_true ?_ ?_⟩
    · unfold mtdpartsAdd mtdpartsAddInto
      rw [hdesc]
      rfl
    · rw [hdesc]
      exact Option.some_ne_none _
    · rintro ⟨id, hid, hover⟩
      exact absurd hover.1 (not_lt.mpr (hrefused id hid))
  · obtain ⟨id, hid, ⟨⟨text, htext⟩, hfits⟩ | ⟨hout, hover⟩⟩ := addDescription_written hsize hrefused
    · refine ⟨iff_of_false ?_ hrefused, iff_of_true ?_ ?_⟩
      · rintro ⟨r, hr, _⟩
        rw [mtdpartsAdd_parses htext] at hr
        cases hr
      · rw [htext]
        exact Option.some_ne_none _
      · rintro ⟨id', hid', hover⟩
        rw [Option.some.inj (hid'.symm.trans hid)] at hover
        exact hfits hover
    · refine ⟨iff_of_false ?_ hrefused, iff_of_false (not_not.mpr hout) (not_not.mpr ⟨id, hid, hover⟩)⟩
      rintro ⟨r, hr, _⟩
      unfold mtdpartsAdd mtdpartsAddInto at hr
      rw [hout] at hr
      cases hr

end

/-- A board with `nand0` and no partitions. -/
def nandOnly : State :=
  ⟨[⟨.nand, 0, 0x4000000, ascii ['n', 'a', 'n', 'd', '0']⟩], [], none, 0, [], [], [], ⟨none, none, none⟩, 0⟩

theorem mtdparts_add_in_bounds_megabyte :
    ((∃ r, mtdpartsAdd (fun _ _ => none) nandOnly (List.replicate 64 7) (ascii ['n', 'a', 'n', 'd', '0'])
        (ascii ['1', 'm']) (ascii ['a']) none = some r ∧
        ∀ id, addId nandOnly (ascii ['n', 'a', 'n', 'd', '0']) = some id →
          partAddDescMaxlen ≤ (addText id (ascii ['1', 'm']) (ascii ['a']) none).length → r = (false, nandOnly)) ↔
        AddRefused nandOnly (ascii ['n', 'a', 'n', 'd', '0']) (ascii ['1', 'm']) (ascii ['a']) none) ∧
      (addDescription nandOnly (List.replicate 64 7) (ascii ['n', 'a', 'n', 'd', '0']) (ascii ['1', 'm'])
        (ascii ['a']) none ≠ none ↔
        ¬∃ id, addId nandOnly (ascii ['n', 'a', 'n', 'd', '0']) = some id ∧
          Overruns id (ascii ['1', 'm']) (ascii ['a']) none) :=
  mtdparts_add_in_bounds_iff (by decide)

/-- The parser stores through a null pointer, and a last argument of sixty characters leaves `tmpbuf`. -/
theorem add_not_in_bounds :
    (¬∃ r, mtdpartsAdd (fun _ _ => none) nandOnly (List.replicate 64 7) (ascii ['n', 'a', 'n', 'd', '0'])
        (ascii ['1', 'm']) (ascii ['a']) none = some r ∧
        ∀ id, addId nandOnly (ascii ['n', 'a', 'n', 'd', '0']) = some id →
          partAddDescMaxlen ≤ (addText id (ascii ['1', 'm']) (ascii ['a']) none).length → r = (false, nandOnly)) ∧
      addDescription nandOnly (List.replicate 64 7) (ascii ['n', 'a', 'n', 'd', '0']) (ascii ['1', 'm'])
        (ascii ['a']) (some (List.replicate 60 120)) = none := by
  refine ⟨?_, by decide⟩
  rintro ⟨r, hr, _⟩
  have hnull : mtdpartsAdd (fun _ _ => none) nandOnly (List.replicate 64 7) (ascii ['n', 'a', 'n', 'd', '0'])
      (ascii ['1', 'm']) (ascii ['a']) none = none :=
    mtdpartsAdd_parses <| show addDescription _ _ _ _ _ _ = some (some (ascii ['n', 'a', 'n', 'd', '0', ':', '1', 'm',
      '(', 'a', ')'] ++ 0 :: List.replicate 52 7)) by decide
  rw [hnull] at hr
  cases hr

end UBoot.Mtd
