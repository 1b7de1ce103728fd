import UBoot.ByteWords
import UBoot.Words

namespace UBoot.FdtMemory

open ByteWords Words

/-- What the function calls. An operation that writes gives its result and the blob. -/
structure Libfdt (Blob : Type) where
  checkHeader : Blob → Int
  pathOffset : Blob → String → Int
  addSubnode : Blob → Int → String → Int × Blob
  setprop : Blob → Int → String → List UInt8 → Int × Blob
  getprop : Blob → Int → String → Option (List UInt8)

variable {Blob : Type}

/-- What is known about a property that was set: it has the value, the other ones have not changed, nor have those of
the root unless it was the root's, and a node on the way to which nothing was put is where it was. -/
structure Libfdt.IsSet (lib : Libfdt Blob) (b b' : Blob) (off : Int) (name : String) (val : List UInt8) : Prop where
  value : lib.getprop b' off name = some val
  others : ∀ name', name' ≠ name → lib.getprop b' off name' = lib.getprop b off name'
  root : off ≠ 0 → ∀ name', lib.getprop b' 0 name' = lib.getprop b 0 name'
  path : ∀ path, lib.pathOffset b path = off → lib.pathOffset b' path = off

/-- The documentation of libfdt. -/
structure Libfdt.Documented (lib : Libfdt Blob) (Valid : Blob → Prop) : Prop where
  header : ∀ b, Valid b → 0 ≤ lib.checkHeader b
  memory : ∀ b, Valid b → lib.pathOffset b "/memory" ≠ 0
  added : ∀ b, Valid b → lib.pathOffset b "/memory" < 0 → 0 ≤ (lib.addSubnode b 0 "memory").1 →
    lib.pathOffset (lib.addSubnode b 0 "memory").2 "/memory" = (lib.addSubnode b 0 "memory").1 ∧
      ∀ name, lib.getprop (lib.addSubnode b 0 "memory").2 (lib.addSubnode b 0 "memory").1 name = none
  set : ∀ b off name val, Valid b → 0 ≤ off → 0 ≤ (lib.setprop b off name val).1 →
    Valid (lib.setprop b off name val).2 ∧ lib.IsSet b (lib.setprop b off name val).2 off name val

/-- The string `"memory"`. -/
def memoryChars : List UInt8 := [109, 101, 109, 111, 114, 121, 0]

def load (big : Bool) (val : List UInt8) : Nat := ofBytes (if big then (val.take 4).reverse else val.take 4)

/-- The test of a cell count. -/
def isTwo (big : Bool) (val : Option (List UInt8)) : Bool := val.any fun v => load big v == 2

/-- What is put into `tmp` for a number. -/
def cellBytes (two : Bool) (v : Nat) : List UInt8 :=
  if two then
    [UInt8.ofNat (v >>> 56), UInt8.ofNat (v >>> 48), UInt8.ofNat (v >>> 40), UInt8.ofNat (v >>> 32),
      UInt8.ofNat (v >>> 24), UInt8.ofNat (v >>> 16), UInt8.ofNat (v >>> 8), UInt8.ofNat v]
  else [UInt8.ofNat (v >>> 24), UInt8.ofNat (v >>> 16), UInt8.ofNat (v >>> 8), UInt8.ofNat v]

def fdtFixupMemory (lib : Libfdt Blob) (big : Bool) (blob : Blob) (start size : Nat) : Int × Blob :=
  let err := lib.checkHeader blob
  if err < 0 then (err, blob)
  else
    let nodeoffset := lib.pathOffset blob "/memory"
    -- a node that has just been added is left as it is
    if nodeoffset < 0 then lib.addSubnode blob 0 "memory"
    else
      let set := lib.setprop blob nodeoffset "device_type" memoryChars
      if set.1 < 0 then set
      else
        let blob := set.2
        let tmp := cellBytes (isTwo big (lib.getprop blob 0 "#address-cells")) start ++
          cellBytes (isTwo big (lib.getprop blob 0 "#size-cells")) size
        let set := lib.setprop blob nodeoffset "reg" tmp
        if set.1 < 0 then set else (0, set.2)

def cellsValue (val : List UInt8) : Nat := ofBytes val.reverse

/-- The root has the cell count, which is 1 where it is absent. -/
def Cells (lib : Libfdt Blob) (b : Blob) (name : String) (n : Nat) : Prop :=
  lib.getprop b 0 name = none ∧ n = 1 ∨ lib.getprop b 0 name = some (be32Bytes n) ∧ (n = 1 ∨ n = 2)

/-- The node for the memory says where it is. -/
def Describes (lib : Libfdt Blob) (b : Blob) (start size : Nat) : Prop :=
  ∃ off ac sc reg, lib.pathOffset b "/memory" = off ∧ 0 ≤ off ∧ lib.getprop b off "device_type" = some memoryChars ∧
    lib.getprop b off "reg" = some reg ∧ Cells lib b "#address-cells" ac ∧ Cells lib b "#size-cells" sc ∧
      reg.length = 4 * (ac + sc) ∧ cellsValue (reg.take (4 * ac)) = start ∧ cellsValue (reg.drop (4 * ac)) = size

/-- What is put into the blob does not fit into it. -/
def NoRoom (lib : Libfdt Blob) (big : Bool) (b : Blob) (ac sc start size : Nat) : Prop :=
  let off := lib.pathOffset b "/memory"
  off < 0 ∧ (lib.addSubnode b 0 "memory").1 < 0 ∨
    0 ≤ off ∧ ((lib.setprop b off "device_type" memoryChars).1 < 0 ∨
      (lib.setprop (lib.setprop b off "device_type" memoryChars).2 off "reg"
        (cellBytes (big && ac == 2) start ++ cellBytes (big && sc == 2) size)).1 < 0)

variable {lib : Libfdt Blob} {Valid : Blob → Prop} {big : Bool} {b b' : Blob} {name : String}
  {n m v ac sc start size : Nat}

theorem be32Bytes_ne : be32Bytes 1 ≠ be32Bytes 2 := by decide

theorem Cells.unique (h : Cells lib b name n) (h' : Cells lib b name m) : n = m := by
  have hne := be32Bytes_ne
  rcases h with ⟨hnone, rfl⟩ | ⟨hsome, rfl | rfl⟩
  · rcases h' with ⟨-, rfl⟩ | ⟨hsome', -⟩
    · rfl
    · rw [hnone] at hsome'
      cases hsome'
  · rcases h' with ⟨hnone', rfl⟩ | ⟨hsome', rfl | rfl⟩
    · rfl
    · rfl
    · exact absurd (Option.some.inj (hsome.symm.trans hsome')) hne
  · rcases h' with ⟨hnone', rfl⟩ | ⟨hsome', rfl | rfl⟩
    · rw [hnone'] at hsome
      cases hsome
    · exact absurd (Option.some.inj (hsome'.symm.trans hsome)) hne
    · rfl

theorem Cells.same (h : Cells lib b name n) (heq : lib.getprop b' 0 name = lib.getprop b 0 name) :
    Cells lib b' name n := by
  unfold Cells
  rw [heq]
  exact h

theorem Cells.isTwo (h : Cells lib b name n) : FdtMemory.isTwo big (lib.getprop b 0 name) = (big && n == 2) := by
  rcases h with ⟨hnone, rfl⟩ | ⟨hsome, rfl | rfl⟩
  · rw [hnone]
    cases big <;> rfl
  · rw [hsome]
    cases big <;> decide
  · rw [hsome]
    cases big <;> decide

theorem Cells.le_two (h : Cells lib b name n) : n = 1 ∨ n = 2 := by
  rcases h with ⟨-, hn⟩ | ⟨-, hn⟩
  · exact .inl hn
  · exact hn

theorem cellBytes_eq (two : Bool) (v : Nat) : cellBytes two v = (toBytes (if two then 8 else 4) v).reverse := by
  cases two <;> simp [cellBytes, toBytes, Nat.shiftRight_eq_div_pow, Nat.div_div_eq_div_mul]

theorem cellBytes_length (two : Bool) (v : Nat) : (cellBytes two v).length = if two then 8 else 4 := by
  rw [cellBytes_eq, List.length_reverse, length_toBytes]

theorem cellsValue_cellBytes (two : Bool) (h : v < 2 ^ (if two then 64 else 32)) :
    cellsValue (cellBytes two v) = v := by
  unfold cellsValue
  rw [cellBytes_eq, List.reverse_reverse, ofBytes_toBytes, pow_256]
  apply Nat.mod_eq_of_lt
  cases two <;> simpa using h

theorem describes_iff (hoff : 0 ≤ lib.pathOffset b "/memory")
    (htype : lib.getprop b (lib.pathOffset b "/memory") "device_type" = some memoryChars)
    (hac : Cells lib b "#address-cells" ac) (hsc : Cells lib b "#size-cells" sc) (hstart : start < 2 ^ (32 * ac))
    (hsize : size < 2 ^ (32 * sc))
    (hreg : lib.getprop b (lib.pathOffset b "/memory") "reg" =
      some (cellBytes (big && ac == 2) start ++ cellBytes (big && sc == 2) size)) :
    Describes lib b start size ↔ big = true ∨ ac ≠ 2 ∧ sc ≠ 2 := by
  have hac' := hac.le_two
  have hsc' := hsc.le_two
  constructor
  · rintro ⟨off, ac', sc', reg, rfl, -, -, hreg', hac'', hsc'', hlen, -, -⟩
    cases hreg.symm.trans hreg'
    cases hac.unique hac''
    cases hsc.unique hsc''
    rw [List.length_append, cellBytes_length, cellBytes_length] at hlen
    cases big with
    | true => exact .inl rfl
    | false =>
      right
      simp only [Bool.false_and, Bool.false_eq_true, if_false] at hlen
      omega
  · intro hwide
    have hwidth : ∀ n : Nat, n = 1 ∨ n = 2 → (big = true ∨ n ≠ 2) →
        (if (big && n == 2) = true then 8 else 4) = 4 * n := by
      intro n hn hbig
      rcases hn with rfl | rfl
      · simp
      · simp at hbig
        simp [hbig]
    have hbits : ∀ n v : Nat, n = 1 ∨ n = 2 → (big = true ∨ n ≠ 2) → v < 2 ^ (32 * n) →
        v < 2 ^ (if (big && n == 2) = true then 64 else 32) := by
      intro n v hn hbig hv
      rcases hn with rfl | rfl
      · simpa using hv
      · simp at hbig
        simpa [hbig] using hv
    have hacw : big = true ∨ ac ≠ 2 := hwide.imp id And.left
    have hscw : big = true ∨ sc ≠ 2 := hwide.imp id And.right
    have hfirst : (cellBytes (big && ac == 2) start).length = 4 * ac := by
      rw [cellBytes_length]
      exact hwidth ac hac' hacw
    refine ⟨_, ac, sc, _, rfl, hoff, htype, hreg, hac, hsc, ?_, ?_, ?_⟩
    · rw [List.length_append, hfirst, cellBytes_length, hwidth sc hsc' hscw, mul_add]
    · rw [← hfirst, List.take_left]
      exact cellsValue_cellBytes _ (hbits ac start hac' hacw hstart)
    · rw [← hfirst, List.drop_left]
      exact cellsValue_cellBytes _ (hbits sc size hsc' hscw hsize)

theorem added_not_describes (hlib : lib.Documented Valid) (hb : Valid b) (hmem : lib.pathOffset b "/memory" < 0)
    (hadd : 0 ≤ (lib.addSubnode b 0 "memory").1) : ¬Describes lib (lib.addSubnode b 0 "memory").2 start size := by
  rintro ⟨off, ac, sc, reg, hpath, -, htype, -⟩
  obtain ⟨hpath', hnone⟩ := hlib.added b hb hmem hadd
  rw [← hpath, hpath', hnone] at htype
  cases htype

/-- A result of `fdt_fixup_memory` that is not negative means that the blob describes the memory exactly if there
was a node for it and the processor reads the cells as they are meant, or can take both counts for one, or if there
is no such result, for want of room. -/
theorem fdt_fixup_memory_describes_iff (lib : Libfdt Blob) (Valid : Blob → Prop) (hlib : lib.Documented Valid)
    (big : Bool) (b : Blob) (hb : Valid b) (ac sc : Nat) (hac : Cells lib b "#address-cells" ac)
    (hsc : Cells lib b "#size-cells" sc) (start size : Nat) (hstart : start < 2 ^ (32 * ac))
    (hsize : size < 2 ^ (32 * sc)) :
    (0 ≤ (fdtFixupMemory lib big b start size).1 → Describes lib (fdtFixupMemory lib big b start size).2 start size) ↔
      0 ≤ lib.pathOffset b "/memory" ∧ (big = true ∨ ac ≠ 2 ∧ sc ≠ 2) ∨ NoRoom lib big b ac sc start size := by
  have hheader := hlib.header b hb
  have hroot := hlib.memory b hb
  unfold fdtFixupMemory NoRoom
  dsimp only
  rw [if_neg (by omega)]
  generalize hoff : lib.pathOffset b "/memory" = off at hroot ⊢
  by_cases hmem : off < 0
  · rw [if_pos hmem]
    rw [← hoff] at hmem
    have hbad : 0 ≤ (lib.addSubnode b 0 "memory").1 → ¬Describes lib (lib.addSubnode b 0 "memory").2 start size :=
      added_not_describes hlib hb hmem
    constructor
    · intro h
      right
      left
      exact ⟨by omega, Int.not_le.mp fun hadd => hbad hadd (h hadd)⟩
    · intro h
      omega
  rw [if_neg hmem]
  by_cases hset : (lib.setprop b off "device_type" memoryChars).1 < 0
  · rw [if_pos hset]
    constructor
    · exact fun _ => .inr (.inr ⟨by omega, .inl hset⟩)
    · intro _ hret
      omega
  rw [if_neg hset]
  obtain ⟨hb₁, hset₁⟩ := hlib.set b off "device_type" memoryChars hb (by omega) (by omega)
  generalize (lib.setprop b off "device_type" memoryChars).2 = b₁ at hb₁ hset₁ ⊢
  have hac₁ := hac.same (hset₁.root hroot _)
  have hsc₁ := hsc.same (hset₁.root hroot _)
  rw [hac₁.isTwo, hsc₁.isTwo]
  by_cases hreg : (lib.setprop b₁ off "reg" (cellBytes (big && ac == 2) start ++ cellBytes (big && sc == 2) size)).1 < 0
  · rw [if_pos hreg]
    constructor
    · exact fun _ => .inr (.inr ⟨by omega, .inr hreg⟩)
    · intro _ hret
      omega
  rw [if_neg hreg]
  obtain ⟨-, hset₂⟩ := hlib.set b₁ off "reg" _ hb₁ (by omega) (Int.not_lt.mp hreg)
  generalize (lib.setprop b₁ off "reg" (cellBytes (big && ac == 2) start ++ cellBytes (big && sc == 2) size)).2 = b₂
    at hset₂ ⊢
  have hpath : lib.pathOffset b₂ "/memory" = off := hset₂.path _ (hset₁.path _ hoff)
  have hdesc : Describes lib b₂ start size ↔ big = true ∨ ac ≠ 2 ∧ sc ≠ 2 := by
    refine describes_iff (by omega) ?_ (hac₁.same (hset₂.root hroot _)) (hsc₁.same (hset₂.root hroot _)) hstart hsize ?_
    · rw [hpath, hset₂.others _ (by decide)]
      exact hset₁.value
    · rw [hpath]
      exact hset₂.value
  constructor
  · intro h
    exact .inl ⟨by omega, hdesc.mp (h (Int.le_refl 0))⟩
  · rintro (⟨-, hwide⟩ | ⟨hneg, -⟩ | ⟨-, hfail⟩) _
    · exact hdesc.mpr hwide
    · exact absurd hneg hmem
    · exact absurd hfail (by simp [hset, hreg])

/-- Trees whose root, at offset 0, has at most a node for the memory, at offset 1. -/
structure Tree where
  root : String → Option (List UInt8)
  memory : Option (String → Option (List UInt8))
  room : Nat

def treeSet (t : Tree) (off : Int) (name : String) (val : List UInt8) : Int × Tree :=
  if t.room < 12 + val.length then (-3, t)
  else if off = 0 then
    (0, { t with root := Function.update t.root name (some val), room := t.room - (12 + val.length) })
  else if off = 1 then
    match t.memory with
    | none => (-4, t)
    | some props =>
      (0, { t with memory := some (Function.update props name (some val)), room := t.room - (12 + val.length) })
  else (-4, t)

def treeGet (t : Tree) (off : Int) (name : String) : Option (List UInt8) :=
  if off = 0 then t.root name else if off = 1 then t.memory.bind fun props => props name else none

def treePath (t : Tree) (path : String) : Int :=
  if path = "/" then 0 else if path = "/memory" ∧ t.memory.isSome then 1 else -1

def treeLib : Libfdt Tree where
  checkHeader _ := 0
  pathOffset := treePath
  addSubnode t off name :=
    if off ≠ 0 ∨ name ≠ "memory" then (-4, t)
    else if t.memory.isSome then (-2, t)
    else if t.room < 16 then (-3, t)
    else (1, { t with memory := some fun _ => none, room := t.room - 16 })
  setprop := treeSet
  getprop := treeGet

theorem treeSet_isSet {t : Tree} {off : Int} {val : List UInt8} (h : 0 ≤ (treeSet t off name val).1) :
    treeLib.IsSet t (treeSet t off name val).2 off name val := by
  unfold treeSet at h ⊢
  split at h
  next hfull => simp at h
  next hroom =>
    rw [if_neg hroom]
    by_cases hroot : off = 0
    · subst hroot
      rw [if_pos rfl]
      refine ⟨?_, fun name' hne => ?_, fun hne => absurd rfl hne, fun path hpath => hpath⟩
      · simp [treeLib, treeGet]
      · simp [treeLib, treeGet, hne]
    rw [if_neg hroot] at h ⊢
    by_cases hmem : off = 1
    · subst hmem
      rw [if_pos rfl] at h ⊢
      cases hprops : t.memory with
      | none =>
        simp [hprops] at h
      | some props =>
        refine ⟨?_, fun name' hne => ?_, fun _ name' => rfl, fun path hpath => ?_⟩
        · simp [treeLib, treeGet]
        · simp [treeLib, treeGet, hprops, hne]
        · simpa [treeLib, treePath, hprops] using hpath
    simp [hmem] at h

theorem treeLib_documented : treeLib.Documented fun _ => True where
  header _ _ := Int.le_refl 0
  memory t _ := by
    simp only [treeLib, treePath, String.reduceEq, if_false]
    split_ifs <;> decide
  added t _ hmem hadd := by
    have hnone : t.memory = none := by
      cases hprops : t.memory with
      | none => rfl
      | some props =>
        simp [treeLib, treePath, hprops] at hmem
    by_cases hfull : t.room < 16
    · simp [treeLib, hnone, hfull] at hadd
    · simp [treeLib, treePath, treeGet, hnone, hfull]
  set t off name val _ _ hset := ⟨trivial, treeSet_isSet hset⟩

def wideTree : Tree where
  root name := if name = "#address-cells" ∨ name = "#size-cells" then some (be32Bytes 2) else none
  memory := some fun _ => none
  room := 100

theorem wideTree_cells : Cells treeLib wideTree "#address-cells" 2 ∧ Cells treeLib wideTree "#size-cells" 2 :=
  ⟨.inr ⟨by simp [treeLib, treeGet, wideTree], .inr rfl⟩, .inr ⟨by simp [treeLib, treeGet, wideTree], .inr rfl⟩⟩

theorem fdt_fixup_memory_describes_wide : (0 ≤ (fdtFixupMemory treeLib true wideTree 0 0x8000000).1 →
        Describes treeLib (fdtFixupMemory treeLib true wideTree 0 0x8000000).2 0 0x8000000) ↔
      0 ≤ treeLib.pathOffset wideTree "/memory" ∧ (true = true ∨ 2 ≠ 2 ∧ 2 ≠ 2) ∨
        NoRoom treeLib true wideTree 2 2 0 0x8000000 :=
  fdt_fixup_memory_describes_iff treeLib _ treeLib_documented true wideTree trivial 2 2 wideTree_cells.1
    wideTree_cells.2 0 0x8000000 (by decide) (by decide)

def bareTree : Tree := ⟨fun _ => none, none, 100⟩

/-- The node is added and left without properties; and a little-endian processor takes two cells for one. -/
theorem fdt_fixup_memory_says_nothing : (0 ≤ (fdtFixupMemory treeLib true bareTree 0 0x8000000).1 ∧
        ¬Describes treeLib (fdtFixupMemory treeLib true bareTree 0 0x8000000).2 0 0x8000000) ∧
      0 ≤ (fdtFixupMemory treeLib false wideTree 0 0x8000000).1 ∧
        ¬Describes treeLib (fdtFixupMemory treeLib false wideTree 0 0x8000000).2 0 0x8000000 := by
  refine ⟨⟨by decide, ?_⟩, by decide, ?_⟩
  · exact added_not_describes treeLib_documented trivial (by decide) (by decide)
  · rintro ⟨off, ac, sc, reg, rfl, -, -, hreg, hac, hsc, hlen, -⟩
    have hac' : Cells treeLib (fdtFixupMemory treeLib false wideTree 0 0x8000000).2 "#address-cells" 2 :=
      .inr ⟨by decide, .inr rfl⟩
    have hsc' : Cells treeLib (fdtFixupMemory treeLib false wideTree 0 0x8000000).2 "#size-cells" 2 :=
      .inr ⟨by decide, .inr rfl⟩
    cases hac.unique hac'
    cases hsc.unique hsc'
    have hshort : treeLib.getprop (fdtFixupMemory treeLib false wideTree 0 0x8000000).2
        (treeLib.pathOffset (fdtFixupMemory treeLib false wideTree 0 0x8000000).2 "/memory") "reg" =
          some [0, 0, 0, 0, 8, 0, 0, 0] := by decide
    cases hshort.symm.trans hreg
    cases hlen

end UBoot.FdtMemory
