import UBoot.Fdt
import Mathlib.Data.List.TakeWhile

namespace UBoot.Fdt

open FlashCells List Loops Words

/-- What is read of a tag in the bytes from it on: they are too few, or wrong, or a tag and the bytes it takes. -/
inductive Tok where
  | cut
  | bad
  | tag (t n : Nat)

def word (s : List UInt8) : Nat := be32 (fun i => s.getD i 0) 0

/-- The bytes of a tag, before they are filled up to a whole number of words. -/
def tokLength (s : List UInt8) : Option Nat :=
  if word s = beginNode then ((s.drop 4).findIdx? (· == 0)).map (· + 5)
  else if word s = propTag then if s.length < 8 then none else some (u32 (12 + word (s.drop 4)))
  else if word s = endTag ∨ word s = endNode ∨ word s = nopTag then some 4
  else none

def tok (s : List UInt8) : Tok :=
  if s.length < 4 then .cut
  else
    match tokLength s with
    | none => .bad
    | some n => if s.length < n then .bad else .tag (word s) (tagAlign n)

def Tok.next (k : Nat) : Tok → Nat × Nat
  | .cut => (endTag, truncated)
  | .bad => (endTag, badStructure)
  | .tag t n => (t, k + n)

/-- The structure block in memory, with its size in the header. -/
structure Block (m : Flash) (fdt : Nat) (s : List UInt8) : Prop where
  version : 17 ≤ version m fdt
  size : sizeDtStruct m fdt = s.length
  bytes : read m (fdt + offDtStruct m fdt) s.length = s
  low : fdt + offDtStruct m fdt + s.length < 2147483648

variable {m : Flash} {fdt k len n : Nat} {s a b : List UInt8}

theorem u32_of_lt (h : n < 4294967296) : u32 n = n := Nat.mod_eq_of_lt h

theorem be32_congr {m' : Flash} {a b : Nat} (h : ∀ i, i < 4 → m' (a + i) = m (b + i)) : be32 m' a = be32 m b := by
  have hhigh : be16 m' a = be16 m b := be16_congr (h 0 (by omega)) (h 1 (by omega))
  have hlow : be16 m' (a + 2) = be16 m (b + 2) := be16_congr (h 2 (by omega)) (h 3 (by omega))
  unfold be32
  rw [hhigh, hlow]

theorem word_append (h : 4 ≤ a.length) : word (a ++ b) = word a := by
  apply be32_congr
  intro i hi
  exact getD_append _ _ _ _ (by omega)

theorem word_read (h : 4 ≤ n) : word (read m k n) = be32 m k := by
  apply be32_congr
  intro i hi
  rw [Nat.zero_add, getD_read (by omega)]

theorem drop_read (m : Flash) (h : k ≤ n) (a : Nat) : (read m a n).drop k = read m (a + k) (n - k) := by
  have hall : ((read m a n).drop k).take (n - k) = read m (a + k) (n - k) := take_drop_read m (by omega)
  rwa [take_of_length_le (by simp)] at hall

theorem Block.drop (h : Block m fdt s) (hk : k ≤ s.length) :
    s.drop k = read m (fdt + offDtStruct m fdt + k) (s.length - k) := by
  rw [← drop_read m hk, h.bytes]

theorem Block.word (h : Block m fdt s) (hk : k + 4 ≤ s.length) :
    Fdt.word (s.drop k) = be32 m (fdt + offDtStruct m fdt + k) := by
  rw [h.drop (by omega), word_read (by omega)]

theorem Block.offsetPtr (h : Block m fdt s) (hk : k ≤ s.length) :
    Fdt.offsetPtr m fdt k = fdt + offDtStruct m fdt + k := by
  have hlow := h.low
  unfold Fdt.offsetPtr u32
  omega

theorem Block.fdtOffsetPtr (h : Block m fdt s) (hk : k < 4294967296) (hlen : len < 4294967296) :
    Fdt.fdtOffsetPtr m fdt k len =
      if k + len ≤ s.length then some (fdt + offDtStruct m fdt + k) else none := by
  have hlow := h.low
  have hver := h.version
  unfold Fdt.fdtOffsetPtr
  rw [h.size]
  by_cases hin : k + len ≤ s.length
  · rw [if_pos hin, h.offsetPtr (by omega), if_neg, if_neg]
    · unfold u32
      omega
    · unfold u32
      omega
  · rw [if_neg hin, if_pos]
    unfold u32
    omega

theorem Block.skipName (h : Block m fdt s) (hk : k ≤ s.length) (hn : s.length - k < n) :
    Fdt.skipName m fdt n k = ((s.drop k).findIdx? (· == 0)).map (· + (k + 1)) := by
  induction n generalizing k with
  | zero => omega
  | succ n ih =>
    have hlow := h.low
    unfold Fdt.skipName
    rw [h.fdtOffsetPtr (by omega) (by omega)]
    by_cases hlt : k < s.length
    · have hbyte : m (fdt + offDtStruct m fdt + k) = s[k] := by
        have hget := getD_read (m := m) (a := fdt + offDtStruct m fdt) hlt 0
        rw [h.bytes, getD_eq_getElem _ _ hlt] at hget
        exact hget.symm
      rw [if_pos (by omega), Option.bind_some, hbyte, drop_eq_getElem_cons hlt, List.findIdx?_cons]
      by_cases hzero : s[k] = 0
      · simp only [hzero, if_true]
        unfold u32
        simp
        omega
      · rw [if_neg hzero, u32_of_lt (by omega), ih (by omega) (by omega)]
        simp only [hzero, beq_iff_eq, if_false, Option.map_map]
        congr 1
        funext i
        simp
        omega
    · rw [if_neg (by omega), drop_eq_nil_of_le (by omega)]
      rfl

theorem tokLength_lt (h : tokLength s = some n) (hs : s.length < 2147483648) : n < 4294967296 := by
  unfold tokLength at h
  split_ifs at h
  · obtain ⟨i, hi, rfl⟩ := Option.map_eq_some_iff.mp h
    have hlt := (List.findIdx?_eq_some_iff_findIdx_eq.mp hi).1
    rw [length_drop] at hlt
    omega
  · cases h
    exact Nat.mod_lt _ (by decide)
  · cases h
    decide

theorem Block.skipTag (h : Block m fdt s) (hk : k + 4 ≤ s.length) :
    Fdt.skipTag m fdt (Fdt.word (s.drop k)) (k + 4) = (tokLength (s.drop k)).map fun n => u32 (k + n) := by
  have hlow := h.low
  unfold Fdt.skipTag tokLength
  by_cases hb : Fdt.word (s.drop k) = beginNode
  · rw [if_pos hb, if_pos hb, h.skipName hk (by omega), drop_drop, Option.map_map]
    cases hi : (s.drop (k + 4)).findIdx? (· == 0) with
    | none => rfl
    | some i =>
      have hlt := (List.findIdx?_eq_some_iff_findIdx_eq.mp hi).1
      rw [length_drop] at hlt
      simp only [Option.map_some, Function.comp_apply, u32]
      congr 1
      omega
  · rw [if_neg hb, if_neg hb]
    by_cases hp : Fdt.word (s.drop k) = propTag
    · rw [if_pos hp, if_pos hp, h.fdtOffsetPtr (by omega) (by omega), length_drop]
      by_cases hin : k + 8 ≤ s.length
      · rw [if_pos (by omega), if_neg (by omega), drop_drop, h.word (by omega)]
        simp only [Option.map_some, u32]
        congr 1
        rw [show fdt + offDtStruct m fdt + (k + 4) = fdt + offDtStruct m fdt + (4 + k) by omega]
        omega
      · rw [if_neg (by omega), if_pos (by omega)]
        rfl
    · rw [if_neg hp, if_neg hp]
      split_ifs
      · simp only [Option.map_some, u32]
        congr 1
        omega
      · rfl

theorem tagAlign_add (hk : k % 4 = 0) (h : k + n < 4294967292) : tagAlign (k + n) = k + tagAlign n := by
  unfold tagAlign u32
  omega

theorem Block.nextTag (h : Block m fdt s) (hk : k ≤ s.length) (h₄ : k % 4 = 0) :
    fdtNextTag m fdt k = (tok (s.drop k)).next k := by
  have hlow := h.low
  unfold fdtNextTag tok
  rw [h.fdtOffsetPtr (by omega) (by omega), length_drop]
  by_cases hin : k + 4 ≤ s.length
  · rw [if_pos hin, if_neg (by omega)]
    dsimp only
    rw [← h.word hin, u32_of_lt (show k + 4 < _ by omega), h.skipTag hin]
    cases hn : tokLength (s.drop k) with
    | none => rfl
    | some n =>
      have hlt := tokLength_lt hn (by rw [length_drop]; omega)
      dsimp only [Option.map_some]
      rw [show u32 (u32 (k + n) + 4294967296 - k) = n by unfold u32; omega, h.fdtOffsetPtr (by omega) hlt]
      by_cases hfit : k + n ≤ s.length
      · rw [if_pos hfit, if_neg (by omega)]
        dsimp only [Tok.next]
        rw [u32_of_lt (by omega), tagAlign_add h₄ (by omega)]
      · rw [if_neg hfit, if_pos (by omega)]
        rfl
  · rw [if_neg hin, if_pos (by omega)]
    rfl

theorem findIdx?_prefix {p : UInt8 → Bool} {xs ys : List UInt8} {i : Nat} (h : xs.findIdx? p = some i)
    (hpre : xs.take (i + 1) <+: ys) : ys.findIdx? p = some i := by
  have htake : (xs.take (i + 1)).findIdx? p = some i := by
    rw [← take_append_drop (i + 1) xs, List.findIdx?_append] at h
    cases hi : (xs.take (i + 1)).findIdx? p with
    | some j => rwa [hi] at h
    | none =>
      rw [hi, Option.none_or] at h
      obtain ⟨j, hj, hji⟩ := Option.map_eq_some_iff.mp h
      have hlt := (List.findIdx?_eq_some_iff_findIdx_eq.mp hj).1
      rw [length_drop] at hlt
      rw [length_take] at hji
      omega
  obtain ⟨rest, rfl⟩ := hpre
  rw [List.findIdx?_append, htake]
  rfl

theorem take_take_append {i : Nat} (h : i ≤ k) (rest : List UInt8) : s.take i <+: s.take k ++ rest := by
  rw [← min_eq_left h, ← take_take]
  exact (List.take_prefix _ _).trans (prefix_append _ _)

theorem tokLength_word (h : tokLength s = some n) :
    word s = beginNode ∧ 5 ≤ n ∨ word s = propTag ∧ 8 ≤ s.length ∨ n = 4 := by
  unfold tokLength at h
  split_ifs at h with hb hp hs ht
  · obtain ⟨i, -, rfl⟩ := Option.map_eq_some_iff.mp h
    exact .inl ⟨hb, by omega⟩
  · exact .inr (.inl ⟨hp, by omega⟩)
  · cases h
    exact .inr (.inr rfl)

theorem word_take_append (hk : 4 ≤ k) (hs : k ≤ s.length) (rest : List UInt8) : word (s.take k ++ rest) = word s := by
  rw [word_append (by rw [length_take]; omega)]
  conv => rhs; rw [← take_append_drop k s]
  rw [word_append (by rw [length_take]; omega)]

theorem tokLength_take (h : tokLength s = some n) (hn : n ≤ k) (hk : k ≤ s.length) (h₄ : 4 ≤ k)
    (h₈ : word s = propTag → 8 ≤ k) (rest : List UInt8) : tokLength (s.take k ++ rest) = some n := by
  have hword := word_take_append h₄ hk rest
  have hlen : (s.take k ++ rest).length = k + rest.length := by
    rw [length_append, length_take, min_eq_left hk]
  have hdrop : (s.take k ++ rest).drop 4 = (s.drop 4).take (k - 4) ++ rest := by
    rw [drop_append_of_le_length (by rw [length_take]; omega), drop_take]
  unfold tokLength at h ⊢
  rw [hword]
  split_ifs at h ⊢ with hb hp hs hs' hs'
  · obtain ⟨i, hi, rfl⟩ := Option.map_eq_some_iff.mp h
    rw [hdrop, findIdx?_prefix hi (take_take_append (by omega) rest)]
    rfl
  · have := h₈ hp
    omega
  · have := h₈ hp
    rw [hdrop, word_take_append (by omega) (by rw [length_drop]; omega)]
    exact h
  · exact h

theorem tok_tag {t : Nat} (h : tok s = .tag t n) :
    4 ≤ s.length ∧ t = word s ∧ ∃ j, tokLength s = some j ∧ j ≤ s.length ∧ n = tagAlign j := by
  unfold tok at h
  split_ifs at h with hshort
  cases hlen : tokLength s with
  | none =>
    rw [hlen] at h
    cases h
  | some j =>
    rw [hlen] at h
    dsimp only at h
    split_ifs at h with hj
    cases h
    exact ⟨by omega, rfl, j, rfl, by omega, rfl⟩

theorem tok_take {t : Nat} (h : tok s = .tag t n) (hs : s.length < 2147483648) (hn : n ≤ s.length) (h₀ : 4 ≤ n)
    (h₈ : t = propTag → 8 ≤ n) (rest : List UInt8) : tok (s.take n ++ rest) = .tag t n := by
  obtain ⟨h₄, rfl, j, hlen, hj, rfl⟩ := tok_tag h
  have hle : j ≤ tagAlign j := by
    unfold tagAlign u32
    omega
  have htake : (s.take (tagAlign j) ++ rest).length = tagAlign j + rest.length := by
    rw [length_append, length_take, min_eq_left hn]
  unfold tok
  rw [tokLength_take hlen hle hn h₀ h₈, word_take_append h₀ hn, htake, if_neg (by omega)]
  dsimp only
  rw [if_neg (by omega)]

/-- A tag with what belongs to it. -/
structure Piece where
  tag : Nat
  bytes : List UInt8
  aligned : bytes.length % 4 = 0
  notEnd : tag ≠ endTag
  closed : ∀ rest, tok (bytes ++ rest) = .tag tag bytes.length

def bytesOf (ps : List Piece) : List UInt8 := ps.flatMap Piece.bytes

/-- The pieces end here: with a last tag, or with something that is no tag, or with a property that takes fewer bytes
than its own length. -/
def Stops (s : List UInt8) : Prop := ∀ t n, tok s = .tag t n → t = endTag ∨ t = propTag ∧ n < 8

/-- The end is one that the searches expect. -/
def Clean (s : List UInt8) : Prop := tok s = .cut ∨ ∃ n, tok s = .tag endTag n

@[simp] theorem bytesOf_nil : bytesOf [] = [] := rfl

@[simp] theorem bytesOf_cons (p : Piece) (ps : List Piece) : bytesOf (p :: ps) = p.bytes ++ bytesOf ps := rfl

@[simp] theorem bytesOf_append (ps qs : List Piece) : bytesOf (ps ++ qs) = bytesOf ps ++ bytesOf qs :=
  flatMap_append

theorem bytesOf_aligned (ps : List Piece) : (bytesOf ps).length % 4 = 0 := by
  induction ps with
  | nil => rfl
  | cons p ps ih =>
    have hp := p.aligned
    rw [bytesOf_cons, length_append]
    omega

theorem pieces_exist (h₄ : s.length % 4 = 0) (hs : s.length < 2147483648) :
    ∃ ps stop, s = bytesOf ps ++ stop ∧ Stops stop := by
  induction hlen : s.length using Nat.strong_induction_on generalizing s with
  | _ l ih =>
    by_cases hstop : Stops s
    · exact ⟨[], s, rfl, hstop⟩
    · obtain ⟨t, n, htok, hmore⟩ : ∃ t n, tok s = .tag t n ∧ ¬(t = endTag ∨ t = propTag ∧ n < 8) := by
        simpa only [Stops, not_forall, exists_prop] using hstop
      obtain ⟨hshort, ht, j, hj, hjs, hn⟩ := tok_tag htok
      have h₈ : t = propTag → 8 ≤ n := by
        intro hp
        by_contra hlt
        exact hmore (.inr ⟨hp, by omega⟩)
      have hn₄ : n % 4 = 0 ∧ n ≤ s.length ∧ 4 ≤ n := by
        have hj₄ : 4 ≤ j ∨ t = propTag := by
          rcases tokLength_word hj with ⟨-, h₅⟩ | ⟨hp, -⟩ | h
          · exact .inl (by omega)
          · exact .inr (ht.trans hp)
          · exact .inl (by omega)
        unfold tagAlign u32 at hn
        rcases hj₄ with hj₄ | hp
        · omega
        · have := h₈ hp
          omega
      obtain ⟨haligned, hfits, h₀⟩ := hn₄
      have hdrop : (s.drop n).length = s.length - n := length_drop
      obtain ⟨ps, stop, hps, hstops⟩ := ih (s.drop n).length (by omega) (by omega) (by omega) rfl
      have htake : (s.take n).length = n := length_take_of_le hfits
      refine ⟨⟨t, s.take n, by rw [htake]; exact haligned, fun he => hmore (.inl he), fun rest => ?_⟩ :: ps, stop, ?_,
        hstops⟩
      · rw [htake]
        exact tok_take htok hs hfits h₀ h₈ rest
      · rw [bytesOf_cons, append_assoc, ← hps, take_append_drop]

section Walk

variable {ps : List Piece} {p : Piece} {stop name : List UInt8} {off r : Nat} {found : Nat → Comp (Option Nat)}

/-- The offset of a node with which the functions go on. -/
structure Node (m : Flash) (fdt off : Nat) : Prop where
  nonneg : neg off = false
  aligned : off % 4 = 0
  tag : (fdtNextTag m fdt off).1 = beginNode
  behind : neg (fdtNextTag m fdt off).2 = false

theorem begin_ne_end : beginNode ≠ endTag := by decide

theorem nextTag_aligned (h : (fdtNextTag m fdt k).1 ≠ endTag) : (fdtNextTag m fdt k).2 % 4 = 0 := by
  unfold fdtNextTag at h ⊢
  split
  next htag => exact absurd (by rw [htag]) h
  next tagp htag =>
    split
    next hskip => exact absurd (by simp only [htag, hskip]) h
    next offset hskip =>
      split
      next hin => exact absurd (by simp only [htag, hskip, hin]) h
      · exact Nat.mul_mod_left _ 4

theorem notFound_of_aligned (h : k % 4 = 0) : k ≠ notFound := by
  rintro rfl
  exact absurd h (by decide)

theorem checkNodeOffset_node (h : Node m fdt off) : checkNodeOffset m fdt off = (fdtNextTag m fdt off).2 := by
  unfold checkNodeOffset
  rw [if_neg]
  simp [h.nonneg, h.aligned, h.tag]

theorem fdtNextNode_node (h : Node m fdt off) :
    fdtNextNode m fdt off = nodeFrom m fdt (fdtNextTag m fdt off).2 := by
  unfold fdtNextNode
  rw [checkNodeOffset_node h, h.nonneg, h.behind]
  rfl

theorem fdtNextNode_start (h : neg off = true) : fdtNextNode m fdt off = nodeFrom m fdt 0 := if_pos h

theorem nodeFrom_here (h : (fdtNextTag m fdt k).1 = beginNode) : (nodeFrom m fdt k).Returns k :=
  returns_end (if_pos h)

theorem nodeFrom_end (h : (fdtNextTag m fdt k).1 = endTag) :
    (nodeFrom m fdt k).Returns (if neg (fdtNextTag m fdt k).2 ∧ (fdtNextTag m fdt k).2 ≠ truncated then
      (fdtNextTag m fdt k).2 else notFound) := by
  apply returns_end
  unfold nodeRound
  rw [if_neg (fun hb => begin_ne_end (hb.symm.trans h)), if_pos h]

theorem nodeFrom_other (hb : (fdtNextTag m fdt k).1 ≠ beginNode) (he : (fdtNextTag m fdt k).1 ≠ endTag) :
    (nodeFrom m fdt k).Returns r ↔ (nodeFrom m fdt (fdtNextTag m fdt k).2).Returns r := by
  have hround : (Comp.pure (nodeRound m fdt k)).Returns (.inl (fdtNextTag m fdt k).2) := by
    unfold nodeRound
    rw [if_neg hb, if_neg he]
    exact Comp.returns_pure _
  exact ⟨fun h => Comp.Returns.behind h hround, fun h => Comp.loop_again hround h⟩

theorem propertyFrom_done {a : Except Nat Nat} (h : propertyRound m fdt name k = .inr a) :
    (propertyFrom m fdt name k).Returns a := returns_end h

theorem propertyFrom_again {a : Except Nat Nat} (h : propertyRound m fdt name k = .inl j)
    (hr : (propertyFrom m fdt name j).Returns a) : (propertyFrom m fdt name k).Returns a := returns_round h hr

theorem nextTag_ne_notFound (k : Nat) : (fdtNextTag m fdt k).2 ≠ notFound := by
  by_cases h : (fdtNextTag m fdt k).1 = endTag
  · unfold fdtNextTag
    split
    · decide
    next tagp htag =>
      split
      · decide
      next offset hskip =>
        split
        · decide
        · exact notFound_of_aligned (Nat.mul_mod_left _ 4)
  · exact notFound_of_aligned (nextTag_aligned h)

theorem fdtGetProperty_node (hh : fdtCheckHeader m fdt = 0) (hn : Node m fdt off) :
    fdtGetProperty m fdt off name = propertyFrom m fdt name (fdtNextTag m fdt off).2 := by
  unfold fdtGetProperty
  rw [if_neg (not_not.mpr hh), checkNodeOffset_node hn, hn.behind]
  rfl

theorem searchFrom_neg (h : neg off = true) : (searchFrom m fdt found off).Returns off := by
  apply Comp.loop_done
  rw [if_pos h]
  exact Comp.returns_pure _

theorem searchFrom_found (h : neg off = false) (hf : (found off).Returns (some r)) :
    (searchFrom m fdt found off).Returns r := by
  apply Comp.loop_done
  rw [if_neg (by simp [h])]
  exact Comp.returns_bind.mpr ⟨some r, hf, Comp.returns_pure _⟩

theorem searchFrom_skip (h : neg off = false) (hf : (found off).Returns none)
    (hr : ((fdtNextNode m fdt off).bind (searchFrom m fdt found)).Returns r) :
    (searchFrom m fdt found off).Returns r := by
  obtain ⟨next, hnext, hr⟩ := Comp.returns_bind.mp hr
  refine Comp.loop_again ?_ hr
  rw [if_neg (by simp [h])]
  exact Comp.returns_bind.mpr ⟨none, hf, Comp.returns_bind.mpr ⟨next, hnext, Comp.returns_pure _⟩⟩

theorem checkHeader_error (h : fdtCheckHeader m fdt ≠ 0) :
    neg (fdtCheckHeader m fdt) = true ∧ fdtCheckHeader m fdt ≠ notFound := by
  unfold fdtCheckHeader at h ⊢
  split_ifs at h ⊢ <;> first | exact absurd rfl h | exact ⟨by decide, by decide⟩

theorem searchNodes_start (h : fdtCheckHeader m fdt = 0) (hoff : neg off = true) :
    searchNodes m fdt found off = (nodeFrom m fdt 0).bind (searchFrom m fdt found) := by
  unfold searchNodes
  rw [if_neg (not_not.mpr h), fdtNextNode_start hoff]

theorem Block.nextTag_at (h : Block m fdt (a ++ b)) (ha : a.length % 4 = 0) :
    fdtNextTag m fdt a.length = (tok b).next a.length := by
  rw [h.nextTag (by rw [length_append]; omega) ha, drop_left]

theorem Block.nextTag_piece (h : Block m fdt (a ++ (p.bytes ++ b))) (ha : a.length % 4 = 0) :
    fdtNextTag m fdt a.length = (p.tag, (a ++ p.bytes).length) := by
  rw [h.nextTag_at ha, p.closed, length_append]
  rfl

theorem neg_of_lt (h : k < 2147483648) : neg k = false := by
  unfold neg
  simp [h]

theorem Block.node (h : Block m fdt (a ++ (p.bytes ++ b))) (ha : a.length % 4 = 0) (hp : p.tag = beginNode) :
    Node m fdt a.length := by
  have hlow := h.low
  have htag := h.nextTag_piece ha
  simp only [length_append] at hlow
  refine ⟨neg_of_lt (by omega), ha, ?_, neg_of_lt ?_⟩
  · rw [htag, hp]
  · rw [htag, length_append]
    omega

theorem aligned_append (ha : a.length % 4 = 0) (hb : b.length % 4 = 0) : (a ++ b).length % 4 = 0 := by
  rw [length_append]
  omega

theorem tagAlign_aligned (k : Nat) : tagAlign k % 4 = 0 := Nat.mul_mod_left _ 4

theorem prop_ne_begin : propTag ≠ beginNode := by decide
theorem prop_ne_end : propTag ≠ endTag := by decide

theorem short_property (h : tok b = .tag propTag n) (hn : n < 8) : n = 0 ∨ n = 4 ∧ tok (b.drop 4) = .bad := by
  obtain ⟨h₄, hword, j, hj, hjs, rfl⟩ := tok_tag h
  have haligned := tagAlign_aligned j
  by_cases hzero : tagAlign j = 0
  · exact .inl hzero
  · refine .inr ⟨by omega, ?_⟩
    unfold tokLength at hj
    rw [if_neg (fun hb => absurd (hword.trans hb) (by decide)), if_pos hword.symm] at hj
    split_ifs at hj with h₈
    have hj := Option.some.inj hj
    have hrange : 4294967285 ≤ word (b.drop 4) := by
      unfold tagAlign u32 at *
      omega
    have hnone : tokLength (b.drop 4) = none := by
      unfold tokLength beginNode propTag endTag endNode nopTag
      rw [if_neg (by omega), if_neg (by omega), if_neg (by omega)]
    unfold tok
    rw [if_neg (by rw [length_drop]; omega), hnone]

theorem stop_end (h : Block m fdt (a ++ stop)) (ha : a.length % 4 = 0) (hc : Clean stop) :
    (fdtNextTag m fdt a.length).1 = endTag ∧
      (neg (fdtNextTag m fdt a.length).2 = true → (fdtNextTag m fdt a.length).2 = truncated) := by
  rw [h.nextTag_at ha]
  rcases hc with hcut | ⟨n, htag⟩
  · rw [hcut]
    exact ⟨rfl, fun _ => rfl⟩
  · rw [htag]
    refine ⟨rfl, fun hneg => ?_⟩
    have hlow := h.low
    rw [length_append] at hlow
    obtain ⟨-, hword, j, hj, -, rfl⟩ := tok_tag htag
    have hshort : tagAlign j = 4 := by
      rcases tokLength_word hj with ⟨hb, -⟩ | ⟨hp, -⟩ | rfl
      · exact absurd (hword.trans hb) (by decide)
      · exact absurd (hword.trans hp) (by decide)
      · rfl
    obtain ⟨hlen, -⟩ := tok_tag htag
    change neg (a.length + tagAlign j) = true at hneg
    rw [hshort, neg_of_lt (by omega)] at hneg
    cases hneg

theorem stop_short (h : Block m fdt (a ++ stop)) (ha : a.length % 4 = 0) (htok : tok stop = .tag propTag 4)
    (hbad : tok (stop.drop 4) = .bad) : fdtNextTag m fdt (a.length + 4) = (endTag, badStructure) := by
  obtain ⟨hlen, -⟩ := tok_tag htok
  rw [h.nextTag (by rw [length_append]; omega) (by omega), drop_length_add_append, hbad]
  rfl

theorem nodeFrom_over (h : Block m fdt (a ++ (bytesOf ps ++ b))) (ha : a.length % 4 = 0)
    (hps : ∀ p ∈ ps, p.tag ≠ beginNode) :
    (nodeFrom m fdt a.length).Returns r ↔ (nodeFrom m fdt (a ++ bytesOf ps).length).Returns r := by
  induction ps generalizing a with
  | nil => rw [bytesOf_nil, append_nil]
  | cons p ps ih =>
    rw [bytesOf_cons, append_assoc] at h
    have htag := h.nextTag_piece ha
    rw [← append_assoc] at h
    have hstep : (nodeFrom m fdt a.length).Returns r ↔ (nodeFrom m fdt (fdtNextTag m fdt a.length).2).Returns r :=
      nodeFrom_other (by rw [htag]; exact hps p mem_cons_self) (by rw [htag]; exact p.notEnd)
    rw [htag] at hstep
    rw [hstep, bytesOf_cons, ← append_assoc]
    exact ih h (aligned_append ha p.aligned) fun q hq => hps q (mem_cons_of_mem _ hq)

theorem stop_clean (h : Block m fdt (a ++ stop)) (ha : a.length % 4 = 0) (hc : Clean stop) :
    (nodeFrom m fdt a.length).Returns notFound := by
  obtain ⟨hend, ht⟩ := stop_end h ha hc
  have hr := nodeFrom_end hend
  rwa [if_neg fun hneg => hneg.2 (ht hneg.1)] at hr

theorem stop_astray (h : Block m fdt (a ++ stop)) (ha : a.length % 4 = 0) (hs : Stops stop) (hc : ¬Clean stop)
    (hr : (nodeFrom m fdt a.length).Returns r) : neg r = true ∧ r ≠ notFound := by
  have hbad : ∀ k, fdtNextTag m fdt k = (endTag, badStructure) → (nodeFrom m fdt k).Returns r →
      neg r = true ∧ r ≠ notFound := by
    intro k htag hk
    have hend := nodeFrom_end (show (fdtNextTag m fdt k).1 = endTag by rw [htag])
    rw [htag] at hend
    rw [hk.unique hend]
    decide
  have htag := h.nextTag_at ha
  cases htok : tok stop with
  | cut => exact absurd (.inl htok) hc
  | bad => exact hbad _ (by rw [htag, htok]; rfl) hr
  | tag t j =>
    rw [htok] at htag
    rcases hs t j htok with rfl | ⟨rfl, hj⟩
    · exact absurd (.inr ⟨j, htok⟩) hc
    · have hround : nodeRound m fdt a.length = .inl (a.length + j) := by
        unfold nodeRound
        rw [htag]
        rfl
      rcases short_property htok hj with rfl | ⟨rfl, hbehind⟩
      · refine absurd ⟨r, hr⟩ (Comp.loop_for_ever (fun k => k = a.length) (fun k hk => ⟨a.length, ?_, rfl⟩) rfl)
        rw [hk, hround]
        exact Comp.returns_pure _
      · refine hbad _ (stop_short h ha htok hbehind) (Comp.Returns.behind hr ?_)
        rw [hround]
        exact Comp.returns_pure _

end Walk

/-- A node: its name, its properties, and the tags behind them up to the next node. -/
structure Item where
  head : Piece
  run : List Piece
  tail : List Piece
  head_tag : head.tag = beginNode
  run_tag : ∀ p ∈ run, p.tag = propTag ∨ p.tag = nopTag
  tail_tag : ∀ p ∈ tail, p.tag ≠ beginNode
  tail_first : ∀ p, tail.head? = some p → p.tag ≠ propTag ∧ p.tag ≠ nopTag

def Item.bytes (i : Item) : List UInt8 := i.head.bytes ++ (bytesOf i.run ++ bytesOf i.tail)

def itemBytes (items : List Item) : List UInt8 := items.flatMap Item.bytes

/-- The whole of a structure block. -/
structure View where
  pre : List Piece
  items : List Item
  stop : List UInt8
  pre_tag : ∀ p ∈ pre, p.tag ≠ beginNode
  stops : Stops stop

def View.bytes (v : View) : List UInt8 := bytesOf v.pre ++ (itemBytes v.items ++ v.stop)

section Items

variable {items done todo : List Item} {cur : Item} {stop : List UInt8} {ok : Nat → Prop} {off : Nat}

@[simp] theorem itemBytes_nil : itemBytes [] = [] := rfl

@[simp] theorem itemBytes_cons (i : Item) (is : List Item) : itemBytes (i :: is) = i.bytes ++ itemBytes is := rfl

@[simp] theorem itemBytes_append (is js : List Item) : itemBytes (is ++ js) = itemBytes is ++ itemBytes js :=
  flatMap_append

theorem Item.bytes_aligned (i : Item) : i.bytes.length % 4 = 0 := by
  have hhead := i.head.aligned
  have hrun := bytesOf_aligned i.run
  have htail := bytesOf_aligned i.tail
  rw [Item.bytes, length_append, length_append]
  omega

theorem itemBytes_aligned (items : List Item) : (itemBytes items).length % 4 = 0 := by
  induction items with
  | nil => rfl
  | cons i is ih => exact aligned_append i.bytes_aligned ih

theorem Item.behind_tag (i : Item) : ∀ p ∈ i.run ++ i.tail, p.tag ≠ beginNode := by
  intro p hp
  rcases mem_append.mp hp with hp | hp
  · rcases i.run_tag p hp with h | h <;> rw [h] <;> decide
  · exact i.tail_tag p hp

theorem items_exist (ps : List Piece) :
    ∃ pre items, bytesOf ps = bytesOf pre ++ itemBytes items ∧ ∀ p ∈ pre, p.tag ≠ beginNode := by
  induction ps with
  | nil => exact ⟨[], [], rfl, by simp⟩
  | cons p ps ih =>
    obtain ⟨pre, items, hps, hpre⟩ := ih
    by_cases hp : p.tag = beginNode
    · let inRun : Piece → Bool := fun q => decide (q.tag = propTag ∨ q.tag = nopTag)
      refine ⟨[], ⟨p, pre.takeWhile inRun, pre.dropWhile inRun, hp, fun q hq => ?_, fun q hq => ?_, fun q hq => ?_⟩ ::
        items, ?_, by simp⟩
      · simpa [inRun] using mem_takeWhile_imp hq
      · exact hpre q ((dropWhile_sublist _).mem hq)
      · have hnot := List.head?_dropWhile_not inRun pre
        rw [hq] at hnot
        simpa [inRun] using hnot
      · rw [bytesOf_cons, hps, bytesOf_nil, nil_append, itemBytes_cons, Item.bytes, ← bytesOf_append,
          takeWhile_append_dropWhile, append_assoc]
    · refine ⟨p :: pre, items, by rw [bytesOf_cons, bytesOf_cons, hps, append_assoc], fun q hq => ?_⟩
      rcases mem_cons.mp hq with rfl | hq
      · exact hp
      · exact hpre q hq

theorem view_exists (h₄ : s.length % 4 = 0) (hs : s.length < 2147483648) :
    ∃ v : View, v.bytes = s := by
  obtain ⟨ps, stop, rfl, hstop⟩ := pieces_exist h₄ hs
  obtain ⟨pre, items, hps, hpre⟩ := items_exist ps
  exact ⟨⟨pre, items, stop, hpre, hstop⟩, by rw [View.bytes, hps, append_assoc]⟩

theorem item_node (h : Block m fdt (a ++ (itemBytes (cur :: todo) ++ stop))) (ha : a.length % 4 = 0) :
    Node m fdt a.length ∧ (fdtNextTag m fdt a.length).2 = (a ++ cur.head.bytes).length := by
  rw [itemBytes_cons, Item.bytes, append_assoc, append_assoc] at h
  refine ⟨h.node ha cur.head_tag, ?_⟩
  rw [h.nextTag_piece ha]

theorem item_over (h : Block m fdt (a ++ (itemBytes (cur :: todo) ++ stop))) (ha : a.length % 4 = 0) :
    Block m fdt ((a ++ cur.head.bytes) ++ (bytesOf (cur.run ++ cur.tail) ++ (itemBytes todo ++ stop))) ∧
      (a ++ cur.head.bytes).length % 4 = 0 ∧
      (a ++ cur.head.bytes) ++ bytesOf (cur.run ++ cur.tail) = a ++ cur.bytes := by
  refine ⟨?_, aligned_append ha cur.head.aligned, ?_⟩
  · rw [itemBytes_cons, Item.bytes] at h
    rw [bytesOf_append]
    simpa only [append_assoc] using h
  · rw [bytesOf_append, Item.bytes, append_assoc]

theorem behind_item (h : Block m fdt (a ++ (itemBytes (cur :: todo) ++ stop))) :
    Block m fdt ((a ++ cur.bytes) ++ (itemBytes todo ++ stop)) := by
  simpa only [itemBytes_cons, append_assoc] using h

theorem next_iff {r : Nat} (h : Block m fdt (a ++ (itemBytes (cur :: todo) ++ stop))) (ha : a.length % 4 = 0) :
    (fdtNextNode m fdt a.length).Returns r ↔ (nodeFrom m fdt (a ++ cur.bytes).length).Returns r := by
  obtain ⟨hnode, hnext⟩ := item_node h ha
  obtain ⟨hblock, haligned, hbytes⟩ := item_over h ha
  rw [fdtNextNode_node hnode, hnext, nodeFrom_over hblock haligned cur.behind_tag, hbytes]

end Items

end UBoot.Fdt
