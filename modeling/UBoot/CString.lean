import Mathlib.Algebra.GroupWithZero.Nat
import Mathlib.Data.List.Basic

namespace UBoot

open List

/-- A C string argument: its bytes before the terminating NUL. -/
structure CString where
  bytes : List UInt8
  nulFree : (0 : UInt8) ∉ bytes
deriving DecidableEq

def ascii (s : List Char) : List UInt8 := s.map fun c => UInt8.ofNat c.toNat

def equalsSign : UInt8 := 61
def blank : UInt8 := 32

/-- `strlen` from index `i` of a buffer: where the first NUL stands. -/
def strEnd : List UInt8 → Nat → Option Nat
  | [], _ => none
  | c :: cs, i => if c = 0 then some i else strEnd cs (i + 1)

/-- The string that starts at index `i` of a buffer. -/
def cstrAt (d : List UInt8) (i : Nat) : Option (List UInt8) := do
  let e ← strEnd (d.drop i) i
  pure ((d.drop i).take (e - i))

def isdigit (c : UInt8) : Bool := 48 ≤ c && c ≤ 57
def isxdigit (c : UInt8) : Bool := isdigit c || (65 ≤ c && c ≤ 70) || (97 ≤ c && c ≤ 102)

/-- Value of one digit; letters are folded to upper case before `- 'A' + 10`. -/
def digitValue (c : UInt8) : Nat :=
  if isdigit c then c.toNat - 48 else if 97 ≤ c then c.toNat - 97 + 10 else c.toNat - 65 + 10

def strtoulDigits (base : Nat) : List UInt8 → Nat → Nat × List UInt8
  | [], result => (result, [])
  | c :: cs, result =>
    if isxdigit c && digitValue c < base then
      strtoulDigits base cs ((result * base + digitValue c) % 2 ^ 32)
    else (result, c :: cs)

/-- `simple_strtoul`: the number and the rest of the string (`*endp`). A
leading `0` is eaten before the digits and `0x` changes even an explicit base. -/
def simpleStrtoul (s : List UInt8) (base : Nat) : Nat × List UInt8 :=
  match s with
  | 48 :: 120 :: c :: cs =>
    if isxdigit c then strtoulDigits 16 (c :: cs) 0
    else strtoulDigits (if base = 0 then 8 else base) (120 :: c :: cs) 0
  | 48 :: cs => strtoulDigits (if base = 0 then 8 else base) cs 0
  | cs => strtoulDigits (if base = 0 then 10 else base) cs 0

theorem strEnd_append {s t : List UInt8} {i : Nat} (h : (0 : UInt8) ∉ s) :
    strEnd (s ++ 0 :: t) i = some (i + s.length) := by
  induction s generalizing i with
  | nil => simp [strEnd]
  | cons c s ih =>
    have hc : c ≠ 0 := fun hz => h (by simp [hz])
    have hs : (0 : UInt8) ∉ s := fun hm => h (mem_cons_of_mem c hm)
    simp only [cons_append, strEnd, hc, if_false, ih hs, length_cons]
    congr 1
    omega

theorem cstrAt_append {p s t : List UInt8} (h : (0 : UInt8) ∉ s) :
    cstrAt (p ++ s ++ 0 :: t) p.length = some s := by
  simp [cstrAt, strEnd_append h]

theorem strEnd_some {d : List UInt8} {i e : Nat} (h : strEnd d i = some e) :
    ∃ s t, d = s ++ 0 :: t ∧ (0 : UInt8) ∉ s ∧ e = i + s.length := by
  induction d generalizing i with
  | nil => cases h
  | cons c d ih =>
    rw [strEnd] at h
    by_cases hc : c = 0
    · rw [if_pos hc] at h
      exact ⟨[], d, by rw [hc]; rfl, not_mem_nil, (Option.some.inj h).symm⟩
    · rw [if_neg hc] at h
      obtain ⟨s, t, rfl, hs, rfl⟩ := ih h
      refine ⟨c :: s, t, rfl, fun hm => ?_, by rw [length_cons]; omega⟩
      rcases mem_cons.mp hm with h0 | hm
      · exact hc h0.symm
      · exact hs hm

theorem cstrAt_some {d s : List UInt8} {i : Nat} (h : cstrAt d i = some s) :
    (0 : UInt8) ∉ s ∧ ∃ t, d.drop i = s ++ 0 :: t := by
  obtain ⟨e, he, h⟩ := Option.bind_eq_some_iff.mp h
  obtain ⟨v, t, hd, hv, rfl⟩ := strEnd_some he
  have hs : v = s := by
    rw [← Option.some.inj h, hd, Nat.add_sub_cancel_left, take_left]
  exact ⟨hs ▸ hv, t, hs ▸ hd⟩

theorem cstrAt_of_nul {d : List UInt8} {i : Nat} (h : d[i]? = some 0) :
    ∃ s t, cstrAt d 0 = some s ∧ d = s ++ 0 :: t ∧ (0 : UInt8) ∉ s ∧ s.length ≤ i := by
  obtain ⟨s, t, rfl, hs⟩ := eq_append_cons_of_mem (mem_of_getElem? h)
  refine ⟨s, t, cstrAt_append (p := []) hs, rfl, hs, ?_⟩
  by_contra hlt
  rw [List.getElem?_append_left (by omega)] at h
  exact hs (mem_of_getElem? h)

theorem takeWhile_nul (d rest : List UInt8) : (0 : UInt8) ∉ d.takeWhile (· ≠ 0) ∧
    ∃ t, d ++ 0 :: rest = d.takeWhile (· ≠ 0) ++ 0 :: t := by
  induction d with
  | nil => exact ⟨not_mem_nil, rest, rfl⟩
  | cons c d ih =>
    obtain ⟨hnul, t, ht⟩ := ih
    by_cases hc : c = 0
    · subst c
      exact ⟨not_mem_nil, d ++ 0 :: rest, rfl⟩
    · have htake : (c :: d).takeWhile (· ≠ 0) = c :: d.takeWhile (· ≠ 0) :=
        takeWhile_cons_of_pos (by simpa using hc)
      rw [htake, mem_cons, not_or]
      refine ⟨⟨fun h => hc h.symm, hnul⟩, t, ?_⟩
      rw [cons_append, cons_append, ht]

end UBoot
