import UBoot.CString

namespace UBoot

open List

/-- One variable of the environment; a name can hold neither `=` nor NUL. -/
structure Entry where
  name : CString
  value : CString
  plain : equalsSign ∉ name.bytes

def Entry.body (e : Entry) : List UInt8 := e.name.bytes ++ equalsSign :: e.value.bytes

def Entry.line (e : Entry) : List UInt8 := e.body ++ [0]

/-- The data area's text: the `name=value` strings, each with its NUL. -/
def lines (es : List Entry) : List UInt8 := es.flatMap Entry.line

/-- `d` starts with the strings of `es` and the empty string that closes the
list; an empty list too is closed by two NULs. -/
structure Holds (d : List UInt8) (es : List Entry) : Prop where
  text : ∃ rest, d = lines es ++ 0 :: rest ∧ (es = [] → rest.head? = some 0)
  distinct : (es.map Entry.name).Nodup

@[simp] theorem lines_nil : lines [] = [] := rfl

@[simp] theorem lines_cons (e : Entry) (es : List Entry) : lines (e :: es) = e.line ++ lines es := rfl

@[simp] theorem lines_append (as bs : List Entry) : lines (as ++ bs) = lines as ++ lines bs := by
  simp [lines]

theorem Entry.line_length (e : Entry) : e.line.length = e.name.bytes.length + e.value.bytes.length + 2 := by
  simp only [Entry.line, Entry.body, length_append, length_cons, length_nil]
  omega

theorem length_le_lines (es : List Entry) : es.length ≤ (lines es).length := by
  induction es with
  | nil => simp
  | cons e es ih =>
    have := e.line_length
    simp only [lines_cons, length_cons, length_append]
    omega

theorem Entry.body_nulFree (e : Entry) : (0 : UInt8) ∉ e.body := by
  intro h
  rcases mem_append.mp h with h | h
  · exact e.name.nulFree h
  · rcases mem_cons.mp h with h | h
    · exact absurd h (by decide)
    · exact e.value.nulFree h

theorem Entry.line_cons (e : Entry) : ∃ c t, e.line = c :: t ∧ c ≠ 0 := by
  cases hn : e.name.bytes with
  | nil => exact ⟨equalsSign, e.value.bytes ++ [0], by simp [Entry.line, Entry.body, hn], by decide⟩
  | cons c t =>
    refine ⟨c, t ++ equalsSign :: (e.value.bytes ++ [0]), by simp [Entry.line, Entry.body, hn], ?_⟩
    exact fun hz => e.name.nulFree (by simp [hn, hz])

theorem lines_head (es : List Entry) (rest : List UInt8) :
    ∃ c t, lines es ++ 0 :: rest = c :: t ∧ (c = 0 ↔ es = []) := by
  cases es with
  | nil => exact ⟨0, rest, rfl, by simp⟩
  | cons e es =>
    obtain ⟨c, t, hl, hc⟩ := e.line_cons
    exact ⟨c, t ++ lines es ++ 0 :: rest, by simp [hl], by simp [hc]⟩

def Tight : List UInt8 → Prop
  | [] => False
  | [c] => c = 0
  | c :: c' :: cs => (c = 0 → c' ≠ 0) ∧ Tight (c' :: cs)

theorem tight_cons {c : UInt8} {cs : List UInt8} (hc : c ≠ 0) (h : Tight cs) : Tight (c :: cs) := by
  cases cs with
  | nil => exact h.elim
  | cons c' cs => exact ⟨fun hz => absurd hz hc, h⟩

theorem tight_append {s t : List UInt8} (hs : (0 : UInt8) ∉ s) (ht : Tight t) : Tight (s ++ t) := by
  induction s with
  | nil => exact ht
  | cons c s ih =>
    have hc : c ≠ 0 := fun hz => hs (by simp [hz])
    exact tight_cons hc (ih fun hm => hs (mem_cons_of_mem c hm))

theorem tight_lines (e : Entry) (es : List Entry) : Tight (lines (e :: es)) := by
  induction es generalizing e with
  | nil =>
    simp only [lines_cons, lines_nil, append_nil, Entry.line]
    exact tight_append e.body_nulFree rfl
  | cons e' es ih =>
    rw [lines_cons, Entry.line, append_assoc]
    apply tight_append e.body_nulFree
    obtain ⟨c, t, hl, hc⟩ := e'.line_cons
    have htail := ih e'
    rw [lines_cons, hl] at htail ⊢
    exact ⟨fun _ => hc, htail⟩

theorem Tight.length_pos {body : List UInt8} (h : Tight body) : 0 < body.length := by
  cases body with
  | nil => exact h.elim
  | cons => simp

/-- `envmatch` on the bytes from index `i2` on. The inner result is the index of
the value, or `none` where the source returns -1. -/
def envmatch : List UInt8 → List UInt8 → Nat → Option (Option Nat)
  | _, [], _ => none
  | [], c2 :: _, i2 =>
    -- both strings at their NUL compare equal and the loop runs on past `s1`
    if c2 = 0 then none
    else if c2 = equalsSign then some (some (i2 + 1)) else some none
  | c1 :: s1, c2 :: env, i2 =>
    if c1 = c2 then
      if c1 = equalsSign then some (some (i2 + 1)) else envmatch s1 env (i2 + 1)
    else some none

/-- What the search loop of `_do_setenv` leaves in `oldval`, `env` and `nxt`. -/
structure OldDef where
  oldval : Nat
  env : Nat
  nxt : Nat
deriving DecidableEq

/-- The search loop of `_do_setenv`; a read outside the data area has no result. -/
def searchFuel (d name : List UInt8) : Nat → Nat → Option (Option OldDef)
  | 0, _ => none
  | fuel + 1, env => do
    let c ← d[env]?
    if c = 0 then pure none else do
      let nxt ← strEnd (d.drop env) env
      let oldval ← envmatch name (d.drop env) env
      match oldval with
      | some v => pure (some ⟨v, env, nxt⟩)
      | none => searchFuel d name fuel (nxt + 1)

/-- Each round of the loop ends behind at least one more byte of the area. -/
def searchVar (d name : List UInt8) : Option (Option OldDef) :=
  searchFuel d name (d.length + 1) 0

/-- The inner loop of `getenv`, with its own test against `CONFIG_ENV_SIZE`. -/
def getenvEnd (configEnvSize : Nat) : List UInt8 → Nat → Option (Option Nat)
  | [], _ => none
  | c :: cs, nxt =>
    if c = 0 then some (some nxt)
    else if configEnvSize ≤ nxt then some none
    else getenvEnd configEnvSize cs (nxt + 1)

def getenvFuel (configEnvSize : Nat) (d name : List UInt8) : Nat → Nat → Option (Option Nat)
  | 0, _ => none
  | fuel + 1, i => do
    let c ← d[i]?
    if c = 0 then pure none else do
      match ← getenvEnd configEnvSize (d.drop i) i with
      | none => pure none
      | some nxt =>
        match ← envmatch name (d.drop i) i with
        | some v => pure (some v)
        | none => getenvFuel configEnvSize d name fuel (nxt + 1)

/-- `getenv`: the index of the value, or `none` for NULL. -/
def getenv (configEnvSize : Nat) (d name : List UInt8) : Option (Option Nat) :=
  getenvFuel configEnvSize d name (d.length + 1) 0

/-- The string that `getenv` points to. -/
def getenvValue (configEnvSize : Nat) (d name : List UInt8) : Option (Option (List UInt8)) := do
  match ← getenv configEnvSize d name with
  | none => pure none
  | some v => do
    let s ← cstrAt d v
    pure (some s)

theorem envmatch_name {n m t : List UInt8} {i : Nat}
    (hn : equalsSign ∉ n) (hm : equalsSign ∉ m) (hn0 : (0 : UInt8) ∉ n) (hm0 : (0 : UInt8) ∉ m) :
    envmatch n (m ++ equalsSign :: t) i = some (if n = m then some (i + m.length + 1) else none) := by
  induction n generalizing m i with
  | nil =>
    cases m with
    | nil => simp [envmatch, equalsSign]
    | cons c m =>
      have hc : c ≠ equalsSign := fun he => hm (by simp [he])
      have hc0 : c ≠ 0 := fun he => hm0 (by simp [he])
      simp [envmatch, hc, hc0]
  | cons b n ih =>
    have hb : b ≠ equalsSign := fun he => hn (by simp [he])
    cases m with
    | nil => simp [envmatch, hb]
    | cons c m =>
      by_cases hbc : b = c
      · subst hbc
        have hrec := ih (i := i + 1) (fun h => hn (mem_cons_of_mem b h))
          (fun h => hm (mem_cons_of_mem b h)) (fun h => hn0 (mem_cons_of_mem b h))
          (fun h => hm0 (mem_cons_of_mem b h))
        have hi : i + 1 + m.length + 1 = i + (m.length + 1) + 1 := by omega
        simp only [cons_append, envmatch, if_true, hb, if_false, hrec, List.cons.injEq,
          true_and, length_cons, hi]
      · simp [envmatch, hbc]

theorem envmatch_line (n : CString) (e : Entry) (t : List UInt8) (i : Nat)
    (hn : equalsSign ∉ n.bytes) :
    envmatch n.bytes (e.line ++ t) i = some (if e.name = n then some (i + n.bytes.length + 1) else none) := by
  have hline : e.line ++ t = e.name.bytes ++ equalsSign :: (e.value.bytes ++ 0 :: t) := by
    simp [Entry.line, Entry.body]
  rw [hline, envmatch_name hn e.plain n.nulFree e.name.nulFree]
  by_cases he : e.name = n
  · subst he; simp
  · have hb : n.bytes ≠ e.name.bytes := by
      intro hb
      apply he
      cases hn' : e.name with
      | mk b hb' => cases n; simp_all
    simp [he, hb]

theorem strEnd_line (e : Entry) (t : List UInt8) (i : Nat) :
    strEnd (e.line ++ t) i = some (i + e.body.length) := by
  rw [Entry.line, append_assoc]
  exact strEnd_append e.body_nulFree

theorem getenvEnd_append {s t : List UInt8} {size i : Nat} (h : (0 : UInt8) ∉ s)
    (hb : i + s.length < size) : getenvEnd size (s ++ 0 :: t) i = some (some (i + s.length)) := by
  induction s generalizing i with
  | nil => simp [getenvEnd]
  | cons c s ih =>
    have hc : c ≠ 0 := fun hz => h (by simp [hz])
    have hs : (0 : UInt8) ∉ s := fun hm => h (mem_cons_of_mem c hm)
    simp only [length_cons] at hb ⊢
    have hrec := ih (i := i + 1) hs (by omega)
    simp only [cons_append, getenvEnd, hc, if_false, show ¬ size ≤ i by omega, hrec]
    congr 2
    omega

theorem getenvEnd_line (e : Entry) (t : List UInt8) {size i : Nat}
    (hb : i + e.body.length < size) :
    getenvEnd size (e.line ++ t) i = some (some (i + e.body.length)) := by
  rw [Entry.line, append_assoc]
  exact getenvEnd_append e.body_nulFree hb

theorem drop_lines (as bs : List Entry) (rest : List UInt8) :
    (lines (as ++ bs) ++ 0 :: rest).drop (lines as).length = lines bs ++ 0 :: rest := by
  rw [lines_append, append_assoc, drop_left]

theorem getElem?_lines (as bs : List Entry) (rest : List UInt8) :
    ∃ c, (lines (as ++ bs) ++ 0 :: rest)[(lines as).length]? = some c ∧ (c = 0 ↔ bs = []) := by
  obtain ⟨c, t, hl, hc⟩ := lines_head bs rest
  refine ⟨c, ?_, hc⟩
  rw [lines_append, append_assoc, hl]
  simp

end UBoot
