import UBoot.CString
import UBoot.Cells

namespace UBoot.Macros

open Cells List

def backslash : UInt8 := 92
def apostrophe : UInt8 := 39
def dollar : UInt8 := 36

def opens (c : UInt8) : Bool := c = 40 || c = 123
def closes (c : UInt8) : Bool := c = 41 || c = 125

/-- What `state` waits for. -/
inductive Wait where
  | dollar | open_ | close | quote
deriving DecidableEq

/-- The variables of the loop. The pointers are indices into the input and into the buffer. -/
structure Loop where
  input : Nat
  inputcnt : Nat
  output : Nat
  outputcnt : Nat
  state : Wait
  varnameStart : Nat
  prev : UInt8
  /-- The buffer. -/
  out : List UInt8

variable (cbsize : Nat) (getenv : List UInt8 → Option CString) (text : List UInt8)

/-- `*(output++) = c; outputcnt--;` -/
def Loop.put (s : Loop) (c : UInt8) : Option Loop :=
  (store s.out s.output c).map fun out =>
    { s with out := out, output := s.output + 1, outputcnt := s.outputcnt - 1 }

/-- The loop that copies a value. -/
def Loop.copy (s : Loop) : List UInt8 → Option Loop
  | [] => some s
  | v :: envval => if s.outputcnt = 0 then some s else (s.put v).bind fun s => s.copy envval

/-- The name in front of the character just read. Its local array has `CONFIG_SYS_CBSIZE` bytes. -/
def Loop.envname (s : Loop) : Option (List UInt8) :=
  let envcnt := s.input - s.varnameStart - 1
  if envcnt < cbsize then some ((text.drop s.varnameStart).take envcnt) else none

/-- The `switch` over the state. -/
def Loop.switch (s : Loop) (c : UInt8) : Option Loop :=
  match s.state with
  | .dollar =>
    if c = apostrophe ∧ s.prev ≠ backslash then some { s with state := .quote }
    else if c = dollar ∧ s.prev ≠ backslash then some { s with state := .open_ }
    else s.put c
  | .open_ =>
    if opens c then some { s with state := .close, varnameStart := s.input }
    else do
      let s ← { s with state := .dollar }.put dollar
      if s.outputcnt = 0 then some s else s.put c
  | .close =>
    if closes c then do
      let s ← match getenv (← s.envname cbsize text) with
        | none => some s
        | some envval => s.copy envval.bytes
      some { s with state := .dollar }
    else some s
  | .quote =>
    if c = apostrophe ∧ s.prev ≠ backslash then some { s with state := .dollar }
    else s.put c

/-- `c = *input++; inputcnt--;` -/
def Loop.get (s : Loop) : Option (UInt8 × Loop) :=
  (text[s.input]?).map fun c => (c, { s with input := s.input + 1, inputcnt := s.inputcnt - 1 })

/-- One round of the loop. The Boolean is false where it breaks off. -/
def Loop.round (s : Loop) : Option (Bool × Loop) := do
  let (c, s) ← s.get text
  if s.state ≠ .quote ∧ c = backslash ∧ s.prev ≠ backslash then
    if s.inputcnt = 0 then return (false, s)
    let (d, s) ← { s with prev := c }.get text
    let s ← s.switch cbsize getenv text d
    return (true, { s with prev := d })
  let s ← s.switch cbsize getenv text c
  return (true, { s with prev := c })

/-- The loop. Each round takes a character of the input, so that there are no more rounds than that. -/
def Loop.run : Nat → Loop → Option Loop
  | 0, _ => none
  | fuel + 1, s =>
    if s.inputcnt = 0 ∨ s.outputcnt = 0 then some s
    else do
      let (more, s) ← s.round cbsize getenv text
      if more then Loop.run fuel s else some s

/-- `process_macros`: the buffer it leaves. -/
def processMacros (out : List UInt8) : Option (List UInt8) := do
  let s ← Loop.run cbsize getenv text (text.length + 1) ⟨0, text.length, 0, cbsize, .dollar, 0, 0, out⟩
  if s.outputcnt ≠ 0 then store s.out s.output 0 else store s.out (s.output - 1) 0

/-- The state behind a character and what it stands for, with the variable's name in front of it. -/
def rule (state : Wait) (prev c : UInt8) (name : List UInt8) : Wait × List UInt8 :=
  match state with
  | .dollar =>
    if c = apostrophe ∧ prev ≠ backslash then (.quote, [])
    else if c = dollar ∧ prev ≠ backslash then (.open_, [])
    else (.dollar, [c])
  | .open_ => if opens c then (.close, []) else (.dollar, [dollar, c])
  | .close => if closes c then (.dollar, (getenv name).elim [] CString.bytes) else (.close, [])
  | .quote => if c = apostrophe ∧ prev ≠ backslash then (.dollar, []) else (.quote, [c])

def named (state : Wait) (name raw : List UInt8) : List UInt8 :=
  if state = .close then name ++ raw else []

def expand : Wait → UInt8 → List UInt8 → List UInt8 → List UInt8
  | _, _, _, [] => []
  | state, prev, name, c :: cs =>
    if state ≠ .quote ∧ c = backslash ∧ prev ≠ backslash then
      match cs with
      | [] => []
      | d :: ds =>
        let (next, shown) := rule getenv state c d (named state name [c])
        shown ++ expand next d (named state name [c, d]) ds
    else
      let (next, shown) := rule getenv state prev c name
      shown ++ expand next c (named state name [c]) cs

example : expand (fun name => if name = [120] then some ⟨[97, 98], by decide⟩ else none) .dollar 0 []
    [92, 36, 36, 123, 120, 125, 39, 36, 39] = [36, 97, 98, 36] := by decide

variable {cbsize getenv text}
variable {s : Loop} {old w name rest : List UInt8} {c : UInt8}

/-- The buffer once the text `w` has been written as far as there is room. -/
structure Loop.Shows (s : Loop) (old w : List UInt8) : Prop where
  out : s.out = w.take old.length ++ old.drop w.length
  output : s.output = min w.length old.length
  outputcnt : s.outputcnt = old.length - w.length

theorem Loop.Shows.put (h : s.Shows old w) (hroom : s.outputcnt ≠ 0) (c : UInt8) :
    ∃ out output outputcnt, s.put c = some { s with out := out, output := output, outputcnt := outputcnt } ∧
      Loop.Shows { s with out := out, output := output, outputcnt := outputcnt } old (w ++ [c]) := by
  have hlt : w.length < old.length := by
    have := h.outputcnt
    omega
  have hout : s.output = w.length := by
    rw [h.output]
    omega
  have hstore : store s.out s.output c = some (w ++ [c] ++ old.drop (w.length + 1)) := by
    rw [h.out, hout, take_of_length_le (Nat.le_of_lt hlt), drop_eq_getElem_cons hlt, store_at]
    simp
  refine ⟨_, _, _, by rw [Loop.put, hstore]; rfl, ⟨?_, ?_, ?_⟩⟩
  · rw [take_of_length_le (by rw [length_append, length_singleton]; omega), length_append,
      length_singleton]
  · dsimp only
    rw [hout, length_append, length_singleton]
    omega
  · dsimp only
    rw [h.outputcnt, length_append, length_singleton]
    omega

theorem Loop.Shows.full (h : s.Shows old w) (hfull : s.outputcnt = 0) (v : List UInt8) : s.Shows old (w ++ v) := by
  have hle : old.length ≤ w.length := by
    have := h.outputcnt
    omega
  refine ⟨?_, ?_, ?_⟩
  · rw [h.out, take_append_of_le_length hle, drop_eq_nil_of_le hle, drop_eq_nil_of_le]
    rw [length_append]
    omega
  · rw [h.output, length_append]
    omega
  · rw [h.outputcnt, length_append]
    omega

theorem Loop.Shows.copy (h : s.Shows old w) (v : List UInt8) :
    ∃ out output outputcnt, s.copy v = some { s with out := out, output := output, outputcnt := outputcnt } ∧
      Loop.Shows { s with out := out, output := output, outputcnt := outputcnt } old (w ++ v) := by
  induction v generalizing s w with
  | nil => exact ⟨s.out, s.output, s.outputcnt, rfl, by rwa [append_nil]⟩
  | cons c v ih =>
    rw [Loop.copy]
    by_cases hfull : s.outputcnt = 0
    · rw [if_pos hfull]
      exact ⟨s.out, s.output, s.outputcnt, rfl, h.full hfull _⟩
    · obtain ⟨out, output, outputcnt, hput, hshows⟩ := h.put hfull c
      obtain ⟨out', output', outputcnt', hcopy, hshows'⟩ := ih hshows
      rw [if_neg hfull, hput, Option.bind_some, hcopy]
      rw [append_assoc] at hshows'
      exact ⟨out', output', outputcnt', rfl, hshows'⟩

/-- Where the loop stands in the input: what is in front of it, and the name begun behind it. -/
structure Loop.At (text : List UInt8) (s : Loop) (name rest : List UInt8) : Prop where
  inside : s.input ≤ text.length
  ahead : text.drop s.input = rest
  inputcnt : s.inputcnt = rest.length
  name : s.state = .close → s.varnameStart ≤ s.input ∧
    (text.drop s.varnameStart).take (s.input - s.varnameStart) = name

theorem Loop.At.get (h : s.At text name (c :: rest)) :
    s.get text = some (c, { s with input := s.input + 1, inputcnt := s.inputcnt - 1 }) ∧
      Loop.At text { s with input := s.input + 1, inputcnt := s.inputcnt - 1 } (name ++ [c]) rest := by
  have hc : text[s.input]? = some c := by
    rw [← List.head?_drop, h.ahead]
    rfl
  obtain ⟨hlt, _⟩ := List.getElem?_eq_some_iff.mp hc
  refine ⟨by rw [Loop.get, hc]; rfl, ⟨hlt, ?_, ?_, fun hstate => ?_⟩⟩
  · rw [← drop_drop, h.ahead]
    rfl
  · dsimp only
    rw [h.inputcnt, length_cons, Nat.add_sub_cancel]
  · obtain ⟨hle, hname⟩ := h.name hstate
    refine ⟨Nat.le_succ_of_le hle, ?_⟩
    have hnext : (text.drop s.varnameStart)[s.input - s.varnameStart]? = some c := by
      rw [List.getElem?_drop, Nat.add_sub_cancel' hle, hc]
    rw [Nat.succ_sub hle, take_add_one, hname, hnext]
    rfl

theorem Loop.At.envname (h : s.At text (name ++ [c]) rest) (hstate : s.state = .close)
    (hlen : text.length < cbsize) : s.envname cbsize text = some name := by
  obtain ⟨hle, hname⟩ := h.name hstate
  have hin := h.inside
  have hcnt : s.input - s.varnameStart = name.length + 1 := by
    have hlength := congrArg List.length hname
    rw [length_take, length_drop, length_append, length_singleton] at hlength
    omega
  have htake : (text.drop s.varnameStart).take name.length = name := by
    have htwice := take_take (i := name.length) (j := name.length + 1) (l := text.drop s.varnameStart)
    rw [← hcnt, hname, take_left, hcnt, Nat.min_eq_left (Nat.le_succ _)] at htwice
    exact htwice.symm
  unfold Loop.envname
  dsimp only
  rw [hcnt, Nat.add_sub_cancel, htake, if_pos (by omega)]

variable (getenv) in
theorem Loop.switch_rule (hat : s.At text (name ++ [c]) rest) (hshows : s.Shows old w) (hroom : s.outputcnt ≠ 0)
    (hlen : text.length < cbsize) :
    ∃ s', s.switch cbsize getenv text c = some s' ∧ s'.state = (rule getenv s.state s.prev c name).1 ∧
      s'.At text (named s.state name [c]) rest ∧ s'.Shows old (w ++ (rule getenv s.state s.prev c name).2) := by
  obtain ⟨out, output, outputcnt, hput, hwritten⟩ := hshows.put hroom c
  have hplain : s.state ≠ .close → ∃ s', s.put c = some s' ∧ s'.state = s.state ∧
      s'.At text (named s.state name [c]) rest ∧ s'.Shows old (w ++ [c]) := by
    intro hstate
    refine ⟨_, hput, rfl, ?_, hwritten⟩
    exact ⟨hat.inside, hat.ahead, hat.inputcnt, fun hclose => absurd hclose hstate⟩
  have hquiet : ∀ state : Wait, state ≠ .close → ∃ s', some { s with state := state } = some s' ∧
      s'.state = state ∧ s'.At text (named s.state name [c]) rest ∧ s'.Shows old (w ++ []) := by
    intro state hstate
    refine ⟨_, rfl, rfl, ?_, ?_⟩
    · exact ⟨hat.inside, hat.ahead, hat.inputcnt, fun hclose => absurd hclose hstate⟩
    · rw [append_nil]
      exact ⟨hshows.out, hshows.output, hshows.outputcnt⟩
  unfold Loop.switch rule
  cases hstate : s.state with
  | dollar =>
    rw [hstate] at hplain hquiet
    dsimp only
    split
    · exact hquiet .quote Wait.noConfusion
    split
    · exact hquiet .open_ Wait.noConfusion
    · exact hplain Wait.noConfusion
  | quote =>
    rw [hstate] at hplain hquiet
    dsimp only
    split
    · exact hquiet .dollar Wait.noConfusion
    · exact hplain Wait.noConfusion
  | open_ =>
    dsimp only
    split
    · refine ⟨_, rfl, rfl, ⟨hat.inside, hat.ahead, hat.inputcnt, fun _ => ⟨Nat.le_refl _, ?_⟩⟩, ?_⟩
      · dsimp only
        rw [Nat.sub_self]
        rfl
      · rw [append_nil]
        exact ⟨hshows.out, hshows.output, hshows.outputcnt⟩
    · obtain ⟨out, output, outputcnt, hput, hwritten⟩ :=
        Loop.Shows.put (s := { s with state := .dollar }) ⟨hshows.out, hshows.output, hshows.outputcnt⟩ hroom dollar
      rw [hput]
      simp only [Option.bind_eq_bind, Option.bind_some]
      split
      next hfull =>
        refine ⟨_, rfl, rfl, ?_, ?_⟩
        · exact ⟨hat.inside, hat.ahead, hat.inputcnt, Wait.noConfusion⟩
        · have hmore := hwritten.full hfull [c]
          rwa [append_assoc] at hmore
      next hmore =>
        obtain ⟨out', output', outputcnt', hput', hwritten'⟩ := hwritten.put hmore c
        refine ⟨_, hput', rfl, ?_, ?_⟩
        · exact ⟨hat.inside, hat.ahead, hat.inputcnt, Wait.noConfusion⟩
        · rwa [append_assoc] at hwritten'
  | close =>
    rw [hstate] at hquiet
    dsimp only
    split
    · rw [hat.envname hstate hlen, Option.bind_eq_bind, Option.bind_some]
      cases getenv name with
      | none => exact hquiet .dollar Wait.noConfusion
      | some envval =>
        obtain ⟨out, output, outputcnt, hcopy, hwritten⟩ := hshows.copy envval.bytes
        dsimp only
        rw [hcopy]
        refine ⟨_, rfl, rfl, ?_, ?_⟩
        · exact ⟨hat.inside, hat.ahead, hat.inputcnt, Wait.noConfusion⟩
        · exact ⟨hwritten.out, hwritten.output, hwritten.outputcnt⟩
    · refine ⟨s, rfl, hstate, ?_, ?_⟩
      · exact hat
      · rwa [append_nil]

variable {state : Wait} {prev d : UInt8}

theorem expand_escaped (h : state ≠ .quote ∧ c = backslash ∧ prev ≠ backslash) :
    expand getenv state prev name (c :: d :: rest) = (rule getenv state c d (named state name [c])).2 ++
        expand getenv (rule getenv state c d (named state name [c])).1 d (named state name [c, d]) rest := by
  rw [expand.eq_def]
  exact if_pos h

theorem expand_trailing (h : state ≠ .quote ∧ c = backslash ∧ prev ≠ backslash) :
    expand getenv state prev name [c] = [] := by
  rw [expand.eq_def]
  exact if_pos h

theorem expand_next (h : ¬(state ≠ .quote ∧ c = backslash ∧ prev ≠ backslash)) :
    expand getenv state prev name (c :: rest) = (rule getenv state prev c name).2 ++
        expand getenv (rule getenv state prev c name).1 c (named state name [c]) rest := by
  rw [expand.eq_def]
  exact if_neg h

theorem rule_named (name : List UInt8) : rule getenv state prev c (named state name [d]) =
    rule getenv state prev c (name ++ [d]) := by
  cases state <;> rfl

theorem Loop.round_expand (hat : s.At text name (c :: rest)) (hshows : s.Shows old w) (hroom : s.outputcnt ≠ 0)
    (hlen : text.length < cbsize) :
    (expand getenv s.state s.prev name (c :: rest) = [] ∧
        ∃ s', s.round cbsize getenv text = some (false, s') ∧ s'.Shows old w) ∨
      ∃ s' name' rest' v, s.round cbsize getenv text = some (true, s') ∧ s'.At text name' rest' ∧
        rest'.length ≤ rest.length ∧ s'.Shows old (w ++ v) ∧
        expand getenv s.state s.prev name (c :: rest) = v ++ expand getenv s'.state s'.prev name' rest' := by
  obtain ⟨hget, hat⟩ := hat.get
  have hshows₁ : Loop.Shows { s with input := s.input + 1, inputcnt := s.inputcnt - 1 } old w :=
    ⟨hshows.out, hshows.output, hshows.outputcnt⟩
  unfold Loop.round
  rw [hget]
  simp only [Option.bind_eq_bind, Option.bind_some]
  split
  next hescape =>
    cases rest with
    | nil =>
      refine .inl ⟨expand_trailing hescape, _, ?_, hshows₁⟩
      exact if_pos hat.inputcnt
    | cons d rest =>
      right
      have hat₁ : Loop.At text { s with input := s.input + 1, inputcnt := s.inputcnt - 1, prev := c }
        (name ++ [c]) (d :: rest) := ⟨hat.inside, hat.ahead, hat.inputcnt, hat.name⟩
      obtain ⟨hget, hat₂⟩ := hat₁.get
      have hshows₂ : Loop.Shows { s with input := s.input + 1 + 1, inputcnt := s.inputcnt - 1 - 1, prev := c }
        old w := ⟨hshows.out, hshows.output, hshows.outputcnt⟩
      have hmore : s.inputcnt - 1 ≠ 0 := by
        have hcnt := hat.inputcnt
        dsimp only at hcnt
        rw [hcnt]
        exact Nat.succ_ne_zero _
      obtain ⟨s', hswitch, hstate, hplace, hwritten⟩ := Loop.switch_rule getenv hat₂ hshows₂ hroom hlen
      rw [if_neg hmore, hget]
      simp only [Option.bind_some, hswitch]
      refine ⟨_, _, _, _, rfl, ⟨hplace.inside, hplace.ahead, hplace.inputcnt, hplace.name⟩, Nat.le_succ _,
        ⟨hwritten.out, hwritten.output, hwritten.outputcnt⟩, ?_⟩
      rw [expand_escaped hescape, rule_named, hstate]
      congr 2
      unfold named
      rw [append_assoc]
      rfl
  next hescape =>
    right
    obtain ⟨s', hswitch, hstate, hplace, hwritten⟩ := Loop.switch_rule getenv hat hshows₁ hroom hlen
    rw [hswitch]
    refine ⟨_, _, _, _, rfl, ⟨hplace.inside, hplace.ahead, hplace.inputcnt, hplace.name⟩, Nat.le_refl _,
      ⟨hwritten.out, hwritten.output, hwritten.outputcnt⟩, ?_⟩
    rw [hstate]
    exact expand_next hescape

variable (getenv) in
theorem Loop.run_expand {fuel : Nat} (hat : s.At text name rest) (hshows : s.Shows old w)
    (hlen : text.length < cbsize) (hfuel : rest.length < fuel) :
    ∃ s', Loop.run cbsize getenv text fuel s = some s' ∧
      s'.Shows old (w ++ expand getenv s.state s.prev name rest) := by
  induction fuel generalizing s w name rest with
  | zero => exact absurd hfuel (Nat.not_lt_zero _)
  | succ fuel ih =>
    unfold Loop.run
    cases rest with
    | nil =>
      refine ⟨s, if_pos (.inl hat.inputcnt), ?_⟩
      rwa [expand, append_nil]
    | cons c rest =>
      by_cases hfull : s.outputcnt = 0
      · exact ⟨s, if_pos (.inr hfull), hshows.full hfull _⟩
      · have hgo : ¬(s.inputcnt = 0 ∨ s.outputcnt = 0) := by
          rw [hat.inputcnt]
          exact not_or.mpr ⟨Nat.succ_ne_zero _, hfull⟩
        rw [if_neg hgo]
        rcases Loop.round_expand hat hshows hfull hlen with
          ⟨hnothing, s', hround, hshows'⟩ | ⟨s', name', rest', v, hround, hat', hle, hshows', hmore⟩
        · rw [hround, hnothing, append_nil]
          exact ⟨s', rfl, hshows'⟩
        · obtain ⟨s'', hrun, hfinal⟩ := ih hat' hshows' (Nat.lt_of_le_of_lt hle (Nat.lt_of_succ_lt_succ hfuel))
          rw [hround, hmore, ← append_assoc]
          exact ⟨s'', hrun, hfinal⟩

variable (getenv state prev name) in
theorem rule_nulFree (hc : c ≠ 0) : (0 : UInt8) ∉ (rule getenv state prev c name).2 := by
  have hone : (0 : UInt8) ∉ [c] := fun h => hc (mem_singleton.mp h).symm
  cases state with
  | dollar =>
    unfold rule
    dsimp only
    split
    · exact not_mem_nil
    split
    · exact not_mem_nil
    · exact hone
  | open_ =>
    unfold rule
    dsimp only
    split
    · exact not_mem_nil
    · intro h
      rcases mem_cons.mp h with h | h
      · exact absurd h (by decide)
      · exact hone h
  | close =>
    unfold rule
    dsimp only
    split
    · cases getenv name with
      | none => exact not_mem_nil
      | some envval => exact envval.nulFree
    · exact not_mem_nil
  | quote =>
    unfold rule
    dsimp only
    split
    · exact not_mem_nil
    · exact hone

theorem expand_nulFree (h : (0 : UInt8) ∉ text) : (0 : UInt8) ∉ expand getenv state prev name text := by
  fun_induction expand getenv state prev name text with
  | case1 => exact not_mem_nil
  | case2 => exact not_mem_nil
  | case3 state prev name c d ds _ next shown hrule ih =>
    obtain ⟨_, h⟩ := not_or.mp (fun hm => h (mem_cons.mpr hm))
    obtain ⟨hd, hds⟩ := not_or.mp (fun hm => h (mem_cons.mpr hm))
    have hshown := rule_nulFree getenv (named state name [c]) state c (Ne.symm hd)
    rw [hrule] at hshown
    exact fun hm => (mem_append.mp hm).elim hshown (ih hds)
  | case4 state prev name c cs _ next shown hrule ih =>
    obtain ⟨hc, hcs⟩ := not_or.mp (fun hm => h (mem_cons.mpr hm))
    have hshown := rule_nulFree getenv name state prev (Ne.symm hc)
    rw [hrule] at hshown
    exact fun hm => (mem_append.mp hm).elim hshown (ih hcs)

theorem processMacros_eq (hlen : text.length < cbsize) (hold : old.length = cbsize) :
    processMacros cbsize getenv text old = some ((expand getenv .dollar 0 [] text).take (cbsize - 1) ++
        0 :: old.drop (min (expand getenv .dollar 0 [] text).length (cbsize - 1) + 1)) := by
  have hat : Loop.At text ⟨0, text.length, 0, cbsize, .dollar, 0, 0, old⟩ [] text :=
    ⟨Nat.zero_le _, rfl, rfl, Wait.noConfusion⟩
  have hshows : Loop.Shows ⟨0, text.length, 0, cbsize, .dollar, 0, 0, old⟩ old [] :=
    ⟨by rw [take_nil]; rfl, (Nat.zero_min _).symm, hold.symm⟩
  obtain ⟨s, hrun, hs⟩ := Loop.run_expand getenv hat hshows hlen (Nat.lt_add_one _)
  have hout := hs.out
  have houtput := hs.output
  have hcnt := hs.outputcnt
  rw [nil_append] at hout houtput hcnt
  generalize expand getenv .dollar 0 [] text = w at hout houtput hcnt ⊢
  unfold processMacros
  rw [hrun, Option.bind_eq_bind, Option.bind_some]
  split
  next hroom =>
    have hlt : w.length < old.length := by omega
    rw [Nat.min_eq_left (Nat.le_of_lt hlt)] at houtput
    rw [Nat.min_eq_left (by omega), take_of_length_le (by omega), hout, houtput,
      take_of_length_le (Nat.le_of_lt hlt), drop_eq_getElem_cons hlt, store_at]
  next hfull =>
    have hle : old.length ≤ w.length := by omega
    have hcut : cbsize - 1 < w.length := by omega
    have hlast : (w.take (cbsize - 1)).length = cbsize - 1 := by
      rw [length_take]
      omega
    have htake : w.take old.length = w.take (cbsize - 1) ++ w.get ⟨cbsize - 1, hcut⟩ :: [] := by
      rw [show old.length = cbsize - 1 + 1 by omega, take_add_one, List.getElem?_eq_getElem hcut]
      rfl
    have hstore := store_at (p := w.take (cbsize - 1)) (q := []) (y := w.get ⟨cbsize - 1, hcut⟩) 0
    rw [hlast] at hstore
    rw [Nat.min_eq_right hle, hold] at houtput
    rw [hout, houtput, htake, drop_eq_nil_of_le hle, append_nil, hstore,
      Nat.min_eq_right (by omega), drop_eq_nil_of_le (by omega)]

/-- `process_macros` stays in its buffer and leaves there what fits of the text it stands for. -/
theorem process_macros_bounded_expand (hnul : (0 : UInt8) ∉ text) (hlen : text.length < cbsize)
    (hold : old.length = cbsize) :
    ∃ out, processMacros cbsize getenv text old = some out ∧ out.length = cbsize ∧
      cstrAt out 0 = some ((expand getenv .dollar 0 [] text).take
        (min (expand getenv .dollar 0 [] text).length (cbsize - 1))) := by
  refine ⟨_, processMacros_eq hlen hold, ?_, ?_⟩
  · rw [length_append, length_take, length_cons, length_drop]
    omega
  · have hfree : (0 : UInt8) ∉ (expand getenv .dollar 0 [] text).take (cbsize - 1) :=
      fun hm => expand_nulFree hnul (mem_of_mem_take hm)
    have hstr := cstrAt_append (p := [])
      (t := old.drop (min (expand getenv .dollar 0 [] text).length (cbsize - 1) + 1)) hfree
    rw [nil_append, length_nil] at hstr
    rw [hstr, Nat.min_comm, ← take_take, take_length]

theorem process_macros_bounded_expand_four :
    ∃ out, processMacros 4 (fun _ => some ⟨[97, 98, 99, 100], by decide⟩) [36, 40, 41] [1, 2, 3, 4] = some out ∧
      out.length = 4 ∧
      cstrAt out 0 = some ((expand (fun _ => some ⟨[97, 98, 99, 100], by decide⟩) .dollar 0 [] [36, 40, 41]).take
        (min (expand (fun _ => some ⟨[97, 98, 99, 100], by decide⟩) .dollar 0 [] [36, 40, 41]).length 3)) :=
  process_macros_bounded_expand (by decide) (by decide) rfl

end UBoot.Macros
