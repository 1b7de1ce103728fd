import Mathlib.Data.List.Nodup
import UBoot.EnvRefine
import UBoot.Linked
import UBoot.Loops

namespace UBoot.Eth

open Linked List Loops
open Loops.Comp (loop_again loop_done returns_pure returns_pure_iff returns_round_done)

def ethact : CString := ⟨ascii ['e', 't', 'h', 'a', 'c', 't'], by decide⟩
def ethrotate : CString := ⟨ascii ['e', 't', 'h', 'r', 'o', 't', 'a', 't', 'e'], by decide⟩

/-- The value `no` of `ethrotate`. -/
def noRotate : List UInt8 := ascii ['n', 'o']

/-- The environment, the `next` of each device, and the static variables; `act` stands as the text it points to. -/
structure State where
  env : NvState
  next : Nat → Option Nat
  ethDevices : Option Nat
  ethCurrent : Option Nat
  firstFailed : Option Nat
  netRestartWrap : Bool
  act : Option (List UInt8)
  envChangedId : Nat

variable (cfg : NvConfig) (configEnvSize : Nat) (name : Nat → CString)

def getenv (s : State) (n : CString) : Option (Option (List UInt8)) :=
  getenvValue configEnvSize s.env.env.data n.bytes

/-- `setenv`, which deletes the variable where the value is empty -/
def setenvCall (n v : CString) : SetenvCall := ⟨0, n, if v.bytes = [] then [] else [v], 0, 0⟩

/-- `setenv("ethact", eth_current->name)`; the result is not looked at. -/
def setEthact (s : State) (dev : Nat) : Option State :=
  (doSetenv cfg s.env (setenvCall ethact (name dev))).map fun out => { s with env := out.2 }

/-- The update of the current ethernet name. -/
def updateName (s : State) (dev : Nat) : Option State := do
  let act ← getenv configEnvSize s ethact
  if act = some (name dev).bytes then pure s else setEthact cfg name s dev

def setNext (s : State) (dev : Nat) (n : Option Nat) : State :=
  { s with next := fun d => if d = dev then n else s.next d }

/-- A round of the search for the last device. -/
def lastRound (s : State) (first d : Nat) : Option (Nat ⊕ Nat) :=
  if s.next d = some first then some (.inr d) else (s.next d).map .inl

def ethRegister (dev : Nat) (s : State) : Comp (Option State) :=
  match s.ethDevices with
  | none => Comp.pure do
    let s ← updateName cfg configEnvSize name { s with ethCurrent := some dev, ethDevices := some dev } dev
    pure (setNext s dev s.ethDevices)
  | some first =>
    (Comp.loop (fun d => Comp.round (lastRound s first d)) first).andThen fun d =>
      Comp.pure (some (setNext (setNext s d (some dev)) dev s.ethDevices))

def ethTryAnother (firstRestart : Bool) (s : State) : Option State := do
  let rotate ← getenv configEnvSize s ethrotate
  if rotate = some noRotate then pure s
  else
    match s.ethCurrent with
    | none => pure s
    | some cur => do
      let s := if firstRestart then { s with firstFailed := some cur } else s
      let dev ← s.next cur
      let s ← updateName cfg configEnvSize name { s with ethCurrent := some dev } dev
      pure (if s.firstFailed = some dev then { s with netRestartWrap := true } else s)

/-- A round of `eth_init`, which keeps the devices it has tried; `ok` is what their `init` gives, by attempt. -/
def initRound (ok : Nat → Nat → Bool) (old : Nat) (p : List Nat × State) :
    Option ((List Nat × State) ⊕ (Int × List Nat × State)) :=
  match p.2.ethCurrent with
  | none => none
  | some cur =>
    if ok p.1.length cur then some (.inr (0, p.1 ++ [cur], p.2))
    else do
      let s ← ethTryAnother cfg configEnvSize name false p.2
      if s.ethCurrent = some old then some (.inr (-1, p.1 ++ [cur], s)) else some (.inl (p.1 ++ [cur], s))

/-- `eth_init` without the copying of the addresses: its result and the devices it tried. -/
def ethInit (ok : Nat → Nat → Bool) (s : State) : Comp (Option (Int × List Nat × State)) :=
  match s.ethCurrent with
  | none => Comp.pure (some (-1, [], s))
  | some old => Comp.loop (fun p => Comp.round (initRound cfg configEnvSize name ok old p)) ([], s)

/-- A round of the search for the device of a name, up to where it began. -/
def findRound (s : State) (act : List UInt8) (old d : Nat) : Option (Nat ⊕ Option Nat) :=
  if (name d).bytes = act then some (.inr (some d))
  else (s.next d).map fun n => if n = old then .inr none else .inl n

/-- The reading of `ethact`, where the environment was changed since the last time. -/
def readAct (s : State) : Option State :=
  if s.act = none ∨ s.envChangedId ≠ s.env.envId then
    (getenv configEnvSize s ethact).map fun act => { s with act := act, envChangedId := s.env.envId }
  else some s

def ethSetCurrent (s : State) : Comp (Option State) :=
  match s.ethCurrent with
  | none => Comp.pure (some s)
  | some old => (Comp.pure (readAct configEnvSize s)).andThen fun s =>
    match s.act with
    | none => Comp.pure (setEthact cfg name s old)
    | some act => (Comp.loop (fun d => Comp.round (findRound name s act old d)) old).andThen fun found =>
      match found with
      | some dev => Comp.pure (some { s with ethCurrent := some dev })
      | none => Comp.pure (setEthact cfg name s old)

/-- The calls from outside. -/
inductive Call where
  | register (dev : Nat)
  | setCurrent
  | tryAnother (firstRestart : Bool)
  | init (ok : Nat → Nat → Bool)
  | setenv (c : SetenvCall)

def step (s : State) : Call → Comp (Option State)
  | .register dev => ethRegister cfg configEnvSize name dev s
  | .setCurrent => ethSetCurrent cfg configEnvSize name s
  | .tryAnother firstRestart => Comp.pure (ethTryAnother cfg configEnvSize name firstRestart s)
  | .init ok => (ethInit cfg configEnvSize name ok s).andThen fun out => Comp.pure (some out.2.2)
  | .setenv c => Comp.pure ((doSetenv cfg s.env c).map fun out => { s with env := out.2 })

def run : List Call → State → Comp (Option State)
  | [], s => Comp.pure (some s)
  | c :: calls, s => (step cfg configEnvSize name s c).andThen fun t => run calls t

def Call.registered : Call → Option Nat
  | .register dev => some dev
  | _ => none

section Environment

variable {cfg : NvConfig} {configEnvSize : Nat} {name : Nat → CString} {s t : State} {m : EnvMap}
  {c : SetenvCall}

theorem updateVars_envId (cfg : NvConfig) (c : SetenvCall) (s : NvState) :
    (updateVars cfg c s).envId = s.envId := by
  unfold updateVars
  split
  · rfl
  · split
    · rfl
    · split
      · rfl
      · split
        · rfl
        · split <;> rfl

theorem finishSet_envId {s t : NvState} {r : Int} (h : finishSet cfg c s = some (r, t)) : t.envId = s.envId := by
  unfold finishSet at h
  split at h
  · cases h
    rfl
  · obtain ⟨env, -, h⟩ := Option.bind_eq_some_iff.mp h
    split at h
    · cases h
      rfl
    · obtain ⟨d, -, h⟩ := Option.bind_eq_some_iff.mp h
      cases h
      exact updateVars_envId _ _ _

theorem dropOld_envId {s t : NvState} {old : OldDef} (h : dropOld cfg c s old = some (.ok t)) : t.envId = s.envId := by
  unfold dropOld at h
  obtain ⟨locked, -, h⟩ := Option.bind_eq_some_iff.mp h
  split at h
  · cases h
  · obtain ⟨rate, -, h⟩ := Option.bind_eq_some_iff.mp h
    cases rate with
    | none => cases h
    | some rate =>
      obtain ⟨d, -, h⟩ := Option.bind_eq_some_iff.mp h
      cases h
      rfl

theorem doSetenv_envId {s t : NvState} {r : Int} (hc : equalsSign ∉ c.name.bytes)
    (h : doSetenv cfg s c = some (r, t)) : t.envId = s.envId + 1 := by
  unfold doSetenv at h
  rw [if_neg hc] at h
  obtain ⟨old, -, h⟩ := Option.bind_eq_some_iff.mp h
  cases hconsole : consoleReturn cfg c with
  | some rc =>
    rw [hconsole] at h
    cases h
    rfl
  | none =>
    rw [hconsole] at h
    cases old with
    | none => exact finishSet_envId h
    | some old =>
      obtain ⟨out, hout, h⟩ := Option.bind_eq_some_iff.mp h
      cases out with
      | error rc =>
        cases h
        rfl
      | ok u => exact (finishSet_envId h).trans (dropOld_envId hout)

/-- The environment of a state says `m`, and what was read of it last is still so unless it was changed. -/
structure Agrees (configEnvSize : Nat) (m : EnvMap) (s : State) : Prop where
  entries : ∃ es, Holds s.env.env.data es ∧ ∀ n, valueOf es n = m n
  size : s.env.env.data.length ≤ configEnvSize
  changed : s.envChangedId ≤ s.env.envId
  cached : ∀ a, s.act = some a → s.envChangedId = s.env.envId → m ethact = some a

theorem Agrees.getenv_eq (h : Agrees configEnvSize m s) {n : CString} (hn : equalsSign ∉ n.bytes) :
    getenv configEnvSize s n = some (m n) := by
  obtain ⟨es, hes, hm⟩ := h.entries
  rw [← hm]
  exact getenvValue_holds hes hn h.size

theorem Agrees.doSetenv (h : Agrees configEnvSize m s) (hc : Ordinary c) :
    ∃ r env, UBoot.doSetenv cfg s.env c = some (r, env) ∧ Agrees configEnvSize (m.set c r) { s with env := env } := by
  obtain ⟨es, hes, hm⟩ := h.entries
  obtain ⟨r, env, fs, hrun, hfs, hlen, hset⟩ := doSetenv_ordinary cfg hc hes
  have hid := doSetenv_envId hc.plain hrun
  have hchanged := h.changed
  refine ⟨r, env, hrun, ⟨fs, hfs, fun n => ?_⟩, ?_, ?_, fun a _ hsame => ?_⟩
  · rw [hset n, funext hm]
  · dsimp only
    rw [hlen]
    exact h.size
  · dsimp only
    omega
  · dsimp only at hsame
    omega

theorem ethact_ordinary (v : CString) : Ordinary (setenvCall ethact v) where
  plain := (by decide : equalsSign ∉ ethact.bytes)
  untreated := (by decide : ethact.bytes ∉
    [stdinName, stdoutName, stderrName, serialName, ethaddrName, baudrateName])

theorem set_ethact (m : EnvMap) (v : CString) (r : Int) :
    m.set (setenvCall ethact v) r ethact = if r = 0 ∧ v.bytes ≠ [] then some v.bytes else none := by
  unfold EnvMap.set setenvCall
  rw [if_pos rfl]
  by_cases hv : v.bytes = []
  · simp [hv]
  · simp [hv, joined]

theorem set_other (m : EnvMap) (v : CString) (r : Int) {n : CString} (h : n ≠ ethact) :
    m.set (setenvCall ethact v) r n = m n := if_neg h

theorem Agrees.setEthact (h : Agrees configEnvSize m s) (dev : Nat) :
    ∃ r env, UBoot.doSetenv cfg s.env (setenvCall ethact (name dev)) = some (r, env) ∧
      UBoot.Eth.setEthact cfg name s dev = some { s with env := env } ∧
      Agrees configEnvSize (m.set (setenvCall ethact (name dev)) r) { s with env := env } := by
  obtain ⟨r, env, hrun, hagrees⟩ := h.doSetenv (ethact_ordinary (name dev))
  refine ⟨r, env, hrun, ?_, hagrees⟩
  unfold UBoot.Eth.setEthact
  rw [hrun]
  rfl

theorem Agrees.updateName (h : Agrees configEnvSize m s) (dev : Nat) :
    ∃ env m', UBoot.Eth.updateName cfg configEnvSize name s dev = some { s with env := env } ∧
      Agrees configEnvSize m' { s with env := env } ∧ ∀ n, n ≠ ethact → m' n = m n := by
  unfold UBoot.Eth.updateName
  rw [h.getenv_eq (by decide), Option.bind_eq_bind, Option.bind_some]
  split
  · exact ⟨s.env, m, rfl, h, fun _ _ => rfl⟩
  · obtain ⟨r, env, -, hset, hagrees⟩ := h.setEthact dev
    exact ⟨env, _, hset, hagrees, fun n hn => set_other m (name dev) r hn⟩

theorem setEthact_envId {dev : Nat} (h : UBoot.Eth.setEthact cfg name s dev = some t) :
    t.env.envId = s.env.envId + 1 := by
  obtain ⟨out, hrun, rfl⟩ := Option.map_eq_some_iff.mp h
  exact doSetenv_envId (ethact_ordinary (name dev)).plain hrun

theorem updateName_envId {dev : Nat} (h : UBoot.Eth.updateName cfg configEnvSize name s dev = some t) :
    t.env.envId ≤ s.env.envId + 1 := by
  obtain ⟨act, -, h⟩ := Option.bind_eq_some_iff.mp h
  split at h
  · cases h
    exact Nat.le_succ _
  · exact (setEthact_envId h).le

end Environment

/-- The devices form one ring in the order in which they were registered, and the current one is in it. -/
structure RingOf (ds : List Nat) (s : State) : Prop where
  nodup : ds.Nodup
  first : s.ethDevices = ds.head?
  ring : ∀ first, ds.head? = some first → Walk s.next first ds first
  none : s.ethCurrent = none → ds = []
  inside : ∀ cur, s.ethCurrent = some cur → cur ∈ ds

/-- The devices that `eth_init` tries, its result and the device it leaves as the current one: the first one
whose `init` succeeds, or all of them, each once, and then the old one. -/
def Tries (ok : Nat → Nat → Bool) (n : Nat) (order : List Nat) (old : Nat) (r : Int) (tried : List Nat)
    (cur : Option Nat) : Prop :=
  (∃ front d rest, order = front ++ d :: rest ∧ r = 0 ∧ tried = front ++ [d] ∧ cur = some d ∧
    (∀ i e, front[i]? = some e → ok (n + i) e = false) ∧ ok (n + front.length) d = true) ∨
  (r = -1 ∧ tried = order ∧ cur = some old ∧ ∀ i e, order[i]? = some e → ok (n + i) e = false)

section Ring

variable {cfg : NvConfig} {configEnvSize : Nat} {name : Nat → CString} {s t : State} {m : EnvMap}
  {ds xs : List Nat}
  {x old first dev : Nat} {ok : Nat → Nat → Bool}
variable {tried : List Nat}

theorem find_returns {act : List UInt8} (hwalk : Walk s.next x (x :: xs) old) (hold : old ∉ xs) :
    (Comp.loop (fun d => Comp.round (findRound name s act old d)) x).Returns
      (some ((x :: xs).find? fun d => (name d).bytes = act)) := by
  induction xs generalizing x with
  | nil =>
    obtain ⟨-, n, hn, rfl⟩ := hwalk
    apply loop_done
    apply returns_round_done.mpr
    unfold findRound
    by_cases hname : (name x).bytes = act
    · simp [hname]
    · simp [hname, hn]
  | cons y xs ih =>
    obtain ⟨-, n, hn, hrest⟩ := hwalk
    obtain rfl := hrest.1
    by_cases hname : (name x).bytes = act
    · apply loop_done
      apply returns_round_done.mpr
      simp [findRound, hname]
    · have hne : n ≠ old := fun h => hold (h ▸ mem_cons_self)
      rw [List.find?_cons_of_neg (by simpa using hname)]
      refine loop_again (Comp.returns_round_again.mpr ?_)
        (ih hrest fun h => hold (mem_cons_of_mem n h))
      simp [findRound, hname, hn, hne]

theorem last_returns (hwalk : Walk s.next x (x :: xs) first) (hfirst : first ∉ xs) :
    (Comp.loop (fun d => Comp.round (lastRound s first d)) x).Returns (some (xs.getLastD x)) := by
  induction xs generalizing x with
  | nil =>
    obtain ⟨-, n, hn, rfl⟩ := hwalk
    apply loop_done
    apply returns_round_done.mpr
    simp [lastRound, hn]
  | cons y xs ih =>
    obtain ⟨-, n, hn, hrest⟩ := hwalk
    obtain rfl := hrest.1
    have hne : n ≠ first := fun h => hfirst (h ▸ mem_cons_self)
    rw [getLastD_cons]
    refine loop_again (Comp.returns_round_again.mpr ?_) (ih hrest fun h => hfirst (mem_cons_of_mem n h))
    simp [lastRound, hn, hne]

theorem RingOf.congr (h : RingOf ds s) (hnext : t.next = s.next) (hdevices : t.ethDevices = s.ethDevices)
    (hcurrent : t.ethCurrent = s.ethCurrent) : RingOf ds t := by
  refine ⟨h.nodup, hdevices.trans h.first, ?_, ?_, ?_⟩
  · rw [hnext]
    exact h.ring
  · rw [hcurrent]
    exact h.none
  · rw [hcurrent]
    exact h.inside

theorem RingOf.walk (h : RingOf ds s) (hx : x ∈ ds) :
    ∃ as bs, ds = as ++ x :: bs ∧ Walk s.next x (x :: bs ++ as) x ∧ x ∉ bs ++ as := by
  obtain ⟨as, bs, rfl⟩ := append_of_mem hx
  have hnodup := nodup_middle.mp h.nodup
  cases hhead : (as ++ x :: bs).head? with
  | none => simp at hhead
  | some first =>
    have hwalk := h.ring first hhead
    have hback : Walk s.next x (x :: bs ++ as) x := hwalk.rotate
    refine ⟨as, bs, rfl, hback, ?_⟩
    have hnot := (nodup_cons.mp hnodup).1
    rw [mem_append] at hnot ⊢
    exact fun hin => hnot hin.symm

theorem RingOf.next (h : RingOf ds s) (hx : x ∈ ds) : ∃ n ∈ ds, s.next x = some n := by
  obtain ⟨as, bs, rfl, ⟨-, n, hn, hwalk⟩, -⟩ := h.walk hx
  have hrest : Walk s.next n (bs ++ as) x := hwalk
  refine ⟨n, ?_, hn⟩
  cases hlist : bs ++ as with
  | nil =>
    rw [hlist] at hrest
    rw [show n = x from hrest]
    exact hx
  | cons y ys =>
    rw [hlist] at hrest
    rw [hrest.1]
    have hy : y ∈ bs ++ as := by
      rw [hlist]
      exact mem_cons_self
    rcases mem_append.mp hy with hy | hy
    · exact mem_append_right as (mem_cons_of_mem x hy)
    · exact mem_append_left _ hy

theorem RingOf.push (h : RingOf (first :: xs) s) (hdev : dev ∉ first :: xs) :
    RingOf (first :: xs ++ [dev]) (setNext (setNext s (xs.getLastD first) (some dev)) dev s.ethDevices) := by
  have hwalk := h.ring first rfl
  have hnodup := h.nodup
  have hlast : xs.getLastD first ∈ first :: xs := getLastD_mem_cons
  have hsplit : first :: xs = (first :: xs).dropLast ++ [xs.getLastD first] := by
    rw [← getLast_eq_getLastD (cons_ne_nil first xs)]
    exact (dropLast_append_getLast (cons_ne_nil first xs)).symm
  generalize xs.getLastD first = last at hlast hsplit ⊢
  have hne : last ≠ dev := fun he => hdev (he ▸ hlast)
  refine ⟨?_, h.first, ?_, fun hnone => ?_, fun cur hcur => ?_⟩
  · refine nodup_append.mpr ⟨hnodup, nodup_singleton dev, fun x hx y hy he => hdev ?_⟩
    rwa [← mem_singleton.mp hy, ← he]
  · intro f hf
    cases hf
    refine walk_append.mpr ⟨dev, ?_, ⟨rfl, first, ?_, rfl⟩⟩
    · rw [hsplit] at hwalk hnodup ⊢
      obtain ⟨b, hfront, rfl, -⟩ := walk_append.mp hwalk
      refine walk_append.mpr ⟨b, hfront.congr fun x hx => ?_, rfl, dev, ?_, rfl⟩
      · have hx' : x ∈ first :: xs := by
          rw [hsplit]
          exact mem_append_left _ hx
        have hlast' : x ≠ b := fun he => disjoint_of_nodup_append hnodup (he ▸ hx) mem_cons_self
        have hdev' : x ≠ dev := fun he => hdev (he ▸ hx')
        simp [setNext, hlast', hdev']
      · simp [setNext, hne]
    · simp [setNext, h.first]
  · exact absurd (h.none hnone) (cons_ne_nil first xs)
  · exact mem_append_left _ (h.inside cur hcur)

theorem ethRegister_returns (hring : RingOf ds s) (hagrees : Agrees configEnvSize m s) (hdev : dev ∉ ds) :
    ∃ t m', (ethRegister cfg configEnvSize name dev s).Returns (some t) ∧ RingOf (ds ++ [dev]) t ∧
      Agrees configEnvSize m' t := by
  have hfirst := hring.first
  unfold ethRegister
  cases ds with
  | nil =>
    rw [show s.ethDevices = none from hfirst]
    have hsame : Agrees configEnvSize m { s with ethCurrent := some dev, ethDevices := some dev } :=
      ⟨hagrees.entries, hagrees.size, hagrees.changed, hagrees.cached⟩
    obtain ⟨env, m', hname, hagrees', -⟩ := hsame.updateName dev
    rw [hname]
    refine ⟨_, m', returns_pure _, ⟨nodup_singleton dev, rfl, ?_, nofun, ?_⟩,
      ⟨hagrees'.entries, hagrees'.size, hagrees'.changed, hagrees'.cached⟩⟩
    · intro f hf
      cases hf
      exact ⟨rfl, dev, by simp [setNext], rfl⟩
    · intro cur hcur
      cases hcur
      exact mem_singleton_self dev
  | cons first xs =>
    have hhead : s.ethDevices = some first := hfirst
    have hwalk := hring.ring first rfl
    have hnot := (nodup_cons.mp hring.nodup).1
    have hpush := hring.push hdev
    rw [hhead] at hpush ⊢
    exact ⟨_, m, (last_returns hwalk hnot).andThen (returns_pure _), hpush,
      ⟨hagrees.entries, hagrees.size, hagrees.changed, hagrees.cached⟩⟩

theorem ethTryAnother_returns (hring : RingOf ds s) (hagrees : Agrees configEnvSize m s) (firstRestart : Bool) :
    (m ethrotate = some noRotate → ethTryAnother cfg configEnvSize name firstRestart s = some s) ∧
    (m ethrotate ≠ some noRotate → ∃ t m', ethTryAnother cfg configEnvSize name firstRestart s = some t ∧
      RingOf ds t ∧ Agrees configEnvSize m' t ∧ m' ethrotate = m ethrotate ∧ t.next = s.next ∧
      t.ethCurrent = s.ethCurrent.bind s.next) := by
  unfold ethTryAnother
  rw [hagrees.getenv_eq (by decide), Option.bind_eq_bind, Option.bind_some]
  refine ⟨fun h => if_pos h, fun h => ?_⟩
  rw [if_neg h]
  cases hcur : s.ethCurrent with
  | none => exact ⟨s, m, rfl, hring, hagrees, rfl, rfl, hcur⟩
  | some cur =>
    obtain ⟨n, hn, hnext⟩ := hring.next (hring.inside cur hcur)
    have hmoved : RingOf ds { s with ethCurrent := some n } := by
      refine ⟨hring.nodup, hring.first, hring.ring, nofun, fun x hx => ?_⟩
      rw [← Option.some.inj hx]
      exact hn
    -- which device failed first makes no difference for the ring and the environment
    have hgo : ∀ failed, ∃ t m', (do
        let t ← updateName cfg configEnvSize name { s with firstFailed := failed, ethCurrent := some n } n
        pure (if t.firstFailed = some n then { t with netRestartWrap := true } else t)) = some t ∧
        RingOf ds t ∧ Agrees configEnvSize m' t ∧ m' ethrotate = m ethrotate ∧ t.next = s.next ∧
        t.ethCurrent = some n := by
      intro failed
      have hsame : Agrees configEnvSize m { s with firstFailed := failed, ethCurrent := some n } :=
        ⟨hagrees.entries, hagrees.size, hagrees.changed, hagrees.cached⟩
      obtain ⟨env, m', hname, hagrees', hother⟩ := hsame.updateName n
      rw [hname, Option.bind_eq_bind, Option.bind_some]
      refine ⟨_, m', rfl, ?_, ?_, hother ethrotate (by decide), ?_, ?_⟩
      · split <;> exact hmoved.congr rfl rfl rfl
      · split <;> exact ⟨hagrees'.entries, hagrees'.size, hagrees'.changed, hagrees'.cached⟩
      · split <;> rfl
      · split <;> rfl
    rw [Option.bind_some, hnext]
    cases firstRestart with
    | false => simpa [hnext] using hgo s.firstFailed
    | true => simpa [hnext] using hgo (some cur)

theorem ethTryAnother_envId {firstRestart : Bool}
    (h : ethTryAnother cfg configEnvSize name firstRestart s = some t) : t.env.envId ≤ s.env.envId + 1 := by
  obtain ⟨rotate, -, h⟩ := Option.bind_eq_some_iff.mp h
  split at h
  · cases h
    exact Nat.le_succ _
  · split at h
    · cases h
      exact Nat.le_succ _
    · obtain ⟨dev, -, h⟩ := Option.bind_eq_some_iff.mp h
      obtain ⟨u, hu, h⟩ := Option.bind_eq_some_iff.mp h
      have hle := updateName_envId hu
      cases h
      split
      · split at hle <;> exact hle
      · split at hle <;> exact hle

theorem initRound_envId {p q : List Nat × State}
    (h : initRound cfg configEnvSize name ok old p = some (.inl q) ∨
      ∃ r, initRound cfg configEnvSize name ok old p = some (.inr (r, q))) :
    q.2.env.envId + p.1.length ≤ p.2.env.envId + q.1.length := by
  unfold initRound at h
  cases hcur : p.2.ethCurrent with
  | none => simp [hcur] at h
  | some cur =>
    cases hok : ok p.1.length cur with
    | true =>
      obtain rfl : (p.1 ++ [cur], p.2) = q := by simpa [hcur, hok] using h
      simp
    | false =>
      cases htry : ethTryAnother cfg configEnvSize name false p.2 with
      | none => simp [hcur, hok, htry] at h
      | some u =>
        have hle := ethTryAnother_envId htry
        have hq : (p.1 ++ [cur], u) = q := by
          by_cases hold : u.ethCurrent = some old <;> simpa [hcur, hok, htry, hold] using h
        rw [← hq, length_append, length_singleton]
        dsimp only
        omega

theorem ethInit_envId {r : Int} (h : (ethInit cfg configEnvSize name ok s).Returns (some (r, tried, t))) :
    t.env.envId ≤ s.env.envId + tried.length := by
  unfold ethInit at h
  cases hcur : s.ethCurrent with
  | none =>
    rw [hcur] at h
    cases returns_pure_iff.mp h
    exact Nat.le_add_right _ _
  | some old =>
    rw [hcur] at h
    refine Comp.loop_returns (Q := fun out => ∀ r tried t, out = some (r, tried, t) →
      t.env.envId ≤ s.env.envId + tried.length) (fun p => p.2.env.envId ≤ s.env.envId + p.1.length) ?_ ?_
      (Nat.le_add_right _ _) h r tried t rfl
    · intro p q hp hround
      have hle := initRound_envId (.inl (Comp.returns_round_again.mp hround))
      omega
    · rintro p _ hp hround r tried t rfl
      have hle := initRound_envId (.inr ⟨r, returns_round_done.mp hround⟩)
      dsimp only at hle
      omega

theorem Tries.cons {n : Nat} {order : List Nat} {r : Int} {cur : Option Nat} (hfail : ok n x = false)
    (h : Tries ok (n + 1) order old r tried cur) : Tries ok n (x :: order) old r (x :: tried) cur := by
  have hcons : ∀ {ys : List Nat}, (∀ i e, ys[i]? = some e → ok (n + 1 + i) e = false) →
      ∀ i e, (x :: ys)[i]? = some e → ok (n + i) e = false := by
    intro ys hys i e he
    cases i with
    | zero =>
      cases he
      exact hfail
    | succ i =>
      rw [show n + (i + 1) = n + 1 + i by omega]
      exact hys i e he
  rcases h with ⟨front, d, rest, rfl, rfl, rfl, hcur, hfront, hd⟩ | ⟨rfl, rfl, hcur, hall⟩
  · refine .inl ⟨x :: front, d, rest, rfl, rfl, rfl, hcur, hcons hfront, ?_⟩
    rw [length_cons, show n + (front.length + 1) = n + 1 + front.length by omega]
    exact hd
  · exact .inr ⟨rfl, rfl, hcur, hcons hall⟩

theorem Tries.length_le {n : Nat} {order : List Nat} {r : Int} {cur : Option Nat}
    (h : Tries ok n order old r tried cur) : tried.length ≤ order.length := by
  rcases h with ⟨front, d, rest, rfl, -, rfl, -⟩ | ⟨-, rfl, -⟩
  · simp
  · exact le_refl _

theorem init_returns (hrotate : m ethrotate ≠ some noRotate) (hring : RingOf ds s) (hagrees : Agrees configEnvSize m s)
    (hcur : s.ethCurrent = some x) (hwalk : Walk s.next x (x :: xs) old) (hold : old ∉ xs) (before : List Nat) :
    ∃ r tried t m', (Comp.loop (fun p => Comp.round (initRound cfg configEnvSize name ok old p)) (before, s)).Returns
        (some (r, before ++ tried, t)) ∧ RingOf ds t ∧ Agrees configEnvSize m' t ∧
      Tries ok before.length (x :: xs) old r tried t.ethCurrent := by
  induction xs generalizing x s m before with
  | nil =>
    obtain ⟨-, n, hn, rfl⟩ := hwalk
    cases hok : ok before.length x with
    | true =>
      refine ⟨0, [x], s, m, loop_done (returns_round_done.mpr ?_), hring, hagrees,
        .inl ⟨[], x, [], rfl, rfl, rfl, hcur, fun i e he => (nomatch he), hok⟩⟩
      simp [initRound, hcur, hok]
    | false =>
      obtain ⟨t, m', htry, hring', hagrees', -, -, hcur'⟩ :=
        (@ethTryAnother_returns cfg configEnvSize name s m ds hring hagrees false).2 hrotate
      rw [hcur, Option.bind_some, hn] at hcur'
      refine ⟨-1, [x], t, m', loop_done (returns_round_done.mpr ?_), hring', hagrees',
        .inr ⟨rfl, rfl, hcur', ?_⟩⟩
      · simp [initRound, hcur, hok, htry, hcur']
      · intro i e he
        cases i with
        | zero =>
          cases he
          exact hok
        | succ i => simp at he
  | cons y xs ih =>
    obtain ⟨-, n, hn, hrest⟩ := hwalk
    obtain rfl := hrest.1
    cases hok : ok before.length x with
    | true =>
      refine ⟨0, [x], s, m, loop_done (returns_round_done.mpr ?_), hring, hagrees,
        .inl ⟨[], x, n :: xs, rfl, rfl, rfl, hcur, fun i e he => (nomatch he), hok⟩⟩
      simp [initRound, hcur, hok]
    | false =>
      have hne : n ≠ old := fun h => hold (h ▸ mem_cons_self)
      obtain ⟨t, m', htry, hring', hagrees', hsame, hnext, hcur'⟩ :=
        (@ethTryAnother_returns cfg configEnvSize name s m ds hring hagrees false).2 hrotate
      rw [hcur, Option.bind_some, hn] at hcur'
      rw [← hnext] at hrest
      obtain ⟨r, tried, u, m'', hloop, hring'', hagrees'', htries⟩ := ih (hsame ▸ hrotate) hring' hagrees' hcur' hrest
        (fun h => hold (mem_cons_of_mem n h)) (before ++ [x])
      rw [length_append, length_singleton] at htries
      rw [append_assoc, singleton_append] at hloop
      refine ⟨r, x :: tried, u, m'', loop_again (Comp.returns_round_again.mpr ?_) hloop, hring'', hagrees'',
        htries.cons hok⟩
      simp [initRound, hcur, hok, htry, hcur', hne]

/-- The devices that `eth_init` may try: the ring from the current device on, or that one alone. -/
def candidates (m : EnvMap) (as : List Nat) (cur : Nat) (bs : List Nat) : List Nat :=
  if m ethrotate = some noRotate then [cur] else cur :: bs ++ as

theorem ethInit_returns (ok : Nat → Nat → Bool) (hring : RingOf ds s) (hagrees : Agrees configEnvSize m s) :
    ∃ r tried t m', (ethInit cfg configEnvSize name ok s).Returns (some (r, tried, t)) ∧ RingOf ds t ∧
      Agrees configEnvSize m' t ∧ ∀ cur, s.ethCurrent = some cur → ∃ as bs, ds = as ++ cur :: bs ∧
        Tries ok 0 (candidates m as cur bs) cur r tried t.ethCurrent := by
  unfold ethInit
  cases hcur : s.ethCurrent with
  | none => exact ⟨-1, [], s, m, returns_pure _, hring, hagrees, nofun⟩
  | some cur =>
    obtain ⟨as, bs, hsplit, hwalk, hnot⟩ := hring.walk (hring.inside cur hcur)
    unfold candidates
    by_cases hrotate : m ethrotate = some noRotate
    · -- nothing moves, and the loop ends after one try
      have hstay := (@ethTryAnother_returns cfg configEnvSize name s m ds hring hagrees false).1 hrotate
      cases hok : ok 0 cur with
      | true =>
        refine ⟨0, [cur], s, m, loop_done (returns_round_done.mpr ?_), hring, hagrees, fun c hc =>
          ⟨as, bs, Option.some.inj hc ▸ hsplit, ?_⟩⟩
        · simp [initRound, hcur, hok]
        · cases hc
          rw [if_pos hrotate]
          exact .inl ⟨[], cur, [], rfl, rfl, rfl, hcur, fun i e he => (nomatch he), hok⟩
      | false =>
        refine ⟨-1, [cur], s, m, loop_done (returns_round_done.mpr ?_), hring, hagrees, fun c hc =>
          ⟨as, bs, Option.some.inj hc ▸ hsplit, ?_⟩⟩
        · simp [initRound, hcur, hok, hstay]
        · cases hc
          rw [if_pos hrotate]
          refine .inr ⟨rfl, rfl, hcur, fun i e he => ?_⟩
          cases i with
          | zero =>
            cases he
            exact hok
          | succ i => simp at he
    · obtain ⟨r, tried, t, m', hloop, hring', hagrees', htries⟩ :=
        @init_returns cfg configEnvSize name s m ds (bs ++ as) cur cur ok hrotate hring hagrees hcur hwalk hnot []
      refine ⟨r, tried, t, m', hloop, hring', hagrees', fun c hc => ?_⟩
      cases hc
      refine ⟨as, bs, hsplit, ?_⟩
      rw [if_neg hrotate]
      exact htries

theorem readAct_reads (hring : RingOf ds s) (hagrees : Agrees configEnvSize m s) :
    ∃ t, readAct configEnvSize s = some t ∧ t.act = m ethact ∧ t.env = s.env ∧ t.next = s.next ∧
      t.ethCurrent = s.ethCurrent ∧ RingOf ds t ∧ Agrees configEnvSize m t := by
  unfold readAct
  rw [hagrees.getenv_eq (by decide)]
  split
  · exact ⟨_, rfl, rfl, rfl, rfl, rfl, hring.congr rfl rfl rfl, hagrees.entries, hagrees.size, le_refl _,
    fun a ha _ => ha⟩
  next hfresh =>
    rw [not_or, not_not] at hfresh
    obtain ⟨a, ha⟩ := Option.ne_none_iff_exists'.mp hfresh.1
    exact ⟨s, rfl, ha.trans (hagrees.cached a ha hfresh.2).symm, rfl, rfl, rfl, hring, hagrees⟩

/-- `_do_setenv` answers with an error: there is no room for the name of the device. -/
def NoRoom (cfg : NvConfig) (name : Nat → CString) (s : State) (dev : Nat) : Prop :=
  ∃ r env, doSetenv cfg s.env (setenvCall ethact (name dev)) = some (r, env) ∧ r ≠ 0

/-- What `eth_set_current` leaves of `ethact`, `m` before and `m'` after, and of the current device: a device
that `ethact` named, or else the same as before, whose name is set. -/
structure Names (cfg : NvConfig) (name : Nat → CString) (s : State) (ds : List Nat) (m m' : EnvMap) (old cur : Nat) :
    Prop where
  named : (∃ d ∈ ds, m ethact = some (name d).bytes) →
    m ethact = some (name cur).bytes ∧ m' ethact = some (name cur).bytes
  unnamed : (¬∃ d ∈ ds, m ethact = some (name d).bytes) → cur = old ∧
    (m' ethact = some (name cur).bytes ∨ m' ethact = none ∧ ((name cur).bytes = [] ∨ NoRoom cfg name s cur))

theorem setEthact_names (hagrees : Agrees configEnvSize m t) (henv : t.env = s.env)
    (hnone : ¬∃ d ∈ ds, m ethact = some (name d).bytes) :
    ∃ env m', setEthact cfg name t old = some { t with env := env } ∧ Agrees configEnvSize m' { t with env := env } ∧
      Names cfg name s ds m m' old old := by
  obtain ⟨r, env, hrun, hset, hagrees'⟩ := hagrees.setEthact old
  refine ⟨env, _, hset, hagrees', ⟨fun h => absurd h hnone, fun _ => ⟨rfl, ?_⟩⟩⟩
  rw [set_ethact]
  by_cases hr : r = 0
  · by_cases hname : (name old).bytes = []
    · exact .inr ⟨if_neg fun h => h.2 hname, .inl hname⟩
    · exact .inl (if_pos ⟨hr, hname⟩)
  · rw [henv] at hrun
    exact .inr ⟨if_neg fun h => hr h.1, .inr ⟨r, env, hrun, hr⟩⟩

theorem ethSetCurrent_returns (hring : RingOf ds s) (hagrees : Agrees configEnvSize m s) :
    ∃ t m', (ethSetCurrent cfg configEnvSize name s).Returns (some t) ∧ RingOf ds t ∧ Agrees configEnvSize m' t ∧
      ∀ old, s.ethCurrent = some old → ∃ cur, t.ethCurrent = some cur ∧ Names cfg name s ds m m' old cur := by
  unfold ethSetCurrent
  cases hcur : s.ethCurrent with
  | none => exact ⟨s, m, returns_pure _, hring, hagrees, fun _ h => by cases h⟩
  | some old =>
    obtain ⟨u, hread, hact, henv, hnext, hucur, huring, huagrees⟩ := readAct_reads hring hagrees
    rw [hcur] at hucur
    rw [hread]
    have hsets : (¬∃ d ∈ ds, m ethact = some (name d).bytes) → ∃ t m', setEthact cfg name u old = some t ∧
        RingOf ds t ∧ Agrees configEnvSize m' t ∧
        ∀ o, some old = some o → ∃ cur, t.ethCurrent = some cur ∧ Names cfg name s ds m m' o cur := by
      intro hnone
      obtain ⟨env, m', hset, hagrees', hnames⟩ := @setEthact_names cfg configEnvSize name s u m ds old huagrees henv hnone
      refine ⟨_, m', hset, huring.congr rfl rfl rfl, hagrees', fun o ho => ?_⟩
      cases ho
      exact ⟨old, hucur, hnames⟩
    cases hu : u.act with
    | none =>
      have hnone : ¬∃ d ∈ ds, m ethact = some (name d).bytes := by
        rintro ⟨d, -, hd⟩
        rw [← hact, hu] at hd
        cases hd
      obtain ⟨t, m', hset, hrest⟩ := hsets hnone
      refine ⟨t, m', (returns_pure _).andThen ?_, hrest⟩
      rw [hu]
      rw [hset]
      exact returns_pure _
    | some act =>
      rw [hu] at hact
      obtain ⟨as, bs, hsplit, hwalk, hnot⟩ := huring.walk (huring.inside old hucur)
      have hfind := @find_returns name u (bs ++ as) old old act hwalk hnot
      have hin : ∀ d, d ∈ old :: (bs ++ as) ↔ d ∈ ds := by
        intro d
        rw [hsplit]
        simp only [mem_cons, mem_append]
        tauto
      cases hfound : (old :: (bs ++ as)).find? fun d => (name d).bytes = act with
      | some dev =>
        have hmem := (hin dev).mp (mem_of_find?_eq_some hfound)
        have hname : (name dev).bytes = act := by simpa using List.find?_some hfound
        rw [hfound] at hfind
        refine ⟨{ u with ethCurrent := some dev }, m, (returns_pure _).andThen ?_, ?_,
          ⟨huagrees.entries, huagrees.size, huagrees.changed, huagrees.cached⟩, fun o ho => ⟨dev, rfl, ?_⟩⟩
        · rw [hu]
          exact hfind.andThen (returns_pure _)
        · refine ⟨huring.nodup, huring.first, huring.ring, fun h => (by cases h), fun x hx => ?_⟩
          rwa [← Option.some.inj hx]
        · rw [← hname] at hact
          exact ⟨fun _ => ⟨hact.symm, hact.symm⟩, fun hnone => absurd ⟨dev, hmem, hact.symm⟩ hnone⟩
      | none =>
        have hnone : ¬∃ d ∈ ds, m ethact = some (name d).bytes := by
          rintro ⟨d, hd, hdname⟩
          rw [← hact] at hdname
          have hnot := List.find?_eq_none.mp hfound d ((hin d).mpr hd)
          simp [Option.some.inj hdname] at hnot
        obtain ⟨t, m', hset, hrest⟩ := hsets hnone
        rw [hfound] at hfind
        refine ⟨t, m', (returns_pure _).andThen ?_, hrest⟩
        rw [hu]
        refine hfind.andThen ?_
        rw [hset]
        exact returns_pure _

theorem step_returns (c : Call) (hring : RingOf ds s) (hagrees : Agrees configEnvSize m s)
    (hset : ∀ call, c = .setenv call → Ordinary call) (hnew : ∀ dev, c = .register dev → dev ∉ ds) :
    ∃ t m', (step cfg configEnvSize name s c).Returns (some t) ∧ RingOf (ds ++ c.registered.toList) t ∧
      Agrees configEnvSize m' t := by
  have hsame : ds ++ [] = ds := append_nil ds
  cases c with
  | register dev => exact ethRegister_returns hring hagrees (hnew dev rfl)
  | setCurrent =>
    obtain ⟨t, m', hout, hring', hagrees', -⟩ := @ethSetCurrent_returns cfg configEnvSize name s m ds hring hagrees
    exact ⟨t, m', hout, hsame.symm ▸ hring', hagrees'⟩
  | tryAnother firstRestart =>
    obtain ⟨hstay, hmove⟩ := @ethTryAnother_returns cfg configEnvSize name s m ds hring hagrees firstRestart
    unfold step
    dsimp only
    by_cases hrotate : m ethrotate = some noRotate
    · rw [hstay hrotate]
      exact ⟨s, m, returns_pure _, hsame.symm ▸ hring, hagrees⟩
    · obtain ⟨t, m', hout, hring', hagrees', -⟩ := hmove hrotate
      rw [hout]
      exact ⟨t, m', returns_pure _, hsame.symm ▸ hring', hagrees'⟩
  | init ok =>
    obtain ⟨r, tried, t, m', hout, hring', hagrees', -⟩ :=
      @ethInit_returns cfg configEnvSize name s m ds ok hring hagrees
    exact ⟨t, m', hout.andThen (returns_pure _), hsame.symm ▸ hring', hagrees'⟩
  | setenv call =>
    obtain ⟨r, env, hrun, hagrees'⟩ := @Agrees.doSetenv cfg configEnvSize s m call hagrees (hset call rfl)
    unfold step
    dsimp only
    rw [hrun]
    exact ⟨_, _, returns_pure _, hsame.symm ▸ hring.congr rfl rfl rfl, hagrees'⟩

theorem readAct_env (h : readAct configEnvSize s = some t) : t.env = s.env := by
  unfold readAct at h
  split at h
  · obtain ⟨act, -, rfl⟩ := Option.map_eq_some_iff.mp h
    rfl
  · cases h
    rfl

theorem returns_andThen {α β : Type} {c : Comp (Option α)} {k : α → Comp (Option β)} {b : β}
    (h : (c.andThen k).Returns (some b)) : ∃ a, c.Returns (some a) ∧ (k a).Returns (some b) := by
  obtain ⟨a, ha, h⟩ := Comp.returns_bind.mp h
  cases a with
  | none => cases returns_pure_iff.mp h
  | some a => exact ⟨a, ha, h⟩

theorem ethSetCurrent_envId (h : (ethSetCurrent cfg configEnvSize name s).Returns (some t)) :
    t.env.envId ≤ s.env.envId + 1 := by
  unfold ethSetCurrent at h
  split at h
  · cases returns_pure_iff.mp h
    exact Nat.le_succ _
  next old _ =>
    obtain ⟨u, hread, h⟩ := returns_andThen h
    rw [← readAct_env (returns_pure_iff.mp hread).symm]
    split at h
    · exact (setEthact_envId (returns_pure_iff.mp h).symm).le
    · obtain ⟨found, -, h⟩ := returns_andThen h
      split at h
      · cases returns_pure_iff.mp h
        exact Nat.le_succ _
      · exact (setEthact_envId (returns_pure_iff.mp h).symm).le

theorem ethRegister_envId (h : (ethRegister cfg configEnvSize name dev s).Returns (some t)) :
    t.env.envId ≤ s.env.envId + 1 := by
  unfold ethRegister at h
  split at h
  · obtain ⟨u, hname, hu⟩ := Option.bind_eq_some_iff.mp (returns_pure_iff.mp h).symm
    cases hu
    have hle := updateName_envId hname
    exact hle
  · obtain ⟨d, -, h⟩ := returns_andThen h
    cases returns_pure_iff.mp h
    exact Nat.le_succ _

/-- A call changes `env_id` once, but for `eth_init`, which may do so for each device that it tries. -/
theorem step_envId (c : Call) (hring : RingOf ds s) (hagrees : Agrees configEnvSize m s)
    (hset : ∀ call, c = .setenv call → Ordinary call) (h : (step cfg configEnvSize name s c).Returns (some t)) :
    t.env.envId ≤ s.env.envId + ds.length + 1 := by
  cases c with
  | register dev => exact (ethRegister_envId h).trans (by omega)
  | setCurrent => exact (ethSetCurrent_envId h).trans (by omega)
  | tryAnother firstRestart => exact (ethTryAnother_envId (returns_pure_iff.mp h).symm).trans (by omega)
  | init ok =>
    obtain ⟨⟨r, tried, u⟩, hinit, h⟩ := returns_andThen h
    cases returns_pure_iff.mp h
    obtain ⟨r', tried', u', m', hout, -, -, htries⟩ :=
      @ethInit_returns cfg configEnvSize name s m ds ok hring hagrees
    have hle := ethInit_envId hinit
    cases hout.unique hinit
    cases hcur : s.ethCurrent with
    | none =>
      unfold ethInit at hinit
      rw [hcur] at hinit
      cases returns_pure_iff.mp hinit
      dsimp only
      omega
    | some cur =>
      obtain ⟨as, bs, hsplit, htries⟩ := htries cur hcur
      have hcount : (candidates m as cur bs).length ≤ ds.length := by
        rw [hsplit, candidates]
        split <;> simp <;> omega
      have htried := htries.length_le
      dsimp only
      omega
  | setenv call =>
    obtain ⟨out, hrun, rfl⟩ := Option.map_eq_some_iff.mp (returns_pure_iff.mp h).symm
    have hid := doSetenv_envId (hset call rfl).plain hrun
    dsimp only
    omega

theorem run_returns (calls : List Call) (hring : RingOf ds s) (hagrees : Agrees configEnvSize m s)
    (hset : ∀ call, .setenv call ∈ calls → Ordinary call) (hnodup : (ds ++ calls.filterMap Call.registered).Nodup) :
    ∃ t m', (run cfg configEnvSize name calls s).Returns (some t) ∧
      RingOf (ds ++ calls.filterMap Call.registered) t ∧ Agrees configEnvSize m' t ∧
      t.env.envId ≤ s.env.envId + calls.length * (ds.length + (calls.filterMap Call.registered).length + 1) := by
  induction calls generalizing s m ds with
  | nil => exact ⟨s, m, returns_pure _, (append_nil ds).symm ▸ hring, hagrees, by simp⟩
  | cons c calls ih =>
    have hsplit : ds ++ (c :: calls).filterMap Call.registered =
        ds ++ c.registered.toList ++ calls.filterMap Call.registered := by
      cases c <;> simp [filterMap_cons, Call.registered]
    rw [hsplit] at hnodup ⊢
    obtain ⟨t, m', hstep, hring', hagrees'⟩ := @step_returns cfg configEnvSize name s m ds c hring hagrees
      (fun call h => hset call (h ▸ mem_cons_self)) (fun dev h => by
        subst h
        have hpush := (nodup_append.mp hnodup).1
        exact fun hin => (nodup_append.mp hpush).2.2 dev hin dev mem_cons_self rfl)
    obtain ⟨u, m'', hrun, hring'', hagrees'', hids⟩ :=
      ih hring' hagrees' (fun call h => hset call (mem_cons_of_mem c h)) hnodup
    refine ⟨u, m'', hstep.andThen hrun, hring'', hagrees'', ?_⟩
    have hid := step_envId c hring hagrees (fun call h => hset call (h ▸ mem_cons_self)) hstep
    have hlen := congrArg List.length hsplit
    simp only [length_append] at hids hlen
    rw [hlen, length_cons, Nat.succ_mul]
    omega

end Ring

/-- An environment in memory that holds a list of definitions. -/
structure Loaded (configEnvSize : Nat) where
  env : NvState
  entries : List Entry
  holds : Holds env.env.data entries
  fits : env.env.data.length ≤ configEnvSize

def State.start (env : NvState) : State := ⟨env, fun _ => none, none, none, none, false, none, 0⟩

def Environment (configEnvSize : Nat) (s : State) (m : EnvMap) : Prop :=
  ∀ n : CString, equalsSign ∉ n.bytes → getenv configEnvSize s n = some (m n)

/-- The ring, and what `eth_init` and `eth_set_current` do in a state. -/
structure Behaves (cfg : NvConfig) (configEnvSize : Nat) (name : Nat → CString) (ds : List Nat) (s : State)
    (m : EnvMap) : Prop where
  ring : RingOf ds s
  environment : Environment configEnvSize s m
  init : ∀ ok, ∃ r tried t, (ethInit cfg configEnvSize name ok s).Returns (some (r, tried, t)) ∧
    ∀ cur, s.ethCurrent = some cur → ∃ as bs, ds = as ++ cur :: bs ∧
      Tries ok 0 (candidates m as cur bs) cur r tried t.ethCurrent
  setCurrent : ∃ t m', (ethSetCurrent cfg configEnvSize name s).Returns (some t) ∧ Environment configEnvSize t m' ∧
    ∀ old, s.ethCurrent = some old → ∃ cur, t.ethCurrent = some cur ∧ Names cfg name s ds m m' old cur

/-- `env_id` is an `int`, and has room for what one more call changes. -/
def Counts (ds : List Nat) (s : State) : Prop := s.env.envId + (ds.length + 1) < 2 ^ 31

/-- After any calls with distinct devices the devices form one ring, `eth_init` tries each of them once from the
current one on, and `eth_set_current` leaves the device that `ethact` names, or sets `ethact` where there is room. -/
theorem eth_ring_behaves (cfg : NvConfig) (configEnvSize : Nat) (name : Nat → CString) (e : Loaded configEnvSize)
    (calls : List Call) (hset : ∀ call, .setenv call ∈ calls → Ordinary call)
    (hdistinct : (calls.filterMap Call.registered).Nodup)
    (hcount : e.env.envId + (calls.length + 1) * ((calls.filterMap Call.registered).length + 1) < 2 ^ 31) :
    ∃ t m, (run cfg configEnvSize name calls (State.start e.env)).Returns (some t) ∧
      Counts (calls.filterMap Call.registered) t ∧
      Behaves cfg configEnvSize name (calls.filterMap Call.registered) t m := by
  have hring : RingOf [] (State.start e.env) := ⟨nodup_nil, rfl, nofun, fun _ => rfl, nofun⟩
  have hagrees : Agrees configEnvSize (valueOf e.entries) (State.start e.env) :=
    ⟨⟨e.entries, e.holds, fun _ => rfl⟩, e.fits, Nat.zero_le _, nofun⟩
  obtain ⟨t, m, hrun, hring', hagrees', hids⟩ :=
    @run_returns cfg configEnvSize name _ _ [] calls hring hagrees hset hdistinct
  have hcounts : Counts (calls.filterMap Call.registered) t := by
    rw [length_nil, zero_add] at hids
    rw [Nat.succ_mul] at hcount
    exact (Nat.add_le_add_right hids _).trans_lt (by rwa [add_assoc])
  refine ⟨t, m, hrun, hcounts, hring', fun n hn => hagrees'.getenv_eq hn, fun ok => ?_, ?_⟩
  · obtain ⟨r, tried, u, -, hout, -, -, htries⟩ := @ethInit_returns cfg configEnvSize name t m _ ok hring' hagrees'
    exact ⟨r, tried, u, hout, htries⟩
  · obtain ⟨u, m', hout, -, huagrees, hnames⟩ := @ethSetCurrent_returns cfg configEnvSize name t m _ hring' hagrees'
    exact ⟨u, m', hout, fun n hn => huagrees.getenv_eq hn, hnames⟩

theorem letterB_nulFree : (0 : UInt8) ∉ [98] := by decide

theorem letterA_plain : 61 ∉ letterA.bytes := by decide

def roomyEntry : Entry := ⟨letterA, letter 98 letterB_nulFree, letterA_plain⟩

theorem roomy_holds : Holds (oneVar 40).env.data [roomyEntry] :=
  ⟨⟨List.replicate 35 0, by decide, by decide⟩, by decide⟩

theorem roomy_fits : (oneVar 40).env.data.length ≤ 40 := by decide

/-- `a=b` in an environment of 40 bytes. -/
def roomy : Loaded 40 where
  env := oneVar 40
  entries := [roomyEntry]
  holds := roomy_holds
  fits := roomy_fits

/-- The devices `x`, `xx` and so on. -/
def xNames (dev : Nat) : CString where
  bytes := List.replicate (dev + 1) 120
  nulFree := fun h => absurd (eq_of_mem_replicate h) (by decide)

def twoDevices : List Call :=
  [.register 0, .register 1, .setenv (setenvCall ethact (xNames 1)), .setCurrent, .init fun _ dev => dev = 0]

theorem eth_ring_two : ∃ t m, (run plainConfig 40 xNames twoDevices (State.start (oneVar 40))).Returns (some t) ∧
    Counts [0, 1] t ∧ Behaves plainConfig 40 xNames [0, 1] t m := by
  refine eth_ring_behaves plainConfig 40 xNames roomy twoDevices (fun call h => ?_) (by decide) (by decide)
  simp only [twoDevices, mem_cons, reduceCtorEq, Call.setenv.injEq, not_mem_nil, or_false, false_or] at h
  rw [h]
  exact ethact_ordinary (xNames 1)

/-- In an environment of 12 bytes there is no room for `ethact=x` beside `a=b`. -/
theorem ethact_has_no_room : ∃ t, (run plainConfig 12 xNames [.register 0, .setCurrent] (State.start (oneVar 12))).Returns
    (some t) ∧ t.ethCurrent = some 0 ∧ getenv 12 t ethact = some none :=
  ⟨_, ⟨2, rfl⟩, rfl, by decide⟩

end UBoot.Eth
