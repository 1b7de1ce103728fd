import UBoot.EnvSet
import UBoot.Runs

namespace UBoot

open List

variable {es : List Entry}

abbrev EnvMap := CString → Option (List UInt8)

/-- The map after a call that answered `r`. An overflow loses the old value. -/
def EnvMap.set (m : EnvMap) (c : SetenvCall) (r : Int) : EnvMap := fun n =>
  if n = c.name then if r = 0 ∧ c.vals ≠ [] then some (joined c.vals) else none else m n

/-- Names that `_do_setenv` stores without a check of their own. -/
structure Ordinary (c : SetenvCall) : Prop where
  plain : equalsSign ∉ c.name.bytes
  untreated : c.name.bytes ∉
    [stdinName, stdoutName, stderrName, serialName, ethaddrName, baudrateName]

theorem joined_nulFree (vals : List CString) : (0 : UInt8) ∉ joined vals := by
  induction vals with
  | nil => simp [joined]
  | cons v vs ih =>
    cases vs with
    | nil => exact v.nulFree
    | cons w vs =>
      intro h
      rw [joined_cons_cons] at h
      rcases mem_append.mp h with h | h
      · exact v.nulFree h
      · rcases mem_cons.mp h with h | h
        · exact absurd h (by decide)
        · exact ih h

def newEntry (c : SetenvCall) (h : equalsSign ∉ c.name.bytes) : Entry :=
  ⟨c.name, ⟨joined c.vals, joined_nulFree c.vals⟩, h⟩

theorem newEntry_line (c : SetenvCall) (h : equalsSign ∉ c.name.bytes) (hv : c.vals ≠ []) :
    (newEntry c h).line = c.name.bytes ++ valueText equalsSign c.vals ++ [0] := by
  obtain ⟨v, vs, hvs⟩ := exists_cons_of_ne_nil hv
  simp [newEntry, Entry.line, Entry.body, hvs, valueText_joined]

theorem valueOf_eq_none {n : CString} (h : ∀ e ∈ es, e.name ≠ n) : valueOf es n = none := by
  simp only [valueOf, Option.map_eq_none_iff, List.find?_eq_none]
  exact fun e he => by simpa using h e he

theorem valueOf_append (as bs : List Entry) (n : CString) :
    valueOf (as ++ bs) n = (valueOf as n).or (valueOf bs n) := by
  simp only [valueOf, List.find?_append]
  cases as.find? fun e => e.name = n <;> simp

theorem valueOf_cons_ne {e : Entry} {n : CString} (es : List Entry) (h : e.name ≠ n) :
    valueOf (e :: es) n = valueOf es n := by
  simp [valueOf, h]

theorem valueOf_remove (as bs : List Entry) {e : Entry} {n : CString} (h : n ≠ e.name) :
    valueOf (as ++ bs) n = valueOf (as ++ e :: bs) n := by
  rw [valueOf_append, valueOf_append, valueOf_cons_ne bs (Ne.symm h)]

theorem split_at_name (es : List Entry) (n : CString) : (∀ e ∈ es, e.name ≠ n) ∨
      ∃ as e bs, es = as ++ e :: bs ∧ e.name = n ∧ ∀ x ∈ as, x.name ≠ n := by
  induction es with
  | nil => exact .inl (by simp)
  | cons f es ih =>
    by_cases hf : f.name = n
    · exact .inr ⟨[], f, es, rfl, hf, by simp⟩
    · rcases ih with habs | ⟨as, e, bs, rfl, he, has⟩
      · exact .inl fun x hx => by
          rcases mem_cons.mp hx with rfl | hx
          · exact hf
          · exact habs x hx
      · refine .inr ⟨f :: as, e, bs, rfl, he, fun x hx => ?_⟩
        rcases mem_cons.mp hx with rfl | hx
        · exact hf
        · exact has x hx

theorem Holds.length_lt {d : List UInt8} (h : Holds d es) : es.length < d.length := by
  obtain ⟨rest, rfl, _⟩ := h.text
  have := length_le_lines es
  simp only [length_append, length_cons]
  omega

theorem searchVar_absent {d : List UInt8} {n : CString} (h : Holds d es)
    (hn : equalsSign ∉ n.bytes) (habs : ∀ e ∈ es, e.name ≠ n) : searchVar d n.bytes = some none := by
  have hlen := h.length_lt
  obtain ⟨rest, hd, _⟩ := h.text
  have hs := searchFuel_absent hn [] es rest habs (show es.length < d.length + 1 by omega)
  rw [hd] at hs ⊢
  exact hs

theorem searchVar_present {d : List UInt8} {as bs : List Entry} {e : Entry} {n : CString}
    (h : Holds d (as ++ e :: bs)) (hn : equalsSign ∉ n.bytes) (habs : ∀ x ∈ as, x.name ≠ n)
    (he : e.name = n) :
    searchVar d n.bytes = some (some ⟨(lines as).length + n.bytes.length + 1,
      (lines as).length, (lines as).length + e.body.length⟩) := by
  have hlen := h.length_lt
  simp only [length_append, length_cons] at hlen
  obtain ⟨rest, hd, _⟩ := h.text
  have hs := searchFuel_present hn [] as bs e rest habs he
    (show as.length < d.length + 1 by omega)
  rw [hd] at hs ⊢
  exact hs

theorem deleteOld_holds {d : List UInt8} {as bs : List Entry} {e : Entry}
    (h : Holds d (as ++ e :: bs)) (v : Nat) :
    ∃ d', deleteOld d ⟨v, (lines as).length, (lines as).length + e.body.length⟩ = some d' ∧
      d'.length = d.length ∧ Holds d' (as ++ bs) := by
  obtain ⟨rest, rfl, _⟩ := h.text
  obtain ⟨rest', hrun, hlen, hnil⟩ := deleteOld_spec as bs e rest v
  refine ⟨_, hrun, ?_, ⟨rest', rfl, hnil⟩, ?_⟩
  · simp only [lines_append, lines_cons, length_append, length_cons, hlen]
    omega
  · have hd := h.distinct
    simp only [map_append, map_cons] at hd ⊢
    exact hd.sublist ((sublist_cons_self _ _).append_left _)

theorem writeDef_holds {d : List UInt8} {c : SetenvCall} (h : Holds d es)
    (hp : equalsSign ∉ c.name.bytes) (hv : c.vals ≠ []) (habs : ∀ e ∈ es, e.name ≠ c.name)
    (hfit : defLen c.name c.vals ≤ d.length - (lines es).length) :
    ∃ d', writeDef d (lines es).length c.name c.vals = some d' ∧ d'.length = d.length ∧
      Holds d' (es ++ [newEntry c hp]) := by
  obtain ⟨rest, rfl, _⟩ := h.text
  have hr : defLen c.name c.vals ≤ (0 :: rest).length := by
    simpa using hfit
  have hw := writeDef_at (lines es) (0 :: rest) c.name c.vals hr
  rw [← newEntry_line c hp hv] at hw
  have hlen : (newEntry c hp).line.length + 1 = defLen c.name c.vals := by
    rw [newEntry_line c hp hv]
    simp only [length_append, valueText_length, defLen, length_singleton]
    omega
  refine ⟨_, hw, ?_, ⟨(0 :: rest).drop (defLen c.name c.vals), by simp, by simp⟩, ?_⟩
  · simp only [length_append, length_cons, length_drop] at hr hlen ⊢
    omega
  · rw [map_append]
    apply nodup_append.mpr
    refine ⟨h.distinct, by simp, ?_⟩
    intro a ha b hb
    obtain ⟨e, he, rfl⟩ := mem_map.mp ha
    have hb' : b = c.name := by simpa [newEntry] using hb
    rw [hb']
    exact habs e he

theorem finishSet_holds (cfg : NvConfig) {c : SetenvCall} {s : NvState}
    (h : Holds s.env.data es) (hp : equalsSign ∉ c.name.bytes) (habs : ∀ e ∈ es, e.name ≠ c.name) :
    ∃ r t fs, finishSet cfg c s = some (r, t) ∧ Holds t.env.data fs ∧ t.env.data.length = s.env.data.length ∧
      ∀ n, valueOf fs n = EnvMap.set (valueOf es) c r n := by
  have hnone := valueOf_eq_none habs
  by_cases hv : c.vals = []
  · refine ⟨0, { s with env := envCrcUpdate s.env }, es, by simp [finishSet, hv], h, rfl, ?_⟩
    intro n
    by_cases hn : n = c.name
    · simp [EnvMap.set, hn, hv, hnone]
    · simp [EnvMap.set, hn]
  · by_cases hfit : s.env.data.length - (lines es).length < defLen c.name c.vals
    · refine ⟨1, s, es, ?_, h, rfl, ?_⟩
      · simp [finishSet, hv, appendAt_holds h, hfit]
      · intro n
        by_cases hn : n = c.name
        · simp [EnvMap.set, hn, hnone]
        · simp [EnvMap.set, hn]
    · obtain ⟨d, hw, hlen, hd⟩ := writeDef_holds h hp hv habs (by omega)
      refine ⟨0, updateVars cfg c { s with env := envCrcUpdate { s.env with data := d } },
        es ++ [newEntry c hp], ?_, ?_, ?_, ?_⟩
      · simp [finishSet, hv, appendAt_holds h, hfit, hw]
      · rwa [updateVars_env]
      · rw [updateVars_env]
        exact hlen
      · intro n
        rw [valueOf_append]
        have hnew : valueOf [newEntry c hp] c.name = some (joined c.vals) := by
          simp [valueOf, newEntry]
        by_cases hn : n = c.name
        · simp [EnvMap.set, hn, hv, hnone, hnew]
        · have hne : (newEntry c hp).name ≠ n := fun he => hn he.symm
          rw [valueOf_cons_ne [] hne]
          simp [EnvMap.set, hn, valueOf]

theorem Ordinary.consoleReturn_eq {c : SetenvCall} (h : Ordinary c) (cfg : NvConfig) :
    consoleReturn cfg c = none := by
  have hu := h.untreated
  simp only [mem_cons, not_or] at hu
  simp [consoleReturn, hu]

theorem Ordinary.dropOld_eq {c : SetenvCall} (h : Ordinary c) (cfg : NvConfig) {s : NvState}
    {old : OldDef} {d : List UInt8} (hd : deleteOld s.env.data old = some d) :
    dropOld cfg c s old = some (.ok { s with env := { s.env with data := d } }) := by
  have hu := h.untreated
  simp only [mem_cons, not_or] at hu
  have hr : readOnly cfg c s.env.data old = some false := by simp [readOnly, hu]
  have hb : switchBaudrate cfg c s.baudrate = some (some s.baudrate) := by
    simp [switchBaudrate, hu]
  simp [dropOld, hr, hb, hd]

theorem doSetenv_ordinary (cfg : NvConfig) {c : SetenvCall} (hc : Ordinary c) {s : NvState}
    (h : Holds s.env.data es) : ∃ r t fs, doSetenv cfg s c = some (r, t) ∧ Holds t.env.data fs ∧
      t.env.data.length = s.env.data.length ∧
      ∀ n, valueOf fs n = EnvMap.set (valueOf es) c r n := by
  rcases split_at_name es c.name with habs | ⟨as, e, bs, rfl, he, has⟩
  · obtain ⟨r, t, fs, hrun, hfs, hlen, hmap⟩ :=
      finishSet_holds cfg (s := { s with envId := s.envId + 1 }) h hc.plain habs
    refine ⟨r, t, fs, ?_, hfs, hlen, hmap⟩
    simp [doSetenv, hc.plain, searchVar_absent h hc.plain habs, hc.consoleReturn_eq, hrun]
  · obtain ⟨d, hd, hdlen, hrest⟩ := deleteOld_holds h ((lines as).length + c.name.bytes.length + 1)
    have hnodup := h.distinct
    have habs : ∀ x ∈ as ++ bs, x.name ≠ c.name := by
      simp only [map_append, map_cons, nodup_append, nodup_cons] at hnodup
      intro x hx heq
      rcases mem_append.mp hx with hx | hx
      · exact has x hx heq
      · exact hnodup.2.1.1 (mem_map.mpr ⟨x, hx, heq.trans he.symm⟩)
    obtain ⟨r, t, fs, hrun, hfs, hlen, hmap⟩ := finishSet_holds cfg
      (s := { s with envId := s.envId + 1, env := { s.env with data := d } }) hrest hc.plain habs
    refine ⟨r, t, fs, ?_, hfs, hlen.trans hdlen, ?_⟩
    · have hdrop := hc.dropOld_eq cfg (s := { s with envId := s.envId + 1 }) hd
      simp [doSetenv, hc.plain, searchVar_present h hc.plain has he, hc.consoleReturn_eq, hdrop, hrun]
    · intro n
      rw [hmap n]
      by_cases hn : n = c.name
      · simp [EnvMap.set, hn]
      · simp only [EnvMap.set, hn, if_false]
        exact valueOf_remove as bs (he ▸ hn)

theorem setenv_run_refines_map (cfg : NvConfig) {s : NvState}
    (h : Holds s.env.data es) {calls : List SetenvCall} (hc : ∀ c ∈ calls, Ordinary c) :
    ∃ rs t fs, Runs.run (doSetenv cfg) s calls = some (rs, t) ∧ Holds t.env.data fs ∧
      t.env.data.length = s.env.data.length ∧
      ∀ n, valueOf fs n = (calls.zip rs).foldl (fun m c => EnvMap.set m c.1 c.2) (valueOf es) n := by
  obtain ⟨rs, t, hrun, _, fs, hfs, hlen, hmap⟩ := Runs.run_simulates
    (r := fun (t : NvState) (m : EnvMap) => ∃ fs, Holds t.env.data fs ∧
      t.env.data.length = s.env.data.length ∧ ∀ n, valueOf fs n = m n)
    (p := Ordinary) (f := EnvMap.set)
    (fun t m c ⟨fs, hfs, hlen, hm⟩ hc => by
      obtain ⟨r, u, gs, hrun, hgs, hlen', hmap⟩ := doSetenv_ordinary cfg hc hfs
      refine ⟨r, u, hrun, gs, hgs, hlen'.trans hlen, fun n => ?_⟩
      rw [hmap n, funext hm])
    (show ∃ fs, Holds s.env.data fs ∧ s.env.data.length = s.env.data.length ∧
      ∀ n, valueOf fs n = valueOf es n from ⟨es, h, rfl, fun _ => rfl⟩) hc
  exact ⟨rs, t, fs, hrun, hfs, hlen, hmap⟩

theorem Holds.doubleNul {d : List UInt8} (h : Holds d es) :
    ∃ i, i + 1 < d.length ∧ d[i]? = some 0 ∧ d[i + 1]? = some 0 := by
  obtain ⟨rest, rfl, hnil⟩ := h.text
  rcases eq_nil_or_concat es with rfl | ⟨es, e, rfl⟩
  · obtain ⟨t, rfl⟩ := List.head?_eq_some_iff.mp (hnil rfl)
    exact ⟨0, by simp, by simp, by simp⟩
  · have htext : lines (es.concat e) ++ 0 :: rest = (lines es ++ e.body) ++ 0 :: 0 :: rest := by
      simp [Entry.line]
    have hsucc : (lines es ++ e.body).length + 1 = (lines es ++ e.body ++ [0]).length := by
      simp [add_assoc]
    rw [htext]
    refine ⟨(lines es ++ e.body).length, by simp; omega, by simp, ?_⟩
    rw [hsucc, show (lines es ++ e.body) ++ 0 :: 0 :: rest = (lines es ++ e.body ++ [0]) ++ 0 :: rest by simp]
    simp

/-- The environment store refines a finite map, after any sequence of calls. -/
theorem setenv_store_refines_map (cfg : NvConfig) (configEnvSize : Nat) (s : NvState)
    (es : List Entry) (h : Holds s.env.data es) (hsize : s.env.data.length ≤ configEnvSize)
    (calls : List SetenvCall) (hcalls : ∀ c ∈ calls, Ordinary c) (c : SetenvCall)
    (hc : Ordinary c) :
    ∃ rs t r u, Runs.run (doSetenv cfg) s calls = some (rs, t) ∧ doSetenv cfg t c = some (r, u) ∧
      (r = 0 → c.vals ≠ [] →
        getenvValue configEnvSize u.env.data c.name.bytes = some (some (joined c.vals))) ∧
      (r = 0 → c.vals = [] → getenvValue configEnvSize u.env.data c.name.bytes = some none) ∧
      (∀ other : CString, equalsSign ∉ other.bytes → other ≠ c.name →
        getenvValue configEnvSize u.env.data other.bytes = getenvValue configEnvSize t.env.data other.bytes) ∧
      u.env.data.length = s.env.data.length ∧ (∃ gs, Holds u.env.data gs) ∧
      ∃ i, i + 1 < u.env.data.length ∧ u.env.data[i]? = some 0 ∧ u.env.data[i + 1]? = some 0 := by
  obtain ⟨rs, t, fs, hrun, hfs, hlen, _⟩ := setenv_run_refines_map cfg h hcalls
  obtain ⟨r, u, gs, hstep, hgs, hlen', hmap⟩ := doSetenv_ordinary cfg hc hfs
  have hu : u.env.data.length ≤ configEnvSize := by omega
  have ht : t.env.data.length ≤ configEnvSize := by omega
  refine ⟨rs, t, r, u, hrun, hstep, ?_, ?_, ?_, hlen'.trans hlen, ⟨gs, hgs⟩, hgs.doubleNul⟩
  · intro hr hv
    rw [getenvValue_holds hgs hc.plain hu, hmap]
    simp [EnvMap.set, hr, hv]
  · intro hr hv
    rw [getenvValue_holds hgs hc.plain hu, hmap]
    simp [EnvMap.set, hv]
  · intro other hp hne
    rw [getenvValue_holds hgs hp hu, getenvValue_holds hfs hp ht, hmap]
    simp [EnvMap.set, hne]

/-- A board with every option of `_do_setenv` off. -/
def plainConfig : NvConfig :=
  ⟨true, false, none, false, false, false, [9600, 19200, 38400, 57600, 115200]⟩

def letter (c : UInt8) (h : (0 : UInt8) ∉ [c]) : CString := ⟨[c], h⟩

def letterA : CString := letter 97 (by decide)

def setCall (name : CString) (vals : List CString) : SetenvCall := ⟨0, name, vals, 0, 0⟩

/-- `a=b` alone in a data area of `size` bytes, with a good CRC. -/
def oneVar (size : Nat) : NvState :=
  ⟨envCrcUpdate ⟨0, 0, [97, 61, 98, 0, 0] ++ List.replicate (size - 5) 0⟩, 1, 115200, [], 0, []⟩

theorem setenv_store_refines_map_sample : ∃ rs t r u, Runs.run (doSetenv plainConfig) (oneVar 12)
        [setCall (letter 97 (by decide)) [letter 99 (by decide), letter 100 (by decide)]] = some (rs, t) ∧
      doSetenv plainConfig t (setCall (letter 98 (by decide)) [letter 99 (by decide)]) = some (r, u) ∧
      (r = 0 → getenvValue 16 u.env.data [98] = some (some [99])) ∧
      getenvValue 16 u.env.data [97] = getenvValue 16 t.env.data [97] := by
  obtain ⟨rs, t, r, u, hrun, hstep, hset, _, hother, _⟩ :=
    setenv_store_refines_map plainConfig 16 (oneVar 12)
      [⟨letter 97 (by decide), letter 98 (by decide), by decide⟩]
      ⟨⟨List.replicate 7 0, by decide, by decide⟩, by decide⟩ (by decide)
      [setCall (letter 97 (by decide)) [letter 99 (by decide), letter 100 (by decide)]]
      (fun c hc => by
        rw [mem_singleton.mp hc]
        exact ⟨by decide, by decide⟩)
      (setCall (letter 98 (by decide)) [letter 99 (by decide)]) ⟨by decide, by decide⟩
  exact ⟨rs, t, r, u, hrun, hstep, fun hr => hset hr (by decide),
    hother (letter 97 (by decide)) (by decide) (by decide)⟩

end UBoot
