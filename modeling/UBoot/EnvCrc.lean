import UBoot.EnvRefine

namespace UBoot

/-- The call takes the old definition out, leaving `d`, and then finds no room in
`d` for the new one. -/
structure LosesOld (cfg : NvConfig) (s : NvState) (c : SetenvCall) (d : List UInt8) : Prop where
  wantsValue : c.vals ≠ []
  admitted : equalsSign ∉ c.name.bytes ∧ consoleReturn cfg c = none
  removed : ∃ old rate, searchVar s.env.data c.name.bytes = some (some old) ∧
    readOnly cfg c s.env.data old = some false ∧
    switchBaudrate cfg c s.baudrate = some (some rate) ∧ deleteOld s.env.data old = some d
  full : ∃ env, appendAt d = some env ∧ d.length - env < defLen c.name c.vals

theorem finishSet_env {cfg : NvConfig} {c : SetenvCall} {s t : NvState} {r : Int}
    (h : finishSet cfg c s = some (r, t)) :
    (∃ d, d.length = s.env.data.length ∧ t.env = envCrcUpdate { s.env with data := d }) ∨
      (t = s ∧ r = 1 ∧ c.vals ≠ [] ∧ ∃ env, appendAt s.env.data = some env ∧
          s.env.data.length - env < defLen c.name c.vals) := by
  unfold finishSet at h
  split at h
  · cases h
    exact .inl ⟨s.env.data, rfl, rfl⟩
  next hv =>
    obtain ⟨env, he, h⟩ := Option.bind_eq_some_iff.mp h
    split at h
    next hfull =>
      cases h
      exact .inr ⟨rfl, rfl, hv, env, he, hfull⟩
    · obtain ⟨d, hd, h⟩ := Option.bind_eq_some_iff.mp h
      cases h
      exact .inl ⟨d, writeDef_length hd, updateVars_env _ _ _⟩

theorem dropOld_env {cfg : NvConfig} {c : SetenvCall} {s : NvState} {old : OldDef}
    {a : Except Int NvState} (h : dropOld cfg c s old = some a) :
    (∃ rc, a = .error rc) ∨ ∃ rate d, readOnly cfg c s.env.data old = some false ∧
        switchBaudrate cfg c s.baudrate = some (some rate) ∧ deleteOld s.env.data old = some d ∧
        a = .ok { s with env := { s.env with data := d }, baudrate := rate } := by
  obtain ⟨locked, hl, h⟩ := Option.bind_eq_some_iff.mp h
  cases locked with
  | true => exact .inl ⟨1, (Option.some.inj h).symm⟩
  | false =>
    obtain ⟨rate, hr, h⟩ := Option.bind_eq_some_iff.mp h
    cases rate with
    | none => exact .inl ⟨1, (Option.some.inj h).symm⟩
    | some rate =>
      obtain ⟨d, hd, h⟩ := Option.bind_eq_some_iff.mp h
      exact .inr ⟨rate, d, hl, hr, hd, (Option.some.inj h).symm⟩

theorem doSetenv_env_cases {cfg : NvConfig} {s t : NvState} {c : SetenvCall} {r : Int}
    (h : doSetenv cfg s c = some (r, t)) :
    t.env = s.env ∨ (∃ d, d.length = s.env.data.length ∧ t.env = envCrcUpdate { s.env with data := d }) ∨
      ∃ d, LosesOld cfg s c d ∧ r = 1 ∧ t.env = { s.env with data := d } := by
  unfold doSetenv at h
  split at h
  · cases h
    exact .inl rfl
  next hplain =>
    obtain ⟨old, hold, h⟩ := Option.bind_eq_some_iff.mp h
    split at h
    · cases h
      exact .inl rfl
    next hconsole =>
      split at h
      · rcases finishSet_env h with hcrc | ⟨rfl, _⟩
        · exact .inr (.inl hcrc)
        · exact .inl rfl
      next old =>
        obtain ⟨a, ha, h⟩ := Option.bind_eq_some_iff.mp h
        rcases dropOld_env ha with ⟨rc, rfl⟩ | ⟨rate, d, hro, hrate, hdel, rfl⟩
        · cases h
          exact .inl rfl
        · rcases finishSet_env h with ⟨d', hlen, hcrc⟩ | ⟨rfl, hr, hv, hfull⟩
          · exact .inr (.inl ⟨d', hlen.trans (deleteOld_length hdel), hcrc⟩)
          · exact .inr (.inr ⟨d, ⟨hv, ⟨hplain, hconsole⟩,
              ⟨old, rate, hold, hro, hrate, hdel⟩, hfull⟩, hr, rfl⟩)

theorem doSetenv_keeps_crc {cfg : NvConfig} {s t : NvState} {c : SetenvCall} {r : Int}
    (hs : s.env.crcOk) (hc : ∀ d, ¬LosesOld cfg s c d) (h : doSetenv cfg s c = some (r, t)) :
    t.env.crcOk := by
  rcases doSetenv_env_cases h with he | ⟨d, _, he⟩ | ⟨d, hl, _⟩
  · rw [he]
    exact hs
  · rw [he]
    exact envCrcUpdate_crcOk _
  · exact absurd hl (hc d)

theorem doSetenv_data_length {cfg : NvConfig} {s t : NvState} {c : SetenvCall} {r : Int}
    (h : doSetenv cfg s c = some (r, t)) : t.env.data.length = s.env.data.length := by
  rcases doSetenv_env_cases h with he | ⟨d, hd, he⟩ | ⟨d, hl, _, he⟩
  · rw [he]
  · rw [he]
    exact hd
  · obtain ⟨old, rate, _, _, _, hdel⟩ := hl.removed
    rw [he]
    exact deleteOld_length hdel

theorem doSetenv_flags {cfg : NvConfig} {s t : NvState} {c : SetenvCall} {r : Int}
    (h : doSetenv cfg s c = some (r, t)) : t.env.flags = s.env.flags := by
  rcases doSetenv_env_cases h with he | ⟨d, _, he⟩ | ⟨d, _, _, he⟩
  · rw [he]
  · rw [he]
    rfl
  · rw [he]

/-- The stored CRC stays good along every run in which no call runs out of room
after it has taken an old definition out. -/
theorem setenv_run_keeps_crc (cfg : NvConfig) (s u : NvState) (calls : List SetenvCall)
    (rs : List Int) (hs : s.env.crcOk)
    (hc : Runs.Meets (doSetenv cfg) (fun s c => ∀ d, ¬LosesOld cfg s c d) s calls)
    (h : Runs.run (doSetenv cfg) s calls = some (rs, u)) : u.env.crcOk :=
  Runs.run_invariant (fun _ _ _ _ hs hc h => doSetenv_keeps_crc hs hc h) hs hc h

/-- `setenv a c` over `a=b`, in twelve bytes of text. -/
theorem setenv_run_keeps_crc_replace : ∃ rs u, Runs.run (doSetenv plainConfig) (oneVar 12)
      [setCall (letter 97 (by decide)) [letter 99 (by decide)]] = some (rs, u) ∧ u.env.crcOk := by
  have hfound : searchVar (oneVar 12).env.data [97] = some (some ⟨2, 0, 3⟩) := by decide
  have hgone : deleteOld (oneVar 12).env.data ⟨2, 0, 3⟩ = some ((List.replicate 12 0).set 2 98) := by decide
  have hstart : appendAt ((List.replicate 12 0).set 2 98) = some 0 := by decide
  have hm : Runs.Meets (doSetenv plainConfig) (fun s c => ∀ d, ¬LosesOld plainConfig s c d)
      (oneVar 12) [setCall (letter 97 (by decide)) [letter 99 (by decide)]] := by
    refine ⟨?_, fun _ _ _ => trivial⟩
    rintro d ⟨_, _, ⟨old, _, hold, _, _, hdel⟩, env, he, hfull⟩
    cases Option.some.inj (Option.some.inj (hfound.symm.trans hold))
    cases Option.some.inj (hgone.symm.trans hdel)
    cases Option.some.inj (hstart.symm.trans he)
    exact absurd hfull (by decide)
  obtain ⟨⟨rs, u⟩, hrun⟩ := Option.isSome_iff_exists.mp
    (show (Runs.run (doSetenv plainConfig) (oneVar 12)
      [setCall (letter 97 (by decide)) [letter 99 (by decide)]]).isSome by decide +kernel)
  exact ⟨rs, u, hrun, setenv_run_keeps_crc plainConfig _ _ _ _ (by decide +kernel) hm hrun⟩

/-- The text of twelve bytes, with no room for a longer value of `a`. -/
def longCall : SetenvCall :=
  setCall letterA [⟨List.replicate 10 99, by decide⟩]

/-- `setenv a cccccccccc` over `a=b`: the call answers 1 and the CRC is wrong. -/
theorem setenv_overflow_loses_crc : (oneVar 12).env.crcOk ∧
      (doSetenv plainConfig (oneVar 12) longCall).map (fun a => (a.1, decide a.2.env.crcOk)) =
        some (1, false) := by
  decide +kernel

end UBoot
