import UBoot.Loops

namespace Loops

variable {σ : Type*}

/-- One round: the body below the bound, and the counter goes on. -/
def countRound (w n : Nat) (f : σ → Comp (Option σ)) (t : Nat × σ) : Comp ((Nat × σ) ⊕ Option σ) :=
  if t.1 < n then
    (f t.2).bind fun r => Comp.pure (r.elim (.inr none) fun s => .inl ((t.1 + 1) % w, s))
  else Comp.pure (.inr (some t.2))

/-- A loop over a counter of `w` values from 0 up to `n`, with a body that may fail. -/
def Comp.count (w n : Nat) (f : σ → Comp (Option σ)) (s : σ) : Comp (Option σ) := Comp.loop (countRound w n f) (0, s)

/-- So many rounds of a body. -/
inductive Rounds (f : σ → Comp (Option σ)) : Nat → σ → σ → Prop
  | none {s : σ} : Rounds f 0 s s
  | next {n : Nat} {s t u : σ} : (f s).Returns (some t) → Rounds f n t u → Rounds f (n + 1) s u

variable {w n : Nat} {f : σ → Comp (Option σ)} {s s' : σ}

theorem countRound_below {i : Nat} (hi : i < n) (hn : n < w) (h : (f s).Returns (some s')) :
    (countRound w n f (i, s)).Returns (.inl (i + 1, s')) := by
  have hwrap : (i + 1) % w = i + 1 := Nat.mod_eq_of_lt (by omega)
  unfold countRound
  rw [if_pos hi]
  refine Comp.returns_bind.mpr ⟨some s', h, ?_⟩
  rw [hwrap]
  exact Comp.returns_pure _

theorem countRound_cases {t : Nat × σ} {x : (Nat × σ) ⊕ Option σ} (h : (countRound w n f t).Returns x) :
    (t.1 < n ∧ ((∃ u, (f t.2).Returns (some u) ∧ x = .inl ((t.1 + 1) % w, u)) ∨ x = .inr none)) ∨
      n ≤ t.1 ∧ x = .inr (some t.2) := by
  unfold countRound at h
  split at h
  next hlt =>
    obtain ⟨r, hr, hx⟩ := Comp.returns_bind.mp h
    have heq := Comp.returns_pure_iff.mp hx
    cases r with
    | none => exact .inl ⟨hlt, .inr heq⟩
    | some u => exact .inl ⟨hlt, .inl ⟨u, hr, heq⟩⟩
  next hge => exact .inr ⟨by omega, Comp.returns_pure_iff.mp h⟩

theorem count_iff (hn : n < w) : (Comp.count w n f s).Returns (some s') ↔ Rounds f n s s' := by
  constructor
  · intro h
    have hfrom : ∀ u, some s' = some u → (0, s).1 ≤ n → Rounds f (n - (0, s).1) (0, s).2 u := by
      refine Comp.loop_induction (R := fun (t : Nat × σ) (r : Option σ) =>
        ∀ u, r = some u → t.1 ≤ n → Rounds f (n - t.1) t.2 u) (fun t r hr => ?_) (fun t t' r ht ih => ?_) h
      · intro u hu hle
        subst hu
        rcases countRound_cases hr with ⟨-, ⟨v, -, hx⟩ | hx⟩ | ⟨hge, hx⟩
        · cases hx
        · cases hx
        · cases hx
          rw [Nat.sub_eq_zero_of_le hge]
          exact .none
      · intro u hu hle
        rcases countRound_cases ht with ⟨hlt, ⟨v, hv, hx⟩ | hx⟩ | ⟨hge, hx⟩
        · cases hx
          have hwrap : (t.1 + 1) % w = t.1 + 1 := Nat.mod_eq_of_lt (by omega)
          have hrest := ih u hu
          rw [hwrap] at hrest
          rw [show n - t.1 = n - (t.1 + 1) + 1 from by omega]
          exact .next hv (hrest (by omega))
        · cases hx
        · cases hx
    exact hfrom s' rfl (Nat.zero_le n)
  · intro h
    have hfrom : ∀ {k : Nat} {t u : σ}, Rounds f k t u → k ≤ n →
        (Comp.loop (countRound w n f) (n - k, t)).Returns (some u) := by
      intro k t u ht
      induction ht with
      | none =>
        intro _
        refine Comp.loop_done ?_
        unfold countRound
        rw [if_neg (by dsimp only; omega)]
        exact Comp.returns_pure _
      | @next k t v u hv _ ih =>
        intro hk
        have hstep : (countRound w n f (n - (k + 1), t)).Returns (.inl (n - (k + 1) + 1, v)) :=
          countRound_below (by omega) hn hv
        rw [show n - (k + 1) + 1 = n - k from by omega] at hstep
        exact Comp.loop_again hstep (ih (by omega))
    have hstart := hfrom h (le_refl n)
    rwa [Nat.sub_self] at hstart

theorem count_overrun (hw : 0 < w) (hn : w ≤ n) : ¬(Comp.count w n f s).Returns (some s') := by
  intro h
  have hnone : some s' = none := by
    refine Comp.loop_returns (fun t : Nat × σ => t.1 < w) (Q := fun r : Option σ => r = none) (fun t t' ht ht' => ?_)
      (fun t r ht hr => ?_) hw h
    · rcases countRound_cases ht' with ⟨-, ⟨v, -, hx⟩ | hx⟩ | ⟨-, hx⟩
      · cases hx
        exact Nat.mod_lt _ hw
      · cases hx
      · cases hx
    · rcases countRound_cases hr with ⟨-, ⟨v, -, hx⟩ | hx⟩ | ⟨hge, -⟩
      · cases hx
      · cases hx
        rfl
      · omega
  cases hnone

theorem Rounds.reach (P : Nat → σ → Prop) (hstep : ∀ i < n, ∀ t t', P i t → (f t).Returns (some t') → P (i + 1) t')
    (h₀ : P 0 s) (h : Rounds f n s s') : P n s' := by
  have hfrom : ∀ {k : Nat} {t u : σ}, Rounds f k t u → k ≤ n → P (n - k) t → P n u := by
    intro k t u ht
    induction ht with
    | none => exact fun _ hP => hP
    | @next k t v u hv _ ih =>
      intro hk hP
      have hnext := hstep (n - (k + 1)) (by omega) t v hP hv
      rw [show n - (k + 1) + 1 = n - k from by omega] at hnext
      exact ih (by omega) hnext
  exact hfrom h (le_refl n) (by rwa [Nat.sub_self])

theorem Rounds.of_path (path : Nat → σ) (h : ∀ i < n, (f (path i)).Returns (some (path (i + 1)))) :
    Rounds f n (path 0) (path n) := by
  have hfrom : ∀ k ≤ n, Rounds f k (path (n - k)) (path n) := by
    intro k hk
    induction k with
    | zero => exact .none
    | succ k ih =>
      have hstep := h (n - (k + 1)) (by omega)
      rw [show n - (k + 1) + 1 = n - k from by omega] at hstep
      exact .next hstep (ih (by omega))
  have hstart := hfrom n (le_refl n)
  rwa [Nat.sub_self] at hstart

/-- Rounds that each have one result, where the condition of the round holds. -/
theorem Rounds.path_iff (ok : Nat → Prop) (path : Nat → σ)
    (hstep : ∀ i < n, ∀ t, (f (path i)).Returns (some t) ↔ ok i ∧ t = path (i + 1)) :
    Rounds f n (path 0) s' ↔ (∀ i < n, ok i) ∧ s' = path n := by
  constructor
  · refine Rounds.reach (fun i t => (∀ j < i, ok j) ∧ t = path i) (fun i hi t t' ht ht' => ?_)
      ⟨fun j hj => absurd hj (Nat.not_lt_zero j), rfl⟩
    obtain ⟨hbefore, rfl⟩ := ht
    obtain ⟨hnow, hnext⟩ := (hstep i hi t').mp ht'
    refine ⟨fun j hj => ?_, hnext⟩
    rcases Nat.lt_succ_iff_lt_or_eq.mp hj with hj | rfl
    · exact hbefore j hj
    · exact hnow
  · rintro ⟨hall, rfl⟩
    exact Rounds.of_path path fun i hi => (hstep i hi _).mpr ⟨hall i hi, rfl⟩

end Loops
