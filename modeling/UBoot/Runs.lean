import Mathlib.Data.List.Basic

namespace Runs

open List

variable {σ α β : Type}

/-- The answers of a whole run and the state it ends in. -/
@[grind =] def run (step : σ → α → Option (β × σ)) : σ → List α → Option (List β × σ)
  | s, [] => some ([], s)
  | s, a :: as => do
    let (b, t) ← step s a
    let (bs, u) ← run step t as
    pure (b :: bs, u)

/-- Every step of the run meets `p` in the state it starts from. -/
def Meets (step : σ → α → Option (β × σ)) (p : σ → α → Prop) : σ → List α → Prop
  | _, [] => True
  | s, a :: as => p s a ∧ ∀ b t, step s a = some (b, t) → Meets step p t as

instance decidableMeets (step : σ → α → Option (β × σ)) (p : σ → α → Prop) [∀ s a, Decidable (p s a)] :
    ∀ s as, Decidable (Meets step p s as)
  | _, [] => .isTrue trivial
  | s, a :: as =>
    letI (x : β × σ) : Decidable (Meets step p x.2 as) := decidableMeets step p x.2 as
    decidable_of_iff (p s a ∧ ∀ x ∈ step s a, Meets step p x.2 as)
      (and_congr_right fun _ => ⟨fun h b t hs => h (b, t) hs, fun h x hx => h x.1 x.2 hx⟩)

theorem run_cons_iff {step : σ → α → Option (β × σ)} {s u : σ} {a : α} {as : List α}
    {bs : List β} :
    run step s (a :: as) = some (bs, u) ↔
      ∃ b t cs, step s a = some (b, t) ∧ run step t as = some (cs, u) ∧ bs = b :: cs := by
  constructor
  · intro h
    obtain ⟨⟨b, t⟩, hs, h⟩ := Option.bind_eq_some_iff.mp h
    obtain ⟨⟨cs, v⟩, hr, h⟩ := Option.bind_eq_some_iff.mp h
    cases h
    exact ⟨b, t, cs, hs, hr, rfl⟩
  · rintro ⟨b, t, cs, hs, hr, rfl⟩
    simp [run, hs, hr]

theorem run_nil (step : σ → α → Option (β × σ)) (s : σ) : run step s [] = some ([], s) := rfl

theorem run_cons {step : σ → α → Option (β × σ)} {s t u : σ} {a : α} {as : List α} {b : β}
    {bs : List β} (hs : step s a = some (b, t)) (h : run step t as = some (bs, u)) :
    run step s (a :: as) = some (b :: bs, u) :=
  run_cons_iff.mpr ⟨b, t, bs, hs, h, rfl⟩

theorem run_head_none {step : σ → α → Option (β × σ)} {s : σ} {a : α} {as : List α}
    (h : step s a = none) : run step s (a :: as) = none := by
  rw [run, h]
  rfl

theorem run_tail_none {step : σ → α → Option (β × σ)} {s t : σ} {a : α} {as : List α} {b : β}
    (hs : step s a = some (b, t)) (h : run step t as = none) : run step s (a :: as) = none := by
  rw [run, hs]
  simp only [Option.bind_eq_bind, Option.bind_some, h]
  rfl

theorem Meets.cons {step : σ → α → Option (β × σ)} {p : σ → α → Prop} {s t : σ} {a : α}
    {as : List α} {b : β} (hs : step s a = some (b, t)) (hp : p s a) (h : Meets step p t as) :
    Meets step p s (a :: as) := by
  refine ⟨hp, fun b' t' hs' => ?_⟩
  obtain ⟨_, rfl⟩ := Prod.mk.inj (Option.some.inj (hs.symm.trans hs'))
  exact h

theorem meets_true (step : σ → α → Option (β × σ)) (s : σ) (as : List α) :
    Meets step (fun _ _ => True) s as := by
  induction as generalizing s with
  | nil => trivial
  | cons a as ih => exact ⟨trivial, fun _ t _ => ih t⟩

theorem run_invariant {step : σ → α → Option (β × σ)} {p : σ → α → Prop} {q : σ → Prop}
    (hstep : ∀ s a b t, q s → p s a → step s a = some (b, t) → q t)
    {s u : σ} {as : List α} {bs : List β} (hs : q s) (hp : Meets step p s as)
    (h : run step s as = some (bs, u)) : q u := by
  induction as generalizing s bs with
  | nil =>
    cases h
    exact hs
  | cons a as ih =>
    obtain ⟨b, t, cs, ha, hr, _⟩ := run_cons_iff.mp h
    exact ih (hstep s a b t hs hp.1 ha) (hp.2 b t ha) hr

theorem run_answers {step : σ → α → Option (β × σ)} {ok : β → Prop} {q : σ → Prop}
    (hstep : ∀ s a b t, q s → ok b → step s a = some (b, t) → q t) {s u : σ} {as : List α}
    {bs : List β} (hs : q s) (hok : ∀ b ∈ bs, ok b) (h : run step s as = some (bs, u)) : q u := by
  induction as generalizing s bs with
  | nil =>
    cases h
    exact hs
  | cons a as ih =>
    obtain ⟨b, t, cs, ha, hr, rfl⟩ := run_cons_iff.mp h
    obtain ⟨hb, hcs⟩ := forall_mem_cons.mp hok
    exact ih (hstep s a b t hs hb ha) hcs hr

theorem run_total {step : σ → α → Option (β × σ)} {p : σ → α → Prop} {q : σ → Prop} {v : α → Prop}
    (hstep : ∀ s a, q s → v a → p s a → ∃ b t, step s a = some (b, t) ∧ q t)
    {s : σ} {as : List α} (hs : q s) (hv : ∀ a ∈ as, v a) (hp : Meets step p s as) :
    ∃ bs u, run step s as = some (bs, u) ∧ q u := by
  induction as generalizing s with
  | nil => exact ⟨[], s, rfl, hs⟩
  | cons a as ih =>
    obtain ⟨b, t, ha, ht⟩ := hstep s a hs (hv a mem_cons_self) hp.1
    obtain ⟨bs, u, hrun, hu⟩ := ih ht (fun x hx => hv x (mem_cons_of_mem a hx)) (hp.2 b t ha)
    exact ⟨b :: bs, u, run_cons ha hrun, hu⟩

theorem run_inside_iff {step : σ → α → Option (β × σ)} {p : σ → α → Prop} {q : σ → Prop}
    {v : α → Prop} (hsome : ∀ s a, q s → v a → p s a → ∃ b t, step s a = some (b, t) ∧ q t)
    (hnone : ∀ s a, q s → ¬p s a → step s a = none) {s : σ} {as : List α} (hs : q s)
    (hv : ∀ a ∈ as, v a) :
    (∃ bs u, run step s as = some (bs, u) ∧ q u) ↔ Meets step p s as := by
  induction as generalizing s with
  | nil => exact ⟨fun _ => trivial, fun _ => ⟨[], s, rfl, hs⟩⟩
  | cons a as ih =>
    have hv' : ∀ x ∈ as, v x := fun x hx => hv x (mem_cons_of_mem a hx)
    constructor
    · rintro ⟨bs, u, hrun, hu⟩
      obtain ⟨b, t, cs, ha, hr, _⟩ := run_cons_iff.mp hrun
      have hp : p s a := by
        by_contra hno
        cases ha.symm.trans (hnone s a hs hno)
      obtain ⟨b', t', ha', ht⟩ := hsome s a hs (hv a mem_cons_self) hp
      obtain ⟨_, rfl⟩ := Prod.mk.inj (Option.some.inj (ha.symm.trans ha'))
      exact Meets.cons ha hp ((ih ht hv').mp ⟨cs, u, hr, hu⟩)
    · rintro ⟨hp, hrest⟩
      obtain ⟨b, t, ha, ht⟩ := hsome s a hs (hv a mem_cons_self) hp
      obtain ⟨bs, u, hrun, hu⟩ := (ih ht hv').mpr (hrest b t ha)
      exact ⟨b :: bs, u, run_cons ha hrun, hu⟩

theorem forall_split_cons {p : List α → α → Prop} {a : α} {as : List α} :
    (∀ pre x post, a :: as = pre ++ x :: post → p pre x) ↔
      p [] a ∧ ∀ pre x post, as = pre ++ x :: post → p (a :: pre) x := by
  constructor
  · intro h
    exact ⟨h [] a as rfl, fun pre x post hs => h (a :: pre) x post (by rw [hs]; rfl)⟩
  · rintro ⟨h₀, h⟩ pre x post hs
    cases pre with
    | nil =>
      obtain ⟨rfl, _⟩ := List.cons.inj hs
      exact h₀
    | cons b pre =>
      obtain ⟨rfl, htail⟩ := List.cons.inj hs
      exact h pre x post htail

theorem run_history {step : σ → α → Option (β × σ)} {p : σ → α → Prop} {c : List α → α → Prop}
    {ok : β → Prop} {q : List α → σ → Prop}
    (hstep : ∀ past s a b t, q past s → p s a → c past a → ok b → step s a = some (b, t) → q (past ++ [a]) t)
    {past : List α} {s u : σ} {as : List α} {bs : List β} (hs : q past s) (hp : Meets step p s as)
    (hc : ∀ pre a post, as = pre ++ a :: post → c (past ++ pre) a) (hok : ∀ b ∈ bs, ok b)
    (h : run step s as = some (bs, u)) : q (past ++ as) u := by
  induction as generalizing past s bs with
  | nil =>
    cases h
    rwa [append_nil]
  | cons a as ih =>
    obtain ⟨b, t, cs, ha, hr, rfl⟩ := run_cons_iff.mp h
    have hfirst := hc [] a as rfl
    rw [append_nil] at hfirst
    have hnext := hstep past s a b t hs hp.1 hfirst (hok b mem_cons_self) ha
    have hrest : q (past ++ [a] ++ as) u := by
      refine ih hnext (hp.2 b t ha) (fun pre x post hsplit => ?_)
        (fun b hb => hok b (mem_cons_of_mem _ hb)) hr
      rw [append_assoc]
      exact hc (a :: pre) x post (by rw [hsplit]; rfl)
    rwa [append_assoc] at hrest

/-- Every step of the run has a result, and relates it to the state before. -/
def Along (step : σ → α → Option (β × σ)) (r : σ → α → β → σ → Prop) : σ → List α → Prop
  | _, [] => True
  | s, a :: as => ∃ b t, step s a = some (b, t) ∧ r s a b t ∧ Along step r t as

theorem run_along {step : σ → α → Option (β × σ)} {p : σ → α → Prop} {q : σ → Prop}
    {r : σ → α → β → σ → Prop}
    (hstep : ∀ s a, q s → p s a → ∃ b t, step s a = some (b, t) ∧ r s a b t ∧ q t)
    {s : σ} {as : List α} (hs : q s) (hp : Meets step p s as) : Along step r s as := by
  induction as generalizing s with
  | nil => trivial
  | cons a as ih =>
    obtain ⟨b, t, ha, hr, ht⟩ := hstep s a hs hp.1
    exact ⟨b, t, ha, hr, ih ht (hp.2 b t ha)⟩

theorem run_along_iff {step : σ → α → Option (β × σ)} {p : σ → α → Prop} {q : σ → Prop}
    {r : σ → α → β → σ → Prop}
    (hstep : ∀ s a, q s → p s a → ∃ b t, step s a = some (b, t) ∧ r s a b t ∧ q t)
    (hbad : ∀ s a b t, q s → ¬p s a → step s a = some (b, t) → ¬r s a b t)
    {s : σ} {as : List α} (hs : q s) : Along step r s as ↔ Meets step p s as := by
  constructor
  · intro h
    induction as generalizing s with
    | nil => trivial
    | cons a as ih =>
      obtain ⟨b, t, ha, hr, hrest⟩ := h
      have hp : p s a := by
        by_contra hno
        exact hbad s a b t hs hno ha hr
      obtain ⟨b', t', ha', -, ht⟩ := hstep s a hs hp
      obtain ⟨_, rfl⟩ := Prod.mk.inj (Option.some.inj (ha.symm.trans ha'))
      exact Meets.cons ha hp (ih ht hrest)
  · exact run_along hstep hs

theorem meets_iff_of_run {step : σ → α → Option (β × σ)} {p q : σ → α → Prop}
    (hstep : ∀ s a b t, step s a = some (b, t) → (p s a ↔ q s a)) {s u : σ} {as : List α}
    {bs : List β} (h : run step s as = some (bs, u)) : Meets step p s as ↔ Meets step q s as := by
  induction as generalizing s bs with
  | nil => exact Iff.rfl
  | cons a as ih =>
    obtain ⟨b, t, cs, ha, hr, _⟩ := run_cons_iff.mp h
    have hnext : (∀ b t, step s a = some (b, t) → Meets step p t as) ↔
        ∀ b t, step s a = some (b, t) → Meets step q t as := by
      constructor
      · intro hp b' t' ha'
        obtain ⟨_, rfl⟩ := Prod.mk.inj (Option.some.inj (ha.symm.trans ha'))
        exact (ih hr).mp (hp b' t ha')
      · intro hq b' t' ha'
        obtain ⟨_, rfl⟩ := Prod.mk.inj (Option.some.inj (ha.symm.trans ha'))
        exact (ih hr).mpr (hq b' t ha')
    exact and_congr (hstep s a b t ha) hnext

theorem run_simulates {τ : Type} {step : σ → α → Option (β × σ)} {f : τ → α → β → τ}
    {r : σ → τ → Prop} {p : α → Prop}
    (hstep : ∀ s m a, r s m → p a → ∃ b t, step s a = some (b, t) ∧ r t (f m a b))
    {s : σ} {m : τ} {as : List α} (hs : r s m) (hp : ∀ a ∈ as, p a) :
    ∃ bs t, run step s as = some (bs, t) ∧ bs.length = as.length ∧
      r t ((as.zip bs).foldl (fun m c => f m c.1 c.2) m) := by
  induction as generalizing s m with
  | nil => exact ⟨[], s, rfl, rfl, hs⟩
  | cons a as ih =>
    obtain ⟨b, t, ha, hrel⟩ := hstep s m a hs (hp a (by simp))
    obtain ⟨bs, u, hrun, hlen, hu⟩ := ih hrel fun x hx => hp x (mem_cons_of_mem a hx)
    exact ⟨b :: bs, u, run_cons_iff.mpr ⟨b, t, bs, ha, hrun, rfl⟩, by simp [hlen], hu⟩

theorem run_refines_where {τ : Type} {step : σ → α → Option (β × σ)} {next : τ → α → Option (β × τ)}
    {r : σ → τ → Prop} {p : σ → α → Prop}
    (hstep : ∀ s m a, r s m → p s a → ∃ b t m', step s a = some (b, t) ∧ next m a = some (b, m') ∧ r t m')
    {s : σ} {m : τ} {as : List α} (hs : r s m) (hp : Meets step p s as) :
    ∃ bs t m', run step s as = some (bs, t) ∧ run next m as = some (bs, m') ∧ r t m' := by
  induction as generalizing s m with
  | nil => exact ⟨[], s, m, rfl, rfl, hs⟩
  | cons a as ih =>
    obtain ⟨b, t, m', ha, hnext, hrel⟩ := hstep s m a hs hp.1
    obtain ⟨bs, u, m'', hrun, habstract, hu⟩ := ih hrel (hp.2 b t ha)
    exact ⟨b :: bs, u, m'', run_cons ha hrun, run_cons hnext habstract, hu⟩

theorem run_refines {τ : Type} {step : σ → α → Option (β × σ)} {next : τ → α → Option (β × τ)} {r : σ → τ → Prop}
    (hstep : ∀ s m a, r s m → ∃ b t m', step s a = some (b, t) ∧ next m a = some (b, m') ∧ r t m')
    {s : σ} {m : τ} (hs : r s m) (as : List α) :
    ∃ bs t m', run step s as = some (bs, t) ∧ run next m as = some (bs, m') ∧ r t m' :=
  run_refines_where (fun s m a hr _ => hstep s m a hr) hs (meets_true step s as)

/-- Abstract steps one after another. -/
inductive Chain {τ : Type} (next : τ → α → τ → Prop) : τ → List α → τ → Prop
  | nil (m : τ) : Chain next m [] m
  | cons {m m' m'' : τ} {a : α} {as : List α} (step : next m a m') (rest : Chain next m' as m'') :
    Chain next m (a :: as) m''

theorem run_chain {τ : Type} {step : σ → α → Option (β × σ)} {next : τ → α → τ → Prop} {r : σ → τ → Prop}
    {p : σ → α → Prop}
    (hstep : ∀ s m a, r s m → p s a → ∃ b t m', step s a = some (b, t) ∧ next m a m' ∧ r t m')
    {s : σ} {m : τ} {as : List α} (hs : r s m) (hp : Meets step p s as) :
    ∃ bs t m', run step s as = some (bs, t) ∧ Chain next m as m' ∧ r t m' := by
  induction as generalizing s m with
  | nil => exact ⟨[], s, m, rfl, .nil m, hs⟩
  | cons a as ih =>
    obtain ⟨b, t, m', ha, hnext, hrel⟩ := hstep s m a hs hp.1
    obtain ⟨bs, u, m'', hrun, hchain, hu⟩ := ih hrel (hp.2 b t ha)
    exact ⟨b :: bs, u, m'', run_cons ha hrun, .cons hnext hchain, hu⟩

end Runs
