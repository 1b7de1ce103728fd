import Mathlib.Data.Nat.Basic

namespace Loops

/-- With a larger bound the result is the same. -/
structure Comp (α : Type*) where
  run : Nat → Option α
  mono : ∀ {n m a}, run n = some a → n ≤ m → run m = some a

variable {α β σ : Type*}

def Comp.pure (a : α) : Comp α := ⟨fun _ => some a, fun h _ => h⟩

def Comp.bind (c : Comp α) (k : α → Comp β) : Comp β where
  run n := (c.run n).bind fun a => (k a).run n
  mono := by
    intro n m b h hm
    obtain ⟨a, ha, hb⟩ := Option.bind_eq_some_iff.mp h
    rw [c.mono ha hm]
    exact (k a).mono hb hm

/-- The rounds of a loop whose body gives a new state or a result. -/
def rounds (body : σ → Comp (σ ⊕ α)) : Nat → σ → Option α
  | 0, _ => none
  | n + 1, s => ((body s).run (n + 1)).bind (Sum.elim (rounds body n) some)

theorem rounds_mono (body : σ → Comp (σ ⊕ α)) {n m : Nat} {s : σ} {a : α}
    (h : rounds body n s = some a) (hm : n ≤ m) : rounds body m s = some a := by
  induction n generalizing m s with
  | zero => cases h
  | succ n ih =>
    obtain ⟨m, rfl⟩ : ∃ k, m = k + 1 := ⟨m - 1, by omega⟩
    obtain ⟨x, hx, h⟩ := Option.bind_eq_some_iff.mp h
    rw [rounds, (body s).mono hx hm, Option.bind_some]
    cases x with
    | inl s' => exact ih h (by omega)
    | inr b => exact h

def Comp.loop (body : σ → Comp (σ ⊕ α)) (s : σ) : Comp α where
  run n := rounds body n s
  mono h hm := rounds_mono body h hm

/-- A body that may fail. -/
def Comp.round : Option (σ ⊕ α) → Comp (σ ⊕ Option α)
  | none => Comp.pure (.inr none)
  | some (.inl s) => Comp.pure (.inl s)
  | some (.inr a) => Comp.pure (.inr (some a))

def Comp.andThen (c : Comp (Option α)) (k : α → Comp (Option β)) : Comp (Option β) :=
  c.bind fun x => x.elim (Comp.pure none) k

def Comp.Returns (c : Comp α) (a : α) : Prop := ∃ n, c.run n = some a

def Comp.Ends (c : Comp α) : Prop := ∃ a, c.Returns a

variable {c : Comp α} {k : α → Comp β} {a a' : α} {b : β} {body : σ → Comp (σ ⊕ α)} {s s' : σ}

theorem Comp.Returns.unique (h : c.Returns a) (h' : c.Returns a') : a = a' := by
  obtain ⟨n, hn⟩ := h
  obtain ⟨m, hm⟩ := h'
  have hn' := c.mono hn (le_max_left n m)
  have hm' := c.mono hm (le_max_right n m)
  exact Option.some.inj (hn'.symm.trans hm')

theorem Comp.returns_pure (a : α) : (Comp.pure a).Returns a := ⟨0, rfl⟩

theorem Comp.returns_bind : (c.bind k).Returns b ↔ ∃ a, c.Returns a ∧ (k a).Returns b := by
  constructor
  · rintro ⟨n, h⟩
    obtain ⟨a, ha, hb⟩ := Option.bind_eq_some_iff.mp h
    exact ⟨a, ⟨n, ha⟩, ⟨n, hb⟩⟩
  · rintro ⟨a, ⟨n, ha⟩, ⟨m, hb⟩⟩
    refine ⟨max n m, ?_⟩
    change (c.run (max n m)).bind _ = some b
    rw [c.mono ha (le_max_left n m), Option.bind_some]
    exact (k a).mono hb (le_max_right n m)

theorem Comp.ends_pure (a : α) : (Comp.pure a).Ends := ⟨a, Comp.returns_pure a⟩

theorem Comp.Ends.bind (h : c.Ends) (hk : ∀ a, c.Returns a → (k a).Ends) : (c.bind k).Ends := by
  obtain ⟨a, ha⟩ := h
  obtain ⟨b, hb⟩ := hk a ha
  exact ⟨b, Comp.returns_bind.mpr ⟨a, ha, hb⟩⟩

theorem Comp.Ends.andThen {c : Comp (Option α)} {k : α → Comp (Option β)} (h : c.Ends)
    (hk : ∀ a, c.Returns (some a) → (k a).Ends) : (c.andThen k).Ends := by
  refine Comp.Ends.bind h fun x hx => ?_
  cases x with
  | none => exact Comp.ends_pure none
  | some a => exact hk a hx

theorem Comp.Returns.andThen {c : Comp (Option α)} {k : α → Comp (Option β)} {b : Option β}
    (h : c.Returns (some a)) (hk : (k a).Returns b) : (c.andThen k).Returns b :=
  Comp.returns_bind.mpr ⟨some a, h, hk⟩

theorem Comp.returns_pure_iff : (Comp.pure a).Returns a' ↔ a' = a := by
  constructor
  · exact fun h => h.unique (Comp.returns_pure a)
  · rintro rfl
    exact Comp.returns_pure a'

theorem Comp.ends_round (x : Option (σ ⊕ α)) : (Comp.round x).Ends := by
  cases x with
  | none => exact Comp.ends_pure _
  | some y =>
    cases y with
    | inl s => exact Comp.ends_pure _
    | inr a => exact Comp.ends_pure _

theorem Comp.returns_round_again {x : Option (σ ⊕ α)} :
    (Comp.round x).Returns (.inl s) ↔ x = some (.inl s) := by
  cases x with
  | none => exact Comp.returns_pure_iff.trans ⟨nofun, nofun⟩
  | some y =>
    cases y with
    | inl s' => exact Comp.returns_pure_iff.trans ⟨fun h => (by cases h; rfl), fun h => (by cases h; rfl)⟩
    | inr a => exact Comp.returns_pure_iff.trans ⟨nofun, nofun⟩

theorem Comp.returns_round_done {x : Option (σ ⊕ α)} {r : Option α} :
    (Comp.round x).Returns (.inr r) ↔ x = r.map Sum.inr := by
  cases x with
  | none =>
    refine Comp.returns_pure_iff.trans ⟨fun h => (by cases h; rfl), fun h => ?_⟩
    cases r with
    | none => rfl
    | some a => cases h
  | some y =>
    cases y with
    | inl s' =>
      refine Comp.returns_pure_iff.trans ⟨nofun, fun h => ?_⟩
      cases r with
      | none => cases h
      | some a => cases h
    | inr a =>
      refine Comp.returns_pure_iff.trans ⟨fun h => (by cases h; rfl), fun h => ?_⟩
      cases r with
      | none => cases h
      | some b => cases h; rfl

theorem Comp.loop_done (h : (body s).Returns (.inr a)) : (Comp.loop body s).Returns a := by
  obtain ⟨n, h⟩ := h
  refine ⟨n + 1, ?_⟩
  change rounds body (n + 1) s = some a
  rw [rounds, (body s).mono h (Nat.le_succ n)]
  rfl

theorem Comp.loop_again (h : (body s).Returns (.inl s')) (hr : (Comp.loop body s').Returns a) :
    (Comp.loop body s).Returns a := by
  obtain ⟨n, h⟩ := h
  obtain ⟨m, hr⟩ := hr
  refine ⟨max n m + 1, ?_⟩
  change rounds body (max n m + 1) s = some a
  rw [rounds, (body s).mono h (by omega)]
  exact rounds_mono body hr (by omega)

theorem returns_round {body : σ → σ ⊕ α} (h : body s = .inl s')
    (hr : (Comp.loop (fun s => Comp.pure (body s)) s').Returns a) :
    (Comp.loop (fun s => Comp.pure (body s)) s).Returns a := by
  refine Comp.loop_again ?_ hr
  rw [h]
  exact Comp.returns_pure _

theorem returns_end {body : σ → σ ⊕ α} (h : body s = .inr a) :
    (Comp.loop (fun s => Comp.pure (body s)) s).Returns a := by
  apply Comp.loop_done
  rw [h]
  exact Comp.returns_pure _

theorem Comp.Returns.behind (h : (Comp.loop body s).Returns a) (hs : (body s).Returns (.inl s')) :
    (Comp.loop body s').Returns a := by
  obtain ⟨n, h⟩ := h
  cases n with
  | zero => cases h
  | succ n =>
    obtain ⟨x, hx, h⟩ := Option.bind_eq_some_iff.mp h
    have heq := Comp.Returns.unique ⟨n + 1, hx⟩ hs
    subst heq
    exact ⟨n, h⟩

theorem Comp.Ends.left (h : (c.bind k).Ends) : c.Ends := by
  obtain ⟨b, hb⟩ := h
  obtain ⟨a, ha, -⟩ := Comp.returns_bind.mp hb
  exact ⟨a, ha⟩

theorem Comp.Ends.right (h : (c.bind k).Ends) (ha : c.Returns a) : (k a).Ends := by
  obtain ⟨b, hb⟩ := h
  obtain ⟨a', ha', hk⟩ := Comp.returns_bind.mp hb
  rw [ha.unique ha']
  exact ⟨b, hk⟩

theorem Comp.Ends.round (h : (Comp.loop body s).Ends) : (body s).Ends := by
  obtain ⟨a, n, h⟩ := h
  cases n with
  | zero => cases h
  | succ n =>
    obtain ⟨x, hx, -⟩ := Option.bind_eq_some_iff.mp h
    exact ⟨x, n + 1, hx⟩

theorem Comp.loop_returns (P : σ → Prop) {Q : α → Prop}
    (hagain : ∀ s s', P s → (body s).Returns (.inl s') → P s')
    (hdone : ∀ s a, P s → (body s).Returns (.inr a) → Q a) (hs : P s)
    (h : (Comp.loop body s).Returns a) : Q a := by
  obtain ⟨n, h⟩ := h
  induction n generalizing s with
  | zero => cases h
  | succ n ih =>
    obtain ⟨x, hx, h⟩ := Option.bind_eq_some_iff.mp h
    cases x with
    | inl s' => exact ih (hagain s s' hs ⟨n + 1, hx⟩) h
    | inr b =>
      cases h
      exact hdone s a hs ⟨n + 1, hx⟩

theorem Comp.loop_induction {R : σ → α → Prop} (hdone : ∀ s a, (body s).Returns (.inr a) → R s a)
    (hagain : ∀ s s' a, (body s).Returns (.inl s') → R s' a → R s a) (h : (Comp.loop body s).Returns a) : R s a := by
  obtain ⟨n, h⟩ := h
  induction n generalizing s with
  | zero => cases h
  | succ n ih =>
    obtain ⟨x, hx, h⟩ := Option.bind_eq_some_iff.mp h
    cases x with
    | inl s' => exact hagain s s' a ⟨n + 1, hx⟩ (ih h)
    | inr b =>
      cases h
      exact hdone s a ⟨n + 1, hx⟩

theorem Comp.loop_ends (P : σ → Prop) (μ : σ → Nat)
    (hbody : ∀ s, P s → (body s).Ends)
    (hless : ∀ s s', P s → (body s).Returns (.inl s') → P s' ∧ μ s' < μ s) (hs : P s) :
    (Comp.loop body s).Ends := by
  induction hn : μ s using Nat.strong_induction_on generalizing s with
  | _ n ih =>
    obtain ⟨x, hx⟩ := hbody s hs
    cases x with
    | inr a => exact ⟨a, Comp.loop_done hx⟩
    | inl s' =>
      obtain ⟨hs', hlt⟩ := hless s s' hs hx
      obtain ⟨a, ha⟩ := ih (μ s') (hn ▸ hlt) hs' rfl
      exact ⟨a, Comp.loop_again hx ha⟩

theorem Comp.loop_for_ever (P : σ → Prop)
    (hagain : ∀ s, P s → ∃ s', (body s).Returns (.inl s') ∧ P s') (hs : P s) :
    ¬(Comp.loop body s).Ends := by
  rintro ⟨a, n, h⟩
  induction n generalizing s with
  | zero => cases h
  | succ n ih =>
    obtain ⟨s', hs', hP⟩ := hagain s hs
    obtain ⟨x, hx, h⟩ := Option.bind_eq_some_iff.mp h
    have heq := Comp.Returns.unique ⟨n + 1, hx⟩ hs'
    subst heq
    exact ih hP h

end Loops
