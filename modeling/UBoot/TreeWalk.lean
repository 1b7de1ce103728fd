import Mathlib.Data.List.Forall2
import Mathlib.Logic.Relation
import UBoot.Loops

namespace Loops

variable {σ β : Type*}

def joinAll (f : σ → Option (List β)) : List σ → Option (List β)
  | [] => some []
  | s :: rest => (f s).bind fun out => (joinAll f rest).map (out ++ ·)

/-- The recursion with a bound on its depth. -/
def walk (own : σ → List β) (next : σ → List σ) : Nat → σ → Option (List β)
  | 0, _ => none
  | n + 1, s => (joinAll (walk own next n) (next s)).map (own s ++ ·)

theorem joinAll_mono {f g : σ → Option (List β)} (h : ∀ s out, f s = some out → g s = some out) :
    ∀ {l : List σ} {out : List β}, joinAll f l = some out → joinAll g l = some out := by
  intro l
  induction l with
  | nil => exact fun h => h
  | cons s rest ih =>
    intro out hout
    obtain ⟨head, hhead, hout⟩ := Option.bind_eq_some_iff.mp hout
    obtain ⟨tail, htail, rfl⟩ := Option.map_eq_some_iff.mp hout
    rw [joinAll, h s head hhead, Option.bind_some, ih htail]
    rfl

theorem joinAll_each {f : σ → Option (List β)} {l : List σ} {out : List β} (h : joinAll f l = some out) {s : σ}
    (hs : s ∈ l) : ∃ o, f s = some o := by
  induction l generalizing out with
  | nil => cases hs
  | cons t rest ih =>
    obtain ⟨head, hhead, h⟩ := Option.bind_eq_some_iff.mp h
    obtain ⟨tail, htail, -⟩ := Option.map_eq_some_iff.mp h
    rcases List.mem_cons.mp hs with rfl | hs
    · exact ⟨head, hhead⟩
    · exact ih htail hs

theorem walk_mono (own : σ → List β) (next : σ → List σ) {n m : Nat} {s : σ} {out : List β}
    (h : walk own next n s = some out) (hm : n ≤ m) : walk own next m s = some out := by
  induction n generalizing m s out with
  | zero => cases h
  | succ n ih =>
    obtain ⟨m, rfl⟩ : ∃ k, m = k + 1 := ⟨m - 1, by omega⟩
    obtain ⟨below, hbelow, rfl⟩ := Option.map_eq_some_iff.mp h
    rw [walk, joinAll_mono (fun t o ht => ih ht (by omega)) hbelow]
    rfl

def Comp.walk (own : σ → List β) (next : σ → List σ) (s : σ) : Comp (List β) where
  run n := Loops.walk own next n s
  mono h hm := walk_mono own next h hm

variable {own : σ → List β} {next : σ → List σ} {s : σ} {out : List β}

def Outputs (own : σ → List β) (next : σ → List σ) : List σ → List (List β) → Prop :=
  List.Forall₂ fun t o => (Comp.walk own next t).Returns o

theorem Outputs.joined {l : List σ} {outs : List (List β)} (h : Outputs own next l outs) :
    ∃ n, joinAll (Loops.walk own next n) l = some outs.flatten := by
  induction h with
  | nil => exact ⟨0, rfl⟩
  | @cons t o rest outs ho _ ih =>
    obtain ⟨n, hn⟩ := ho
    obtain ⟨m, hm⟩ := ih
    refine ⟨max n m, ?_⟩
    have hhead : Loops.walk own next (max n m) t = some o := walk_mono own next hn (le_max_left n m)
    have htail := joinAll_mono (fun t' o' h' => walk_mono own next h' (le_max_right n m)) hm
    rw [joinAll, hhead, Option.bind_some, htail]
    rfl

theorem Outputs.of_joined {n : Nat} {l : List σ} {below : List β}
    (h : joinAll (Loops.walk own next n) l = some below) :
    ∃ outs, Outputs own next l outs ∧ below = outs.flatten := by
  induction l generalizing below with
  | nil =>
    cases h
    exact ⟨[], List.Forall₂.nil, rfl⟩
  | cons t rest ih =>
    obtain ⟨head, hhead, h⟩ := Option.bind_eq_some_iff.mp h
    obtain ⟨tail, htail, rfl⟩ := Option.map_eq_some_iff.mp h
    obtain ⟨outs, houts, rfl⟩ := ih htail
    exact ⟨head :: outs, List.Forall₂.cons ⟨n, hhead⟩ houts, rfl⟩

theorem walk_returns : (Comp.walk own next s).Returns out ↔
    ∃ outs, Outputs own next (next s) outs ∧ out = own s ++ outs.flatten := by
  constructor
  · rintro ⟨n, h⟩
    cases n with
    | zero => cases h
    | succ n =>
      obtain ⟨below, hbelow, rfl⟩ := Option.map_eq_some_iff.mp h
      obtain ⟨outs, houts, rfl⟩ := Outputs.of_joined hbelow
      exact ⟨outs, houts, rfl⟩
  · rintro ⟨outs, houts, rfl⟩
    obtain ⟨n, hn⟩ := houts.joined
    refine ⟨n + 1, ?_⟩
    change Loops.walk own next (n + 1) s = _
    rw [Loops.walk, hn]
    rfl

def Follows (next : σ → List σ) (t s : σ) : Prop := t ∈ next s

theorem Outputs.exists_of_ends {l : List σ} (h : ∀ t ∈ l, (Comp.walk own next t).Ends) :
    ∃ outs, Outputs own next l outs := by
  induction l with
  | nil => exact ⟨[], List.Forall₂.nil⟩
  | cons t rest ih =>
    obtain ⟨o, ho⟩ := h t List.mem_cons_self
    obtain ⟨outs, houts⟩ := ih fun t' ht' => h t' (List.mem_cons_of_mem _ ht')
    exact ⟨o :: outs, List.Forall₂.cons ho houts⟩

theorem walk_ends : (Comp.walk own next s).Ends ↔ Acc (Follows next) s := by
  constructor
  · rintro ⟨out, n, h⟩
    induction n generalizing s out with
    | zero => cases h
    | succ n ih =>
      obtain ⟨below, hbelow, -⟩ := Option.map_eq_some_iff.mp h
      refine Acc.intro s fun t ht => ?_
      obtain ⟨o, ho⟩ := joinAll_each hbelow ht
      exact ih o ho
  · intro h
    induction h with
    | intro s _ ih =>
      obtain ⟨outs, houts⟩ : ∃ outs, Outputs own next (next s) outs :=
        Outputs.exists_of_ends fun t ht => ih t ht
      exact ⟨_, walk_returns.mpr ⟨outs, houts, rfl⟩⟩

section Loop

variable {α : Type*} {body : σ → Comp (σ ⊕ α)} {t : σ}
variable {f : σ → Option (σ ⊕ α)} {R : Nat → Nat → Prop}

theorem Comp.loop_rest (h : (body s).Returns (.inl t)) (hends : (Comp.loop body s).Ends) :
    (Comp.loop body t).Ends := by
  obtain ⟨a, n, ha⟩ := hends
  cases n with
  | zero => cases ha
  | succ n =>
    obtain ⟨x, hx, ha⟩ := Option.bind_eq_some_iff.mp ha
    obtain rfl : x = .inl t := Comp.Returns.unique ⟨n + 1, hx⟩ h
    exact ⟨a, n, ha⟩

theorem loop_ends_iff {round : σ → σ ⊕ α} :
    (Comp.loop (fun s => Comp.pure (round s)) s).Ends ↔ Acc (fun t s => round s = .inl t) s := by
  constructor
  · rintro ⟨a, n, h⟩
    induction n generalizing s with
    | zero => cases h
    | succ n ih =>
      refine Acc.intro s fun t ht => ih ?_
      change (Sum.elim (rounds _ n) some (round s)) = some a at h
      rwa [ht] at h
  · intro h
    induction h with
    | intro s _ ih =>
      cases hround : round s with
      | inl t =>
        obtain ⟨a, ha⟩ := ih t hround
        exact ⟨a, Comp.loop_again (Comp.returns_pure_iff.mpr hround.symm) ha⟩
      | inr a => exact ⟨a, Comp.loop_done (Comp.returns_pure_iff.mpr hround.symm)⟩

theorem loop_pure_returns {round : σ → σ ⊕ α} {a : α} :
    (Comp.loop (fun s => Comp.pure (round s)) s).Returns a ↔
      (∃ t, round s = .inl t ∧ (Comp.loop (fun s => Comp.pure (round s)) t).Returns a) ∨ round s = .inr a := by
  constructor
  · rintro ⟨n, h⟩
    cases n with
    | zero => cases h
    | succ n =>
      change Sum.elim (rounds _ n) some (round s) = some a at h
      cases hround : round s with
      | inl t =>
        rw [hround] at h
        exact .inl ⟨t, rfl, n, h⟩
      | inr b =>
        rw [hround] at h
        exact .inr (congrArg Sum.inr (Option.some.inj h))
  · rintro (⟨t, ht, h⟩ | h)
    · exact Comp.loop_again (Comp.returns_pure_iff.mpr ht.symm) h
    · exact Comp.loop_done (Comp.returns_pure_iff.mpr h.symm)

def Comp.Safe (c : Comp (Option α)) : Prop := ∃ a, c.Returns (some a)

/-- The rounds come to a result, and none of them fails. -/
inductive Finishes (f : σ → Option (σ ⊕ α)) : σ → α → Prop where
  | done {s : σ} {a : α} (h : f s = some (.inr a)) : Finishes f s a
  | again {s t : σ} {a : α} (h : f s = some (.inl t)) (hrest : Finishes f t a) : Finishes f s a

theorem loop_returns_some {a : α} :
    (Comp.loop (fun s => Comp.round (f s)) s).Returns (some a) ↔ Finishes f s a := by
  constructor
  · rintro ⟨n, h⟩
    induction n generalizing s with
    | zero => cases h
    | succ n ih =>
      obtain ⟨x, hx, h⟩ := Option.bind_eq_some_iff.mp h
      cases x with
      | inl t => exact .again (Comp.returns_round_again.mp ⟨_, hx⟩) (ih h)
      | inr r =>
        cases h
        exact .done (Comp.returns_round_done.mp ⟨_, hx⟩)
  · intro h
    induction h with
    | done h => exact Comp.loop_done (Comp.returns_round_done.mpr h)
    | again h _ ih => exact Comp.loop_again (Comp.returns_round_again.mpr h) ih

theorem finishes_step {a : α} :
    Finishes f s a ↔ f s = some (.inr a) ∨ ∃ t, f s = some (.inl t) ∧ Finishes f t a := by
  constructor
  · rintro (h | ⟨h, hrest⟩)
    · exact .inl h
    · exact .inr ⟨_, h, hrest⟩
  · rintro (h | ⟨t, h, hrest⟩)
    · exact .done h
    · exact .again h hrest

theorem finishes_good_iff {ι : Type*} {P : α → Prop} (place : σ → ι) (Next : ι → ι → Prop)
    (Good : ι → Prop) (Inv : σ → Prop) (μ : σ → Nat)
    (hround : ∀ s, Inv s → (¬Good (place s) ∧ ∀ a, Finishes f s a → ¬P a) ∨
    (Good (place s) ∧ (∀ q, ¬Next (place s) q) ∧ ∃ a, f s = some (.inr a) ∧ P a) ∨
    (Good (place s) ∧ ∃ t, f s = some (.inl t) ∧ Inv t ∧ μ t < μ s ∧ ∀ q, Next (place s) q ↔ q = place t))
    (hs : Inv s) : (∃ a, Finishes f s a ∧ P a) ↔ ∀ q, Relation.ReflTransGen Next (place s) q → Good q := by
  induction hn : μ s using Nat.strong_induction_on generalizing s with
  | _ n ih =>
    rcases hround s hs with ⟨hbad, hfail⟩ | ⟨hgood, hlast, a, ha, hP⟩ | ⟨hgood, t, ht, hinv, hless, hnext⟩
    · refine iff_of_false ?_ fun h => hbad (h _ .refl)
      rintro ⟨a, h, hP⟩
      exact hfail a h hP
    · refine iff_of_true ⟨a, .done ha, hP⟩ fun q hq => ?_
      rcases Relation.ReflTransGen.cases_head hq with rfl | ⟨r, hr, _⟩
      · exact hgood
      · exact absurd hr (hlast r)
    · have hrest := ih (μ t) (hn ▸ hless) hinv rfl
      have hstep : (∃ a, Finishes f s a ∧ P a) ↔ ∃ a, Finishes f t a ∧ P a := by
        refine exists_congr fun a => and_congr_left fun _ => finishes_step.trans ⟨?_, fun h => .inr ⟨t, ht, h⟩⟩
        rintro (h | ⟨t', h, hfin⟩)
        · rw [ht] at h
          cases h
        · rw [ht] at h
          cases h
          exact hfin
      rw [hstep, hrest]
      constructor
      · intro h q hq
        rcases Relation.ReflTransGen.cases_head hq with rfl | ⟨r, hr, hq⟩
        · exact hgood
        · exact h q ((hnext r).mp hr ▸ hq)
      · exact fun h q hq => h q (.head ((hnext _).mpr rfl) hq)

theorem not_finishes_of_none (h : f s = none) (a : α) : ¬Finishes f s a := by
  intro hfin
  rcases finishes_step.mp hfin with hdone | ⟨t, hdone, _⟩ <;> rw [h] at hdone <;> cases hdone

theorem finishes_done {a b : α} (h : f s = some (.inr b)) : Finishes f s a ↔ a = b := by
  constructor
  · intro hfin
    rcases finishes_step.mp hfin with hdone | ⟨t, hdone, _⟩
    · rw [h] at hdone
      cases hdone
      rfl
    · rw [h] at hdone
      cases hdone
  · rintro rfl
    exact .done h

theorem finishes_such_iff {ι : Type*} {P : α → Prop} (place : σ → ι) (Next : ι → ι → Prop)
    (Good : ι → Prop) (Inv : σ → Prop) (μ : σ → Nat)
    (hround : ∀ s, Inv s → (¬Good (place s) ∧ (f s = none ∨ ∃ a, f s = some (.inr a) ∧ ¬P a)) ∨
    (Good (place s) ∧ (∀ q, ¬Next (place s) q) ∧ ∃ a, f s = some (.inr a) ∧ P a) ∨
    (Good (place s) ∧ ∃ t, f s = some (.inl t) ∧ Inv t ∧ μ t < μ s ∧ ∀ q, Next (place s) q ↔ q = place t))
    (hs : Inv s) : (∃ a, Finishes f s a ∧ P a) ↔ ∀ q, Relation.ReflTransGen Next (place s) q → Good q := by
  refine finishes_good_iff place Next Good Inv μ (fun s hs => ?_) hs
  rcases hround s hs with ⟨hbad, hfail⟩ | hgood
  · refine .inl ⟨hbad, fun a hfin => ?_⟩
    rcases hfail with hfail | ⟨b, hfail, hnot⟩
    · exact absurd hfin (not_finishes_of_none hfail a)
    · rwa [(finishes_done hfail).mp hfin]
  · exact .inr hgood

theorem finishes_iff_good {ι : Type*} (place : σ → ι) (Next : ι → ι → Prop)
    (Good : ι → Prop) (Inv : σ → Prop) (μ : σ → Nat) (hround : ∀ s, Inv s → (¬Good (place s) ∧ f s = none) ∨
    (Good (place s) ∧ (∀ q, ¬Next (place s) q) ∧ ∃ a, f s = some (.inr a)) ∨
    (Good (place s) ∧ ∃ t, f s = some (.inl t) ∧ Inv t ∧ μ t < μ s ∧ ∀ q, Next (place s) q ↔ q = place t))
    (hs : Inv s) : (∃ a, Finishes f s a) ↔ ∀ q, Relation.ReflTransGen Next (place s) q → Good q := by
  rw [← finishes_such_iff (P := fun _ => True) place Next Good Inv μ ?_ hs]
  · exact exists_congr fun a => (and_iff_left trivial).symm
  · intro s hs
    rcases hround s hs with ⟨hbad, hfail⟩ | ⟨hgood, hlast, a, ha⟩ | hgood
    · exact .inl ⟨hbad, .inl hfail⟩
    · exact .inr (.inl ⟨hgood, hlast, a, ha, trivial⟩)
    · exact .inr (.inr hgood)

theorem reached_le (hup : ∀ {a b}, R a b → a < b) {p q : Nat} (h : Relation.ReflTransGen R p q) : p ≤ q := by
  induction h with
  | refl => exact le_refl _
  | tail _ hnext ih => exact le_trans ih (le_of_lt (hup hnext))

theorem reached_below (hup : ∀ {a b}, R a b → a < b)
    (hone : ∀ {a b c}, R a b → R a c → b = c) {a p p' q : Nat} (hp : Relation.ReflTransGen R a p) (hnext : R p p') :
    Relation.ReflTransGen R a q ∧ q < p' ↔ (Relation.ReflTransGen R a q ∧ q < p) ∨ q = p := by
  constructor
  · rintro ⟨hq, hlt⟩
    rcases Relation.ReflTransGen.total_of_right_unique (r := R) (fun _ _ _ => hone) hp hq with h | h
    · rcases Relation.ReflTransGen.cases_head h with rfl | ⟨r, hr, hrest⟩
      · exact .inr rfl
      · obtain rfl := hone hr hnext
        exact absurd hlt (not_lt.mpr (reached_le hup hrest))
    · rcases Nat.lt_or_eq_of_le (reached_le hup h) with hless | rfl
      · exact .inl ⟨hq, hless⟩
      · exact .inr rfl
  · rintro (⟨hq, hlt⟩ | rfl)
    · exact ⟨hq, lt_trans hlt (hup hnext)⟩
    · exact ⟨hp, hup hnext⟩

theorem forall_below (hup : ∀ {a b}, R a b → a < b)
    (hone : ∀ {a b c}, R a b → R a c → b = c) {P : Nat → Prop} {a p p' : Nat} (hp : Relation.ReflTransGen R a p)
    (hnext : R p p') : (∀ q, Relation.ReflTransGen R a q ∧ q < p' → P q) ↔
      (∀ q, Relation.ReflTransGen R a q ∧ q < p → P q) ∧ P p := by
  constructor
  · refine fun h => ⟨fun q hq => h q ?_, h p ?_⟩
    · exact (reached_below hup hone hp hnext).mpr (.inl hq)
    · exact (reached_below hup hone hp hnext).mpr (.inr rfl)
  · rintro ⟨hbefore, hhere⟩ q hq
    rcases (reached_below hup hone hp hnext).mp hq with hq | rfl
    · exact hbefore q hq
    · exact hhere

theorem Comp.safe_bind {γ : Type*} {c : Comp (Option α)} {k : α → Comp (Option γ)} :
    (c.andThen k).Safe ↔ ∃ a, c.Returns (some a) ∧ (k a).Safe := by
  constructor
  · rintro ⟨b, hb⟩
    obtain ⟨x, hx, hk⟩ := Comp.returns_bind.mp hb
    cases x with
    | none => cases Comp.returns_pure_iff.mp hk
    | some a => exact ⟨a, hx, b, hk⟩
  · rintro ⟨a, ha, b, hb⟩
    exact ⟨b, Comp.returns_bind.mpr ⟨some a, ha, hb⟩⟩

theorem Comp.safe_pure {x : Option α} : (Comp.pure x).Safe ↔ ∃ a, x = some a :=
  ⟨fun ⟨a, ha⟩ => ⟨a, (Comp.returns_pure_iff.mp ha).symm⟩, fun ⟨a, ha⟩ => ⟨a, Comp.returns_pure_iff.mpr ha.symm⟩⟩

end Loop

end Loops
