import Mathlib.Data.List.Basic

namespace Linked

open List

variable {ι : Type*} {next prev next' prev' : ι → ι} {p n q k : ι} {as bs ks : List ι}

/-- The nodes `ks` are linked both ways, from `p` to `n`. -/
def Links (next prev : ι → ι) : ι → ι → List ι → Prop
  | _, _, [] => True
  | p, n, k :: ks => prev k = p ∧ next k = ks.headD n ∧ Links next prev k n ks

theorem links_append : Links next prev p n (as ++ bs) ↔
    Links next prev p (bs.headD n) as ∧ Links next prev (as.getLastD p) n bs := by
  induction as generalizing p with
  | nil => simp [Links]
  | cons a as ih =>
    have hhead : (as ++ bs).headD n = as.headD (bs.headD n) := by cases as <;> rfl
    have hlast : (a :: as).getLastD p = as.getLastD a := by cases as <;> rfl
    rw [cons_append, Links, Links, ih, hhead, hlast]
    constructor
    · rintro ⟨hp, hn, hl, hr⟩
      exact ⟨⟨hp, hn, hl⟩, hr⟩
    · rintro ⟨⟨hp, hn, hl⟩, hr⟩
      exact ⟨hp, hn, hl, hr⟩

theorem Links.congr (h : Links next prev p n ks) (hn : ∀ k ∈ ks, next' k = next k)
    (hp : ∀ k ∈ ks, prev' k = prev k) : Links next' prev' p n ks := by
  induction ks generalizing p with
  | nil => trivial
  | cons k ks ih =>
    obtain ⟨hprev, hnext, hl⟩ := h
    refine ⟨(hp k mem_cons_self).trans hprev, (hn k mem_cons_self).trans hnext, ?_⟩
    exact ih hl (fun j hj => hn j (mem_cons_of_mem k hj))
      fun j hj => hp j (mem_cons_of_mem k hj)

theorem Links.relinkHead (h : Links next prev p n (k :: ks)) (hk : prev' k = q)
    (hn : ∀ j ∈ k :: ks, next' j = next j) (hp : ∀ j ∈ ks, prev' j = prev j) :
    Links next' prev' q n (k :: ks) := by
  obtain ⟨-, hnext, hl⟩ := h
  refine ⟨hk, (hn k mem_cons_self).trans hnext, ?_⟩
  exact hl.congr (fun j hj => hn j (mem_cons_of_mem k hj)) hp

theorem Links.relinkLast (h : Links next prev p n (ks ++ [k])) (hk : next' k = q)
    (hn : ∀ j ∈ ks, next' j = next j) (hp : ∀ j ∈ ks ++ [k], prev' j = prev j) :
    Links next' prev' p q (ks ++ [k]) := by
  obtain ⟨hl, hprev, -⟩ := links_append.mp h
  refine links_append.mpr ⟨?_, ?_, hk, trivial⟩
  · exact hl.congr hn fun j hj => hp j (mem_append_left _ hj)
  · exact (hp k (mem_append_right ks mem_cons_self)).trans hprev

section Walks

variable {link link' : ι → Option ι} {a b c x : ι} {xs ys : List ι}

/-- The nodes passed on the way from `a` to `b`. -/
def Walk (link : ι → Option ι) : ι → List ι → ι → Prop
  | a, [], b => a = b
  | a, x :: xs, b => a = x ∧ ∃ n, link x = some n ∧ Walk link n xs b

theorem walk_append : Walk link a (xs ++ ys) c ↔ ∃ b, Walk link a xs b ∧ Walk link b ys c := by
  induction xs generalizing a with
  | nil =>
    refine ⟨fun h => ⟨a, rfl, h⟩, ?_⟩
    rintro ⟨b, rfl, h⟩
    exact h
  | cons x xs ih =>
    constructor
    · rintro ⟨ha, n, hn, h⟩
      obtain ⟨b, hb, hc⟩ := ih.mp h
      exact ⟨b, ⟨ha, n, hn, hb⟩, hc⟩
    · rintro ⟨b, ⟨ha, n, hn, hb⟩, hc⟩
      exact ⟨ha, n, hn, ih.mpr ⟨b, hb, hc⟩⟩

theorem Walk.congr (h : Walk link a xs b) (hsame : ∀ x ∈ xs, link' x = link x) : Walk link' a xs b := by
  induction xs generalizing a with
  | nil => exact h
  | cons x xs ih =>
    obtain ⟨ha, n, hn, hrest⟩ := h
    refine ⟨ha, n, (hsame x mem_cons_self).trans hn, ih hrest fun y hy => ?_⟩
    exact hsame y (mem_cons_of_mem x hy)

theorem Walk.rotate (h : Walk link a (xs ++ x :: ys) a) : Walk link x (x :: ys ++ xs) x := by
  obtain ⟨b, hfront, hback⟩ := walk_append.mp h
  obtain rfl := hback.1
  exact walk_append.mpr ⟨a, hback, hfront⟩

end Walks

end Linked
