import UBoot.HwconfigScan

namespace UBoot.Hwconfig

open List TextScan

variable {o : Word} {maxlen : Nat}

def Decoy (o : Word) (x : Opt) : Prop := Doubled o x.name ∨ DoubledLast o x

instance (o : Word) (x : Opt) : Decidable (Decoy o x) := inferInstanceAs (Decidable (_ ∨ _))

def Like (o : Word) (x : Opt) : Prop := x.name = o ∨ Decoy o x

instance (o : Word) (x : Opt) : Decidable (Like o x) := inferInstanceAs (Decidable (_ ∨ _))

/-- The list from the first entry on that meets `p`. -/
def fromFirst {α : Type} (p : α → Prop) [DecidablePred p] (xs : List α) : List α :=
  xs.dropWhile fun x => ¬p x

section FromFirst

variable {α : Type} {p : α → Prop} [DecidablePred p] {x : α} {xs post : List α}

theorem fromFirst_here (h : p x) (xs : List α) : fromFirst p (x :: xs) = x :: xs := by
  unfold fromFirst
  rw [dropWhile_cons_of_neg (by simpa using h)]

theorem fromFirst_skip (h : ¬p x) (xs : List α) : fromFirst p (x :: xs) = fromFirst p xs := by
  unfold fromFirst
  rw [dropWhile_cons_of_pos (by simpa using h)]

theorem fromFirst_meets (h : fromFirst p xs = x :: post) : p x := by
  have hhead := List.head?_dropWhile_not (fun x => decide ¬p x) xs
  change (match (fromFirst p xs).head? with | some x => _ | none => True) at hhead
  rw [h] at hhead
  simpa using hhead

theorem skip_to {sep : UInt8} {text : α → List UInt8} (h : fromFirst p xs = x :: post) :
    ∃ pre, joined sep text xs = pre ++ joined sep text (x :: post) ∧ (pre = [] ↔ xs = x :: post) ∧
      ∀ (β : Type) (f : Nat → List α → β), (∀ pos y ys, ¬p y → f pos (y :: ys) = f (pos + (text y).length + 1) ys) →
        ∀ pos, f pos xs = f (pos + pre.length) (x :: post) := by
  induction xs with
  | nil => cases h
  | cons y ys ih =>
    by_cases hy : p y
    · rw [fromFirst_here hy] at h
      rw [h]
      exact ⟨[], rfl, iff_of_true rfl rfl, fun _ f _ pos => rfl⟩
    · rw [fromFirst_skip hy] at h
      obtain ⟨pre, htext, _, hf⟩ := ih h
      obtain ⟨z, zs, rfl⟩ : ∃ z zs, ys = z :: zs := exists_cons_of_ne_nil fun hnil => by
        rw [hnil] at h
        cases h
      refine ⟨text y ++ sep :: pre, ?_, ?_, fun β f hskip pos => ?_⟩
      · have hjoin : joined sep text (y :: z :: zs) = text y ++ sep :: joined sep text (z :: zs) := rfl
        rw [hjoin, htext, append_assoc, cons_append]
      · refine iff_of_false (by simp) fun he => ?_
        obtain ⟨rfl, _⟩ := List.cons.inj he
        exact hy (fromFirst_meets h)
      · rw [hskip pos y _ hy, hf β f hskip, length_append, length_cons]
        congr 1
        omega

theorem skip_all {β : Type} {text : α → List UInt8} (h : fromFirst p xs = [])
    (f : Nat → List α → β) (hskip : ∀ pos y ys, ¬p y → f pos (y :: ys) = f (pos + (text y).length + 1) ys)
    (pos : Nat) : ∃ pos', f pos xs = f pos' [] := by
  induction xs generalizing pos with
  | nil => exact ⟨pos, rfl⟩
  | cons y ys ih =>
    by_cases hy : p y
    · rw [fromFirst_here hy] at h
      cases h
    · rw [fromFirst_skip hy] at h
      rw [hskip pos y ys hy]
      exact ih h _

end FromFirst

theorem caught_skip {x : Opt} (h : ¬Like o x) (pos : Nat) (xs : List Opt) :
    caught o pos (x :: xs) = caught o (pos + x.text.length + 1) xs := by
  have hlike : ¬(x.name = o ∨ Doubled o x.name) := fun hn => h (hn.imp_right .inl)
  have hlast : ¬DoubledLast o x := fun hl => h (.inr (.inr hl))
  rw [caught, if_neg hlike, if_neg hlast]

/-- The pointer and the length for the option that the loop has found. -/
def argOf (maxlen : Nat) (opt : List UInt8) (stopch eqch : UInt8) (r : Nat × List UInt8) :
    Option (Nat × Nat) :=
  if (r.2.drop opt.length).head? ≠ some eqch then none
  else some (r.1 + opt.length + 1, ((strchr r.2 stopch).getD (min maxlen r.2.length)) - opt.length - 1)

theorem hwconfigParse_true (opts : List UInt8) (maxlen : Nat) (opt : List UInt8) (stopch eqch : UInt8) :
    hwconfigParse opts maxlen opt stopch eqch true =
      (hwconfigNext maxlen opt stopch eqch (opts.length + 1) 0 opts).map
        fun r => r.bind (argOf maxlen opt stopch eqch) := by
  unfold hwconfigParse argOf
  cases hwconfigNext maxlen opt stopch eqch (opts.length + 1) 0 opts with
  | none => rfl
  | some r =>
    cases r with
    | none => rfl
    | some r =>
      obtain ⟨pos, str⟩ := r
      simp only [Option.bind_eq_bind, Option.bind_some, Option.map_some, not_true_eq_false, if_false]
      split
      · rfl
      · cases strchr str stopch with
        | none => rfl
        | some k => rfl

theorem hwconfigParse_false (opts : List UInt8) (maxlen : Nat) (opt : List UInt8) (stopch eqch : UInt8) :
    (hwconfigParse opts maxlen opt stopch eqch false).map Option.isSome =
      (hwconfigNext maxlen opt stopch eqch (opts.length + 1) 0 opts).map Option.isSome := by
  unfold hwconfigParse
  cases hwconfigNext maxlen opt stopch eqch (opts.length + 1) 0 opts with
  | none => rfl
  | some r =>
    cases r with
    | none => rfl
    | some r => rfl

theorem argSpan_skip {x : Opt} (h : ¬Like o x) (pos : Nat) (xs : List Opt) :
    argSpan o pos (x :: xs) = argSpan o (pos + x.text.length + 1) xs := by
  rw [argSpan, if_neg (fun hn => h (.inl hn))]

theorem argSpan_le {pos : Nat} {xs : List Opt} {span : Nat × Nat}
    (h : argSpan o pos xs = some span) : pos < span.1 := by
  induction xs generalizing pos with
  | nil => cases h
  | cons x xs ih =>
    unfold argSpan at h
    split at h
    · split at h
      · cases h
      · cases h
        omega
    · have := ih h
      omega

theorem argSpan_eq_none_iff (pos : Nat) (xs : List Opt) :
    argSpan o pos xs = none ↔ ∀ y, xs.find? (fun y => y.name = o) = some y → y.subs = [] := by
  induction xs generalizing pos with
  | nil => simp [argSpan]
  | cons x xs ih =>
    unfold argSpan
    by_cases hx : x.name = o
    · rw [if_pos hx, List.find?_cons_of_pos (by simpa using hx)]
      constructor
      · rintro h y hy
        cases hy
        by_contra hne
        rw [if_neg hne] at h
        cases h
      · exact fun h => if_pos (h x rfl)
    · rw [if_neg hx, List.find?_cons_of_neg (by simpa using hx)]
      exact ih _

theorem touches_length {pat t : List UInt8} {lead : Bool} (h : touches pat 0 lead t = true) :
    pat.length ≤ t.length := by
  induction t generalizing lead with
  | nil => cases h
  | cons x t ih =>
    by_cases hp : pat.isPrefixOf (x :: t) = true
    · exact (List.isPrefixOf_iff_prefix.mp hp).length_le
    · rw [touches_cons hp] at h
      have := ih h
      rw [length_cons]
      omega

theorem strchr_append {t rest : List UInt8} {c : UInt8} (h : c ∉ t) :
    strchr (t ++ rest) c = (strchr rest c).map (· + t.length) := by
  unfold strchr
  rw [List.findIdx?_append]
  have hnone : t.findIdx? (fun x => decide (x = c)) = none := by
    rw [List.findIdx?_eq_none_iff]
    intro x hx
    exact decide_eq_false fun he => h (he ▸ hx)
  rw [hnone, Option.none_or]

theorem strchr_following {α : Type} (sep : UInt8) (text : α → List UInt8) (xs : List α) :
    strchr (following sep text xs) sep = if xs = [] then none else some 0 := by
  cases xs with
  | nil => rfl
  | cons x xs => simp [strchr, following, List.findIdx?_cons]

theorem not_mem_of_plain {t : Word} {c : UInt8} (h : Sep c) : c ∉ t.bytes := fun hm => t.plain.plain c hm h

theorem not_mem_sub {x : Sub} : (44 : UInt8) ∉ x.valueText ∧ (59 : UInt8) ∉ x.text := by
  have h44 : Sep 44 := by decide
  have h59 : Sep 59 := by decide
  unfold Sub.text Sub.valueText
  cases x.value with
  | none => simp [not_mem_of_plain h59]
  | some v => simp [not_mem_of_plain h44, not_mem_of_plain h59]

theorem not_mem_arg (x : Opt) : (59 : UInt8) ∉ x.argText := by
  unfold Opt.argText
  cases x.subs with
  | nil => simp
  | cons y ys =>
    rw [if_neg (cons_ne_nil _ _)]
    intro hm
    rcases mem_cons.mp hm with he | hm
    · exact absurd he (by decide)
    · rcases mem_append.mp hm with hm | hm
      · exact not_mem_sub.2 hm
      · obtain ⟨z, _, hm⟩ := mem_flatMap.mp hm
        rcases mem_cons.mp hm with he | hm
        · exact absurd he (by decide)
        · exact not_mem_sub.2 hm

theorem head_argText (x : Opt) (post : List Opt) :
    (x.argText ++ following 59 Opt.text post).head? = some 58 ↔ x.subs ≠ [] := by
  unfold Opt.argText
  cases x.subs with
  | nil =>
    refine iff_of_false ?_ (fun h => h rfl)
    cases post with
    | nil => exact nofun
    | cons y ys => exact fun h => absurd (Option.some.inj h) (by decide)
  | cons y ys => exact iff_of_true rfl (cons_ne_nil _ _)

theorem head_following (post : List Opt) : (following 59 Opt.text post).head? ≠ some 58 := by
  cases post with
  | nil => exact nofun
  | cons y ys => exact fun h => absurd (Option.some.inj h) (by decide)

theorem argOf_named {x : Opt} {post : List Opt} {pos : Nat} (hx : x.name = o)
    (hlen : (joined 59 Opt.text (x :: post)).length ≤ maxlen) :
    (caught o pos (x :: post)).bind (argOf maxlen o.bytes 59 58) = argSpan o pos (x :: post) := by
  have hcaught : caught o pos (x :: post) =
      some (pos, o.bytes ++ (x.argText ++ following 59 Opt.text post)) := by
    rw [caught, if_pos (.inl hx), hx, Nat.add_sub_cancel]
  rw [hcaught, Option.bind_some, argOf, drop_left, argSpan, if_pos hx]
  by_cases hsubs : x.subs = []
  · rw [if_pos hsubs, if_pos (fun h => (head_argText x post).mp h hsubs)]
  · rw [if_neg hsubs, if_neg (not_not_intro ((head_argText x post).mpr hsubs))]
    have harg : x.argText.length = (joined 44 Sub.text x.subs).length + 1 := by
      unfold Opt.argText
      rw [if_neg hsubs, length_cons]
    have htext : (joined 59 Opt.text (x :: post)).length =
        o.bytes.length + x.argText.length + (following 59 Opt.text post).length := by
      rw [joined_length, Opt.text, hx, length_append]
    have hstr : strchr (o.bytes ++ (x.argText ++ following 59 Opt.text post)) 59 =
        if post = [] then none else some (x.argText.length + o.bytes.length) := by
      rw [strchr_append (not_mem_of_plain (by decide)), strchr_append (not_mem_arg x), strchr_following]
      split
      · rfl
      · rw [Option.map_some, Option.map_some, zero_add]
    rw [hstr, hx]
    refine congrArg some (Prod.ext rfl ?_)
    by_cases hpost : post = []
    · rw [if_pos hpost, Option.getD_none]
      rw [hpost] at htext hlen ⊢
      simp only [length_append, following, flatMap_nil, length_nil] at htext ⊢
      omega
    · rw [if_neg hpost, Option.getD_some]
      omega

theorem argOf_decoy {x : Opt} {post : List Opt} {pos : Nat} (hx : x.name ≠ o) (hd : Decoy o x) :
    ∃ r, caught o pos (x :: post) = some r ∧
      (Doubled o x.name ∧ x.subs ≠ [] → ∃ len, argOf maxlen o.bytes 59 58 r = some (pos + x.name.bytes.length + 1, len)) ∧
      (¬(Doubled o x.name ∧ x.subs ≠ []) → argOf maxlen o.bytes 59 58 r = none) := by
  by_cases hname : Doubled o x.name
  · have hlen := touches_length hname
    refine ⟨_, by rw [caught, if_pos (.inr hname)], fun h => ?_, fun h => ?_⟩
    · rw [argOf, drop_left, if_neg (not_not_intro ((head_argText x post).mpr h.2))]
      have hpos : pos + x.name.bytes.length - o.bytes.length + o.bytes.length = pos + x.name.bytes.length := by
        omega
      rw [hpos]
      exact ⟨_, rfl⟩
    · rw [argOf, drop_left, if_pos (fun hh => h ⟨hname, (head_argText x post).mp hh⟩)]
  · have hlast : DoubledLast o x := hd.resolve_left hname
    have hlike : ¬(x.name = o ∨ Doubled o x.name) := fun h => h.elim hx hname
    refine ⟨_, by rw [caught, if_neg hlike, if_pos hlast], fun h => absurd h.1 hname, fun _ => ?_⟩
    rw [argOf, drop_left, if_pos (head_following post)]

def DecoySub (s : Word) (x : Sub) : Prop := Doubled s x.name ∨ DoubledValue s x

instance (s : Word) (x : Sub) : Decidable (DecoySub s x) := inferInstanceAs (Decidable (_ ∨ _))

def LikeSub (s : Word) (x : Sub) : Prop := x.name = s ∨ DecoySub s x

instance (s : Word) (x : Sub) : Decidable (LikeSub s x) := inferInstanceAs (Decidable (_ ∨ _))

theorem caughtSub_skip {s : Word} {x : Sub} (h : ¬LikeSub s x) (tail : List UInt8) (pos : Nat)
    (xs : List Sub) : caughtSub s tail pos (x :: xs) = caughtSub s tail (pos + x.text.length + 1) xs := by
  have hlike : ¬(x.name = s ∨ Doubled s x.name) := fun hn => h (hn.imp_right .inl)
  have hvalue : ¬DoubledValue s x := fun hv => h (.inr (.inr hv))
  rw [caughtSub, if_neg (fun hn => hlike hn.1), if_neg (fun hn => hvalue hn.1)]

theorem valueSpan_skip {s : Word} {x : Sub} (h : ¬LikeSub s x) (pos : Nat) (xs : List Sub) :
    valueSpan s pos (x :: xs) = valueSpan s (pos + x.text.length + 1) xs := by
  rw [valueSpan, if_neg (fun hn => h (.inl hn))]

theorem valueSpan_le {s : Word} {pos : Nat} {xs : List Sub} {span : Nat × Nat}
    (h : valueSpan s pos xs = some span) : pos < span.1 := by
  induction xs generalizing pos with
  | nil => cases h
  | cons x xs ih =>
    unfold valueSpan at h
    split at h
    · obtain ⟨v, _, rfl⟩ := Option.map_eq_some_iff.mp h
      omega
    · have := ih h
      omega

theorem valueSpan_add (s : Word) (arg pos : Nat) (xs : List Sub) :
    valueSpan s (arg + pos) xs = (valueSpan s pos xs).map fun r => (arg + r.1, r.2) := by
  induction xs generalizing pos with
  | nil => rfl
  | cons x xs ih =>
    unfold valueSpan
    split
    · rw [Option.map_map]
      congr 1
      funext v
      exact Prod.ext (by dsimp only [Function.comp_apply]; omega) rfl
    · rw [← ih, add_assoc, add_assoc, add_assoc]

theorem valueSpan_eq_none_iff {s : Word} (pos : Nat) (xs : List Sub) :
    valueSpan s pos xs = none ↔ ∀ y, xs.find? (fun y => y.name = s) = some y → y.value = none := by
  induction xs generalizing pos with
  | nil => simp [valueSpan]
  | cons x xs ih =>
    unfold valueSpan
    by_cases hx : x.name = s
    · rw [if_pos hx, List.find?_cons_of_pos (by simpa using hx), Option.map_eq_none_iff]
      constructor
      · rintro h y hy
        cases hy
        exact h
      · exact fun h => h x rfl
    · rw [if_neg hx, List.find?_cons_of_neg (by simpa using hx)]
      exact ih _

theorem comma_following (post : List Opt) :
    strchr (following 59 Opt.text post) 44 = none ↔ ∀ z ∈ post, z.subs.length ≤ 1 := by
  have hcomma : ∀ z : Opt, 44 ∉ z.text ↔ z.subs.length ≤ 1 := by
    rintro ⟨name, subs⟩
    unfold Opt.text Opt.argText
    cases subs with
    | nil => simp [not_mem_of_plain (show Sep 44 by decide)]
    | cons x xs =>
      cases xs with
      | nil =>
        simp [joined, following, Sub.text, not_mem_of_plain (show Sep 44 by decide), not_mem_sub.1]
      | cons y ys => simp [joined, following]
  unfold strchr
  rw [List.findIdx?_eq_none_iff]
  constructor
  · intro h z hz
    apply (hcomma z).mp
    intro hm
    have := h 44 (mem_flatMap.mpr ⟨z, hz, mem_cons_of_mem _ hm⟩)
    simp at this
  · intro h c hc
    obtain ⟨z, hz, hm⟩ := mem_flatMap.mp hc
    rcases mem_cons.mp hm with rfl | hm
    · decide
    · exact decide_eq_false fun he => (hcomma z).mpr (h z hz) (he ▸ hm)

theorem comma_pos {post : List Opt} {j : Nat} (h : strchr (following 59 Opt.text post) 44 = some j) :
    0 < j := by
  cases post with
  | nil => cases h
  | cons z zs =>
    have hcons : following 59 Opt.text (z :: zs) = 59 :: joined 59 Opt.text (z :: zs) := rfl
    rw [hcons] at h
    simp only [strchr, List.findIdx?_cons] at h
    obtain ⟨i, _, rfl⟩ := Option.map_eq_some_iff.mp h
    exact Nat.succ_pos i

theorem argOf_value_iff {s v : Word} {rest : List Sub} {post : List Opt} {pos : Nat}
    (hlen : maxlen = pos + s.bytes.length + 1 + v.bytes.length + (following 44 Sub.text rest).length) :
    argOf maxlen s.bytes 44 61
        (pos, s.bytes ++ (61 :: v.bytes ++ (following 44 Sub.text rest ++ following 59 Opt.text post))) =
      some (pos + s.bytes.length + 1, v.bytes.length) ↔
      rest ≠ [] ∨ (∀ z ∈ post, z.subs.length ≤ 1) ∧ (pos = 0 ∨ post = []) := by
  have hs : (44 : UInt8) ∉ s.bytes := not_mem_of_plain (by decide)
  have hv : (44 : UInt8) ∉ 61 :: v.bytes := by simp [not_mem_of_plain (show Sep 44 by decide)]
  have hstr : strchr (s.bytes ++ (61 :: v.bytes ++ (following 44 Sub.text rest ++ following 59 Opt.text post))) 44 =
      ((strchr (following 44 Sub.text rest ++ following 59 Opt.text post) 44).map
        (· + (61 :: v.bytes).length)).map (· + s.bytes.length) := by
    rw [strchr_append hs, strchr_append hv]
  unfold argOf
  rw [drop_left, if_neg (by simp), hstr]
  simp only [Option.some.injEq, Prod.mk.injEq, true_and, length_append, length_cons]
  cases rest with
  | cons y ys =>
    have hzero : strchr (following 44 Sub.text (y :: ys) ++ following 59 Opt.text post) 44 = some 0 := by
      simp [strchr, following, List.findIdx?_cons]
    rw [hzero]
    refine iff_of_true ?_ (.inl (cons_ne_nil _ _))
    simp only [Option.map_some, Option.getD_some]
    omega
  | nil =>
    have hfollow : following 44 Sub.text [] ++ following 59 Opt.text post = following 59 Opt.text post := rfl
    have hnil : (following 44 Sub.text []).length = 0 := rfl
    rw [hfollow, hlen, hnil]
    cases hcomma : strchr (following 59 Opt.text post) 44 with
    | some j =>
      have hj := comma_pos hcomma
      have hno : ¬∀ z ∈ post, z.subs.length ≤ 1 := fun h => by
        cases hcomma.symm.trans ((comma_following post).mpr h)
      simp only [Option.map_some, Option.getD_some]
      refine iff_of_false (by omega) ?_
      rintro (h | h)
      · exact h rfl
      · exact hno h.1
    | none =>
      have hall := (comma_following post).mp hcomma
      have hpost : post = [] ↔ (following 59 Opt.text post).length = 0 := by
        cases post with
        | nil => simp [following]
        | cons z zs => simp [following]
      rw [hpost]
      simp only [Option.map_none, Option.getD_none, ne_eq, not_true_eq_false, false_or]
      constructor
      · intro h
        exact ⟨hall, by omega⟩
      · rintro ⟨_, h⟩
        omega

end UBoot.Hwconfig
