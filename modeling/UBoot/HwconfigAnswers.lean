import UBoot.HwconfigQueries

namespace UBoot.Hwconfig

open List TextScan

/-- Where the queries for a sub-option of the argument `subs` are right, with the options `post` behind
the argument. -/
structure SubClear (s : Word) (subs : List Sub) (post : List Opt) : Prop where
  start : s.bytes = [] → subs.head?.map Sub.name = some s
  own : ∀ x rest, fromFirst (LikeSub s) subs = x :: rest → x.name = s →
    if x.value = none then rest ≠ [] ∨ post = []
    else rest ≠ [] ∨ (∀ z ∈ post, z.subs.length ≤ 1) ∧ (subs = [x] ∨ post = [])
  decoy : ∀ x rest, fromFirst (LikeSub s) subs = x :: rest → x.name ≠ s →
    ¬(Doubled s x.name ∧ x.value ≠ none) ∧
      (rest = [] ∧ post ≠ [] ∨ ∃ y, rest.find? (fun y => y.name = s) = some y ∧ y.value = none)

/-- Where the four queries are right. -/
structure Config.Clear (cfg : Config) (o s : Word) : Prop where
  start : o.bytes = [] → cfg.options.head?.map Opt.name = some o
  decoy : ∀ x post, fromFirst (Like o) cfg.options = x :: post → x.name ≠ o →
    ¬(Doubled o x.name ∧ x.subs ≠ []) ∧ ∃ y, post.find? (fun y => y.name = o) = some y ∧ y.subs = []
  sub : ∀ x post, fromFirst (Like o) cfg.options = x :: post → x.name = o → x.subs ≠ [] →
    SubClear s x.subs post

variable {s : Word}
variable {post : List Opt}

theorem ends_rest (rest : List Sub) (post : List Opt) :
    Ends 44 61 (following 44 Sub.text rest ++ following 59 Opt.text post) ↔ rest ≠ [] ∨ post = [] := by
  cases rest with
  | cons y ys => exact iff_of_true (.inr (.inl rfl)) (.inl (cons_ne_nil _ _))
  | nil =>
    cases post with
    | nil => exact iff_of_true (.inl rfl) (.inr rfl)
    | cons z zs =>
      refine iff_of_false ?_ (by simp)
      rintro (h | h | h)
      · cases h
      · exact absurd (Option.some.inj h) (by decide)
      · exact absurd (Option.some.inj h) (by decide)

theorem head_rest (rest : List Sub) (post : List Opt) :
    (following 44 Sub.text rest ++ following 59 Opt.text post).head? ≠ some 61 := by
  cases rest with
  | cons y ys => exact fun h => absurd (Option.some.inj h) (by decide)
  | nil =>
    cases post with
    | nil => exact nofun
    | cons z zs => exact fun h => absurd (Option.some.inj h) (by decide)

theorem ends_value (x : Sub) (rest : List Sub) (post : List Opt) :
    Ends 44 61 (x.valueText ++ (following 44 Sub.text rest ++ following 59 Opt.text post)) ↔
      x.value ≠ none ∨ rest ≠ [] ∨ post = [] := by
  obtain ⟨name, value⟩ := x
  cases value with
  | none => simpa [Sub.valueText] using ends_rest rest post
  | some v => exact iff_of_true (.inr (.inr rfl)) (.inl (Option.some_ne_none v))

def SubAnswers (s : Word) (subs : List Sub) (r : Option (Nat × List UInt8)) : Prop :=
  r.isSome = (subs.any fun x => x.name = s) ∧
    r.bind (argOf (joined 44 Sub.text subs).length s.bytes 44 61) = valueSpan s 0 subs

theorem subAnswers_own {subs rest : List Sub} {x : Sub} {pos : Nat}
    (hx : x.name = s) (hany : (subs.any fun y => y.name = s) = true)
    (hspan : valueSpan s 0 subs = valueSpan s pos (x :: rest))
    (hlen : (joined 44 Sub.text subs).length = pos + (joined 44 Sub.text (x :: rest)).length)
    (hpos : pos = 0 ↔ subs = x :: rest) :
    SubAnswers s subs (caughtSub s (following 59 Opt.text post) pos (x :: rest)) ↔
      if x.value = none then rest ≠ [] ∨ post = []
      else rest ≠ [] ∨ (∀ z ∈ post, z.subs.length ≤ 1) ∧ (subs = [x] ∨ post = []) := by
  unfold SubAnswers
  rw [hany, hspan, caughtSub]
  simp only [ends_value, hx, true_or, true_and, Nat.add_sub_cancel, valueSpan, if_true]
  rw [joined_length, Sub.text, hx, length_append] at hlen
  cases hvalue : x.value with
  | none =>
    have htext : x.valueText = [] := by
      unfold Sub.valueText
      rw [hvalue]
      rfl
    have hno : ¬DoubledValue s x := by
      rintro ⟨v, hv, _⟩
      rw [hvalue] at hv
      cases hv
    rw [htext, if_pos rfl]
    by_cases hseen : rest ≠ [] ∨ post = []
    · rw [if_pos (.inr hseen)]
      refine iff_of_true ⟨rfl, ?_⟩ hseen
      rw [Option.bind_some, argOf, drop_left, nil_append, if_pos (head_rest rest post)]
      rfl
    · rw [if_neg (by simpa using hseen), if_neg (fun h => hno h.1)]
      refine iff_of_false (fun h => ?_) hseen
      have hrest : rest = [] := by
        by_contra hne
        exact hseen (.inl hne)
      rw [hrest] at h
      exact absurd (show false = true from h.1) Bool.false_ne_true
  | some v =>
    have htext : x.valueText = 61 :: v.bytes := by
      unfold Sub.valueText
      rw [hvalue]
      rfl
    rw [htext, length_cons] at hlen
    rw [htext, if_pos (.inl (Option.some_ne_none v)), if_neg (Option.some_ne_none v), Option.bind_some,
      Option.map_some, argOf_value_iff (by omega), Option.isSome_some, and_iff_right rfl, hpos]
    cases rest with
    | nil => exact Iff.rfl
    | cons y ys => simp

theorem subAnswers_decoy {subs rest : List Sub} {x : Sub} {pos : Nat} (hx : x.name ≠ s)
    (hd : DecoySub s x) (hany : (subs.any fun y => y.name = s) = (rest.find? fun y => y.name = s).isSome)
    (hspan : valueSpan s 0 subs = valueSpan s (pos + x.text.length + 1) rest) :
    SubAnswers s subs (caughtSub s (following 59 Opt.text post) pos (x :: rest)) ↔
      ¬(Doubled s x.name ∧ x.value ≠ none) ∧
        (rest = [] ∧ post ≠ [] ∨ ∃ y, rest.find? (fun y => y.name = s) = some y ∧ y.value = none) := by
  have hspanNone := valueSpan_eq_none_iff (s := s) (pos + x.text.length + 1) rest
  unfold SubAnswers
  rw [hany, hspan, caughtSub]
  simp only [ends_value, ends_rest, hx, false_or]
  by_cases hname : Doubled s x.name ∧ x.value ≠ none
  · -- the value of the decoy is taken
    have hlen := touches_length hname.1
    obtain ⟨v, hv⟩ := Option.ne_none_iff_exists'.mp hname.2
    have htext : x.valueText = 61 :: v.bytes := by
      unfold Sub.valueText
      rw [hv]
      rfl
    rw [if_pos ⟨hname.1, .inl hname.2⟩]
    refine iff_of_false ?_ (fun h => h.1 hname)
    rintro ⟨_, harg⟩
    rw [Option.bind_some, argOf, drop_left, htext, if_neg (by simp)] at harg
    have hle := valueSpan_le harg.symm
    rw [Sub.text, length_append, htext, length_cons] at hle
    omega
  · rw [and_iff_right hname]
    by_cases hseen : rest ≠ [] ∨ post = []
    · have hfound : ∃ r, (if Doubled s x.name ∧ (x.value ≠ none ∨ rest ≠ [] ∨ post = []) then
            some (pos + x.name.bytes.length - s.bytes.length,
              s.bytes ++ (x.valueText ++ (following 44 Sub.text rest ++ following 59 Opt.text post)))
          else if DoubledValue s x ∧ (rest ≠ [] ∨ post = []) then
            some (pos + x.text.length - s.bytes.length,
              s.bytes ++ (following 44 Sub.text rest ++ following 59 Opt.text post))
          else caughtSub s (following 59 Opt.text post) (pos + x.text.length + 1) rest) = some r ∧
          argOf (joined 44 Sub.text subs).length s.bytes 44 61 r = none := by
        by_cases hdoubled : Doubled s x.name
        · have hvalue : x.value = none := by
            by_contra hne
            exact hname ⟨hdoubled, hne⟩
          have htext : x.valueText = [] := by
            unfold Sub.valueText
            rw [hvalue]
            rfl
          rw [if_pos ⟨hdoubled, .inr hseen⟩]
          refine ⟨_, rfl, ?_⟩
          rw [argOf, drop_left, htext, nil_append, if_pos (head_rest rest post)]
        · rw [if_neg (fun h => hdoubled h.1), if_pos ⟨hd.resolve_left hdoubled, hseen⟩]
          refine ⟨_, rfl, ?_⟩
          rw [argOf, drop_left, if_pos (head_rest rest post)]
      obtain ⟨r, hr, hnone⟩ := hfound
      rw [hr, Option.bind_some, hnone, Option.isSome_some]
      have hnot : ¬(rest = [] ∧ post ≠ []) := fun h => hseen.elim (fun hne => hne h.1) h.2
      rw [or_iff_right hnot]
      constructor
      · rintro ⟨hsome, hvalue⟩
        obtain ⟨y, hy⟩ := Option.isSome_iff_exists.mp hsome.symm
        exact ⟨y, hy, hspanNone.mp hvalue.symm y hy⟩
      · rintro ⟨y, hy, hvalue⟩
        refine ⟨by rw [hy]; rfl, (hspanNone.mpr fun z hz => ?_).symm⟩
        obtain rfl := Option.some.inj (hy.symm.trans hz)
        exact hvalue
    · have hrest : rest = [] := by
        by_contra hne
        exact hseen (.inl hne)
      have hpost : post ≠ [] := fun h => hseen (.inr h)
      have hno : ¬(Doubled s x.name ∧ (x.value ≠ none ∨ rest ≠ [] ∨ post = [])) := fun h =>
        h.2.elim (fun hne => hname ⟨h.1, hne⟩) hseen
      rw [if_neg hno, if_neg (fun h => hseen h.2), hrest]
      exact iff_of_true ⟨rfl, rfl⟩ (.inl ⟨rfl, hpost⟩)

theorem any_eq_isSome (s : Word) (subs : List Sub) :
    (subs.any fun y => y.name = s) = (subs.find? fun y => y.name = s).isSome :=
  isSome_find?.symm

theorem subClear_own {subs rest : List Sub} {x : Sub}
    (hstart : s.bytes = [] → subs.head?.map Sub.name = some s) (hfrom : fromFirst (LikeSub s) subs = x :: rest)
    (hx : x.name = s) : SubClear s subs post ↔ if x.value = none then rest ≠ [] ∨ post = []
      else rest ≠ [] ∨ (∀ z ∈ post, z.subs.length ≤ 1) ∧ (subs = [x] ∨ post = []) := by
  constructor
  · exact fun h => h.own x rest hfrom hx
  · refine fun h => ⟨hstart, fun x' rest' h' _ => ?_, fun x' rest' h' hx' => ?_⟩
    · obtain ⟨rfl, rfl⟩ := List.cons.inj (hfrom.symm.trans h')
      exact h
    · obtain ⟨rfl, rfl⟩ := List.cons.inj (hfrom.symm.trans h')
      exact absurd hx hx'

theorem subClear_decoy {subs rest : List Sub} {x : Sub}
    (hstart : s.bytes = [] → subs.head?.map Sub.name = some s) (hfrom : fromFirst (LikeSub s) subs = x :: rest)
    (hx : x.name ≠ s) : SubClear s subs post ↔ ¬(Doubled s x.name ∧ x.value ≠ none) ∧
      (rest = [] ∧ post ≠ [] ∨ ∃ y, rest.find? (fun y => y.name = s) = some y ∧ y.value = none) := by
  constructor
  · exact fun h => h.decoy x rest hfrom hx
  · refine fun h => ⟨hstart, fun x' rest' h' hx' => ?_, fun x' rest' h' _ => ?_⟩
    · obtain ⟨rfl, rfl⟩ := List.cons.inj (hfrom.symm.trans h')
      exact absurd hx' hx
    · obtain ⟨rfl, rfl⟩ := List.cons.inj (hfrom.symm.trans h')
      exact h

theorem find_skip (s : Word) (y : Sub) (ys : List Sub) (h : ¬LikeSub s y) :
    ((y :: ys).find? fun z => z.name = s) = ys.find? fun z => z.name = s :=
  List.find?_cons_of_neg (by simpa using fun hn => h (.inl hn))

theorem subAnswers_nowhere {subs : List Sub} (post : List Opt) (hfrom : fromFirst (LikeSub s) subs = []) :
    caughtSub s (following 59 Opt.text post) 0 subs = none ∧ SubAnswers s subs none := by
  obtain ⟨_, hcaught⟩ := skip_all hfrom (caughtSub s (following 59 Opt.text post))
    (fun pos y ys h => caughtSub_skip h _ pos ys) 0
  obtain ⟨_, hspan⟩ := skip_all hfrom (valueSpan s) (fun pos y ys h => valueSpan_skip h pos ys) 0
  obtain ⟨_, hfind⟩ := @skip_all _ _ _ _ _ Sub.text hfrom (fun _ zs => zs.find? fun z => z.name = s)
    (fun _ => find_skip s) 0
  refine ⟨hcaught, ?_, ?_⟩
  · rw [any_eq_isSome, hfind]
    rfl
  · rw [hspan]
    rfl

theorem subAnswers_first {subs rest : List Sub} {x : Sub}
    (hstart : s.bytes = [] → subs.head?.map Sub.name = some s) (hfrom : fromFirst (LikeSub s) subs = x :: rest) :
    SubAnswers s subs (caughtSub s (following 59 Opt.text post) 0 subs) ↔ SubClear s subs post := by
  obtain ⟨pre, htext, hpre, hskip⟩ := skip_to hfrom
  have hcaught := hskip _ (caughtSub s (following 59 Opt.text post))
    (fun pos y ys h => caughtSub_skip h _ pos ys) 0
  have hspan := hskip _ (valueSpan s) (fun pos y ys h => valueSpan_skip h pos ys) 0
  have hfind := hskip _ (fun _ zs => zs.find? fun z => z.name = s) (fun _ => find_skip s) 0
  rw [hcaught]
  by_cases hx : x.name = s
  · have hlen : (joined 44 Sub.text subs).length = 0 + pre.length + (joined 44 Sub.text (x :: rest)).length := by
      rw [htext, length_append, zero_add]
    have hpos : 0 + pre.length = 0 ↔ subs = x :: rest := by
      rw [zero_add, length_eq_zero_iff, hpre]
    have hany : (subs.any fun z => z.name = s) = true := by
      rw [any_eq_isSome, hfind, List.find?_cons_of_pos (by simpa using hx)]
      rfl
    rw [subAnswers_own hx hany hspan hlen hpos, subClear_own hstart hfrom hx]
  · have hd := (fromFirst_meets hfrom).resolve_left hx
    have hany : (subs.any fun z => z.name = s) = (rest.find? fun z => z.name = s).isSome := by
      rw [any_eq_isSome, hfind, List.find?_cons_of_neg (by simpa using hx)]
    rw [subAnswers_decoy hx hd hany (by rw [hspan, valueSpan, if_neg hx]), subClear_decoy hstart hfrom hx]

theorem subAnswers_iff {subs : List Sub} (hne : subs ≠ []) (post : List Opt) :
    (∃ r, hwconfigNext (joined 44 Sub.text subs).length s.bytes 44 61
        ((joined 44 Sub.text subs ++ following 59 Opt.text post).length + 1) 0
        (joined 44 Sub.text subs ++ following 59 Opt.text post) = some r ∧ SubAnswers s subs r) ↔
      SubClear s subs post := by
  obtain ⟨y, ys, rfl⟩ := exists_cons_of_ne_nil hne
  have htail : ArgEnd (following 59 Opt.text post) := by
    cases post with
    | nil => exact .inl rfl
    | cons z zs => exact .inr rfl
  have hstart : (y :: ys).head?.map Sub.name = some s ↔ y.name = s := by simp
  rw [hwconfigNext_arg y ys htail s]
  by_cases hempty : s.bytes = [] ∧ y.name ≠ s
  · rw [if_pos ⟨hempty.1, fun h => hempty.2 h.1⟩]
    refine iff_of_false ?_ fun h => hempty.2 (hstart.mp (h.start hempty.1))
    rintro ⟨_, hr, _⟩
    cases hr
  · have hfirst : s.bytes = [] → y.name = s := fun h => by
      by_contra hne
      exact hempty ⟨h, hne⟩
    have hstart' : s.bytes = [] → (y :: ys).head?.map Sub.name = some s := fun h => hstart.mpr (hfirst h)
    cases hfrom : fromFirst (LikeSub s) (y :: ys) with
    | nil =>
      have hs : s.bytes ≠ [] := fun h => by
        rw [fromFirst_here (.inl (hfirst h))] at hfrom
        cases hfrom
      obtain ⟨hcaught, hanswers⟩ := subAnswers_nowhere post hfrom
      rw [if_neg (fun h => hs h.1), hcaught]
      refine iff_of_true ⟨none, rfl, hanswers⟩ ⟨hstart', fun x rest h => ?_, fun x rest h => ?_⟩
      · rw [hfrom] at h
        cases h
      · rw [hfrom] at h
        cases h
    | cons x rest =>
      split
      next hnone =>
        -- an empty name in front of nothing
        refine iff_of_false (fun ⟨_, hr, _⟩ => nomatch hr) fun h => ?_
        have hy := hfirst hnone.1
        obtain ⟨rfl, rfl⟩ := List.cons.inj ((fromFirst_here (.inl hy) ys).symm.trans hfrom)
        have hown := h.own y ys hfrom hy
        have hseen : ¬(y.value ≠ none ∨ ys ≠ [] ∨ post = []) := fun hs =>
          hnone.2 ⟨hy, (ends_value y ys post).mpr hs⟩
        split at hown
        · exact hseen (.inr hown)
        next hvalue => exact hseen (.inl hvalue)
      · rw [← subAnswers_first hstart' hfrom]
        constructor
        · rintro ⟨r, hr, h⟩
          rwa [Option.some.inj hr]
        · exact fun h => ⟨_, rfl, h⟩

variable {o : Word} {src : Sources} {cfg : Config}

theorem query_true (hsrc : src.text = some cfg.text) {r : Option (Nat × List UInt8)}
    (h : hwconfigNext cfg.text.length o.bytes 59 58 (cfg.text.length + 1) 0 cfg.text = some r) :
    hwconfigArg src o.bytes = some (r.bind (argOf cfg.text.length o.bytes 59 58)) := by
  unfold hwconfigArg hwconfigQuery
  rw [hsrc]
  dsimp only
  rw [hwconfigParse_true, h]
  rfl

theorem query_false (hsrc : src.text = some cfg.text) :
    hwconfig src o.bytes = (hwconfigNext cfg.text.length o.bytes 59 58 (cfg.text.length + 1) 0 cfg.text).map
      Option.isSome := by
  unfold hwconfig hwconfigQuery
  rw [hsrc]
  exact hwconfigParse_false _ _ _ _ _

theorem sub_queries_iff {arg : Nat} {subs : List Sub} (hne : subs ≠ [])
    (harg : hwconfigArg src o.bytes = some (some (arg, (joined 44 Sub.text subs).length)))
    (hfrom : src.from arg = joined 44 Sub.text subs ++ following 59 Opt.text post) :
    (hwconfigSub src o.bytes s.bytes = some (subs.any fun x => x.name = s) ∧
      hwconfigSubarg src o.bytes s.bytes = some (valueSpan s arg subs)) ↔ SubClear s subs post := by
  have hmove : Function.Injective fun r : Nat × Nat => (arg + r.1, r.2) := by
    rintro ⟨a, b⟩ ⟨c, d⟩ h
    obtain ⟨hac, hbd⟩ := Prod.mk.inj h
    exact Prod.ext (Nat.add_left_cancel hac) hbd
  unfold hwconfigSub hwconfigSubarg
  rw [harg]
  simp only [Option.bind_eq_bind, Option.bind_some]
  rw [hfrom, hwconfigParse_false, hwconfigParse_true, ← subAnswers_iff hne post,
    show valueSpan s arg subs = _ from valueSpan_add s arg 0 subs]
  cases hwconfigNext (joined 44 Sub.text subs).length s.bytes 44 61
      ((joined 44 Sub.text subs ++ following 59 Opt.text post).length + 1) 0
      (joined 44 Sub.text subs ++ following 59 Opt.text post) with
  | none =>
    refine iff_of_false (fun h => by cases h.1) ?_
    rintro ⟨r, hr, _⟩
    cases hr
  | some r =>
    simp only [Option.map_some, Option.some.injEq, exists_eq_left', SubAnswers]
    refine and_congr_right fun _ => ?_
    exact (Option.map_injective hmove).eq_iff

theorem answers_named {x : Opt} {pre : List UInt8} (hsrc : src.text = some cfg.text)
    (hx : x.name = o) (hnamed : cfg.named o = some x)
    (htext : cfg.text = pre ++ joined 59 Opt.text (x :: post))
    (hspan : argSpan o 0 cfg.options = argSpan o pre.length (x :: post))
    (hhit : hwconfig src o.bytes = some (cfg.named o).isSome)
    (harg : hwconfigArg src o.bytes = some (argSpan o 0 cfg.options)) :
    Answers src cfg o s ↔ (x.subs ≠ [] → SubClear s x.subs post) := by
  have hsubs : cfg.subs o = x.subs := by
    unfold Config.subs
    rw [hnamed]
    rfl
  have hiff : Answers src cfg o s ↔ hwconfigSub src o.bytes s.bytes = some (x.subs.any fun y => y.name = s) ∧
        hwconfigSubarg src o.bytes s.bytes = some (cfg.subargSpan o s) := by
    rw [← hsubs]
    exact ⟨fun h => ⟨h.sub, h.subarg⟩, fun h => ⟨hhit, harg, h.1, h.2⟩⟩
  rw [hiff]
  unfold Config.subargSpan
  rw [hspan, argSpan, if_pos hx] at harg ⊢
  by_cases hnil : x.subs = []
  · rw [if_pos hnil] at harg ⊢
    refine iff_of_true ?_ (fun h => absurd hnil h)
    unfold hwconfigSub hwconfigSubarg
    rw [harg, hnil]
    exact ⟨rfl, rfl⟩
  · rw [if_neg hnil] at harg ⊢
    have hfrom : src.from (pre.length + x.name.bytes.length + 1) =
        joined 44 Sub.text x.subs ++ following 59 Opt.text post := by
      have hjoin : cfg.text = (pre ++ x.name.bytes ++ [58]) ++
          (joined 44 Sub.text x.subs ++ following 59 Opt.text post) := by
        rw [htext, joined, Opt.text, Opt.argText, if_neg hnil]
        simp only [append_assoc, cons_append, nil_append]
      unfold Sources.from
      rw [hsrc, Option.getD_some, hjoin]
      apply drop_left'
      simp only [length_append, length_cons, length_nil]
    rw [Option.bind_some, hsubs, sub_queries_iff hnil harg hfrom]
    exact ⟨fun h _ => h, fun h => h hnil⟩

theorem answers_decoy {x : Opt} {pos : Nat} (hx : x.name ≠ o) (hd : Decoy o x)
    (hnamed : cfg.named o = post.find? fun y => y.name = o)
    (hspan : argSpan o 0 cfg.options = argSpan o (pos + x.text.length + 1) post)
    (hhit : hwconfig src o.bytes = some (caught o pos (x :: post)).isSome) (harg : hwconfigArg src o.bytes =
    some ((caught o pos (x :: post)).bind (argOf cfg.text.length o.bytes 59 58))) :
    Answers src cfg o s ↔ ¬(Doubled o x.name ∧ x.subs ≠ []) ∧
      ∃ y, post.find? (fun y => y.name = o) = some y ∧ y.subs = [] := by
  have hnone := argSpan_eq_none_iff (o := o) (pos + x.text.length + 1) post
  obtain ⟨r, hr, htaken, hleft⟩ := argOf_decoy hx hd
  rw [hr, Option.isSome_some] at hhit
  rw [hr, Option.bind_some] at harg
  by_cases hname : Doubled o x.name ∧ x.subs ≠ []
  · refine iff_of_false (fun h => ?_) (fun h => h.1 hname)
    obtain ⟨len, hlen⟩ := htaken hname
    rw [hlen] at harg
    have hsame := harg.symm.trans h.arg
    rw [hspan] at hsame
    have hle := argSpan_le (Option.some.inj hsame).symm
    rw [Opt.text, length_append] at hle
    omega
  · rw [hleft hname] at harg
    rw [and_iff_right hname]
    constructor
    · intro h
      have hfound := Option.some.inj (hhit.symm.trans h.hwconfig)
      rw [hnamed] at hfound
      obtain ⟨y, hy⟩ := Option.isSome_iff_exists.mp hfound.symm
      have hsame := Option.some.inj (harg.symm.trans h.arg)
      rw [hspan] at hsame
      exact ⟨y, hy, hnone.mp hsame.symm y hy⟩
    · rintro ⟨y, hy, hsubs⟩
      have hspanNone : argSpan o 0 cfg.options = none := by
        rw [hspan]
        apply hnone.mpr
        intro z hz
        obtain rfl := Option.some.inj (hy.symm.trans hz)
        exact hsubs
      have hsubs' : cfg.subs o = [] := by
        unfold Config.subs
        rw [hnamed, hy]
        exact hsubs
      refine ⟨?_, ?_, ?_, ?_⟩
      · rw [hhit, hnamed, hy]
        rfl
      · rw [harg, hspanNone]
      · unfold hwconfigSub
        rw [harg, hsubs']
        rfl
      · unfold hwconfigSubarg Config.subargSpan
        rw [harg, hspanNone]
        rfl

theorem clear_named {x : Opt} (hstart : o.bytes = [] → cfg.options.head?.map Opt.name = some o)
    (hfrom : fromFirst (Like o) cfg.options = x :: post) (hx : x.name = o) :
    cfg.Clear o s ↔ (x.subs ≠ [] → SubClear s x.subs post) := by
  constructor
  · exact fun h => h.sub x post hfrom hx
  · refine fun h => ⟨hstart, fun x' post' h' hx' => ?_, fun x' post' h' _ => ?_⟩
    · obtain ⟨rfl, rfl⟩ := List.cons.inj (hfrom.symm.trans h')
      exact absurd hx hx'
    · obtain ⟨rfl, rfl⟩ := List.cons.inj (hfrom.symm.trans h')
      exact h

theorem clear_decoy {x : Opt} (hstart : o.bytes = [] → cfg.options.head?.map Opt.name = some o)
    (hfrom : fromFirst (Like o) cfg.options = x :: post) (hx : x.name ≠ o) : cfg.Clear o s ↔
      ¬(Doubled o x.name ∧ x.subs ≠ []) ∧ ∃ y, post.find? (fun y => y.name = o) = some y ∧ y.subs = [] := by
  constructor
  · exact fun h => h.decoy x post hfrom hx
  · refine fun h => ⟨hstart, fun x' post' h' _ => ?_, fun x' post' h' hx' => ?_⟩
    · obtain ⟨rfl, rfl⟩ := List.cons.inj (hfrom.symm.trans h')
      exact h
    · obtain ⟨rfl, rfl⟩ := List.cons.inj (hfrom.symm.trans h')
      exact absurd hx' hx

theorem find_skip_option (o : Word) (y : Opt) (ys : List Opt) (h : ¬Like o y) :
    ((y :: ys).find? fun z => z.name = o) = ys.find? fun z => z.name = o :=
  List.find?_cons_of_neg (by simpa using fun hn => h (.inl hn))

theorem answers_nowhere (hfrom : fromFirst (Like o) cfg.options = [])
    (hhit : hwconfig src o.bytes = some (caught o 0 cfg.options).isSome)
    (harg : hwconfigArg src o.bytes = some ((caught o 0 cfg.options).bind (argOf cfg.text.length o.bytes 59 58))) :
    Answers src cfg o s := by
  obtain ⟨_, hcaught⟩ := skip_all hfrom (caught o) (fun pos y ys h => caught_skip h pos ys) 0
  obtain ⟨_, hspan⟩ := skip_all hfrom (argSpan o) (fun pos y ys h => argSpan_skip h pos ys) 0
  obtain ⟨_, hfind⟩ := @skip_all _ _ _ _ _ Opt.text hfrom (fun _ zs => zs.find? fun z => z.name = o)
    (fun _ => find_skip_option o) 0
  have hnamed : cfg.named o = none := hfind
  have hspan : argSpan o 0 cfg.options = none := hspan
  rw [show caught o 0 cfg.options = none from hcaught] at hhit harg
  refine ⟨?_, ?_, ?_, ?_⟩
  · rw [hhit, hnamed]
    rfl
  · rw [harg, hspan]
    rfl
  · unfold hwconfigSub Config.subs
    rw [harg, hnamed]
    rfl
  · unfold hwconfigSubarg Config.subargSpan
    rw [harg, hspan]
    rfl

/-- The four queries answer as the grammar says exactly where they are clear. -/
theorem hwconfig_answers_iff (hsrc : src.text = some cfg.text) (o s : Word) :
    Answers src cfg o s ↔ cfg.Clear o s := by
  have hnext := hwconfigNext_config cfg o
  have hfalse := query_false (o := o) hsrc
  by_cases hempty : o.bytes = [] ∧ cfg.options.head?.map Opt.name ≠ some o
  · rw [if_pos hempty] at hnext
    rw [hnext] at hfalse
    refine iff_of_false (fun h => ?_) fun h => hempty.2 (h.start hempty.1)
    cases hfalse.symm.trans h.hwconfig
  · have hstart : o.bytes = [] → cfg.options.head?.map Opt.name = some o := fun h => by
      by_contra hne
      exact hempty ⟨h, hne⟩
    rw [if_neg hempty] at hnext
    rw [hnext, Option.map_some] at hfalse
    have htrue := query_true hsrc hnext
    cases hfrom : fromFirst (Like o) cfg.options with
    | nil =>
      refine iff_of_true (answers_nowhere hfrom hfalse htrue) ⟨hstart, fun x post h => ?_, fun x post h => ?_⟩
      · rw [hfrom] at h
        cases h
      · rw [hfrom] at h
        cases h
    | cons x post =>
      obtain ⟨pre, htext, _, hskip⟩ := skip_to hfrom
      have hcaught := hskip _ (caught o) (fun pos y ys h => caught_skip h pos ys) 0
      have hspan := hskip _ (argSpan o) (fun pos y ys h => argSpan_skip h pos ys) 0
      have hfind := hskip _ (fun _ zs => zs.find? fun z => z.name = o) (fun _ => find_skip_option o) 0
      rw [hcaught] at hfalse htrue
      by_cases hx : x.name = o
      · have hnamed : cfg.named o = some x := by
          rw [Config.named, hfind, List.find?_cons_of_pos (by simpa using hx)]
        have hlen : (joined 59 Opt.text (x :: post)).length ≤ cfg.text.length := by
          rw [Config.text, htext, length_append]
          exact Nat.le_add_left _ _
        rw [argOf_named hx hlen, ← hspan] at htrue
        have hhit : (caught o (0 + pre.length) (x :: post)).isSome = (cfg.named o).isSome := by
          rw [caught, if_pos (.inl hx), hnamed]
          rfl
        rw [hhit] at hfalse
        rw [zero_add] at hspan
        rw [answers_named hsrc hx hnamed htext hspan hfalse htrue, clear_named hstart hfrom hx]
      · have hd := (fromFirst_meets hfrom).resolve_left hx
        have hnamed : cfg.named o = post.find? fun y => y.name = o := by
          rw [Config.named, hfind, List.find?_cons_of_neg (by simpa using hx)]
        rw [argSpan, if_neg hx] at hspan
        rw [answers_decoy hx hd hnamed hspan hfalse htrue, clear_decoy hstart hfrom hx]

theorem plain_of_all {bytes : List UInt8} (h : (bytes.all fun c => !decide (Sep c)) = true) :
    Plain Sep bytes :=
  ⟨fun c hc => by simpa using all_eq_true.mp h c hc⟩

/-- `usb:mode=host,speed=full;eth` -/
def sampleConfig : Config where
  options := [⟨⟨ascii ['u', 's', 'b'], plain_of_all rfl⟩,
      [⟨⟨ascii ['m', 'o', 'd', 'e'], plain_of_all rfl⟩, some ⟨ascii ['h', 'o', 's', 't'], plain_of_all rfl⟩⟩,
        ⟨⟨ascii ['s', 'p', 'e', 'e', 'd'], plain_of_all rfl⟩, some ⟨ascii ['f', 'u', 'l', 'l'], plain_of_all rfl⟩⟩]⟩,
    ⟨⟨ascii ['e', 't', 'h'], plain_of_all rfl⟩, []⟩]
  ne := cons_ne_nil _ _

theorem hwconfig_answers_mode :
    Answers ⟨some sampleConfig.text, none, none⟩ sampleConfig ⟨ascii ['u', 's', 'b'], plain_of_all rfl⟩
      ⟨ascii ['m', 'o', 'd', 'e'], plain_of_all rfl⟩ := by
  refine (hwconfig_answers_iff rfl _ _).mpr ⟨nofun, ?_, ?_⟩
  · rintro x post hfrom hx
    obtain ⟨rfl, _⟩ := List.cons.inj (hfrom.symm.trans (fromFirst_here (by decide) _))
    exact absurd rfl hx
  · rintro x post hfrom _ _
    obtain ⟨rfl, rfl⟩ := List.cons.inj (hfrom.symm.trans (fromFirst_here (by decide) _))
    refine ⟨nofun, fun y rest hfrom hy => ?_, fun y rest hfrom hy => ?_⟩
    · obtain ⟨rfl, rfl⟩ := List.cons.inj (hfrom.symm.trans (fromFirst_here (by decide) _))
      decide
    · obtain ⟨rfl, _⟩ := List.cons.inj (hfrom.symm.trans (fromFirst_here (by decide) _))
      exact absurd rfl hy

/-- `usb:host;eth` -/
def plainConfig : Config where
  options := [⟨⟨ascii ['u', 's', 'b'], plain_of_all rfl⟩, [⟨⟨ascii ['h', 'o', 's', 't'], plain_of_all rfl⟩, none⟩]⟩,
    ⟨⟨ascii ['e', 't', 'h'], plain_of_all rfl⟩, []⟩]
  ne := cons_ne_nil _ _

/-- The sub-option at the end of an option that is not the last one is not found. -/
theorem hwconfig_misses_last_sub : (plainConfig.subs ⟨ascii ['u', 's', 'b'], plain_of_all rfl⟩).map Sub.name =
        [⟨ascii ['h', 'o', 's', 't'], plain_of_all rfl⟩] ∧
      hwconfigSub ⟨some plainConfig.text, none, none⟩ (ascii ['u', 's', 'b']) (ascii ['h', 'o', 's', 't']) =
        some false ∧
      ¬Answers ⟨some plainConfig.text, none, none⟩ plainConfig ⟨ascii ['u', 's', 'b'], plain_of_all rfl⟩
        ⟨ascii ['h', 'o', 's', 't'], plain_of_all rfl⟩ := by
  have hmissed : hwconfigSub ⟨some plainConfig.text, none, none⟩ (ascii ['u', 's', 'b'])
      (ascii ['h', 'o', 's', 't']) = some false := by decide +kernel
  refine ⟨by decide, hmissed, fun h => ?_⟩
  have hsub := hmissed.symm.trans h.sub
  exact absurd hsub (by decide)

end UBoot.Hwconfig
