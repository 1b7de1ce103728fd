import UBoot.Hwconfig

namespace UBoot.Hwconfig

open List TextScan

theorem hwconfigNext_eq_seek {maxlen fuel pos : Nat} {opt opts : List UInt8} {stopch eqch : UInt8} :
    hwconfigNext maxlen opt stopch eqch fuel pos opts = seek opt stopch eqch maxlen fuel true pos opts := by
  induction fuel generalizing pos opts with
  | zero => rfl
  | succ fuel ih =>
    unfold hwconfigNext seek strstr
    cases find opt opts with
    | none => rfl
    | some k => simp only [ih]

theorem hwconfigNext_eq_scan {maxlen : Nat} {opt opts : List UInt8} {stopch eqch : UInt8} :
    hwconfigNext maxlen opt stopch eqch (opts.length + 1) 0 opts =
      scan opt stopch eqch maxlen true 0 opts := hwconfigNext_eq_seek

theorem scan_empty {stop eq : UInt8} {maxlen fuel pos : Nat} {text : List UInt8} (h : pos ≤ maxlen) :
    seek [] stop eq maxlen fuel true pos text =
      if Ends stop eq text ∧ fuel ≠ 0 then some (some (pos, text)) else none := by
  have hfind : find [] text = some 0 := find_at_start rfl
  induction fuel with
  | zero => simp [seek]
  | succ fuel ih =>
    have hfit : ¬maxlen < pos := not_lt.mpr h
    unfold seek
    simp only [hfind, length_nil, add_zero, drop_zero, if_neg hfit, Leads, true_and, ih]
    by_cases hend : Ends stop eq text
    · simp [hend]
    · simp [hend]

/-- Two touching occurrences at its end make an entry look like the name. -/
def Doubled (o t : Word) : Prop := touches o.bytes 0 false t.bytes = true

instance (o t : Word) : Decidable (Doubled o t) := inferInstanceAs (Decidable (_ = _))

theorem Word.ext {o t : Word} (h : o.bytes = t.bytes) : o = t := by
  obtain ⟨_, _⟩ := t
  cases h
  rfl

theorem touches_lead {o : Word} (hne : o.bytes ≠ []) (t : Word) :
    touches o.bytes 0 true t.bytes = true ↔ t = o ∨ Doubled o t := by
  rw [touches_true hne, Bool.or_eq_true, decide_eq_true_iff]
  exact or_congr_left ⟨Word.ext, fun h => by rw [h]⟩

def Sub.last (x : Sub) : Word := x.value.getD x.name

def lastWord (x : Sub) (xs : List Sub) : Word := ((x :: xs).getLast (cons_ne_nil _ _)).last

theorem joined_length {α : Type} (sep : UInt8) (text : α → List UInt8) (x : α) (xs : List α) :
    (joined sep text (x :: xs)).length = (text x).length + (following sep text xs).length :=
  length_append

theorem following_cons {α : Type} (sep : UInt8) (text : α → List UInt8) (x : α) (xs : List α) :
    following sep text (x :: xs) = sep :: joined sep text (x :: xs) := rfl

section Top

variable {o : Word} {maxlen : Nat}

theorem breaks_cons {c : UInt8} {text : List UInt8} (h : Sep c) : Breaks Sep (c :: text) := fun d hd => by
  obtain rfl : c = d := Option.some.inj hd
  exact h

theorem not_ends_cons {stop eq c : UInt8} {text : List UInt8} (hstop : c ≠ stop) (heq : c ≠ eq) :
    ¬Ends stop eq (c :: text) := by
  rintro (hnil | hhead | hhead)
  · cases hnil
  · exact hstop (Option.some.inj hhead)
  · exact heq (Option.some.inj hhead)

theorem length_joint (pos : Nat) (s t : List UInt8) (c : UInt8) :
    pos + s.length + 1 + t.length = pos + (s ++ c :: t).length := by
  rw [length_append, length_cons]
  omega

theorem scanTop_sub {x : Sub} {rest : List UInt8} {pos : Nat} (hne : o.bytes ≠ [])
    (hrest : Breaks Sep rest) (hpos : pos + x.text.length ≤ maxlen) :
    scan o.bytes 59 58 maxlen false pos (x.text ++ rest) =
      if Doubled o x.last ∧ Ends 59 58 rest then
        some (some (pos + x.text.length - o.bytes.length, o.bytes ++ rest))
      else past o.bytes 59 58 maxlen (pos + x.text.length) rest := by
  have h59 : Sep 59 := .inr (.inl rfl)
  have h58 : Sep 58 := .inr (.inr (.inl rfl))
  obtain ⟨name, value⟩ := x
  cases value with
  | none =>
    have htext : Sub.text ⟨name, none⟩ = name.bytes := append_nil _
    rw [htext] at hpos ⊢
    exact scan_token hne o.plain name.plain hrest h59 h58 hpos
  | some v =>
    have htext : Sub.text ⟨name, some v⟩ = name.bytes ++ 61 :: v.bytes := rfl
    have hbreak : Breaks Sep (61 :: v.bytes ++ rest) := breaks_cons (by decide)
    have hno : ¬(touches o.bytes 0 false name.bytes = true ∧ Ends 59 58 (61 :: v.bytes ++ rest)) := fun h =>
      not_ends_cons (by decide) (by decide) h.2
    rw [htext, length_append, length_cons] at hpos
    rw [htext, append_assoc, scan_token hne o.plain name.plain hbreak h59 h58 (by omega), if_neg hno]
    have hfalse : decide ((61 : UInt8) = 59) = false := rfl
    have hlen := length_joint pos name.bytes v.bytes 61
    rw [cons_append, past, hfalse, scan_token hne o.plain v.plain hrest h59 h58 (by omega), hlen]
    rfl

theorem scanTop_subs {x : Sub} {xs : List Sub} {rest : List UInt8} {pos : Nat} (hne : o.bytes ≠ [])
    (hrest : Breaks Sep rest) (hpos : pos + (joined 44 Sub.text (x :: xs)).length ≤ maxlen) :
    scan o.bytes 59 58 maxlen false pos (joined 44 Sub.text (x :: xs) ++ rest) =
      if Doubled o (lastWord x xs) ∧ Ends 59 58 rest then
        some (some (pos + (joined 44 Sub.text (x :: xs)).length - o.bytes.length, o.bytes ++ rest))
      else past o.bytes 59 58 maxlen (pos + (joined 44 Sub.text (x :: xs)).length) rest := by
  induction xs generalizing x pos with
  | nil =>
    have htext : joined 44 Sub.text [x] = x.text := append_nil _
    rw [htext] at hpos ⊢
    exact scanTop_sub hne hrest hpos
  | cons y ys ih =>
    have htext : joined 44 Sub.text (x :: y :: ys) = x.text ++ 44 :: joined 44 Sub.text (y :: ys) := rfl
    have hbreak : Breaks Sep (44 :: joined 44 Sub.text (y :: ys) ++ rest) := breaks_cons (by decide)
    have hno : ¬(Doubled o x.last ∧ Ends 59 58 (44 :: joined 44 Sub.text (y :: ys) ++ rest)) := fun h =>
      not_ends_cons (by decide) (by decide) h.2
    rw [htext, length_append, length_cons] at hpos
    have hfalse : decide ((44 : UInt8) = 59) = false := rfl
    have hlen := length_joint pos x.text (joined 44 Sub.text (y :: ys)) 44
    rw [htext, append_assoc, scanTop_sub hne hbreak (by omega), if_neg hno, cons_append, past,
      hfalse, ih (by omega), hlen]
    rfl

/-- The last word of its argument makes an option look like the name. -/
def DoubledLast (o : Word) (x : Opt) : Prop :=
  match x.subs with
  | [] => False
  | y :: ys => Doubled o (lastWord y ys)

instance (o : Word) (x : Opt) : Decidable (DoubledLast o x) := by
  unfold DoubledLast
  split <;> exact inferInstance

/-- What the search for an option finds in a list of options. -/
def caught (o : Word) : Nat → List Opt → Option (Nat × List UInt8)
  | _, [] => none
  | pos, x :: xs =>
    let rest := following 59 Opt.text xs
    if x.name = o ∨ Doubled o x.name then
      some (pos + x.name.bytes.length - o.bytes.length, o.bytes ++ (x.argText ++ rest))
    else if DoubledLast o x then some (pos + x.text.length - o.bytes.length, o.bytes ++ rest)
    else caught o (pos + x.text.length + 1) xs

theorem ends_following (xs : List Opt) : Ends 59 58 (following 59 Opt.text xs) := by
  cases xs with
  | nil => exact .inl rfl
  | cons x xs => exact .inr (.inl rfl)

theorem scanTop_opt {x : Opt} {rest : List UInt8} {pos : Nat} (hne : o.bytes ≠ [])
    (hrest : Breaks Sep rest) (hends : Ends 59 58 rest) (hpos : pos + x.text.length ≤ maxlen) :
    scan o.bytes 59 58 maxlen true pos (x.text ++ rest) =
      if x.name = o ∨ Doubled o x.name then
        some (some (pos + x.name.bytes.length - o.bytes.length, o.bytes ++ (x.argText ++ rest)))
      else if DoubledLast o x then some (some (pos + x.text.length - o.bytes.length, o.bytes ++ rest))
      else past o.bytes 59 58 maxlen (pos + x.text.length) rest := by
  have h59 : Sep 59 := .inr (.inl rfl)
  have h58 : Sep 58 := .inr (.inr (.inl rfl))
  obtain ⟨name, subs⟩ := x
  cases subs with
  | nil =>
    have htext : Opt.text ⟨name, []⟩ = name.bytes := append_nil _
    have harg : Opt.argText ⟨name, []⟩ = [] := rfl
    have hlast : ¬DoubledLast o ⟨name, []⟩ := fun h => h
    rw [htext] at hpos ⊢
    rw [harg, if_neg hlast, scan_token hne o.plain name.plain hrest h59 h58 hpos, nil_append]
    simp only [touches_lead hne, hends, and_true]
  | cons y ys =>
    have htext : Opt.text ⟨name, y :: ys⟩ = name.bytes ++ 58 :: joined 44 Sub.text (y :: ys) := rfl
    have harg : Opt.argText ⟨name, y :: ys⟩ = 58 :: joined 44 Sub.text (y :: ys) := rfl
    have hbreak : Breaks Sep (58 :: joined 44 Sub.text (y :: ys) ++ rest) := breaks_cons h58
    have hends' : Ends 59 58 (58 :: joined 44 Sub.text (y :: ys) ++ rest) := .inr (.inr rfl)
    have hfalse : decide ((58 : UInt8) = 59) = false := rfl
    have hlast : DoubledLast o ⟨name, y :: ys⟩ ↔ Doubled o (lastWord y ys) := Iff.rfl
    have hlen := length_joint pos name.bytes (joined 44 Sub.text (y :: ys)) 58
    rw [htext, length_append, length_cons] at hpos
    rw [htext, harg, append_assoc, scan_token hne o.plain name.plain hbreak h59 h58 (by omega)]
    simp only [touches_lead hne, hends', and_true]
    by_cases hname : name = o ∨ Doubled o name
    · rw [if_pos hname, if_pos hname]
    · rw [if_neg hname, if_neg hname, cons_append, past, hfalse, scanTop_subs hne hrest (by omega), hlen]
      simp only [hends, and_true, hlast]

theorem scanTop_opts {x : Opt} {xs : List Opt} {pos : Nat} (hne : o.bytes ≠ [])
    (hpos : pos + (joined 59 Opt.text (x :: xs)).length ≤ maxlen) :
    scan o.bytes 59 58 maxlen true pos (joined 59 Opt.text (x :: xs)) = some (caught o pos (x :: xs)) := by
  induction xs generalizing x pos with
  | nil =>
    have hnil : Breaks Sep ([] : List UInt8) := fun c hc => by cases hc
    have htext : joined 59 Opt.text [x] = x.text ++ [] := rfl
    rw [htext, append_nil] at hpos
    rw [htext, scanTop_opt hne hnil (.inl rfl) hpos]
    simp only [caught, following, flatMap_nil, past]
    split
    · rfl
    · split
      · rfl
      · rfl
  | cons y ys ih =>
    have htext : joined 59 Opt.text (x :: y :: ys) = x.text ++ following 59 Opt.text (y :: ys) := rfl
    have hbreak : Breaks Sep (following 59 Opt.text (y :: ys)) := breaks_cons (by decide)
    have hcons := following_cons 59 Opt.text y ys
    rw [htext, length_append, hcons, length_cons] at hpos
    rw [htext, scanTop_opt hne hbreak (ends_following _) (by omega), caught]
    split
    · rfl
    · split
      · rfl
      · have htrue : decide ((59 : UInt8) = 59) = true := rfl
        rw [hcons, past, htrue, ih (by omega)]

theorem hwconfigNext_config (cfg : Config) (o : Word) :
    hwconfigNext cfg.text.length o.bytes 59 58 (cfg.text.length + 1) 0 cfg.text =
      if o.bytes = [] ∧ cfg.options.head?.map Opt.name ≠ some o then none
      else some (caught o 0 cfg.options) := by
  obtain ⟨options, hne⟩ := cfg
  obtain ⟨x, xs, rfl⟩ := exists_cons_of_ne_nil hne
  rw [hwconfigNext_eq_scan]
  by_cases ho : o.bytes = []
  · have htext : joined 59 Opt.text (x :: xs) = x.name.bytes ++ (x.argText ++ following 59 Opt.text xs) :=
      append_assoc _ _ _
    have hrest : Ends 59 58 (x.argText ++ following 59 Opt.text xs) := by
      unfold Opt.argText
      split
      · exact ends_following xs
      · exact .inr (.inr rfl)
    have hword : x.name.bytes = [] ↔ x.name = o := by
      rw [← ho]
      exact ⟨Word.ext, fun h => by rw [h]⟩
    have hends : Ends 59 58 (joined 59 Opt.text (x :: xs)) ↔ x.name = o := by
      rw [htext, ends_token x.name.plain (by decide) (by decide), and_iff_left hrest, hword]
    unfold scan
    rw [ho, scan_empty (Nat.zero_le _)]
    simp only [Config.text, hends, List.head?_cons, Option.map_some, ne_eq, Option.some.injEq, true_and,
      Nat.succ_ne_zero, not_false_eq_true, and_true]
    by_cases hx : x.name = o
    · have hname := hword.mpr hx
      rw [if_pos hx, if_neg (not_not_intro hx), caught, if_pos (.inl hx), htext, hname, ho]
      rfl
    · rw [if_neg hx, if_pos hx]
  · rw [if_neg (fun h => ho h.1)]
    exact scanTop_opts ho (le_of_eq (zero_add _))

end Top

section Within

variable {s : Word} {maxlen : Nat}

def DoubledValue (s : Word) (x : Sub) : Prop := ∃ v ∈ x.value, Doubled s v

instance (s : Word) (x : Sub) : Decidable (DoubledValue s x) := by
  unfold DoubledValue
  exact inferInstance

/-- What the search for a sub-option finds in an argument with `tail` behind it. -/
def caughtSub (s : Word) (tail : List UInt8) : Nat → List Sub → Option (Nat × List UInt8)
  | _, [] => none
  | pos, x :: xs =>
    let rest := following 44 Sub.text xs ++ tail
    if (x.name = s ∨ Doubled s x.name) ∧ Ends 44 61 (x.valueText ++ rest) then
      some (pos + x.name.bytes.length - s.bytes.length, s.bytes ++ (x.valueText ++ rest))
    else if DoubledValue s x ∧ Ends 44 61 rest then
      some (pos + x.text.length - s.bytes.length, s.bytes ++ rest)
    else caughtSub s tail (pos + x.text.length + 1) xs

theorem scanSub_one {x : Sub} {rest : List UInt8} {pos : Nat} (hne : s.bytes ≠ []) (hrest : Breaks Sep rest)
    (hpos : pos + x.text.length ≤ maxlen) :
    scan s.bytes 44 61 maxlen true pos (x.text ++ rest) =
      if (x.name = s ∨ Doubled s x.name) ∧ Ends 44 61 (x.valueText ++ rest) then
        some (some (pos + x.name.bytes.length - s.bytes.length, s.bytes ++ (x.valueText ++ rest)))
      else if DoubledValue s x ∧ Ends 44 61 rest then
        some (some (pos + x.text.length - s.bytes.length, s.bytes ++ rest))
      else past s.bytes 44 61 maxlen (pos + x.text.length) rest := by
  have h44 : Sep 44 := by decide
  have h61 : Sep 61 := by decide
  obtain ⟨name, value⟩ := x
  cases value with
  | none =>
    have htext : Sub.text ⟨name, none⟩ = name.bytes := append_nil _
    have hvalue : Sub.valueText ⟨name, none⟩ = [] := rfl
    have hno : ¬(DoubledValue s ⟨name, none⟩ ∧ Ends 44 61 rest) := by
      rintro ⟨⟨v, hv, _⟩, _⟩
      cases hv
    rw [htext] at hpos ⊢
    rw [hvalue, nil_append, if_neg hno, scan_token hne s.plain name.plain hrest h44 h61 hpos]
    simp only [touches_lead hne]
  | some v =>
    have htext : Sub.text ⟨name, some v⟩ = name.bytes ++ 61 :: v.bytes := rfl
    have hvalue : Sub.valueText ⟨name, some v⟩ = 61 :: v.bytes := rfl
    have hbreak : Breaks Sep (61 :: v.bytes ++ rest) := breaks_cons h61
    have hends : Ends 44 61 (61 :: v.bytes ++ rest) := .inr (.inr rfl)
    have hdoubled : DoubledValue s ⟨name, some v⟩ ↔ touches s.bytes 0 false v.bytes = true := by
      unfold DoubledValue Doubled
      simp
    have hfalse : decide ((61 : UInt8) = 44) = false := rfl
    have hlen := length_joint pos name.bytes v.bytes 61
    rw [htext, length_append, length_cons] at hpos
    rw [htext, hvalue, append_assoc, scan_token hne s.plain name.plain hbreak h44 h61 (by omega)]
    simp only [touches_lead hne, hends, and_true, hdoubled]
    by_cases hname : name = s ∨ Doubled s name
    · rw [if_pos hname, if_pos hname]
    · rw [if_neg hname, if_neg hname, cons_append, past, hfalse,
        scan_token hne s.plain v.plain hrest h44 h61 (by omega), hlen]

/-- The argument ends with the text, or the next option follows. -/
def ArgEnd (tail : List UInt8) : Prop := tail = [] ∨ tail.head? = some 59

theorem ArgEnd.breaks {tail : List UInt8} (h : ArgEnd tail) : Breaks Sep tail := by
  rintro c hc
  rcases h with rfl | h
  · cases hc
  · obtain rfl := Option.some.inj (h.symm.trans hc)
    decide

theorem scanSub_subs {x : Sub} {xs : List Sub} {tail : List UInt8} {pos : Nat} (hne : s.bytes ≠ [])
    (htail : ArgEnd tail) (hpos : pos + (joined 44 Sub.text (x :: xs)).length = maxlen) :
    scan s.bytes 44 61 maxlen true pos (joined 44 Sub.text (x :: xs) ++ tail) =
      some (caughtSub s tail pos (x :: xs)) := by
  induction xs generalizing x pos with
  | nil =>
    have htext : joined 44 Sub.text [x] = x.text := append_nil _
    have hpast : past s.bytes 44 61 maxlen (pos + x.text.length) tail = some none := by
      cases tail with
      | nil => rfl
      | cons c tail =>
        rw [htext] at hpos
        exact scan_beyond (by omega)
    have hfollow : following 44 Sub.text [] ++ tail = tail := rfl
    rw [htext] at hpos ⊢
    rw [scanSub_one hne htail.breaks (by omega), hpast, caughtSub, hfollow]
    split
    · rfl
    · split
      · rfl
      · rfl
  | cons y ys ih =>
    have htext : joined 44 Sub.text (x :: y :: ys) = x.text ++ following 44 Sub.text (y :: ys) := rfl
    have hbreak : Breaks Sep (following 44 Sub.text (y :: ys) ++ tail) := breaks_cons (by decide)
    have hcons := following_cons 44 Sub.text y ys
    rw [htext, length_append, hcons, length_cons] at hpos
    rw [htext, append_assoc, scanSub_one hne hbreak (by omega), caughtSub]
    split
    · rfl
    · split
      · rfl
      · have htrue : decide ((44 : UInt8) = 44) = true := rfl
        rw [hcons, cons_append, past, htrue, ih (by omega)]

theorem hwconfigNext_arg (x : Sub) (xs : List Sub) {tail : List UInt8} (htail : ArgEnd tail) (s : Word) :
    hwconfigNext (joined 44 Sub.text (x :: xs)).length s.bytes 44 61
        ((joined 44 Sub.text (x :: xs) ++ tail).length + 1) 0 (joined 44 Sub.text (x :: xs) ++ tail) =
      if s.bytes = [] ∧ ¬(x.name = s ∧ Ends 44 61 (x.valueText ++ (following 44 Sub.text xs ++ tail))) then none
      else some (caughtSub s tail 0 (x :: xs)) := by
  rw [hwconfigNext_eq_scan]
  by_cases hs : s.bytes = []
  · have htext : joined 44 Sub.text (x :: xs) ++ tail =
        x.name.bytes ++ (x.valueText ++ (following 44 Sub.text xs ++ tail)) := by
      simp only [joined, Sub.text, append_assoc]
    have hword : x.name.bytes = [] ↔ x.name = s := by
      rw [← hs]
      exact ⟨Word.ext, fun h => by rw [h]⟩
    have hends : Ends 44 61 (joined 44 Sub.text (x :: xs) ++ tail) ↔
        x.name = s ∧ Ends 44 61 (x.valueText ++ (following 44 Sub.text xs ++ tail)) := by
      rw [htext, ends_token x.name.plain (by decide) (by decide), hword]
    unfold scan
    rw [hs, scan_empty (Nat.zero_le _)]
    simp only [hends, ne_eq, true_and, Nat.succ_ne_zero, not_false_eq_true, and_true]
    by_cases hx : x.name = s ∧ Ends 44 61 (x.valueText ++ (following 44 Sub.text xs ++ tail))
    · have hname := hword.mpr hx.1
      rw [if_pos hx, if_neg (not_not_intro hx), caughtSub, if_pos ⟨.inl hx.1, hx.2⟩, htext, hname, hs]
      rfl
    · rw [if_neg hx, if_pos hx]
  · rw [if_neg (fun h => hs h.1)]
    exact scanSub_subs hs htail (zero_add _)

end Within

end UBoot.Hwconfig
