import Mathlib.Data.List.Basic
import Mathlib.Data.List.Infix

namespace TextScan

open List

variable {α : Type}

/-- A text of entries, and a pattern without the characters between them. -/
structure Plain (sep : α → Prop) (text : List α) : Prop where
  plain : ∀ c ∈ text, ¬sep c

def Breaks (sep : α → Prop) (rest : List α) : Prop := ∀ c, rest.head? = some c → sep c

variable {sep : α → Prop} {pat text : List α}

theorem Plain.of_cons {x : α} (h : Plain sep (x :: text)) : ¬sep x ∧ Plain sep text :=
  ⟨h.plain x mem_cons_self, ⟨fun c hc => h.plain c (mem_cons_of_mem x hc)⟩⟩

theorem Plain.of_append {t : List α} (h : Plain sep (t ++ text)) : Plain sep text :=
  ⟨fun c hc => h.plain c (mem_append_right t hc)⟩

theorem prefix_token {t rest : List α} (hpat : Plain sep pat) (hrest : Breaks sep rest)
    (h : pat <+: t ++ rest) : pat <+: t := by
  induction t generalizing pat with
  | nil =>
    cases pat with
    | nil => exact nil_prefix
    | cons x pat =>
      obtain ⟨tail, he⟩ := h
      have hsep := hrest x (by rw [← nil_append rest, ← he]; rfl)
      exact absurd hsep hpat.of_cons.1
  | cons y t ih =>
    cases pat with
    | nil => exact nil_prefix
    | cons x pat =>
      obtain ⟨rfl, htail⟩ := cons_prefix_cons.mp h
      exact cons_prefix_cons.mpr ⟨rfl, ih hpat.of_cons.2 htail⟩

variable [DecidableEq α]

/-- Where the first occurrence of `pat` begins. -/
def find (pat : List α) : List α → Option Nat
  | [] => if pat = [] then some 0 else none
  | x :: text => if pat.isPrefixOf (x :: text) then some 0 else (find pat text).map (· + 1)

def Ends (stop eq : α) (rest : List α) : Prop :=
  rest = [] ∨ rest.head? = some stop ∨ rest.head? = some eq

instance (stop eq : α) (rest : List α) : Decidable (Ends stop eq rest) :=
  inferInstanceAs (Decidable (_ ∨ _ ∨ _))

/-- Whether an occurrence at `k` stands at the start of an entry, `lead` where `k` is 0. -/
def Leads (stop : α) (lead : Bool) (text : List α) : Nat → Prop
  | 0 => lead = true
  | k + 1 => text[k]? = some stop

instance (stop : α) (lead : Bool) (text : List α) (k : Nat) : Decidable (Leads stop lead text k) := by
  unfold Leads
  cases k <;> exact inferInstance

/-- The search up to `maxlen`: nothing where it does not return, else the usable occurrence. -/
def seek (pat : List α) (stop eq : α) (maxlen : Nat) : Nat → Bool → Nat → List α → Option (Option (Nat × List α))
  | 0, _, _, _ => none
  | fuel + 1, lead, pos, text =>
    match find pat text with
    | none => some none
    | some k =>
      let rest := text.drop (k + pat.length)
      if maxlen < pos + k + pat.length then some none
      else if Leads stop lead text k ∧ Ends stop eq rest then some (some (pos + k, text.drop k))
      else seek pat stop eq maxlen fuel true (pos + k + pat.length) rest

/-- Cut at its leftmost occurrences of `pat`, one behind the other, the text ends in one that begins
where another ends, or at the start if `lead`. The first `skip` characters are passed over. -/
def touches (pat : List α) : Nat → Bool → List α → Bool
  | _, _, [] => false
  | skip + 1, _, _ :: text => touches pat skip true text
  | 0, lead, x :: text =>
    if pat.isPrefixOf (x :: text) then
      (lead && decide (x :: text = pat)) || touches pat (pat.length - 1) true text
    else touches pat 0 false text

variable {stop eq : α} {maxlen : Nat}

theorem find_at_start (h : pat.isPrefixOf text = true) : find pat text = some 0 := by
  cases text with
  | nil =>
    have hnil : pat = [] := prefix_nil.mp (List.isPrefixOf_iff_prefix.mp h)
    rw [find, if_pos hnil]
  | cons x text => rw [find, if_pos h]

theorem find_cons {x : α} (h : ¬pat.isPrefixOf (x :: text) = true) :
    find pat (x :: text) = (find pat text).map (· + 1) := by
  rw [find, if_neg h]

theorem find_eq_some {k : Nat} (h : find pat text = some k) :
    pat.isPrefixOf (text.drop k) = true ∧ k + pat.length ≤ text.length := by
  induction text generalizing k with
  | nil =>
    unfold find at h
    split at h
    next hnil =>
      cases h
      rw [hnil]
      exact ⟨rfl, le_refl 0⟩
    · cases h
  | cons x text ih =>
    unfold find at h
    split at h
    next hp =>
      cases h
      have hlen := (List.isPrefixOf_iff_prefix.mp hp).length_le
      exact ⟨hp, by omega⟩
    · obtain ⟨j, hj, rfl⟩ := Option.map_eq_some_iff.mp h
      obtain ⟨hp, hlen⟩ := ih hj
      rw [drop_succ_cons, length_cons]
      exact ⟨hp, by omega⟩

theorem seek_fuel {fuel fuel' : Nat} {lead : Bool} {pos : Nat} (hpat : pat ≠ []) (h : text.length < fuel)
    (h' : text.length < fuel') :
    seek pat stop eq maxlen fuel lead pos text = seek pat stop eq maxlen fuel' lead pos text := by
  induction fuel generalizing fuel' lead pos text with
  | zero => omega
  | succ fuel ih =>
    obtain ⟨n, rfl⟩ : ∃ n, fuel' = n + 1 := ⟨fuel' - 1, by omega⟩
    unfold seek
    cases hk : find pat text with
    | none => rfl
    | some k =>
      have hlen := (find_eq_some hk).2
      have hpos := length_pos_iff.mpr hpat
      dsimp only
      split
      · rfl
      · split
        · rfl
        · apply ih
          · rw [length_drop]
            omega
          · rw [length_drop]
            omega

/-- The search with fuel enough for the text. -/
def scan (pat : List α) (stop eq : α) (maxlen : Nat) (lead : Bool) (pos : Nat) (text : List α) :
    Option (Option (Nat × List α)) :=
  seek pat stop eq maxlen (text.length + 1) lead pos text

theorem scan_nil (hpat : pat ≠ []) (lead : Bool) (pos : Nat) :
    scan pat stop eq maxlen lead pos [] = some none := by
  unfold scan seek find
  rw [if_neg hpat]

theorem scan_at_start (hpat : pat ≠ []) (lead : Bool) (pos : Nat) (rest : List α) :
    scan pat stop eq maxlen lead pos (pat ++ rest) =
      if maxlen < pos + pat.length then some none
      else if lead = true ∧ Ends stop eq rest then some (some (pos, pat ++ rest))
      else scan pat stop eq maxlen true (pos + pat.length) rest := by
  have hp : pat.isPrefixOf (pat ++ rest) = true := isPrefixOf_iff_prefix.mpr (prefix_append _ _)
  have hpos := length_pos_iff.mpr hpat
  have hfuel : seek pat stop eq maxlen (pat ++ rest).length true (pos + pat.length) rest =
      scan pat stop eq maxlen true (pos + pat.length) rest := by
    apply seek_fuel hpat
    · rw [length_append]
      omega
    · exact Nat.lt_succ_self _
  unfold scan at hfuel ⊢
  unfold seek
  rw [find_at_start hp]
  simp only [Nat.zero_add, Nat.add_zero, drop_left, drop_zero, Leads, hfuel]
  rfl

theorem scan_cons {x : α} (hpat : pat ≠ []) (h : ¬pat.isPrefixOf (x :: text) = true) (lead : Bool)
    (pos : Nat) :
    scan pat stop eq maxlen lead pos (x :: text) =
      scan pat stop eq maxlen (decide (x = stop)) (pos + 1) text := by
  have hfuel : scan pat stop eq maxlen (decide (x = stop)) (pos + 1) text =
      seek pat stop eq maxlen ((x :: text).length + 1) (decide (x = stop)) (pos + 1) text :=
    seek_fuel hpat (Nat.lt_succ_self _) (by
      rw [length_cons]
      omega)
  rw [hfuel]
  unfold scan
  rw [seek, seek, find_cons h]
  cases hk : find pat text with
  | none => rfl
  | some k =>
    have hlead : Leads stop lead (x :: text) (k + 1) ↔ Leads stop (decide (x = stop)) text k := by
      cases k with
      | zero => simp [Leads]
      | succ k => simp [Leads]
    have hdrop : (x :: text).drop (k + 1 + pat.length) = text.drop (k + pat.length) := by
      rw [Nat.add_right_comm, drop_succ_cons]
    have hpos : pos + (k + 1) = pos + 1 + k := by omega
    simp only [Option.map_some, hdrop, hpos, hlead, drop_succ_cons]

theorem touches_skip (pat : List α) (k : Nat) (text : List α) :
    touches pat k true text = touches pat 0 true (text.drop k) := by
  induction k generalizing text with
  | zero => rfl
  | succ k ih =>
    cases text with
    | nil => rfl
    | cons x text =>
      rw [touches, drop_succ_cons]
      exact ih text

theorem touches_at_start (hpat : pat ≠ []) (lead : Bool) (rest : List α) :
    touches pat 0 lead (pat ++ rest) = ((lead && decide (rest = [])) || touches pat 0 true rest) := by
  obtain ⟨x, tail, rfl⟩ := exists_cons_of_ne_nil hpat
  have hp : (x :: tail).isPrefixOf (x :: tail ++ rest) = true :=
    isPrefixOf_iff_prefix.mpr (prefix_append _ _)
  have hself : x :: tail ++ rest = x :: tail ↔ rest = [] := append_right_eq_self
  have hskip : touches (x :: tail) ((x :: tail).length - 1) true (tail ++ rest) =
      touches (x :: tail) 0 true rest := by
    rw [touches_skip, length_cons, Nat.add_sub_cancel, drop_left]
  rw [cons_append] at hp hself ⊢
  rw [touches, if_pos hp, hskip]
  simp only [hself]

theorem touches_cons {x : α} (h : ¬pat.isPrefixOf (x :: text) = true) (lead : Bool) :
    touches pat 0 lead (x :: text) = touches pat 0 false text := by
  rw [touches, if_neg h]

theorem touches_true (hpat : pat ≠ []) (text : List α) :
    touches pat 0 true text = (decide (text = pat) || touches pat 0 false text) := by
  by_cases hp : pat <+: text
  · obtain ⟨rest, rfl⟩ := hp
    rw [touches_at_start hpat, touches_at_start hpat]
    simp
  · cases text with
    | nil => simp [touches, Ne.symm hpat]
    | cons x text =>
      have hno : ¬pat.isPrefixOf (x :: text) = true := fun h => hp (List.isPrefixOf_iff_prefix.mp h)
      have hne : x :: text ≠ pat := fun he => hp (he ▸ prefix_rfl)
      rw [touches_cons hno, touches_cons hno, decide_eq_false hne, Bool.false_or]

/-- The search behind an entry. -/
def past (pat : List α) (stop eq : α) (maxlen pos : Nat) : List α → Option (Option (Nat × List α))
  | [] => some none
  | c :: rest => scan pat stop eq maxlen (decide (c = stop)) (pos + 1) rest

theorem scan_eq_past {rest : List α} (hne : pat ≠ []) (hpat : Plain sep pat) (hrest : Breaks sep rest)
    (lead : Bool) (pos : Nat) :
    scan pat stop eq maxlen lead pos rest = past pat stop eq maxlen pos rest := by
  cases rest with
  | nil => exact scan_nil hne lead pos
  | cons c rest =>
    apply scan_cons hne
    intro hp
    have hnil := prefix_token (t := []) hpat hrest (List.isPrefixOf_iff_prefix.mp hp)
    exact hne (prefix_nil.mp hnil)

omit [DecidableEq α] in
theorem ends_token {t rest : List α} (ht : Plain sep t) (hstop : sep stop) (heq : sep eq) :
    Ends stop eq (t ++ rest) ↔ t = [] ∧ Ends stop eq rest := by
  cases t with
  | nil => simp
  | cons x t =>
    have hx := ht.of_cons.1
    have hx₁ : x ≠ stop := fun he => hx (he ▸ hstop)
    have hx₂ : x ≠ eq := fun he => hx (he ▸ heq)
    simp [Ends, hx₁, hx₂]

theorem scan_token {t rest : List α} {lead : Bool} {pos : Nat} (hne : pat ≠ []) (hpat : Plain sep pat)
    (ht : Plain sep t) (hrest : Breaks sep rest) (hstop : sep stop) (heq : sep eq)
    (hpos : pos + t.length ≤ maxlen) :
    scan pat stop eq maxlen lead pos (t ++ rest) =
      if touches pat 0 lead t = true ∧ Ends stop eq rest then
        some (some (pos + t.length - pat.length, pat ++ rest))
      else past pat stop eq maxlen (pos + t.length) rest := by
  induction hn : t.length using Nat.strong_induction_on generalizing t lead pos with
  | _ n ih =>
    subst hn
    by_cases hp : pat <+: t
    · obtain ⟨t', rfl⟩ := hp
      have ht' : Plain sep t' := ht.of_append
      have hlt : t'.length < (pat ++ t').length := by
        have := length_pos_iff.mpr hne
        rw [length_append]
        omega
      rw [length_append] at hpos
      have hstep : pos + pat.length + t'.length ≤ maxlen := by omega
      have hrec := @ih t'.length hlt t' true (pos + pat.length) ht' hstep rfl
      have hends := @ends_token α sep stop eq t' rest ht' hstop heq
      have hfit : ¬maxlen < pos + pat.length := by omega
      rw [append_assoc, scan_at_start hne, if_neg hfit, hrec, touches_at_start hne]
      simp only [hends, length_append]
      have hpos₁ : pos + pat.length + t'.length = pos + (pat.length + t'.length) := Nat.add_assoc _ _ _
      by_cases hnil : t' = []
      · subst hnil
        by_cases hend : Ends stop eq rest
        · cases lead with
          | true => simp [hend, touches]
          | false => simp [hend, touches]
        · simp [hend]
      · simp [hnil, hpos₁]
    · cases t with
      | nil =>
        have hno : ¬(touches pat 0 lead [] = true ∧ Ends stop eq rest) := fun h => by
          cases h.1
        rw [if_neg hno]
        exact scan_eq_past hne hpat hrest lead pos
      | cons x t =>
        obtain ⟨hx, ht'⟩ := ht.of_cons
        have hxstop : decide (x = stop) = false := decide_eq_false fun he => hx (he ▸ hstop)
        have hno : ¬pat.isPrefixOf (x :: t) = true := fun h => hp (List.isPrefixOf_iff_prefix.mp h)
        have hno' : ¬pat.isPrefixOf (x :: (t ++ rest)) = true := fun h =>
          hp (prefix_token (t := x :: t) hpat hrest (List.isPrefixOf_iff_prefix.mp h))
        rw [length_cons] at hpos
        have hstep : pos + 1 + t.length ≤ maxlen := by omega
        have hrec := @ih t.length (Nat.lt_succ_self _) t false (pos + 1) ht' hstep rfl
        have hpos₁ : pos + 1 + t.length = pos + (x :: t).length := by
          rw [length_cons]
          omega
        rw [cons_append, scan_cons hne hno', hxstop, hrec, touches_cons hno, hpos₁]

theorem scan_beyond {lead : Bool} {pos : Nat} (h : maxlen < pos + pat.length) :
    scan pat stop eq maxlen lead pos text = some none := by
  unfold scan seek
  cases find pat text with
  | none => rfl
  | some k =>
    have hfit : maxlen < pos + k + pat.length := by omega
    exact if_pos hfit

end TextScan
