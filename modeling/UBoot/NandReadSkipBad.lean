import UBoot.NandSkipBadLoop

namespace UBoot

open GoodSpace NandInfo

variable {σ : Type}

/-- `nand_read` by offset, length and place in the buffer, with its return code and the
length it reports. -/
abbrev NandRead (σ : Type) := Nat → Nat → Nat → σ → (Int × Nat) × σ

def EUCLEAN : Int := 117

/-- The loop of `nand_read_skip_bad`: its return code, `*length` and the device. -/
def readSkipFuel (n : NandInfo) (read : NandRead σ) (length : Nat) :
    Nat → Nat → Nat → Nat → σ → Option (Int × Nat × σ)
  | 0, _, _, _, _ => none
  | fuel + 1, offset, left, p, s =>
    if 0 < left then
      let blockLeft := n.erasesize - n.blockOffset offset
      if n.isbad (n.blockStart offset) then
        readSkipFuel n read length fuel (offset + blockLeft) left p s
      else
        let readLength := if left < blockLeft then left else blockLeft
        match read offset readLength p s with
        | ((rval, got), s) =>
          if rval ≠ 0 ∧ rval ≠ -EUCLEAN then some (rval, length - left, s)
          else readSkipFuel n read length fuel (offset + got) (left - got) (p + got) s
    else some (0, length, s)

def nandReadSkipBad (n : NandInfo) (read : NandRead σ) (fuel offset length : Nat) (s : σ) :
    Option (Int × Nat × σ) :=
  let lenInclBad := getLenInclBad n offset length
  if n.size < offset + lenInclBad then some (-EINVAL, length, s)
  else if lenInclBad = length then
    match read offset length 0 s with
    | ((rval, got), s) => some (if rval = 0 ∨ rval = -EUCLEAN then 0 else rval, got, s)
  else readSkipFuel n read length fuel offset length 0 s

/-- A read as the write loop takes it: corrected bit errors are no failure. -/
def accepting (read : NandRead σ) : NandWrite σ := fun ofs len p s =>
  match read ofs len p s with
  | ((rval, got), s) => ((if rval = -EUCLEAN then 0 else rval, got), s)

theorem accepting_rc (read : NandRead σ) (ofs len p : Nat) (s : σ) : (accepting read ofs len p s).1.1 =
      if (read ofs len p s).1.1 = -EUCLEAN then 0 else (read ofs len p s).1.1 := rfl

/-- Between commands the flags are 0. -/
structure NandInfo.Idle (n : NandInfo) : Prop where
  rwOob : n.rwOob = 0
  skipFb : n.skipFb = 0

theorem readSkipFuel_eq {n : NandInfo} (hn : n.Idle) (read : NandRead σ) (t f o l p : Nat) (s : σ) :
    readSkipFuel n read t f o l p s =
      (skipWriteFuel n (accepting read) t f o l p 0 s).map fun r => (r.rc, r.length, r.state) := by
  induction f generalizing o l p s with
  | zero => rfl
  | succ f ih =>
    have hp (m : Nat) : n.bufferStep m = m := by simp [bufferStep, hn.rwOob]
    rw [readSkipFuel, skipWriteFuel]
    split
    · simp only
      split
      · exact ih ..
      · rw [if_neg (by decide : ¬(0 : Nat) = 1)]
        generalize (if l < n.erasesize - n.blockOffset o then l else n.erasesize - n.blockOffset o) = m
        obtain ⟨rval, got, s', hr⟩ : ∃ rval got s', read o m p s = ((rval, got), s') := ⟨_, _, _, rfl⟩
        simp only [accepting, hr]
        by_cases he : rval = -EUCLEAN
        · simp only [he, ne_eq, not_true_eq_false, and_false, if_false, if_true, hp]
          exact ih ..
        · by_cases h0 : rval = 0
          · simp only [h0, ne_eq, not_true_eq_false, false_and, if_false, ite_self, hp]
            exact ih ..
          · simp only [he, h0, ne_eq, not_false_eq_true, and_self, if_true, if_false]
            rfl
    · rfl

theorem nandReadSkipBad_eq {n : NandInfo} (hn : n.Idle) (read : NandRead σ) (f o l : Nat) (s : σ) :
    nandReadSkipBad n read f o l s =
      (skipWrite n (accepting read) f o l s).map fun r => (r.rc, r.length, r.state) := by
  obtain ⟨rval, got, s', hr⟩ : ∃ rval got s', read o l 0 s = ((rval, got), s') := ⟨_, _, _, rfl⟩
  unfold nandReadSkipBad skipWrite
  simp only [hn.rwOob, hn.skipFb, and_true]
  split
  · rfl
  · split
    · have hrc : (if rval = 0 ∨ rval = -EUCLEAN then 0 else rval) =
          if rval = -EUCLEAN then 0 else rval := by
        split <;> split <;> omega
      simp only [accepting, hr, hrc]
      rfl
    · exact readSkipFuel_eq hn read ..

theorem skipWriteFuel_keeps {n : NandInfo} {write : NandWrite σ} {q : σ → Prop} {a e : Nat}
    (hlen : ∀ ofs len p s, (write ofs len p s).1.1 = 0 → (write ofs len p s).1.2 = len)
    (hcall : ∀ ofs len p s, a ≤ ofs → ofs + len ≤ e → q s → q (write ofs len p s).2)
    (hblock : n.erasesize ∣ e) (he : e ≤ n.size) {t f o l p : Nat} {s : σ} {r : SkipResult σ}
    (ha : a ≤ o) (hroom : l ≤ (goods n.good o e).length) (hs : q s)
    (h : skipWriteFuel n write t f o l p 0 s = some r) : q r.state := by
  induction f generalizing o l p s with
  | zero => cases h
  | succ f ih =>
    rcases Nat.eq_zero_or_pos l with rfl | hl
    · rw [skipWriteFuel_done (Nat.succ_pos f)] at h
      cases Option.some.inj h
      exact hs
    have ho : o < e := by
      by_contra hge
      rw [goods_empty (by omega)] at hroom
      exact Nat.not_lt_of_le hroom hl
    have hsize : o < n.size := by omega
    have hnext := next_le hblock ho
    have hlt := lt_next (n := n) o
    cases hg : n.good o with
    | false =>
      rw [skipWriteFuel_bad hl hsize hg] at h
      rw [goods_append hlt.le hnext, goods_block_bad hg] at hroom
      exact ih (by omega) hroom hs h
    | true =>
      obtain ⟨m, hm⟩ : ∃ m, m = min l (n.next o - o) := ⟨_, rfl⟩
      obtain ⟨rval, got, s', hw⟩ : ∃ rval got s', write o m p s = ((rval, got), s') := ⟨_, _, _, rfl⟩
      have hq : q s' := by
        have := hcall o m p s ha (by omega) hs
        rwa [hw] at this
      have hw' : write o (min l (n.next o - o)) p s = ((rval, got), s') := by rw [← hm, hw]
      rw [skipWriteFuel_write hl hsize hg (by decide) hw'] at h
      split at h
      · cases Option.some.inj h
        exact hq
      next hrc =>
        have hgot : got = m := by
          have := hlen o m p s
          rw [hw] at this
          exact this (not_not.mp hrc)
        rw [goods_append (by omega : o ≤ o + m) (by omega), goods_in_block hg (by omega),
          List.length_append, List.length_range'] at hroom
        rw [hgot] at h
        exact ih (o := o + m) (l := l - m) (by omega) (by omega) hq h

theorem skipWriteFuel_reaches {n : NandInfo} {write : NandWrite σ} {t f o l p : Nat} {s : σ}
    (hfail : ∀ ofs len p s, 0 < len → (write ofs len p s).1.1 ≠ 0) (hl : 0 < l) (hf : n.size < o + f)
    (hgood : goods n.good o n.size ≠ []) :
    ∃ r ofs len, skipWriteFuel n write t f o l p 0 s = some r ∧ 0 < len ∧ ofs + len ≤ n.size ∧
      r.state = (write ofs len p s).2 ∧ r.rc ≠ 0 := by
  induction f generalizing o with
  | zero =>
    rw [goods_empty (by omega)] at hgood
    exact absurd rfl hgood
  | succ f ih =>
    have ho : o < n.size := by
      by_contra hge
      rw [goods_empty (by omega)] at hgood
      exact hgood rfl
    have hlt := lt_next (n := n) o
    have hle := next_le_size ho
    cases hg : n.good o with
    | false =>
      rw [skipWriteFuel_bad hl ho hg]
      rw [goods_step ho, goods_block_bad hg, List.nil_append] at hgood
      exact ih (by omega) hgood
    | true =>
      obtain ⟨rval, got, s', hw⟩ : ∃ rval got s',
        write o (min l (n.next o - o)) p s = ((rval, got), s') := ⟨_, _, _, rfl⟩
      have hrc : rval ≠ 0 := by
        have := hfail o (min l (n.next o - o)) p s (by omega)
        rwa [hw] at this
      refine ⟨⟨rval, t - l, 0, s'⟩, o, min l (n.next o - o), ?_, by omega, by omega, by rw [hw], hrc⟩
      rw [skipWriteFuel_write hl ho hg (by decide) hw, if_pos hrc]

theorem skipWriteFuel_lost {n : NandInfo} {write : NandWrite σ} {q : σ → Prop} {t f o l p : Nat} {s : σ}
    {r : SkipResult σ}
    (hpast : ∀ ofs len p s, n.size < ofs + len → q s → (write ofs len p s).1.1 ≠ 0 ∧ q (write ofs len p s).2)
    (hl : 0 < l) (hgood : goods n.good o n.size = []) (hs : q s)
    (h : skipWriteFuel n write t f o l p 0 s = some r) : r.rc ≠ 0 ∧ q r.state := by
  induction f generalizing o with
  | zero => cases h
  | succ f ih =>
    by_cases ho : o < n.size
    · have hg : n.good o = false := by
        rw [← Bool.not_eq_true]
        intro hg
        have : o ∈ goods n.good o n.size := mem_goods.mpr ⟨le_refl o, ho, hg⟩
        rw [hgood] at this
        cases this
      rw [skipWriteFuel_bad hl ho hg] at h
      rw [goods_step ho, goods_block_bad hg, List.nil_append] at hgood
      exact ih hgood h
    · have hstep := n.blockOffset_lt o
      rw [skipWriteFuel, if_pos hl] at h
      simp only at h
      split at h
      · exact ih (goods_empty (by omega)) h
      · rw [if_neg (by decide)] at h
        obtain ⟨m, hm⟩ : ∃ m, m = if l < n.erasesize - n.blockOffset o then l
          else n.erasesize - n.blockOffset o := ⟨_, rfl⟩
        have hmpos : 0 < m := by
          rw [hm]
          split <;> omega
        rw [← hm] at h
        obtain ⟨rval, got, s', hw⟩ : ∃ rval got s', write o m p s = ((rval, got), s') := ⟨_, _, _, rfl⟩
        obtain ⟨hrc, hq⟩ := hpast o m p s (by omega) hs
        rw [hw] at hrc hq h
        simp only at h
        rw [if_pos hrc] at h
        cases Option.some.inj h
        exact ⟨hrc, hq⟩

theorem skipWriteFuel_rule {n : NandInfo} {write : NandWrite σ} {q : Nat → Nat → Nat → σ → σ → Prop}
    {t f o l p : Nat} {s : σ} {r : SkipResult σ}
    (hwhole : ∀ ofs len p s, (write ofs len p s).1.1 = 0 → (write ofs len p s).1.2 = len)
    (hinside : ∀ ofs len p s, (write ofs len p s).1.1 = 0 → ofs + len ≤ n.size)
    (hdone : ∀ o p s, q o 0 p s s)
    (hskip : ∀ o l p s s', o < n.size → n.good o = false → q (n.next o) l p s s' → q o l p s s')
    (hcall : ∀ o k l p s s', n.good o = true → o + k ≤ n.next o → o + k ≤ n.size → k ≤ l →
      (write o k p s).1.1 = 0 → q (o + k) (l - k) (p + n.bufferStep k) (write o k p s).2 s' → q o l p s s')
    (h : skipWriteFuel n write t f o l p 0 s = some r) (hrc : r.rc = 0) : q o l p s r.state := by
  induction f generalizing o l p s with
  | zero => cases h
  | succ f ih =>
    rcases Nat.eq_zero_or_pos l with rfl | hl
    · rw [skipWriteFuel_done (Nat.succ_pos f)] at h
      cases Option.some.inj h
      exact hdone ..
    by_cases ho : o < n.size
    case neg =>
      -- past the end nothing succeeds
      have hlost := skipWriteFuel_lost (q := fun _ => True) (o := o) (l := l)
        (fun ofs len p s h _ => ⟨fun h0 => Nat.not_lt_of_le (hinside ofs len p s h0) h, trivial⟩) hl
        (goods_empty (by omega)) trivial h
      exact absurd hrc hlost.1
    have hlt := lt_next (n := n) o
    have hle := next_le_size ho
    cases hg : n.good o with
    | false =>
      rw [skipWriteFuel_bad hl ho hg] at h
      exact hskip _ _ _ _ _ ho hg (ih h)
    | true =>
      obtain ⟨k, hk⟩ : ∃ k, k = min l (n.next o - o) := ⟨_, rfl⟩
      obtain ⟨rval, got, s', hw⟩ : ∃ rval got s', write o k p s = ((rval, got), s') := ⟨_, _, _, rfl⟩
      have hw' : write o (min l (n.next o - o)) p s = ((rval, got), s') := by rw [← hk, hw]
      rw [skipWriteFuel_write hl ho hg (by decide) hw'] at h
      split at h
      · cases Option.some.inj h
        contradiction
      next h0 =>
        have hok : (write o k p s).1.1 = 0 := by rw [hw]; exact not_not.mp h0
        have hgot : got = k := by
          have := hwhole o k p s hok
          rwa [hw] at this
        rw [hgot] at h
        refine hcall o k l p s _ hg (by omega) (by omega) (by omega) hok ?_
        rw [hw]
        exact ih h

theorem skipWriteFuel_room {n : NandInfo} {write : NandWrite σ} {t f o l p : Nat} {s : σ}
    (hwhole : ∀ ofs len p s, (write ofs len p s).1.1 = 0 → (write ofs len p s).1.2 = len)
    (hf : n.size < o + f) (ho : o ≤ n.size) (hroom : l ≤ (goods n.good o n.size).length) :
    ∃ r, skipWriteFuel n write t f o l p 0 s = some r ∧
      ((∀ ofs len p s, ofs + len ≤ n.size → (write ofs len p s).1.1 = 0) → r.rc = 0) := by
  induction f generalizing o l p s with
  | zero => omega
  | succ f ih =>
    rcases Nat.eq_zero_or_pos l with rfl | hl
    · exact ⟨_, skipWriteFuel_done (Nat.succ_pos f), fun _ => rfl⟩
    have hin : o < n.size := by
      by_contra hge
      rw [goods_empty (by omega)] at hroom
      exact Nat.not_lt_of_le hroom hl
    have hlt := lt_next (n := n) o
    have hle := next_le_size hin
    cases hg : n.good o with
    | false =>
      rw [goods_step hin, goods_block_bad hg, List.nil_append] at hroom
      rw [skipWriteFuel_bad hl hin hg]
      exact ih (by omega) hle hroom
    | true =>
      obtain ⟨k, hk⟩ : ∃ k, k = min l (n.next o - o) := ⟨_, rfl⟩
      obtain ⟨rval, got, s', hw⟩ : ∃ rval got s', write o k p s = ((rval, got), s') := ⟨_, _, _, rfl⟩
      have hw' : write o (min l (n.next o - o)) p s = ((rval, got), s') := by rw [← hk, hw]
      rw [skipWriteFuel_write hl hin hg (by decide) hw']
      split
      next hne =>
        refine ⟨_, rfl, fun hok => absurd ?_ hne⟩
        have := hok o k p s (by omega)
        rwa [hw] at this
      next h0 =>
        have hgot : got = k := by
          have hlen := hwhole o k p s (by rw [hw]; exact not_not.mp h0)
          rwa [hw] at hlen
        rw [goods_append (by omega : o ≤ o + k) (by omega), goods_in_block hg (by omega), List.length_append,
          List.length_range'] at hroom
        rw [hgot]
        exact ih (by omega) (by omega) (by omega)

section Skip

variable {n : NandInfo} {write : NandWrite σ} {f o l : Nat} {s : σ}

theorem skipWrite_keeps {q : σ → Prop} {e : Nat} (hn : n.Idle)
    (hlen : ∀ ofs len p s, (write ofs len p s).1.1 = 0 → (write ofs len p s).1.2 = len)
    (hcall : ∀ ofs len p s, o ≤ ofs → ofs + len ≤ e → q s → q (write ofs len p s).2)
    (hblock : n.erasesize ∣ e) (he : e ≤ n.size) (ho : o ≤ e) (hroom : l ≤ (goods n.good o e).length)
    (hs : q s) {r : SkipResult σ} (h : skipWrite n write f o l s = some r) : q r.state := by
  unfold skipWrite at h
  simp only at h
  split at h
  · cases Option.some.inj h
    exact hs
  · split at h
    · cases Option.some.inj h
      have := goods_length_le n.good o e
      exact hcall o l 0 s (le_refl o) (by omega) hs
    · rw [hn.skipFb] at h
      exact skipWriteFuel_keeps hlen hcall hblock he (le_refl o) hroom hs h

theorem skipWrite_lost (hn : n.Idle) (ho : o < n.size) (hl : 0 < l) (hgood : goods n.good o n.size = [])
    (hend : o + l ≠ n.size)
    (hpast : ∀ ofs len p s, n.size < ofs + len → (write ofs len p s).1.1 ≠ 0 ∧ (write ofs len p s).2 = s)
    {r : SkipResult σ} (h : skipWrite n write f o l s = some r) : r.rc ≠ 0 ∧ r.state = s := by
  obtain ⟨o', hlen, h₁, h₂, -, h₄⟩ := getLenInclBad_spec (n := n) (l := l) ho
  have hsize : o' = n.size := by
    rcases h₄ with h₄ | h₄
    · have hnil : goods n.good o o' = [] := by
        rw [goods_append h₁ h₂] at hgood
        exact (List.append_eq_nil_iff.mp hgood).1
      rw [hnil] at h₄
      exact absurd h₄ (Nat.not_le_of_lt hl)
    · exact h₄
  unfold skipWrite at h
  simp only at h
  rw [if_neg (by omega), if_neg (by omega), hn.skipFb] at h
  refine skipWriteFuel_lost (q := fun s' => s' = s) (fun ofs len p s' hp hs => ?_) hl hgood rfl h
  obtain ⟨hrc, hsame⟩ := hpast ofs len p s' hp
  exact ⟨hrc, hsame.trans hs⟩

theorem skipWrite_reaches (hn : n.Idle) (ho : o < n.size) (hl : 0 < l)
    (hgood : goods n.good o n.size = [] → o + l = n.size)
    (hfail : ∀ ofs len p s, 0 < len → (write ofs len p s).1.1 ≠ 0) :
    ∃ f r ofs len, skipWrite n write f o l s = some r ∧ 0 < len ∧ ofs + len ≤ n.size ∧
      r.state = (write ofs len 0 s).2 := by
  obtain ⟨o', hlen, h₁, h₂, -, h₄⟩ := getLenInclBad_spec (n := n) (l := l) ho
  refine ⟨n.size + 1, ?_⟩
  unfold skipWrite
  simp only
  rw [if_neg (by omega)]
  by_cases hfast : getLenInclBad n o l = l ∧ n.rwOob = 0
  · rw [if_pos hfast]
    exact ⟨_, o, l, rfl, hl, by omega, rfl⟩
  · rw [if_neg hfast, hn.skipFb]
    have hsome : goods n.good o n.size ≠ [] := by
      intro hnil
      have hend := hgood hnil
      rw [goods_append h₁ h₂] at hnil
      rw [(List.append_eq_nil_iff.mp hnil).1, List.length_nil] at h₄
      exact hfast ⟨by omega, hn.rwOob⟩
    obtain ⟨r, ofs, len, hr, hpos, hin, hs, -⟩ := skipWriteFuel_reaches (n := n)
      (t := l) (f := n.size + 1) (p := 0) (s := s) hfail hl (by omega) hsome
    exact ⟨r, ofs, len, hr, hpos, hin, hs⟩

end Skip

end UBoot
