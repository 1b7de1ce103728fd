import UBoot.NandSkipBad

namespace UBoot

open GoodSpace List NandInfo

/-- A call of `nand_write`: where to, how much, from where in the buffer. -/
structure NandCall where
  ofs : Nat
  len : Nat
  p : Nat
deriving DecidableEq

/-- A device that keeps a log of its calls. `nand_write` refuses one that goes past the
end; it answers call `i` else with the code `(w i).1`, after `(w i).2` bytes if that is not 0. -/
def logWrite (n : NandInfo) (w : Nat → Int × Nat) : NandWrite (List NandCall) := fun ofs len p log =>
  if n.size < ofs + len then ((-EINVAL, len), log ++ [⟨ofs, len, p⟩])
  else (((w log.length).1, if (w log.length).1 = 0 then len else (w log.length).2), log ++ [⟨ofs, len, p⟩])

namespace NandInfo

variable (n : NandInfo)

/-- Where byte `i` of the data lies in a buffer of pages with their spare bytes. -/
def source (i : Nat) : Nat :=
  if n.rwOob = 1 then i / n.writesize * (n.writesize + n.oobsize) + i % n.writesize else i

def dataLen (length : Nat) : Nat :=
  if n.rwOob = 1 then length / (n.writesize + n.oobsize) * n.writesize else length

/-- The addresses that an image may take, in order: a `skip_fb` not yet served takes the
first good block away. -/
def room (skipFb offset : Nat) : List Nat :=
  match goods n.good offset n.size with
  | [] => []
  | a :: as => if skipFb = 1 then goods n.good (n.next a) n.size else a :: as

end NandInfo

namespace NandCall

variable (n : NandInfo) (c : NandCall)

def bytes : List (Nat × Nat) := (List.range c.len).map fun j => (c.ofs + j, c.p + n.source j)

/-- The call keeps to the device and to blocks that are not marked bad. -/
def Allowed : Prop :=
  c.ofs + c.len ≤ n.size ∧ ∀ a, c.ofs ≤ a → a < c.ofs + c.len → n.good a = true

end NandCall

/-- What `nand_write_skip_bad` is for. -/
structure SkipBadOk (n : NandInfo) (offset length : Nat) (r : SkipResult (List NandCall)) : Prop where
  allowed : ∀ c ∈ r.state, c.Allowed n
  fits : r.rc = 0 → n.dataLen length ≤ (n.room n.skipFb offset).length
  stored : r.rc = 0 → r.state.flatMap (·.bytes n) = ((n.room n.skipFb offset).take (n.dataLen length)).zip
      ((List.range (n.dataLen length)).map n.source)

variable {n : NandInfo} {k j o l f p b : Nat}

theorem source_add (hk : n.writesize ∣ k) (j : Nat) : n.source (k + j) = n.source k + n.source j := by
  obtain ⟨q, rfl⟩ := hk
  unfold source
  split
  · have hws : 0 < n.writesize := Nat.pos_of_dvd_of_pos n.wholePages n.erasable
    rw [Nat.mul_add_div hws, Nat.mul_add_mod, Nat.mul_div_cancel_left q hws, Nat.mul_mod_right, Nat.add_mul]
    omega
  · rfl

theorem bufferStep_eq (hj : n.writesize ∣ j) : n.bufferStep j = n.source j := by
  have hdiv := Nat.div_mul_cancel hj
  unfold bufferStep source
  rw [Nat.mul_add]
  split <;> omega

theorem source_zero : n.source 0 = 0 := by simp [source]

theorem bytes_eq (hk : n.writesize ∣ k) (hp : p = n.source k) :
    NandCall.bytes n ⟨o, l, p⟩ = (List.range' o l).zip ((List.range' k l).map n.source) := by
  apply ext_getElem
  · simp [NandCall.bytes]
  · intro i h₁ h₂
    simp [NandCall.bytes, hp, source_add hk]

theorem room_of_ne (hb : b ≠ 1) : n.room b o = goods n.good o n.size := by
  unfold room
  split
  next h => exact h.symm
  next h => rw [if_neg hb, h]

theorem room_bad (ho : o < n.size) (hg : n.good o = false) : n.room b o = n.room b (n.next o) := by
  unfold room
  rw [goods_step ho, goods_block_bad hg, nil_append]

theorem room_skip (ho : o < n.size) (hg : n.good o = true) : n.room 1 o = n.room 0 (n.next o) := by
  rw [room_of_ne (b := 0) (by decide)]
  have hcons : List.range' o (n.next o - o) = o :: List.range' (o + 1) (n.next o - o - 1) := by
    have := lt_next (n := n) o
    rw [show n.next o - o = (n.next o - o - 1) + 1 by omega, List.range'_succ]
    rfl
  unfold room
  rw [goods_step ho, goods_block_good hg, hcons, cons_append]
  rfl

theorem room_good (hb : b ≠ 1) (ho : o < n.size) (hg : n.good o = true) :
    n.room b o = List.range' o (n.next o - o) ++ n.room b (n.next o) := by
  rw [room_of_ne hb, room_of_ne hb, goods_step ho, goods_block_good hg]

theorem room_nil (ho : n.size ≤ o) : n.room b o = [] := by
  unfold room
  rw [goods_empty ho]

theorem room_take (hb : b ≠ 1) (ho : o < n.size) (hg : n.good o = true) {m : Nat}
    (hm : m = min l (n.next o - o)) :
    (n.room b o).take l = List.range' o m ++ (n.room b (o + m)).take (l - m) := by
  have hlt := lt_next (n := n) o
  rw [room_good hb ho hg]
  by_cases hl : l ≤ n.next o - o
  · rw [take_append_of_le_length (by rw [length_range']; exact hl), show m = l by omega,
      Nat.sub_self, take_zero, append_nil]
    exact take_range'_of_length_ge hl
  · rw [show m = n.next o - o by omega, show o + (n.next o - o) = n.next o by omega,
      take_append, length_range', take_of_length_le (by rw [length_range']; omega)]

variable {w : Nat → Int × Nat} {t : Nat} {log : List NandCall}

section Step

variable {σ : Type} {write : NandWrite σ} {s : σ}

theorem skipWriteFuel_done (hf : 0 < f) : skipWriteFuel n write t f o 0 p b s = some ⟨0, t, b, s⟩ := by
  obtain ⟨f, rfl⟩ := Nat.exists_eq_succ_of_ne_zero hf.ne'
  rw [skipWriteFuel, if_neg (lt_irrefl 0)]

theorem skipWriteFuel_bad (hl : 0 < l) (ho : o < n.size) (hg : n.good o = false) :
    skipWriteFuel n write t (f + 1) o l p b s = skipWriteFuel n write t f (n.next o) l p b s := by
  rw [skipWriteFuel, if_pos hl]
  simp only [isbad_blockStart ho, hg, Bool.not_false, if_true]
  rfl

theorem skipWriteFuel_skip (hl : 0 < l) (ho : o < n.size) (hg : n.good o = true) :
    skipWriteFuel n write t (f + 1) o l p 1 s = skipWriteFuel n write t f (n.next o) l p 0 s := by
  rw [skipWriteFuel, if_pos hl]
  simp only [isbad_blockStart ho, hg, Bool.not_true, if_false, if_true, Bool.false_eq_true]
  rfl

theorem skipWriteFuel_write (hl : 0 < l) (ho : o < n.size) (hg : n.good o = true) (hb : b ≠ 1)
    {rval : Int} {written : Nat} {s' : σ}
    (hw : write o (min l (n.next o - o)) p s = ((rval, written), s')) :
    skipWriteFuel n write t (f + 1) o l p b s =
      if rval ≠ 0 then some ⟨rval, t - l, b, s'⟩
      else skipWriteFuel n write t f (o + written) (l - written) (p + n.bufferStep written) b s' := by
  have hstep : n.erasesize - n.blockOffset o = n.next o - o := by unfold NandInfo.next; omega
  have hmin : (if l < n.next o - o then l else n.next o - o) = min l (n.next o - o) := by
    split <;> omega
  rw [skipWriteFuel, if_pos hl]
  simp only [isbad_blockStart ho, hg, Bool.not_true, Bool.false_eq_true, if_false, if_neg hb, hstep, hmin, hw]

end Step

theorem logWrite_inside (ho : o + l ≤ n.size) :
    logWrite n w o l p log = (((w log.length).1, if (w log.length).1 = 0 then l else (w log.length).2),
      log ++ [⟨o, l, p⟩]) := by rw [logWrite, if_neg (by omega)]

theorem logWrite_ok (ho : o + l ≤ n.size) (h : (w log.length).1 = 0) :
    logWrite n w o l p log = ((0, l), log ++ [⟨o, l, p⟩]) := by
  rw [logWrite_inside ho, if_pos h, h]

/-- What the loop adds to the log where there is room for the rest of the image. -/
structure Stores (n : NandInfo) (room : List Nat) (k l : Nat) (r : SkipResult (List NandCall))
    (log : List NandCall) : Prop where
  calls : ∃ new, r.state = log ++ new ∧ (∀ c ∈ new, c.Allowed n) ∧
    (r.rc = 0 → new.flatMap (·.bytes n) = (room.take l).zip ((List.range' k l).map n.source))

theorem block_allowed {m : Nat} (ho : o < n.size) (hg : n.good o = true) (hm : o + m ≤ n.next o) :
    NandCall.Allowed n ⟨o, m, p⟩ := by
  refine ⟨hm.trans (next_le_size ho), fun a h₁ h₂ => ?_⟩
  rw [good_of_block h₁ (lt_of_lt_of_le h₂ hm), hg]

theorem skipWriteFuel_stores (hf : n.size < o + f) (ho : o ≤ n.size) (hpage : n.writesize ∣ o)
    (hk : n.writesize ∣ k) (hl : n.writesize ∣ l) (hp : p = n.source k)
    (hroom : l ≤ (n.room b o).length) :
    ∃ r, skipWriteFuel n (logWrite n w) t f o l p b log = some r ∧ Stores n (n.room b o) k l r log := by
  induction f generalizing o k l p b log with
  | zero => omega
  | succ f ih =>
    rcases Nat.eq_zero_or_pos l with rfl | hpos
    · exact ⟨_, skipWriteFuel_done (Nat.succ_pos f), ⟨[], by simp⟩⟩
    have hlt : o < n.size := by
      by_contra h
      rw [room_nil (by omega)] at hroom
      rw [length_nil] at hroom
      omega
    have hnext := lt_next (n := n) o
    have hle := next_le_size hlt
    cases hg : n.good o with
    | false =>
      rw [skipWriteFuel_bad hpos hlt hg, room_bad hlt hg]
      exact ih (by omega) hle (page_dvd_next o) hk hl hp (by rwa [← room_bad hlt hg])
    | true =>
      by_cases hb : b = 1
      · subst hb
        rw [skipWriteFuel_skip hpos hlt hg, room_skip hlt hg]
        exact ih (by omega) hle (page_dvd_next o) hk hl hp (by rwa [← room_skip hlt hg])
      · obtain ⟨m, hm⟩ : ∃ m, m = min l (n.next o - o) := ⟨_, rfl⟩
        have hmw : n.writesize ∣ m := by
          rcases le_total l (n.next o - o) with h | h
          · rwa [hm, min_eq_left h]
          · rw [hm, min_eq_right h]
            exact Nat.dvd_sub (page_dvd_next o) hpage
        have hinside : o + min l (n.next o - o) ≤ n.size := by omega
        have htake := room_take hb hlt hg hm
        have hcall := block_allowed (p := p) hlt hg (show o + m ≤ n.next o by omega)
        have hbytes := bytes_eq (o := o) (l := m) hk hp
        by_cases hrc : (w log.length).1 = 0
        case neg =>
          rw [skipWriteFuel_write hpos hlt hg hb (logWrite_inside hinside), if_pos hrc, ← hm]
          refine ⟨_, rfl, ⟨[⟨o, m, p⟩], rfl, ?_, fun h => absurd h hrc⟩⟩
          intro c hc
          rw [mem_singleton.mp hc]
          exact hcall
        case pos =>
          rw [skipWriteFuel_write hpos hlt hg hb (logWrite_ok hinside hrc), if_neg (not_not.mpr rfl), ← hm]
          have hroom' : l - m ≤ (n.room b (o + m)).length := by
            have hlen := congrArg List.length htake
            rw [length_take_of_le hroom, length_append, length_range',
              length_take] at hlen
            omega
          obtain ⟨r, hr, new, hnew, hall, hdata⟩ : ∃ r,
              skipWriteFuel n (logWrite n w) t f (o + m) (l - m) (p + n.bufferStep m) b
                (log ++ [⟨o, m, p⟩]) = some r ∧
              Stores n (n.room b (o + m)) (k + m) (l - m) r (log ++ [⟨o, m, p⟩]) := ih (by omega)
            (by omega) (Nat.dvd_add hpage hmw) (Nat.dvd_add hk hmw) (Nat.dvd_sub hl hmw)
            (by rw [bufferStep_eq hmw, hp, source_add hk]) hroom'
          refine ⟨r, hr, ⟨⟨o, m, p⟩ :: new, ?_, ?_, ?_⟩⟩
          · rw [hnew, append_assoc, singleton_append]
          · intro c hc
            rcases mem_cons.mp hc with rfl | hc
            · exact hcall
            · exact hall c hc
          · intro h0
            have hrange : List.range' k l = List.range' k m ++ List.range' (k + m) (l - m) := by
              rw [List.range'_append_1, show m + (l - m) = l by omega]
            rw [flatMap_cons, hdata h0, hbytes, htake, hrange, map_append,
              zip_append (by simp)]

theorem skipWriteFuel_rc {r : SkipResult (List NandCall)}
    (h : skipWriteFuel n (logWrite n fun _ => (0, 0)) t f o l p b log = some r) :
    r.rc = 0 ∨ ∃ c ∈ r.state, ¬c.Allowed n := by
  induction f generalizing o l p b log with
  | zero => cases h
  | succ f ih =>
    rw [skipWriteFuel] at h
    split at h
    · simp only at h
      split at h
      · exact ih h
      · split at h
        · exact ih h
        · generalize (if l < n.erasesize - n.blockOffset o then l
            else n.erasesize - n.blockOffset o) = m at h
          by_cases hm : n.size < o + m
          · rw [logWrite, if_pos hm] at h
            cases Option.some.inj h
            refine .inr ⟨⟨o, m, p⟩, by simp, fun hc => ?_⟩
            exact Nat.not_lt_of_le hc.1 hm
          · rw [logWrite_ok (by omega) rfl] at h
            exact ih h
    · cases Option.some.inj h
      exact .inl rfl

end UBoot
