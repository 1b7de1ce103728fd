import UBoot.KermitPackets

namespace UBoot.Kermit

def KRecv.acks (s : KRecv) : Nat := s.replies.countP Reply.isAck

/-- Characters after which `k_recv` waits for the next packet without having sent an
acknowledgement. -/
def KRecv.Refuses (s : KRecv) (cs : List UInt8) : Prop :=
  (s.run cs).phase = .start ∧ (s.run cs).acks = s.acks

instance (s : KRecv) (cs : List UInt8) : Decidable (s.Refuses cs) :=
  inferInstanceAs (Decidable (_ ∧ _))

/-- A receiver whose checkpoint is `b`, and that is there as long as no sequence number has been
read. -/
structure KRecv.Kept (b : Decoded) (quote : UInt8) (s : KRecv) : Prop where
  before : s.before = b
  quote : s.hisQuote = quote
  order : s.saved.addr ≤ s.data.addr
  early : s.phase = .start ∨ s.phase = .len ∨ s.phase = .seq → s.data = s.saved
  parms : s.phase = .start → s.parms = []

section
variable {s : KRecv} {b : Decoded} {c quote : UInt8} {cs : List UInt8} {n : Nat}

theorem packetError_kept (h : s.before = b) (hq : s.hisQuote = quote) : s.packetError.Kept b quote :=
  ⟨h, hq, le_refl _, fun _ => rfl, fun _ => rfl⟩

theorem packetError_acks (s : KRecv) : s.packetError.acks = s.acks := by
  simp [KRecv.packetError, KRecv.again, KRecv.acks, Reply.isAck]

theorem accept_acks (s : KRecv) : s.accept.acks = s.acks + 1 := by
  unfold KRecv.accept KRecv.handleSendPacket KRecv.again KRecv.acks
  split
  · simp [Reply.isAck]
  · dsimp only
    split <;> simp [Reply.isAck]

theorem acks_step_le : s.acks ≤ (s.step c).acks := by
  have herr := packetError_acks s
  unfold KRecv.step
  split
  · split
    · exact le_refl _
    · split <;> exact le_refl _
  · split
    · exact le_of_eq herr.symm
    · exact le_refl _
  · split
    · exact le_of_eq herr.symm
    · unfold KRecv.checkpoint
      split <;> exact le_refl _
  · split
    · exact le_of_eq herr.symm
    · dsimp only
      split <;> exact le_refl _
  · split
    · exact le_of_eq herr.symm
    · exact le_refl _
  · split
    · exact le_of_eq herr.symm
    · exact le_refl _
  · split
    · exact le_of_eq herr.symm
    · exact le_refl _
  · split
    · exact le_of_eq herr.symm
    · unfold KRecv.absorb KRecv.kDataChar KRecv.binDataChar KRecv.rest
      split
      · split
        · exact le_refl _
        · split <;> exact le_refl _
      · split <;> exact le_refl _
  · split
    · exact le_of_eq herr.symm
    · exact le_refl _
  · split
    · exact le_of_eq herr.symm
    · rw [accept_acks]
      omega
  · exact le_refl _

theorem kept_later (hb : s.before = b) (hq : s.hisQuote = quote) (ho : s.saved.addr ≤ s.data.addr)
    (hstart : s.phase ≠ .start) (hlen : s.phase ≠ .len) (hseq : s.phase ≠ .seq) : s.Kept b quote := by
  refine ⟨hb, hq, ho, ?_, fun hp => absurd hp hstart⟩
  rintro (hp | hp | hp)
  · exact absurd hp hstart
  · exact absurd hp hlen
  · exact absurd hp hseq

theorem rest_kept (hb : s.before = b) (hq : s.hisQuote = quote) (ho : s.saved.addr ≤ s.data.addr) :
    s.rest.Kept b quote := by
  have hphase : s.rest.phase = .data ∨ s.rest.phase = .check := by
    unfold KRecv.rest
    split
    · exact .inl rfl
    · exact .inr rfl
  have hne : s.rest.phase ≠ .start ∧ s.rest.phase ≠ .len ∧ s.rest.phase ≠ .seq := by
    rcases hphase with hp | hp <;> rw [hp] <;> decide
  exact @kept_later s.rest b quote hb hq ho hne.1 hne.2.1 hne.2.2

theorem checkpoint_kept (h : s.Kept b quote) (hdata : s.data = s.saved) (htype : s.phase = .type) (n : Nat) :
    (s.checkpoint n).Kept b quote := by
  unfold KRecv.checkpoint
  split
  · exact kept_later h.before h.quote le_rfl (by simp [htype]) (by simp [htype]) (by simp [htype])
  · refine kept_later ?_ h.quote le_rfl (by simp [htype]) (by simp [htype]) (by simp [htype])
    have hb := h.before
    unfold KRecv.before at hb ⊢
    rw [← hdata] at hb
    exact hb

theorem Kept.step (h : s.Kept b quote) (ha : (s.step c).acks = s.acks) : (s.step c).Kept b quote := by
  have herr := packetError_kept h.before h.quote
  cases hphase : s.phase with
  | start =>
    have hdata := h.early (.inl hphase)
    simp only [KRecv.step, hphase]
    split
    · exact ⟨h.before, h.quote, h.order, fun _ => hdata, fun hp => (by cases hp)⟩
    · split
      · exact ⟨h.before, h.quote, h.order, fun _ => hdata, fun hp => (by cases hp)⟩
      · exact h
  | len =>
    have hdata := h.early (.inr (.inl hphase))
    simp only [KRecv.step, hphase]
    split
    · exact herr
    · exact ⟨h.before, h.quote, h.order, fun _ => hdata, fun hp => (by cases hp)⟩
  | seq =>
    have hdata := h.early (.inr (.inr hphase))
    simp only [KRecv.step, hphase]
    split
    · exact herr
    · have hnext : ({ s with phase := .type, sum := s.sum + c.toNat, length := s.length - 1 } : KRecv).Kept b quote :=
        kept_later h.before h.quote h.order (by simp) (by simp) (by simp)
      exact checkpoint_kept hnext hdata rfl _
  | type =>
    simp only [KRecv.step, hphase]
    split
    · exact herr
    · split
      · exact kept_later h.before h.quote h.order (by simp) (by simp) (by simp)
      · exact rest_kept h.before h.quote h.order
  | lenHi =>
    simp only [KRecv.step, hphase]
    split
    · exact herr
    · exact kept_later h.before h.quote h.order (by simp) (by simp) (by simp)
  | lenLo =>
    simp only [KRecv.step, hphase]
    split
    · exact herr
    · exact kept_later h.before h.quote h.order (by simp) (by simp) (by simp)
  | headCheck =>
    simp only [KRecv.step, hphase]
    split
    · exact herr
    · exact rest_kept h.before h.quote h.order
  | data =>
    simp only [KRecv.step, hphase]
    split
    · exact herr
    · have htook := absorb_spec h.order c
      rw [← hphase]
      exact rest_kept (htook.before.trans h.before) (htook.quote.trans h.quote) htook.order
  | check =>
    simp only [KRecv.step, hphase]
    split
    · exact herr
    · exact kept_later h.before h.quote h.order (by simp) (by simp) (by simp)
  | last =>
    simp only [KRecv.step, hphase] at ha ⊢
    split at ha
    next hend =>
      rw [if_pos hend]
      exact herr
    · rw [accept_acks] at ha
      omega
  | returned r =>
    simp only [KRecv.step, hphase]
    exact h

theorem acks_run_le (s : KRecv) (cs : List UInt8) : s.acks ≤ (s.run cs).acks := by
  induction cs generalizing s with
  | nil => exact le_refl _
  | cons c cs ih => exact le_trans acks_step_le (ih (s.step c))

theorem Kept.run (h : s.Kept b quote) (ha : (s.run cs).acks = s.acks) : (s.run cs).Kept b quote := by
  induction cs generalizing s with
  | nil => exact h
  | cons c cs ih =>
    rw [run_cons] at ha ⊢
    have hstep : s.acks ≤ (s.step c).acks := acks_step_le
    have hrest := acks_run_le (s.step c) cs
    exact ih (Kept.step h (by omega)) (by omega)

/-- What a rejected packet with the number `n` leaves: the checkpoint, which is a new one only where
the length character is none of the control characters and the number differs from the last. -/
def KRecv.refusal (s : KRecv) (c : UInt8) (n : Nat) : Decoded :=
  if control c then s.before else s.base n

theorem run_refused (hs : s.Idle) (hn : n < 64)
    (h : s.Refuses (startChar :: c :: tochar n :: cs)) :
    (s.run (startChar :: c :: tochar n :: cs)).Idle ∧
      (s.run (startChar :: c :: tochar n :: cs)).now = s.refusal c n ∧
      (s.run (startChar :: c :: tochar n :: cs)).before = s.refusal c n ∧
      (s.run (startChar :: c :: tochar n :: cs)).hisQuote = s.hisQuote := by
  obtain ⟨hphase, hacks⟩ := h
  have hend : ∀ {b : Decoded}, (s.run (startChar :: c :: tochar n :: cs)).Kept b s.hisQuote →
      (s.run (startChar :: c :: tochar n :: cs)).Idle ∧ (s.run (startChar :: c :: tochar n :: cs)).now = b ∧
        (s.run (startChar :: c :: tochar n :: cs)).before = b ∧
        (s.run (startChar :: c :: tochar n :: cs)).hisQuote = s.hisQuote := by
    intro b hk
    have hsame := hk.early (.inl hphase)
    refine ⟨⟨hphase, hk.parms hphase, hk.order⟩, ?_, hk.before, hk.quote⟩
    rw [KRecv.now, hsame]
    exact hk.before
  apply hend
  unfold KRecv.refusal
  by_cases hc : control c = true
  · -- Rejected before the sequence number: back to the checkpoint of the packet before.
    have htwo : s.run [startChar, c] = ({ s with phase := .len, sum := 0 } : KRecv).packetError := by
      simp [KRecv.run, KRecv.step, hs.phase, hc]
    have hsplit : startChar :: c :: tochar n :: cs = [startChar, c] ++ (tochar n :: cs) := rfl
    rw [hsplit, run_append, htwo] at hacks ⊢
    rw [if_pos hc]
    have hk : (({ s with phase := .len, sum := 0 } : KRecv).packetError).Kept s.before s.hisQuote :=
      packetError_kept rfl rfl
    apply Kept.run hk
    rw [hacks, packetError_acks]
    rfl
  · have hc' : control c = false := by simpa using hc
    obtain ⟨t, hrun, hnum, hdata, hphase', _, _⟩ := run_number hs hc' hn
    have hsplit : startChar :: c :: tochar n :: cs = [startChar, c, tochar n] ++ cs := rfl
    rw [hsplit, run_append, hrun] at hacks ⊢
    rw [if_neg hc]
    have hk : t.Kept (s.base n) s.hisQuote := by
      refine ⟨hnum.before, hnum.quote, hnum.order, fun _ => hdata, fun hp => ?_⟩
      rw [hphase'] at hp
      cases hp
    apply Kept.run hk
    rw [hacks, KRecv.acks, KRecv.acks, hnum.replies]

end

end UBoot.Kermit
