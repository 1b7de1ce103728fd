import UBoot.KermitErrors

namespace UBoot.Kermit

open FlashCells

/-- One transmission of the packet of an index: as it was sent, or with any characters but its start
and its sequence number changed. -/
inductive Sending where
  | whole (i : Nat) (long : Bool)
  | spoiled (i : Nat) (c : UInt8) (cs : List UInt8)

def Sending.index : Sending → Nat
  | .whole i _ => i
  | .spoiled i _ _ => i

/-- The receiver, the packet the sender is at and how many different packets have been
acknowledged. -/
structure Session where
  recv : KRecv
  sent : Nat
  acked : Nat

def Session.start (mem : Flash) : Session := ⟨KRecv.init mem, 0, 0⟩

def Session.next (ps : List Packet) (t : Session) : Sending → Session
  | .whole i long =>
    ⟨t.recv.run ((ps[i]?.getD ⟨0, []⟩).sent (i % 64) long), i, max t.acked (i + 1)⟩
  | .spoiled i c cs => ⟨t.recv.run (startChar :: c :: tochar (i % 64) :: cs), i, t.acked⟩

def Session.Arrives (ps : List Packet) (t : Session) : Sending → Prop
  | .whole i long => (ps[i]?.getD ⟨0, []⟩).Fits long
  | .spoiled i c cs => t.recv.Refuses (startChar :: c :: tochar (i % 64) :: cs)

/-- What a stop and wait sender can do: the packet again, whether its acknowledgement was lost or is
late, or the next one after an acknowledgement. -/
def Session.Possible (ps : List Packet) (t : Session) (x : Sending) : Prop :=
  t.recv.phase = .start ∧ x.index < ps.length ∧
    (x.index = t.sent ∨ x.index = t.sent + 1 ∧ t.sent < t.acked) ∧ t.Arrives ps x

def Schedule (ps : List Packet) : Session → List Sending → Prop
  | _, [] => True
  | t, x :: xs => t.Possible ps x ∧ Schedule ps (t.next ps x) xs

def visited (ps : List Packet) : Session → List Sending → List Session
  | _, [] => []
  | t, x :: xs => t.next ps x :: visited ps (t.next ps x) xs

/-- Memory and escape state are those of the packets acknowledged, and a result is the length of the
file. -/
def Session.Right (file : List UInt8) (ps : List Packet) (t : Session) : Prop :=
  t.recv.now = (content ps t.acked).data ∧ ∀ r, t.recv.phase = .returned r → r = file.length

/-- A transmission takes nothing back: where it is rejected, this is after a new sequence number or
with nothing stored since the checkpoint. -/
def Session.Harmless (t : Session) : Sending → Prop
  | .whole _ _ => True
  | .spoiled i c _ =>
    t.recv.before = t.recv.now ∨ control c = false ∧ t.recv.lastN ≠ some (i % 64)

def HarmlessRun (ps : List Packet) : Session → List Sending → Prop
  | _, [] => True
  | t, x :: xs => t.Harmless x ∧ HarmlessRun ps (t.next ps x) xs

instance (ps : List Packet) (t : Session) : (x : Sending) → Decidable (t.Arrives ps x)
  | .whole _ _ => inferInstanceAs (Decidable (Packet.Fits _ _))
  | .spoiled _ _ _ => inferInstanceAs (Decidable (KRecv.Refuses _ _))

instance (ps : List Packet) (t : Session) (x : Sending) : Decidable (t.Possible ps x) :=
  inferInstanceAs (Decidable (_ ∧ _))

instance decSchedule (ps : List Packet) : (t : Session) → (xs : List Sending) → Decidable (Schedule ps t xs)
  | _, [] => isTrue trivial
  | t, x :: xs =>
    have := decSchedule ps (t.next ps x) xs
    inferInstanceAs (Decidable (_ ∧ _))

/-- What holds between two transmissions that took nothing back. -/
structure Session.Inv (ps : List Packet) (t : Session) : Prop where
  idle : t.recv.phase = .start → t.recv.Idle
  now : t.recv.now = (content ps t.acked).data
  quote : t.recv.hisQuote = (content ps t.acked).quote
  /-- The packet may come again, and starts from where it started the first time. -/
  resend : t.sent + 1 = t.acked ∧
      (t.recv.lastN = some (t.sent % 64) ∧ t.recv.before = (content ps t.sent).data ∨
        t.recv.before = t.recv.now ∧ (content ps t.sent).data = (content ps t.acked).data) ∨
    t.sent = t.acked ∧ (t.recv.lastN ≠ some (t.acked % 64) ∨ t.recv.before = t.recv.now)

section
variable {ps : List Packet} {file : List UInt8} {t : Session} {i : Nat}

theorem Content.take_again (c : Content) (p : Packet) :
    Content.take ⟨c.data, (c.take p).quote⟩ p = c.take p := by
  unfold Content.take
  by_cases hs : p.type = sendType
  · simp only [if_pos hs]
  · simp only [if_neg hs]
    by_cases hd : p.type = dataType
    · simp only [if_pos hd]
    · simp only [if_neg hd]

theorem Session.Inv.base (h : t.Inv ps) {p : Packet} (hp : ps[i]? = some p)
    (hi : i = t.sent ∨ i = t.sent + 1 ∧ t.sent < t.acked) :
    max t.acked (i + 1) = i + 1 ∧ t.recv.base (i % 64) = (content ps i).data ∧
      Content.take ⟨t.recv.base (i % 64), t.recv.hisQuote⟩ p = content ps (i + 1) := by
  have hsucc := content_succ hp
  have hnew : i = t.acked → (t.recv.lastN ≠ some (i % 64) ∨ t.recv.before = t.recv.now) →
      max t.acked (i + 1) = i + 1 ∧ t.recv.base (i % 64) = (content ps i).data ∧
        Content.take ⟨t.recv.base (i % 64), t.recv.hisQuote⟩ p = content ps (i + 1) := by
    rintro rfl hlast
    have hbase : t.recv.base (t.acked % 64) = (content ps t.acked).data := by
      rw [← h.now]
      unfold KRecv.base
      rcases hlast with hne | hsame
      · rw [if_neg hne]
      · rw [hsame, ite_self]
    refine ⟨by omega, hbase, ?_⟩
    rw [hbase, h.quote, hsucc]
  rcases h.resend with ⟨hsent, hcase⟩ | ⟨hsent, hcase⟩
  · rcases hi with rfl | ⟨rfl, _⟩
    · -- The packet acknowledged last comes again.
      have hbase : t.recv.base (t.sent % 64) = (content ps t.sent).data := by
        unfold KRecv.base
        rcases hcase with ⟨hlast, hbefore⟩ | ⟨hsame, hcontent⟩
        · rw [if_pos hlast, hbefore]
        · rw [hsame, ite_self, h.now, hcontent]
      refine ⟨by omega, hbase, ?_⟩
      rw [hbase, h.quote, ← hsent, hsucc]
      exact Content.take_again _ p
    · apply hnew hsent
      rcases hcase with ⟨hlast, _⟩ | ⟨hsame, _⟩
      · left
        rw [hlast]
        intro heq
        have := Option.some.inj heq
        omega
      · exact .inr hsame
  · rcases hi with rfl | ⟨_, hlt⟩
    · apply hnew hsent
      rw [hsent]
      exact hcase
    · omega

theorem next_whole (hsends : Sends file ps) (h : t.Inv ps) {long : Bool}
    (hx : t.Possible ps (.whole i long)) :
    (t.next ps (.whole i long)).Inv ps ∧ (t.next ps (.whole i long)).Right file ps := by
  obtain ⟨hphase, hlen, hi, hfits⟩ := hx
  have hp : ps[i]? = some ps[i] := List.getElem?_eq_getElem hlen
  have hget : ps[i]?.getD ⟨0, []⟩ = ps[i] := by rw [hp]; rfl
  obtain ⟨hmax, hbase, htake⟩ := h.base hp hi
  have hfits' : ps[i].Fits long := by
    rw [← hget]
    exact hfits
  have hacc := run_sent (h.idle hphase) hfits' (Nat.mod_lt i (by omega))
  have hnow := hacc.now
  have hquote := hacc.quote
  have hbefore := hacc.before
  rw [htake] at hnow hquote
  rw [hbase] at hbefore
  unfold Session.next Session.Right
  dsimp only
  rw [hget, hmax]
  refine ⟨⟨?_, hnow, hquote, .inl ⟨rfl, .inl ⟨hacc.lastN, hbefore⟩⟩⟩, hnow, ?_⟩
  · intro hstart
    by_cases hb : ps[i].type = breakType
    · rw [hacc.done hb] at hstart
      cases hstart
    · exact ⟨hstart, (hacc.again hb).2, hacc.order⟩
  · intro r hr
    by_cases hb : ps[i].type = breakType
    · rw [hacc.done hb] at hr
      cases hr
      have hall := hsends.content
      rw [← hsends.breaks hp hb, ← hnow] at hall
      have hbytes := congrArg (fun d => d.bytes.length) hall
      simpa [KRecv.now, decodedAt] using hbytes
    · rw [(hacc.again hb).1] at hr
      cases hr

theorem next_spoiled (h : t.Inv ps) {c : UInt8} {cs : List UInt8}
    (hx : t.Possible ps (.spoiled i c cs)) :
    ((t.next ps (.spoiled i c cs)).Right file ps ↔ t.Harmless (.spoiled i c cs)) ∧
      (t.Harmless (.spoiled i c cs) → (t.next ps (.spoiled i c cs)).Inv ps) := by
  obtain ⟨hphase, hlen, hi, hrefuse⟩ := hx
  obtain ⟨hidle, hnow, hbefore, hquote⟩ := run_refused (h.idle hphase) (Nat.mod_lt i (by omega)) hrefuse
  have hsame : t.recv.refusal c (i % 64) = t.recv.now ↔ t.Harmless (.spoiled i c cs) := by
    unfold KRecv.refusal KRecv.base Session.Harmless
    cases hc : control c with
    | true => simp [hc]
    | false => by_cases hlast : t.recv.lastN = some (i % 64) <;> simp [hc, hlast]
  unfold Session.next Session.Right
  constructor
  · rw [hnow, ← h.now, hsame]
    refine ⟨And.left, fun hall => ⟨hall, fun r hr => ?_⟩⟩
    rw [hidle.phase] at hr
    cases hr
  · intro hall
    have hkeep := hsame.mpr hall
    rw [hkeep] at hnow hbefore
    refine ⟨fun _ => hidle, hnow.trans h.now, hquote.trans h.quote, ?_⟩
    rw [hbefore, hnow]
    rcases h.resend with ⟨hsent, hcase⟩ | ⟨hsent, hcase⟩
    · rcases hi with heq | ⟨heq, _⟩
      · have hindex : i = t.sent := heq
        subst hindex
        refine .inl ⟨hsent, .inr ⟨rfl, ?_⟩⟩
        rcases hcase with ⟨hlast, hcp⟩ | ⟨_, hcontent⟩
        · rcases hall with heq | ⟨_, hne⟩
          · rw [← hcp, heq, h.now]
          · exact absurd hlast hne
        · exact hcontent
      · exact .inr ⟨heq.trans hsent, .inr rfl⟩
    · rcases hi with heq | ⟨_, hlt⟩
      · exact .inr ⟨heq.trans hsent, .inr rfl⟩
      · omega

/-- A download counts every packet once, whatever is repeated, lost and spoiled on the way, just
when no rejected packet takes back one that was acknowledged. -/
theorem kermit_counts_once_iff (hsends : Sends file ps) {mem : Flash} {xs : List Sending}
    (hx : Schedule ps (Session.start mem) xs) :
    (∀ t ∈ visited ps (Session.start mem) xs, t.Right file ps) ↔ HarmlessRun ps (Session.start mem) xs := by
  have hstart : (Session.start mem).Inv ps := by
    refine ⟨fun _ => ⟨rfl, rfl, le_refl _⟩, rfl, rfl, .inr ⟨rfl, .inr rfl⟩⟩
  generalize Session.start mem = t at hx hstart
  induction xs generalizing t with
  | nil => exact ⟨fun _ => trivial, fun _ t ht => (by cases ht)⟩
  | cons x xs ih =>
    obtain ⟨hpossible, hrest⟩ := hx
    cases x with
    | whole i long =>
      obtain ⟨hinv, hright⟩ := next_whole hsends hstart hpossible
      have hfree : t.Harmless (.whole i long) := trivial
      have htail := ih _ hrest hinv
      constructor
      · intro hall
        exact ⟨hfree, htail.mp fun u hu => hall u (List.mem_cons_of_mem _ hu)⟩
      · intro hall u hu
        rcases List.mem_cons.mp hu with rfl | hu
        · exact hright
        · exact htail.mpr hall.2 u hu
    | spoiled i c cs =>
      obtain ⟨hiff, hinv⟩ := next_spoiled hstart hpossible
      constructor
      · intro hall
        have hfree := hiff.mp (hall _ List.mem_cons_self)
        exact ⟨hfree, (ih _ hrest (hinv hfree)).mp fun u hu => hall u (List.mem_cons_of_mem _ hu)⟩
      · intro hall u hu
        rcases List.mem_cons.mp hu with rfl | hu
        · exact hiff.mpr hall.1
        · exact (ih _ hrest (hinv hall.1)).mpr hall.2 u hu

end

def twoBytes : List Packet :=
  [⟨sendType, []⟩, ⟨dataType, [65]⟩, ⟨dataType, [66]⟩, ⟨breakType, []⟩]

theorem twoBytes_sends : Sends [65, 66] twoBytes :=
  ⟨[], [⟨dataType, [65]⟩, ⟨dataType, [66]⟩], [], rfl, by decide, .plain (by decide) (.plain (by decide) .nil)⟩

def spoiledLength : List Sending :=
  [.whole 0 false, .whole 1 false, .spoiled 2 4 [68, 66, 55, 13], .whole 2 false, .whole 3 false]

theorem kermit_counts_once_two_bytes :
    (∀ t ∈ visited twoBytes (Session.start fun _ => 0) spoiledLength, t.Right [65, 66] twoBytes) ↔
      HarmlessRun twoBytes (Session.start fun _ => 0) spoiledLength :=
  kermit_counts_once_iff twoBytes_sends (by decide +kernel)

/-- The acknowledged byte 65 is overwritten, and one byte is counted for two. -/
theorem spoiled_length_loses_packet :
    Sends [65, 66] twoBytes ∧ Schedule twoBytes (Session.start fun _ => 0) spoiledLength ∧
      (visited twoBytes (Session.start fun _ => 0) spoiledLength).getLast?.any
        (fun t => t.recv.phase = .returned 1 ∧ t.recv.now = ⟨[66], false⟩) = true :=
  ⟨twoBytes_sends, by decide +kernel, by decide +kernel⟩

end UBoot.Kermit
