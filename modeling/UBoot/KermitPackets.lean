import UBoot.Kermit

namespace UBoot.Kermit

open List

def sumOf (cs : List UInt8) : Nat := cs.foldl (fun sum c => sum + c.toNat) 0

/-- The characters of a packet between its start and its data, with one length character or with
two and a check of their own. -/
def Packet.head (p : Packet) (n : Nat) (long : Bool) : List UInt8 :=
  if long then
    let header := [tochar 0, tochar n, p.type, tochar ((p.data.length + 1) / 95),
      tochar ((p.data.length + 1) % 95)]
    header ++ [checkChar (sumOf header)]
  else [tochar (p.data.length + 3), tochar n, p.type]

/-- A packet as its sender sends it under the sequence number `n`. -/
def Packet.sent (p : Packet) (n : Nat) (long : Bool) : List UInt8 :=
  startChar :: p.head n long ++ p.data ++ [checkChar (sumOf (p.head n long ++ p.data)), endChar]

/-- A packet without control characters that fits its length field. -/
def Packet.Fits (p : Packet) (long : Bool) : Prop :=
  control p.type = false ∧ (∀ c ∈ p.data, control c = false) ∧
    if long then p.data.length + 1 < 9025 else p.data.length + 3 ≤ 94

instance (p : Packet) (long : Bool) : Decidable (p.Fits long) :=
  haveI : Decidable (∀ c ∈ p.data, control c = false) := List.decidableBAll _ _
  inferInstanceAs (Decidable (_ ∧ _ ∧ _))

def KRecv.base (s : KRecv) (n : Nat) : Decoded := if s.lastN = some n then s.before else s.now

/-- Waiting for a packet. -/
structure KRecv.Idle (s : KRecv) : Prop where
  phase : s.phase = .start
  parms : s.parms = []
  order : s.saved.addr ≤ s.data.addr

structure KRecv.Accepted (s : KRecv) (p : Packet) (n : Nat) (t : KRecv) : Prop where
  replies : t.replies = s.replies ++ [.ack n]
  lastN : t.lastN = some n
  before : t.before = s.base n
  now : t.now = (Content.take ⟨s.base n, s.hisQuote⟩ p).data
  quote : t.hisQuote = (Content.take ⟨s.base n, s.hisQuote⟩ p).quote
  order : t.saved.addr ≤ t.data.addr
  again : p.type ≠ breakType → t.phase = .start ∧ t.parms = []
  done : p.type = breakType → t.phase = .returned t.data.addr

section
variable {s : KRecv} {n x : Nat} {c : UInt8} {cs ds : List UInt8} {p : Packet} {long : Bool}

theorem control_tochar (h : x < 224) : control (tochar x) = false := by
  revert x
  decide +kernel

theorem untochar_tochar (h : x < 224) : untochar (tochar x) = x := by
  revert x
  decide +kernel

theorem control_checkChar (sum : Nat) : control (checkChar sum) = false := control_tochar (by omega)

theorem sumOf_append : sumOf (cs ++ ds) = sumOf cs + sumOf ds := by
  have hfrom : ∀ (ds : List UInt8) (sum : Nat),
      ds.foldl (fun sum c => sum + c.toNat) sum = sum + sumOf ds := by
    intro ds
    induction ds with
    | nil => exact fun _ => rfl
    | cons c ds ih =>
      intro sum
      have hrest := ih (0 + c.toNat)
      unfold sumOf
      rw [foldl_cons, ih, foldl_cons, hrest]
      omega
  rw [sumOf, foldl_append, hfrom]
  rfl

theorem run_append : s.run (cs ++ ds) = (s.run cs).run ds := foldl_append

theorem run_cons : s.run (c :: cs) = (s.step c).run cs := rfl

/-- A receiver that has read the sequence number of a packet, and as long as the packet's data do
not count. -/
structure KRecv.Numbered (s : KRecv) (k : Nat) (t : KRecv) : Prop where
  n : t.n = k
  lastN : t.lastN = some k
  now : t.now = s.base k
  before : t.before = s.base k
  order : t.saved.addr ≤ t.data.addr
  parms : t.parms = []
  quote : t.hisQuote = s.hisQuote
  replies : t.replies = s.replies

theorem checkpoint_spec (hp : s.parms = []) (n : Nat) :
    s.Numbered n (s.checkpoint n) ∧ (s.checkpoint n).data = (s.checkpoint n).saved ∧
      (s.checkpoint n).phase = s.phase ∧ (s.checkpoint n).sum = s.sum ∧
      (s.checkpoint n).length = s.length := by
  unfold KRecv.checkpoint
  by_cases h : s.lastN = some n
  · have hbase : s.base n = s.before := if_pos h
    rw [if_pos h]
    exact ⟨⟨rfl, h, hbase.symm, hbase.symm, le_refl _, hp, rfl, rfl⟩, rfl, rfl, rfl, rfl⟩
  · have hbase : s.base n = s.now := if_neg h
    rw [if_neg h]
    exact ⟨⟨rfl, rfl, hbase.symm, hbase.symm, le_refl _, hp, rfl, rfl⟩, rfl, rfl, rfl, rfl⟩

theorem run_number (hs : s.Idle) (hc : control c = false) (hn : n < 64) :
    ∃ t, s.run [startChar, c, tochar n] = t ∧ s.Numbered n t ∧ t.data = t.saved ∧
      t.phase = .type ∧ t.sum = sumOf [c, tochar n] ∧ t.length = (untochar c : Int) - 1 := by
  have hcn := control_tochar (x := n) (by omega)
  have hun := untochar_tochar (x := n) (by omega)
  have hrun : s.run [startChar, c, tochar n] = ({ s with
        phase := .type, sum := sumOf [c, tochar n], length := (untochar c : Int) - 1 } : KRecv).checkpoint
        n := by
    simp [KRecv.run, KRecv.step, hs.phase, hc, hcn, hun, sumOf]
  obtain ⟨hnum, hdata, hphase, hsum, hlen⟩ := checkpoint_spec (s := { s with
    phase := .type, sum := sumOf [c, tochar n], length := (untochar c : Int) - 1 }) hs.parms n
  exact ⟨_, hrun, ⟨hnum.n, hnum.lastN, hnum.now, hnum.before, hnum.order, hnum.parms, hnum.quote,
    hnum.replies⟩, hdata, hphase, hsum, hlen⟩

theorem run_head (hs : s.Idle) (hp : p.Fits long) (hn : n < 64) :
    ∃ t, s.run (startChar :: p.head n long) = t.rest ∧ s.Numbered n t ∧
      t.sum = sumOf (p.head n long) ∧ t.length = p.data.length + 1 ∧ t.kState = p.type := by
  obtain ⟨htype, _, hlen⟩ := hp
  cases long with
  | false =>
    simp only [Bool.false_eq_true, if_false] at hlen
    obtain ⟨t, hrun, hnum, _, hphase, hsum, hlength⟩ :=
      run_number hs (control_tochar (x := p.data.length + 3) (by omega)) hn
    rw [untochar_tochar (by omega)] at hlength
    refine ⟨{ t with sum := t.sum + p.type.toNat, kState := p.type, length := t.length - 1 }, ?_,
      ⟨hnum.n, hnum.lastN, hnum.now, hnum.before, hnum.order, hnum.parms, hnum.quote, hnum.replies⟩,
      ?_, ?_, rfl⟩
    · have hhead : startChar :: p.head n false =
          [startChar, tochar (p.data.length + 3), tochar n] ++ [p.type] := rfl
      have hne : ¬t.length - 1 = -2 := by omega
      rw [hhead, run_append, hrun]
      simp [KRecv.run, KRecv.step, hphase, htype, hne]
    · rw [hsum]
      rfl
    · simp only
      omega
  | true =>
    simp only [if_true] at hlen
    have hhi := control_tochar (x := (p.data.length + 1) / 95) (by omega)
    have hlo := control_tochar (x := (p.data.length + 1) % 95) (by omega)
    have hhi' := untochar_tochar (x := (p.data.length + 1) / 95) (by omega)
    have hlo' := untochar_tochar (x := (p.data.length + 1) % 95) (by omega)
    obtain ⟨t, hrun, hnum, _, hphase, hsum, hlength⟩ := run_number hs (control_tochar (x := 0) (by omega)) hn
    rw [untochar_tochar (by omega)] at hlength
    have hcheck : ∀ sum, control (checkChar sum) = false := control_checkChar
    refine ⟨{ t with
      sum := sumOf (p.head n true), kState := p.type, lenHi := (p.data.length + 1) / 95,
      length := ((p.data.length + 1) / 95 * 95 + (p.data.length + 1) % 95 : Nat) }, ?_,
      ⟨hnum.n, hnum.lastN, hnum.now, hnum.before, hnum.order, hnum.parms, hnum.quote, hnum.replies⟩,
      rfl, ?_, rfl⟩
    · have hhead : startChar :: p.head n true = [startChar, tochar 0, tochar n] ++
          [p.type, tochar ((p.data.length + 1) / 95), tochar ((p.data.length + 1) % 95),
            checkChar (sumOf [tochar 0, tochar n, p.type, tochar ((p.data.length + 1) / 95),
              tochar ((p.data.length + 1) % 95)])] := rfl
      have hsum' : sumOf (p.head n true) = sumOf [tochar 0, tochar n, p.type,
          tochar ((p.data.length + 1) / 95), tochar ((p.data.length + 1) % 95)] +
          (checkChar (sumOf [tochar 0, tochar n, p.type, tochar ((p.data.length + 1) / 95),
            tochar ((p.data.length + 1) % 95)])).toNat := rfl
      have hfive : sumOf [tochar 0, tochar n, p.type, tochar ((p.data.length + 1) / 95),
          tochar ((p.data.length + 1) % 95)] = sumOf [tochar 0, tochar n] + p.type.toNat +
            (tochar ((p.data.length + 1) / 95)).toNat + (tochar ((p.data.length + 1) % 95)).toNat := rfl
      have htwo : t.length - 1 = -2 := by omega
      rw [hhead, run_append, hrun, hsum', hfive]
      simp [KRecv.run, KRecv.step, hphase, htype, htwo, hhi, hlo, hhi', hlo', hcheck, hsum]
      rfl
    · simp only
      omega

/-- What the data of a packet do, as far as `cs` of them have been read. -/
structure KRecv.Took (s : KRecv) (cs : List UInt8) (t : KRecv) : Prop where
  n : t.n = s.n
  lastN : t.lastN = s.lastN
  kState : t.kState = s.kState
  quote : t.hisQuote = s.hisQuote
  replies : t.replies = s.replies
  sum : t.sum = s.sum + sumOf cs
  length : t.length = s.length - cs.length
  before : t.before = s.before
  order : t.saved.addr ≤ t.data.addr
  now : t.now = if s.kState = dataType then s.now.text s.hisQuote cs else s.now
  parms : t.parms = if s.kState = sendType then cs.foldl pushParm s.parms else s.parms

theorem rest_absorb (s : KRecv) (c : UInt8) (phase : Phase) :
    (({ s with phase := phase } : KRecv).absorb c).rest = (s.absorb c).rest := by
  unfold KRecv.absorb
  by_cases hd : s.kState = dataType
  · rw [if_pos hd, if_pos hd]
    unfold KRecv.kDataChar
    by_cases he : s.data.escape = true
    · rw [if_pos he, if_pos he]
      rfl
    · rw [if_neg he, if_neg he]
      split <;> rfl
  · rw [if_neg hd, if_neg hd]
    split <;> rfl

theorem absorb_spec (ho : s.saved.addr ≤ s.data.addr) (c : UInt8) :
    KRecv.Took s [c] (({ s with sum := s.sum + c.toNat, length := s.length - 1 } : KRecv).absorb c) := by
  unfold KRecv.absorb
  by_cases hd : s.kState = dataType
  · have hne : ¬s.kState = sendType := by
      rw [hd]
      decide
    obtain ⟨hnow, hbefore, horder⟩ := kDataChar_spec (s := { s with
      sum := s.sum + c.toNat, length := s.length - 1 }) ho c
    have hother : ∀ t : KRecv, (t.kDataChar c).n = t.n ∧ (t.kDataChar c).lastN = t.lastN ∧
        (t.kDataChar c).kState = t.kState ∧ (t.kDataChar c).hisQuote = t.hisQuote ∧
        (t.kDataChar c).replies = t.replies ∧ (t.kDataChar c).sum = t.sum ∧
        (t.kDataChar c).length = t.length ∧ (t.kDataChar c).parms = t.parms := by
      intro t
      unfold KRecv.kDataChar
      split
      · exact ⟨rfl, rfl, rfl, rfl, rfl, rfl, rfl, rfl⟩
      · split <;> exact ⟨rfl, rfl, rfl, rfl, rfl, rfl, rfl, rfl⟩
    obtain ⟨h₁, h₂, h₃, h₄, h₅, h₆, h₇, h₈⟩ := hother { s with
      sum := s.sum + c.toNat, length := s.length - 1 }
    rw [if_pos hd]
    refine ⟨h₁, h₂, h₃, h₄, h₅, ?_, h₇, hbefore, horder, ?_, ?_⟩
    · rw [h₆]
      simp [sumOf]
    · rw [if_pos hd]
      exact hnow
    · rw [if_neg hne]
      exact h₈
  · rw [if_neg hd]
    by_cases hsend : s.kState = sendType
    · rw [if_pos hsend]
      refine ⟨rfl, rfl, rfl, rfl, rfl, ?_, rfl, rfl, ho, (if_neg hd).symm, (if_pos hsend).symm⟩
      simp [sumOf]
    · rw [if_neg hsend]
      refine ⟨rfl, rfl, rfl, rfl, rfl, ?_, rfl, rfl, ho, (if_neg hd).symm, (if_neg hsend).symm⟩
      simp [sumOf]

theorem KRecv.Took.trans {t u : KRecv} (h : s.Took cs t) (h' : t.Took ds u) : s.Took (cs ++ ds) u where
  n := h'.n.trans h.n
  lastN := h'.lastN.trans h.lastN
  kState := h'.kState.trans h.kState
  quote := h'.quote.trans h.quote
  replies := h'.replies.trans h.replies
  sum := by
    rw [h'.sum, h.sum, sumOf_append, Nat.add_assoc]
  length := by
    rw [h'.length, h.length, length_append]
    omega
  before := h'.before.trans h.before
  order := h'.order
  now := by
    rw [h'.now, h.kState, h.quote, h.now]
    split
    · exact Decoded.text_append.symm
    · rfl
  parms := by
    rw [h'.parms, h.kState, h.parms]
    split
    · exact foldl_append.symm
    · rfl

theorem run_data (hc : ∀ c ∈ cs, control c = false) (ho : s.saved.addr ≤ s.data.addr)
    (hl : s.length = cs.length + 1) :
    ∃ t, s.rest.run cs = { t with phase := .check } ∧ s.Took cs t := by
  induction cs generalizing s with
  | nil =>
    have hnot : ¬s.length > 1 := by
      rw [hl]
      simp
    refine ⟨s, ?_, rfl, rfl, rfl, rfl, rfl, rfl, by simp, rfl, ho, by simp [Decoded.text], by simp⟩
    simp [KRecv.run, KRecv.rest, hnot]
  | cons c cs ih =>
    have hlen : s.length > 1 := by
      rw [hl, length_cons]
      omega
    have hctrl := hc c mem_cons_self
    have htook := absorb_spec ho c
    have hnext : (({ s with sum := s.sum + c.toNat, length := s.length - 1 } : KRecv).absorb c).length =
        cs.length + 1 := by
      rw [htook.length, hl]
      simp
    obtain ⟨t, hrun, ht⟩ := ih (fun d hd => hc d (mem_cons_of_mem c hd)) htook.order hnext
    refine ⟨t, ?_, htook.trans ht⟩
    rw [← hrun, run_cons]
    congr 1
    have hrest : s.rest = { s with phase := .data } := by simp [KRecv.rest, hlen]
    rw [hrest]
    simp only [KRecv.step, hctrl, Bool.false_eq_true, if_false]
    exact rest_absorb { s with sum := s.sum + c.toNat, length := s.length - 1 } c .data

theorem pushParm_foldl (cs : List UInt8) : cs.foldl pushParm [] = cs.take 19 := by
  induction cs using List.reverseRecOn with
  | nil => rfl
  | append_singleton cs c ih =>
    rw [foldl_append, ih]
    simp only [foldl_cons, foldl_nil, pushParm, sendDataSize, length_take]
    rcases lt_or_ge cs.length 19 with hlt | hge
    · rw [if_neg (by omega), take_of_length_le (by omega), take_of_length_le (by
        rw [length_append, length_singleton]
        omega)]
    · rw [if_pos (by omega), dropLast_concat, take_append_of_le_length hge]

theorem run_sent (hs : s.Idle) (hp : p.Fits long) (hn : n < 64) : s.Accepted p n (s.run (p.sent n long)) := by
  obtain ⟨t, hhead, hnum, hsum, hlength, hstate⟩ := run_head hs hp hn
  obtain ⟨u, hdata, htook⟩ := run_data hp.2.1 hnum.order hlength
  have hcheck : u.sum = sumOf (p.head n long ++ p.data) := by
    rw [htook.sum, hsum, sumOf_append]
  have hrun : s.run (p.sent n long) = ({ u with phase := .last } : KRecv).accept := by
    have hsplit : p.sent n long = (startChar :: p.head n long) ++ (p.data ++
        [checkChar (sumOf (p.head n long ++ p.data)), endChar]) := by
      simp [Packet.sent]
    rw [hsplit, run_append, hhead, run_append, hdata]
    simp [KRecv.run, KRecv.step, hcheck, control_checkChar]
  have hbase : u.before = s.base n := htook.before.trans hnum.before
  have hquote : u.hisQuote = s.hisQuote := htook.quote.trans hnum.quote
  have hreplies : u.replies = s.replies := htook.replies.trans hnum.replies
  have hseq : u.n = n := htook.n.trans hnum.n
  have hlast : u.lastN = some n := htook.lastN.trans hnum.lastN
  have hkind : u.kState = p.type := htook.kState.trans hstate
  have hnow := htook.now
  have hparms := htook.parms
  rw [hstate, hnum.now, hnum.quote] at hnow
  rw [hstate, hnum.parms] at hparms
  rw [hrun]
  unfold KRecv.accept
  by_cases hsend : p.type = sendType
  · have hnd : ¬p.type = dataType := by
      rw [hsend]
      decide
    have hnb : ¬p.type = breakType := by
      rw [hsend]
      decide
    rw [if_neg hnd] at hnow
    rw [if_pos hsend, pushParm_foldl] at hparms
    rw [if_pos (hkind.trans hsend)]
    have htake : Content.take ⟨s.base n, s.hisQuote⟩ p = ⟨s.base n, p.data[5]?.getD kEscape⟩ := if_pos hsend
    refine ⟨?_, hlast, hbase, ?_, ?_, htook.order, fun _ => ⟨rfl, rfl⟩, fun h => absurd h hnb⟩
    · change u.replies ++ [Reply.ack u.n] = _
      rw [hreplies, hseq]
    · rw [htake]
      exact hnow
    · rw [htake]
      change u.parms[5]?.getD kEscape = _
      rw [hparms, List.getElem?_take_of_lt (by omega)]
  · rw [if_neg fun h => hsend (hkind.symm.trans h)]
    have hdone : (Content.take ⟨s.base n, s.hisQuote⟩ p).data = u.now ∧
        (Content.take ⟨s.base n, s.hisQuote⟩ p).quote = u.hisQuote := by
      unfold Content.take
      rw [if_neg hsend, hnow]
      split
      next h => exact ⟨rfl, hquote.symm⟩
      next h => exact ⟨rfl, hquote.symm⟩
    by_cases hb : p.type = breakType
    · rw [if_pos (hkind.trans hb)]
      refine ⟨?_, hlast, hbase, hdone.1.symm, hdone.2.symm, htook.order, fun h => absurd hb h,
        fun _ => rfl⟩
      rw [hreplies, hseq]
    · rw [if_neg fun h => hb (hkind.symm.trans h)]
      refine ⟨?_, hlast, hbase, hdone.1.symm, hdone.2.symm, htook.order, fun _ => ⟨rfl, rfl⟩,
        fun h => absurd h hb⟩
      change u.replies ++ [Reply.ack u.n] = _
      rw [hreplies, hseq]

end

end UBoot.Kermit
