import UBoot.UsbEp0

namespace UBoot.Ep0

open List

variable {v v' : Vars} {buf b whole : List UInt8} {n num : Nat} {desc : SetupData} {next : Ep0State}

theorem wrPktEp0_eq (h : n + num ≤ buf.length) : wrPktEp0 buf n num = some ((buf.drop n).take num) := if_pos h

/-- What is under way: the whole of the answer, and how many bytes of it have been written. -/
def Vars.pending (v : Vars) : Option (List UInt8 × Nat) :=
  match v.ep0State with
  | .gdDev0 => some (descDev, 0)
  | .gdDev1 => some (descDev, 8)
  | .gdDev2 => some (descDev, 16)
  | .gdCfg0 => some (longConf, 0)
  | .gdCfg1 => some (longConf, 8)
  | .gdCfg2 => some (longConf, 16)
  | .gdCfg3 => some (longConf, 24)
  | .gdCfg4 => some (longConf, 32)
  | .gdCfgOnly0 => some (descConf, 0)
  | .gdCfgOnly1 => some (descConf, 8)
  | .gdIfOnly0 => some (descIf, 0)
  | .gdIfOnly1 => some (descIf, 8)
  | .gdEp3Only0 => some (descEndpt3, 0)
  | .gdStrI0 => some (descStr0, 0)
  | .gdStrI1 => some (descStr1, v.devReqRSubState * 8)
  | .gdStrI2 => some (descStr2, v.devReqRSubState * 8)
  | _ => none

theorem pending_ne_nil (h : v.pending = some (whole, n)) : whole ≠ [] := by
  unfold Vars.pending at h
  split at h
  all_goals cases h
  all_goals decide

def Vars.Placed (v : Vars) : Prop := v.devReqRSubState ≤ 6

/-- The bytes are the next packet of what is under way, which is then at its end or still under way. -/
structure GoesOn (whole : List UInt8) (n : Nat) (b : List UInt8) (v' : Vars) : Prop where
  bytes : b = (whole.drop n).take 8
  rest : v'.ep0State = .init ∨ v'.pending = some (whole, n + b.length)

theorem GoesOn.joined (h : GoesOn whole n b v') : whole.take n ++ b = whole.take (n + b.length) := by
  rw [h.bytes, ← take_add, take_eq_take_iff, length_take, length_drop]
  omega

/-- A state whose answer stands at `n`. -/
def Stands (whole : List UInt8) (n : Nat) (here : Ep0State) : Prop :=
  ∀ w : Vars, w.ep0State = here → w.pending = some (whole, n)

theorem packet_goesOn {bytes : Option (List UInt8)} (hplace : v.Placed) (hb : bytes = some ((whole.drop n).take 8))
    (hnext : next = .init ∨ n + 8 ≤ whole.length ∧ Stands whole (n + 8) next) :
    ∃ b v', packet v next bytes = some (b, v') ∧ v'.Placed ∧ GoesOn whole n b v' := by
  subst hb
  refine ⟨_, _, rfl, hplace, rfl, ?_⟩
  rcases hnext with hinit | ⟨hlen, hstands⟩
  · exact .inl hinit
  · have hbytes : ((whole.drop n).take 8).length = 8 := by
      rw [length_take, length_drop]
      omega
    rw [hbytes]
    exact .inr (hstands _ rfl)

theorem strPacket_goesOn {str : List UInt8} {here : Ep0State} (hlen : str.length = 50) (hplace : v.Placed)
    (hhere : ∀ w : Vars, w.ep0State = here → w.pending = some (str, w.devReqRSubState * 8)) :
    ∃ b v', strPacket v str here = some (b, v') ∧ v'.Placed ∧ GoesOn str (v.devReqRSubState * 8) b v' := by
  have hle : v.devReqRSubState ≤ 6 := hplace
  unfold strPacket
  rw [hlen]
  by_cases hmore : v.devReqRSubState < 6
  · rw [if_pos (by omega), wrPktEp0_eq (by omega)]
    refine ⟨_, _, rfl, hmore, rfl, .inr ((hhere _ rfl).trans ?_)⟩
    have hbytes : ((str.drop (v.devReqRSubState * 8)).take 8).length = 8 := by
      rw [length_take, length_drop]
      omega
    rw [hbytes, ← Nat.succ_mul]
  · have hlast : v.devReqRSubState = 6 := by omega
    have hshort : (str.drop 48).take 2 = (str.drop 48).take 8 := by
      rw [take_of_length_le (by simp [hlen]), take_of_length_le (by simp [hlen])]
    rw [if_neg (by omega), hlast, wrPktEp0_eq (by omega)]
    exact ⟨_, _, rfl, Nat.zero_le 6, hshort, .inl rfl⟩

theorem handleDevReqR_goesOn (hplace : v.Placed) (hpending : v.pending = some (whole, n)) :
    ∃ b v', handleDevReqR v = some (b, v') ∧ v'.Placed ∧ GoesOn whole n b v' := by
  have stands : ∀ {l : List UInt8} {k : Nat} {here : Ep0State},
      (∀ w : Vars, ({ w with ep0State := here } : Vars).pending = some (l, k)) → Stands l k here := by
    intro l k here h w hw
    rw [← h w, ← hw]
  unfold Vars.pending at hpending
  unfold handleDevReqR
  cases hstate : v.ep0State <;> rw [hstate] at hpending <;> simp only [reduceCtorEq] at hpending
  all_goals cases hpending
  case gdDev0 | gdDev1 | gdCfg0 | gdCfg1 | gdCfg2 | gdCfg3 | gdCfgOnly0 | gdIfOnly0 =>
    exact packet_goesOn hplace (by decide) (.inr ⟨by decide, stands fun w => rfl⟩)
  case gdDev2 | gdCfg4 | gdCfgOnly1 | gdIfOnly1 | gdEp3Only0 =>
    exact packet_goesOn hplace (by decide) (.inl rfl)
  case gdStrI0 =>
    exact ⟨_, _, rfl, Nat.zero_le 6, rfl, .inl rfl⟩
  case gdStrI1 | gdStrI2 =>
    refine strPacket_goesOn rfl hplace fun w hw => ?_
    unfold Vars.pending
    rw [hw]

theorem handleDevReqR_idle (hplace : v.Placed) (hpending : v.pending = none) :
    ∃ b v', handleDevReqR v = some (b, v') ∧ v'.Placed ∧ v'.ep0State = .init ∧ (b = [] ↔ v.ep0State = .init) := by
  unfold Vars.pending at hpending
  unfold handleDevReqR
  cases hstate : v.ep0State <;> rw [hstate] at hpending <;> simp only [reduceCtorEq] at hpending
  case init => exact ⟨[], v, rfl, hplace, hstate, by simp⟩
  all_goals exact ⟨_, _, rfl, hplace, rfl, by simp⟩

theorem handleDevReqR_some (hplace : v.Placed) : ∃ b v', handleDevReqR v = some (b, v') ∧ v'.Placed := by
  cases hpending : v.pending with
  | none =>
    obtain ⟨b, v', heq, hp, -⟩ := handleDevReqR_idle hplace hpending
    exact ⟨b, v', heq, hp⟩
  | some p =>
    obtain ⟨b, v', heq, hp, -⟩ := handleDevReqR_goesOn hplace hpending
    exact ⟨b, v', heq, hp⟩

theorem handleDevReqR_quiet (hstate : v.ep0State = .init ∨ v.ep0State = .gdCfg4)
    (h : handleDevReqR v = some (b, v')) : b = [] ∧ v'.ep0State = .init := by
  unfold handleDevReqR at h
  rcases hstate with hstate | hstate
  · rw [hstate] at h
    cases h
    exact ⟨rfl, hstate⟩
  · rw [hstate] at h
    cases h
    exact ⟨rfl, rfl⟩

theorem handleDevReqR_nil (hplace : v.Placed) (h : handleDevReqR v = some ([], v')) :
    v.ep0State = .init ∨ v.ep0State = .gdCfg4 := by
  cases hpending : v.pending with
  | none =>
    obtain ⟨b, w, heq, -, -, hb⟩ := handleDevReqR_idle hplace hpending
    rw [h] at heq
    cases heq
    exact .inl (hb.mp rfl)
  | some p =>
    obtain ⟨b, w, heq, -, hgo⟩ := handleDevReqR_goesOn (n := p.2) hplace hpending
    rw [h] at heq
    cases heq
    have hlen : p.1.length ≤ p.2 := by
      have hnil := congrArg List.length hgo.bytes
      rw [length_nil, length_take, length_drop] at hnil
      omega
    have hle : v.devReqRSubState ≤ 6 := hplace
    unfold Vars.pending at hpending
    cases hstate : v.ep0State <;> rw [hstate] at hpending <;> simp only [reduceCtorEq] at hpending
    all_goals
      rw [← Option.some.inj hpending] at hlen
    case gdCfg4 => exact .inr rfl
    case gdStrI1 | gdStrI2 =>
      change 50 ≤ v.devReqRSubState * 8 at hlen
      omega
    all_goals exact absurd hlen (by decide)

theorem handleDevReqF_place : (handleDevReqF desc v).devReqRSubState = v.devReqRSubState := by
  unfold handleDevReqF handleGetDescReq handleClrFeatureReq handleSetFeatureReq handleFeatureReq handleGetStatusReq
  repeat' split
  all_goals rfl

theorem handleDevReqF_starts (h : desc.descriptor = some whole) :
    whole = [] ∧ (handleDevReqF desc v).ep0State = v.ep0State ∨
      ∃ n, (handleDevReqF desc v).pending = some (whole, n) ∧
        (desc.AsksString ∧ n = v.devReqRSubState * 8 ∨ ¬desc.AsksString ∧ n = 0) := by
  unfold SetupData.descriptor at h
  split at h
  next hreq =>
    have hget : handleDevReqF desc v = handleGetDescReq desc v := by
      unfold handleDevReqF
      rw [hreq]
      rfl
    rw [hget]
    unfold handleGetDescReq SetupData.AsksString
    split at h
    next hkind =>
      cases h
      rw [hkind]
      exact .inr ⟨0, rfl, .inr ⟨by omega, rfl⟩⟩
    next hkind =>
      cases h
      rw [hkind]
      refine .inr ⟨0, ?_, .inr ⟨by omega, rfl⟩⟩
      by_cases hlong : 0x9 < desc.bLengthL.toNat + desc.bLengthH.toNat <<< 8
      · rw [if_pos hlong, if_pos hlong]
        rfl
      · rw [if_neg hlong, if_neg hlong]
        rfl
    next hkind =>
      rw [hkind]
      split at h
      next hidx =>
        cases h
        rw [hidx]
        exact .inr ⟨0, rfl, .inr ⟨by omega, rfl⟩⟩
      next hidx =>
        cases h
        rw [hidx]
        exact .inr ⟨_, rfl, .inl ⟨⟨hreq, rfl, .inl rfl⟩, rfl⟩⟩
      next hidx =>
        cases h
        rw [hidx]
        exact .inr ⟨_, rfl, .inl ⟨⟨hreq, rfl, .inr rfl⟩, rfl⟩⟩
      · cases h
        exact .inl ⟨rfl, rfl⟩
    next hkind =>
      cases h
      rw [hkind]
      exact .inr ⟨0, rfl, .inr ⟨by omega, rfl⟩⟩
    next hkind =>
      rw [hkind]
      split at h
      next hep =>
        cases h
        refine .inr ⟨0, ?_, .inr ⟨by omega, rfl⟩⟩
        rw [if_pos hep]
        rfl
      next hep =>
        cases h
        refine .inl ⟨rfl, ?_⟩
        rw [if_neg hep]
    · cases h
  · cases h

/-- What a state says of its answer: it is over, or the next packet goes on with it. -/
structure Bus.Tracks (s : Bus) : Prop where
  placed : s.vars.Placed
  follows : ∀ desc bytes whole, s.answer = some (desc, bytes) → desc.descriptor = some whole →
    bytes <+: whole ∧ (s.vars.ep0State = .init ∨ ∃ n, s.vars.pending = some (whole, n) ∧ bytes = whole.take n)

variable {s t : Bus} {e : Interrupt} {csr : Ep0Csr}

theorem Bus.Tracks.truthful (h : s.Tracks) : s.Truthful :=
  fun desc bytes whole ha hd => (h.follows desc bytes whole ha hd).1

theorem tracks_on (h : s.Tracks) (hr : handleDevReqR s.vars = some (b, v')) :
    Bus.Tracks ⟨v', s.answer.map fun a => (a.1, a.2 ++ b)⟩ := by
  obtain ⟨b₀, w, heq, hplaced⟩ := handleDevReqR_some h.placed
  obtain ⟨rfl, rfl⟩ := Prod.mk.inj (Option.some.inj (hr.symm.trans heq))
  refine ⟨hplaced, ?_⟩
  intro desc bytes whole ha hd
  obtain ⟨⟨desc₀, sofar⟩, hsofar, hpair⟩ := Option.map_eq_some_iff.mp ha
  obtain ⟨rfl, rfl⟩ := Prod.mk.inj hpair
  obtain ⟨hstarts, hinit | ⟨n, hpending, htake⟩⟩ := h.follows desc₀ sofar whole hsofar hd
  · have hidle : s.vars.pending = none := by
      unfold Vars.pending
      rw [hinit]
    obtain ⟨b', w', heq', -, hover, hb⟩ := handleDevReqR_idle h.placed hidle
    obtain ⟨rfl, rfl⟩ := Prod.mk.inj (Option.some.inj (hr.symm.trans heq'))
    have hnil : b = [] := hb.mpr hinit
    rw [hnil, append_nil]
    exact ⟨hstarts, .inl hover⟩
  · obtain ⟨b', w', heq', -, hgo⟩ := handleDevReqR_goesOn h.placed hpending
    obtain ⟨rfl, rfl⟩ := Prod.mk.inj (Option.some.inj (hr.symm.trans heq'))
    have hjoined : sofar ++ b = whole.take (n + b.length) := by
      rw [htake]
      exact hgo.joined
    rw [hjoined]
    have hstarts : whole.take (n + b.length) <+: whole := take_prefix _ _
    exact ⟨hstarts, hgo.rest.imp_right fun hrest => ⟨_, hrest, rfl⟩⟩

theorem tracks_over (h : s.Tracks) (hplaced : v.Placed) (hinit : v.ep0State = .init) : Bus.Tracks ⟨v, s.answer⟩ :=
  ⟨hplaced, fun desc bytes whole ha hd => ⟨(h.follows desc bytes whole ha hd).1, .inl hinit⟩⟩

theorem tracks_request (h : s.Tracks) (hstring : desc.AsksString → s.vars.devReqRSubState = 0)
    (hnothing : desc.AsksNothing → s.vars.ep0State = .init ∨ s.vars.ep0State = .gdCfg4)
    (hr : handleDevReqR (handleDevReqF desc s.vars) = some (b, v')) : Bus.Tracks ⟨v', some (desc, b)⟩ := by
  have hplaced : (handleDevReqF desc s.vars).Placed := by
    unfold Vars.Placed
    rw [handleDevReqF_place]
    exact h.placed
  obtain ⟨b₀, w, heq, hplaced'⟩ := handleDevReqR_some hplaced
  obtain ⟨rfl, rfl⟩ := Prod.mk.inj (Option.some.inj (hr.symm.trans heq))
  refine ⟨hplaced', ?_⟩
  intro desc₀ bytes whole ha hd
  cases ha
  rcases handleDevReqF_starts (v := s.vars) hd with ⟨hnil, hsame⟩ | ⟨n, hpending, hn⟩
  · subst hnil
    obtain ⟨hb, hinit⟩ := handleDevReqR_quiet (by rw [hsame]; exact hnothing hd) hr
    rw [hb]
    have hstarts : [] <+: ([] : List UInt8) := nil_prefix
    exact ⟨hstarts, .inl hinit⟩
  · obtain ⟨b', w', heq', -, hgo⟩ := handleDevReqR_goesOn hplaced hpending
    obtain ⟨rfl, rfl⟩ := Prod.mk.inj (Option.some.inj (hr.symm.trans heq'))
    have hzero : n = 0 := by
      rcases hn with ⟨hask, hn⟩ | ⟨-, hn⟩
      · rw [hn, hstring hask]
      · exact hn
    subst hzero
    have hjoined : b = whole.take (0 + b.length) := hgo.joined
    refine ⟨?_, hgo.rest.imp_right fun hrest => ⟨_, hrest, hjoined⟩⟩
    rw [hjoined]
    exact take_prefix _ _

theorem step_request (hacc : csr.Accepts) : step s (.ep0 csr desc) =
    (handleDevReqR (handleDevReqF desc s.vars)).map fun r => (r.1, ⟨r.2, some (desc, r.1)⟩) := by
  obtain ⟨hend, hstall, hready⟩ := id hacc
  change (ep0Handler csr desc s.vars).map _ = _
  simp only [if_pos hacc]
  unfold ep0Handler
  rw [hend, hstall, hready]
  rfl

theorem step_ended (h : csr.setupEnd = true ∨ csr.sentStall = true) :
    step s (.ep0 csr desc) = some ([], ⟨{ s.vars with ep0State := .init }, s.answer⟩) := by
  have hacc : ¬csr.Accepts := by
    rintro ⟨hend, hstall, -⟩
    rcases h with h | h
    · exact absurd (hend.symm.trans h) (by decide)
    · exact absurd (hstall.symm.trans h) (by decide)
  have hsame : (s.answer.map fun a => (a.1, a.2 ++ [])) = s.answer := by
    cases s.answer with
    | none => rfl
    | some a => exact congrArg (fun l => some (a.1, l)) (append_nil a.2)
  have hhandler : ep0Handler csr desc s.vars = some ([], { s.vars with ep0State := .init }) := by
    unfold ep0Handler
    by_cases hend : csr.setupEnd = true
    · rw [if_pos hend]
    · rw [if_neg hend, if_pos (h.resolve_left hend)]
  change (ep0Handler csr desc s.vars).map _ = _
  rw [hhandler, Option.map_some, if_neg hacc, hsame]

theorem step_on (hend : csr.setupEnd = false) (hstall : csr.sentStall = false) (hready : csr.outPktReady = false) :
    step s (.ep0 csr desc) =
      (handleDevReqR s.vars).map fun r => (r.1, ⟨r.2, s.answer.map fun a => (a.1, a.2 ++ r.1)⟩) := by
  have hacc : ¬csr.Accepts := fun hacc => absurd (hready.symm.trans hacc.2.2) (by decide)
  change (ep0Handler csr desc s.vars).map _ = _
  simp only [if_neg hacc]
  unfold ep0Handler
  rw [hend, hstall, hready]
  rfl

theorem request_placed (h : s.Tracks) : (handleDevReqF desc s.vars).Placed := by
  unfold Vars.Placed
  rw [handleDevReqF_place]
  exact h.placed

theorem step_fresh (h : s.Tracks) (hfresh : s.Fresh e) : ∃ b t, step s e = some (b, t) ∧ t.Truthful ∧ t.Tracks := by
  cases e with
  | reset =>
    have htracks := tracks_over (v := reconfigUsbd s.vars) h h.placed rfl
    exact ⟨[], _, rfl, htracks.truthful, htracks⟩
  | ep0 csr desc =>
    by_cases hacc : csr.Accepts
    · obtain ⟨b, v', hr, -⟩ := handleDevReqR_some (request_placed h)
      obtain ⟨hstring, hnothing⟩ := hfresh hacc
      have htracks := tracks_request h hstring hnothing hr
      rw [step_request hacc, hr]
      exact ⟨b, _, rfl, htracks.truthful, htracks⟩
    · by_cases hover : csr.setupEnd = true ∨ csr.sentStall = true
      · have htracks := tracks_over (v := { s.vars with ep0State := .init }) h h.placed rfl
        rw [step_ended hover]
        exact ⟨[], _, rfl, htracks.truthful, htracks⟩
      · obtain ⟨hend, hstall⟩ := not_or.mp hover
        have hend := Bool.eq_false_iff.mpr hend
        have hstall := Bool.eq_false_iff.mpr hstall
        have hready : csr.outPktReady = false := Bool.eq_false_iff.mpr fun hready => hacc ⟨hend, hstall, hready⟩
        obtain ⟨b, v', hr, -⟩ := handleDevReqR_some h.placed
        have htracks := tracks_on h hr
        rw [step_on hend hstall hready, hr]
        exact ⟨b, _, rfl, htracks.truthful, htracks⟩

theorem stale_string {k : Nat} (hpos : k ≠ 0) (hle : k ≤ 6) :
    ¬(descStr1.drop (k * 8)).take 8 <+: descStr1 ∧ ¬(descStr2.drop (k * 8)).take 8 <+: descStr2 := by
  have hcases : k = 1 ∨ k = 2 ∨ k = 3 ∨ k = 4 ∨ k = 5 ∨ k = 6 := by omega
  rcases hcases with rfl | rfl | rfl | rfl | rfl | rfl <;> decide

theorem asksString_descriptor (h : desc.AsksString) :
    desc.descriptor = some descStr1 ∨ desc.descriptor = some descStr2 := by
  obtain ⟨hreq, hkind, hidx | hidx⟩ := h
  · unfold SetupData.descriptor
    rw [if_pos hreq, hkind, hidx]
    exact .inl rfl
  · unfold SetupData.descriptor
    rw [if_pos hreq, hkind, hidx]
    exact .inr rfl

theorem not_truthful_string (h : s.Tracks) (hask : desc.AsksString) (hpos : s.vars.devReqRSubState ≠ 0)
    (hr : handleDevReqR (handleDevReqF desc s.vars) = some (b, v')) : ¬Bus.Truthful ⟨v', some (desc, b)⟩ := by
  intro htrue
  obtain ⟨hone, htwo⟩ := stale_string hpos h.placed
  have hfind : ∀ whole, whole ≠ [] → desc.descriptor = some whole →
      b = (whole.drop (s.vars.devReqRSubState * 8)).take 8 := by
    intro whole hne hd
    rcases handleDevReqF_starts (v := s.vars) hd with ⟨hnil, -⟩ | ⟨n, hpending, ⟨-, hn⟩ | ⟨hno, -⟩⟩
    · exact absurd hnil hne
    · obtain ⟨b', w, heq, -, hgo⟩ := handleDevReqR_goesOn (request_placed h) hpending
      obtain ⟨rfl, rfl⟩ := Prod.mk.inj (Option.some.inj (hr.symm.trans heq))
      rw [hgo.bytes, hn]
    · exact absurd hask hno
  rcases asksString_descriptor hask with hd | hd
  · have hstarts := htrue desc b descStr1 rfl hd
    rw [hfind descStr1 (by decide) hd] at hstarts
    exact hone hstarts
  · have hstarts := htrue desc b descStr2 rfl hd
    rw [hfind descStr2 (by decide) hd] at hstarts
    exact htwo hstarts

theorem not_truthful_nothing (h : s.Tracks) (hask : desc.AsksNothing)
    (hstate : ¬(s.vars.ep0State = .init ∨ s.vars.ep0State = .gdCfg4))
    (hr : handleDevReqR (handleDevReqF desc s.vars) = some (b, v')) : ¬Bus.Truthful ⟨v', some (desc, b)⟩ := by
  intro htrue
  have hnil : b = [] := prefix_nil.mp (htrue desc b [] rfl hask)
  rw [hnil] at hr
  rcases handleDevReqF_starts (v := s.vars) hask with ⟨-, hsame⟩ | ⟨n, hpending, -⟩
  · rw [← hsame] at hstate
    exact hstate (handleDevReqR_nil (request_placed h) hr)
  · exact absurd rfl (pending_ne_nil hpending)

theorem step_stale (h : s.Tracks) (hstale : ¬s.Fresh e) (ht : step s e = some (b, t)) : ¬t.Truthful := by
  cases e with
  | reset => exact absurd trivial hstale
  | ep0 csr desc =>
    obtain ⟨hacc, hstale⟩ := Classical.not_imp.mp hstale
    obtain ⟨b₀, v', hr, -⟩ := handleDevReqR_some (request_placed h)
    rw [step_request hacc, hr] at ht
    cases ht
    by_cases hstring : desc.AsksString → s.vars.devReqRSubState = 0
    · obtain ⟨hask, hstate⟩ := Classical.not_imp.mp fun hnothing => hstale ⟨hstring, hnothing⟩
      exact not_truthful_nothing h hask hstate hr
    · obtain ⟨hask, hpos⟩ := Classical.not_imp.mp hstring
      exact not_truthful_string h hask hpos hr

/-- The answers are prefixes in all the states of a run just where each interrupt comes fresh. -/
theorem answers_truthful_iff (es : List Interrupt) :
    Runs.Along step (fun _ _ _ t => t.Truthful) start es ↔ Runs.Meets step Bus.Fresh start es := by
  have hstart : start.Tracks := ⟨Nat.zero_le 6, fun _ _ _ ha => by cases ha⟩
  exact Runs.run_along_iff (fun s e hs he => step_fresh hs he) (fun s e b t hs he ht => step_stale hs he ht) hstart

def askTwice : List Interrupt :=
  let getString : SetupData := ⟨0x80, 6, 1, 3, 0x09, 0x04, 4, 0⟩
  [.ep0 ⟨false, false, true⟩ getString, .ep0 ⟨true, false, false⟩ getString, .ep0 ⟨false, false, true⟩ getString]

theorem string_asked_twice : ¬Runs.Along step (fun _ _ _ t => t.Truthful) start askTwice := by
  rintro ⟨_, t₁, h₁, -, _, t₂, h₂, -, _, t₃, h₃, htrue, -⟩
  cases h₁
  cases h₂
  cases h₃
  have hstarts := htrue _ _ _ rfl rfl
  exact absurd hstarts (by decide)

end UBoot.Ep0
