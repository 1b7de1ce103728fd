import Mathlib.Data.List.TakeWhile
import UBoot.Dns

namespace UBoot.Dns

open Cells Loops Relation

variable {pkt : List UInt8} {p q i n len : Nat}

theorem word_some (h : i + 2 ≤ pkt.length) : ∃ n, word pkt i = some n := by
  unfold word
  rw [List.getElem?_eq_getElem (by omega), List.getElem?_eq_getElem (by omega)]
  exact ⟨_, rfl⟩

theorem word_in (h : word pkt i = some n) : i + 2 ≤ pkt.length := by
  obtain ⟨_, _, h⟩ := Option.bind_eq_some_iff.mp h
  obtain ⟨_, hlow, _⟩ := Option.bind_eq_some_iff.mp h
  exact (List.getElem?_eq_some_iff.mp hlow).1

theorem debugLoop_ends_iff : (debugLoop len).Ends ↔ len ≤ 65532 := by
  unfold debugLoop
  constructor
  · intro h
    by_contra hlong
    refine Comp.loop_for_ever (fun i => i % 4 = 0 ∧ i < 65536) (fun i hi => ?_) ⟨rfl, by decide⟩ h
    have hin : i < len := by omega
    refine ⟨_, Comp.returns_pure_iff.mpr (if_pos hin).symm, ?_, ?_⟩
    · omega
    · exact Nat.mod_lt _ (by decide)
  · intro hshort
    refine Comp.loop_ends (fun i => i ≤ len + 3) (fun i => len + 3 - i) (fun i _ => Comp.ends_pure _) ?_ (Nat.zero_le _)
    intro i j hi hj
    have hstep := Comp.returns_pure_iff.mp hj
    unfold debugRound at hstep
    split at hstep
    next hin =>
      obtain rfl := Sum.inl.inj hstep
      constructor
      · omega
      · omega
    · cases hstep

/-- The first place from `p` on that holds a NUL, or `stop` where there is none in front of it. -/
structure NulFrom (pkt : List UInt8) (stop p q : Nat) : Prop where
  behind : p ≤ q
  within : q ≤ stop
  nul : q = stop ∨ pkt[q]? = some 0
  first : ∀ i, p ≤ i → i < q → pkt[i]? ≠ some 0

theorem NulFrom.unique (h : NulFrom pkt n p q) (h' : NulFrom pkt n p i) : q = i := by
  rcases lt_trichotomy q i with hlt | heq | hgt
  · rcases h.nul with rfl | hzero
    · exact absurd h'.within (not_le.mpr hlt)
    · exact absurd hzero (h'.first q h.behind hlt)
  · exact heq
  · rcases h'.nul with rfl | hzero
    · exact absurd h.within (not_le.mpr hgt)
    · exact absurd hzero (h.first i h'.behind hgt)

theorem nulFrom_scan (hp : p ≤ n) (hn : n ≤ pkt.length) :
    NulFrom pkt n p (p + (((pkt.drop p).take (n - p)).takeWhile (· != 0)).length) := by
  have hsplit := List.takeWhile_append_dropWhile (p := fun c : UInt8 => c != 0) (l := (pkt.drop p).take (n - p))
  have hbyte : ∀ i, i < n - p → pkt[p + i]? = (((pkt.drop p).take (n - p)).takeWhile (· != 0) ++
      ((pkt.drop p).take (n - p)).dropWhile (· != 0))[i]? := by
    intro i hi
    rw [hsplit, List.getElem?_take_of_lt hi, List.getElem?_drop]
  have hlen := congrArg List.length hsplit
  rw [List.length_append, List.length_take, List.length_drop] at hlen
  refine ⟨Nat.le_add_right _ _, by omega, ?_, fun q hq hlt => ?_⟩
  · cases hrest : ((pkt.drop p).take (n - p)).dropWhile (· != 0) with
    | nil =>
      rw [hrest, List.length_nil] at hlen
      exact .inl (by omega)
    | cons c rest =>
      have hc := List.head?_dropWhile_not (fun c : UInt8 => c != 0) ((pkt.drop p).take (n - p))
      rw [hrest, List.length_cons] at hlen
      rw [hrest] at hc
      rw [hbyte _ (by omega), List.getElem?_append_right le_rfl, Nat.sub_self, hrest,
        List.getElem?_cons_zero, bne_eq_false_iff_eq.mp hc]
      exact .inr rfl
  · obtain ⟨i, rfl⟩ := Nat.exists_eq_add_of_le hq
    intro hzero
    rw [hbyte i (by omega), List.getElem?_append_left (by omega)] at hzero
    have hne := List.mem_takeWhile_imp (List.mem_of_getElem? hzero)
    exact absurd hne (by decide)

/-- The place from which the fields of the answer that begins at `p` are counted: `p` itself for a name that is a
pointer, and one less than the end of a name of labels, the last twelve bytes of the payload being kept out of it. -/
inductive RecordAt (pkt : List UInt8) (p : Nat) : Nat → Prop where
  | pointer (h : pkt[p]? = some 0xc0) : RecordAt pkt p p
  | labels (h : pkt[p]? ≠ some 0xc0) {q : Nat} (hq : NulFrom pkt (pkt.length - 12) p q) : RecordAt pkt p (q - 1)

def record (pkt : List UInt8) (p : Nat) : Nat := if pkt[p]? = some 0xc0 then p else skipName pkt p - 1

theorem record_of {c : UInt8} (h : pkt[p]? = some c) :
    (if c ≠ 0xc0 then skipName pkt p - 1 else p) = record pkt p := by
  unfold record
  rw [h, ite_not]
  exact if_congr (Option.some.injEq c 0xc0 ▸ Iff.rfl) rfl rfl

theorem skipName_nulFrom (hin : p + 12 < pkt.length) : NulFrom pkt (pkt.length - 12) p (skipName pkt p) := by
  apply nulFrom_scan
  · omega
  · omega

theorem recordAt_iff (hin : p + 12 < pkt.length) : RecordAt pkt p q ↔ q = record pkt p := by
  have hname := skipName_nulFrom hin
  unfold record
  split
  next hpointer =>
    constructor
    · rintro (_ | hlabels)
      · rfl
      · exact absurd hpointer hlabels
    · rintro rfl
      exact .pointer hpointer
  next hlabels =>
    constructor
    · rintro (hpointer | ⟨_, hq⟩)
      · exact absurd hpointer hlabels
      · rw [hq.unique hname]
    · rintro rfl
      exact .labels hlabels hname

theorem record_in (hpos : 1 ≤ p) (hin : p + 12 < pkt.length) :
    p ≤ record pkt p + 1 ∧ record pkt p + 12 < pkt.length := by
  have hname := skipName_nulFrom hin
  have hbehind := hname.behind
  have hwithin := hname.within
  unfold record
  split
  · omega
  · omega

def AnswerNext (pkt : List UInt8) (p q : Nat) : Prop :=
  p + 12 < pkt.length ∧ ∃ r, RecordAt pkt p r ∧ word pkt (r + 2) = some dnsCnameRecord ∧
    ∃ dlen, word pkt (r + 10) = some dlen ∧ q = r + 12 + dlen

/-- The four bytes of an address that is found lie in the payload. -/
def AnswerGood (pkt : List UInt8) (p : Nat) : Prop :=
  p + 12 < pkt.length → ∀ r, RecordAt pkt p r → word pkt (r + 2) = some dnsARecord → r + 16 ≤ pkt.length

theorem answerNext_iff (hin : p + 12 < pkt.length) : AnswerNext pkt p q ↔
    word pkt (record pkt p + 2) = some dnsCnameRecord ∧
      ∃ dlen, word pkt (record pkt p + 10) = some dlen ∧ q = record pkt p + 12 + dlen := by
  constructor
  · rintro ⟨_, r, hr, hnext⟩
    rwa [(recordAt_iff hin).mp hr] at hnext
  · intro hnext
    exact ⟨hin, _, (recordAt_iff hin).mpr rfl, hnext⟩

theorem answerGood_iff (hin : p + 12 < pkt.length) : AnswerGood pkt p ↔
    (word pkt (record pkt p + 2) = some dnsARecord → record pkt p + 16 ≤ pkt.length) := by
  constructor
  · intro h
    exact h hin _ ((recordAt_iff hin).mpr rfl)
  · rintro h _ r hr
    rw [(recordAt_iff hin).mp hr]
    exact h

theorem answerAddress_iff :
    (∃ o, answerAddress pkt (some p) = some o) ↔ (p + 12 < pkt.length → p + 16 ≤ pkt.length) := by
  unfold answerAddress
  dsimp only
  split
  next hin =>
    have hlen : ∃ n, word pkt (p + 10) = some n := word_some (by omega)
    obtain ⟨dlen, hdlen⟩ := hlen
    rw [hdlen]
    simp only [Option.bind_eq_bind, Option.bind_some]
    constructor
    · rintro ⟨o, h⟩ _
      obtain ⟨ip, hip, _⟩ := Option.bind_eq_some_iff.mp h
      exact (loadAll_some hip).1.resolve_left (by decide)
    · intro h
      have hreads : Loads pkt (p + 12) 4 := .inr (h hin)
      rw [loadAll_of_loads hreads]
      exact ⟨_, rfl⟩
  next hout => exact iff_of_true ⟨_, rfl⟩ fun h => absurd h hout

theorem answerRound_cases (p : Nat) (hpos : 1 ≤ p) : (¬AnswerGood pkt p ∧ (answerRound pkt p = none ∨
      ∃ a, answerRound pkt p = some (.inr a) ∧ ¬∃ o, answerAddress pkt a = some o)) ∨
    (AnswerGood pkt p ∧ (∀ q, ¬AnswerNext pkt p q) ∧
      ∃ a, answerRound pkt p = some (.inr a) ∧ ∃ o, answerAddress pkt a = some o) ∨
    (AnswerGood pkt p ∧ ∃ t, answerRound pkt p = some (.inl t) ∧ 1 ≤ t ∧ pkt.length - t < pkt.length - p ∧
      ∀ q, AnswerNext pkt p q ↔ q = t) := by
  unfold answerRound
  split
  next hin =>
    obtain ⟨hup, hrecord⟩ := record_in hpos hin
    have hbyte : pkt[p]? = some _ := List.getElem?_eq_getElem (by omega)
    have htype : ∃ n, word pkt (record pkt p + 2) = some n := word_some (by omega)
    obtain ⟨type, htype⟩ := htype
    rw [hbyte, answerGood_iff hin, htype]
    simp only [Option.bind_eq_bind, Option.bind_some, record_of hbyte, htype, answerNext_iff hin]
    split
    next hcname =>
      have hlen : ∃ n, word pkt (record pkt p + 10) = some n := word_some (by omega)
      obtain ⟨dlen, hdlen⟩ := hlen
      rw [hdlen, hcname]
      refine .inr (.inr ⟨fun ha => ?_, _, rfl, by omega, by omega, fun q => ?_⟩)
      · exact absurd ha (by decide)
      · constructor
        · rintro ⟨_, dlen', hdlen', rfl⟩
          cases hdlen'
          rfl
        · rintro rfl
          exact ⟨rfl, dlen, rfl, rfl⟩
    next hcname =>
      have hlast : ¬some type = some dnsCnameRecord := fun h => hcname (Option.some.inj h)
      split
      next ha =>
        by_cases hgood : record pkt p + 16 ≤ pkt.length
        · exact .inr (.inl ⟨fun _ => hgood, fun q h => hlast h.1, _, rfl, answerAddress_iff.mpr fun _ => hgood⟩)
        · refine .inl ⟨fun h => hgood (h (congrArg some ha)), .inr ⟨_, rfl, fun h => ?_⟩⟩
          exact hgood (answerAddress_iff.mp h hrecord)
      next ha =>
        exact .inr (.inl ⟨fun h => absurd (Option.some.inj h) ha, fun q h => hlast h.1, _, rfl, _, rfl⟩)
  next hout =>
    exact .inr (.inl ⟨fun h => absurd h hout, fun q h => hout h.1, _, rfl, _, rfl⟩)

/-- The first NUL behind the header. -/
structure FirstNul (pkt : List UInt8) (p : Nat) : Prop where
  behind : 12 ≤ p
  nul : pkt[p]? = some 0
  first : ∀ q, 12 ≤ q → q < p → pkt[q]? ≠ some 0

theorem skipHost_nulFrom (h : 12 ≤ pkt.length) : NulFrom pkt pkt.length 12 (skipHost pkt 12) := by
  have hscan := nulFrom_scan h (le_refl pkt.length)
  rwa [List.take_of_length_le (by rw [List.length_drop])] at hscan

theorem FirstNul.skipHost (h : FirstNul pkt p) : skipHost pkt 12 = p := by
  have hin : p < pkt.length := (List.getElem?_eq_some_iff.mp h.nul).1
  have hhost : NulFrom pkt pkt.length 12 p := ⟨h.behind, le_of_lt hin, .inr h.nul, h.first⟩
  have hlong : 12 ≤ pkt.length := le_of_lt (lt_of_le_of_lt h.behind hin)
  exact (skipHost_nulFrom hlong).unique hhost

theorem skipHost_first (h : skipHost pkt 12 < pkt.length) : FirstNul pkt (skipHost pkt 12) := by
  have hhost := skipHost_nulFrom (le_of_lt (lt_of_le_of_lt (Nat.le_add_right 12 _) h))
  exact ⟨hhost.behind, hhost.nul.resolve_left (ne_of_lt h), hhost.first⟩

theorem safe_word {β : Type} {k : Nat → Comp (Option β)} : ((Comp.pure (word pkt i)).andThen k).Safe ↔
    ∃ n, word pkt i = some n ∧ (k n).Safe := by
  rw [Comp.safe_bind]
  exact exists_congr fun a => and_congr_left fun _ => Comp.returns_pure_iff.trans eq_comm

theorem parseAnswers_safe_iff : (parseAnswers pkt).Safe ↔ ∃ p, FirstNul pkt p ∧ p + 3 ≤ pkt.length ∧
    (p + 5 ≤ pkt.length → word pkt (p + 1) = some dnsARecord →
      ∀ q, ReflTransGen (AnswerNext pkt) (p + 5) q → AnswerGood pkt q) := by
  have hwalk : ∀ p, ((Comp.loop (fun p => Comp.round (answerRound pkt p)) (p + 5)).andThen fun found =>
      Comp.pure (answerAddress pkt found)).Safe ↔ ∀ q, ReflTransGen (AnswerNext pkt) (p + 5) q → AnswerGood pkt q := by
    intro p
    rw [Comp.safe_bind]
    simp only [loop_returns_some, Comp.safe_pure]
    exact finishes_such_iff id (AnswerNext pkt) (AnswerGood pkt) (fun p => 1 ≤ p) (fun p => pkt.length - p)
      answerRound_cases (by show 1 ≤ p + 5; omega)
  unfold parseAnswers
  rw [safe_word]
  constructor
  · rintro ⟨type, htype, hsafe⟩
    have hin := word_in htype
    refine ⟨_, skipHost_first (by omega), hin, fun hfive ha => ?_⟩
    rw [if_neg, hwalk] at hsafe
    · exact hsafe
    · rw [not_or, not_not]
      exact ⟨not_lt.mpr hfive, Option.some.inj (htype.symm.trans ha)⟩
  · rintro ⟨p, hfirst, hin, hrest⟩
    rw [hfirst.skipHost]
    have htype : ∃ n, word pkt (p + 1) = some n := word_some hin
    obtain ⟨type, htype⟩ := htype
    refine ⟨type, htype, ?_⟩
    split
    · exact ⟨_, Comp.returns_pure _⟩
    next hok =>
      obtain ⟨hfive, ha⟩ := not_or.mp hok
      exact (hwalk p).mpr (hrest (not_lt.mp hfive) (htype.trans (congrArg some (not_not.mp ha))))

/-- The payload has what the handler reads: the counts, a NUL behind the header with a type behind it, and the whole
address of the A record that the walk through the answers finds. -/
structure Readable (pkt : List UInt8) : Prop where
  short : pkt.length ≤ 65532
  nqueries : 6 ≤ pkt.length
  nanswers : word pkt 4 = some 1 → 8 ≤ pkt.length
  answers : word pkt 4 = some 1 → word pkt 6 ≠ some 0 → ∃ p, FirstNul pkt p ∧ p + 3 ≤ pkt.length ∧
    (p + 5 ≤ pkt.length → word pkt (p + 1) = some dnsARecord →
      ∀ q, ReflTransGen (AnswerNext pkt) (p + 5) q → AnswerGood pkt q)

theorem parseHeader_safe_iff (hshort : pkt.length ≤ 65532) : (parseHeader pkt).Safe ↔ Readable pkt := by
  unfold parseHeader
  rw [safe_word]
  constructor
  · rintro ⟨nqueries, hqueries, hsafe⟩
    refine ⟨hshort, word_in hqueries, fun hone => ?_, fun hone hsome => ?_⟩
    all_goals
      rw [hqueries] at hone
      cases hone
      rw [if_neg (not_not.mpr rfl)] at hsafe
      obtain ⟨nanswers, hanswers, hsafe⟩ := safe_word.mp hsafe
    · exact word_in hanswers
    · have hne : nanswers ≠ 0 := fun h => hsome (by rw [hanswers, h])
      rw [if_neg hne] at hsafe
      exact parseAnswers_safe_iff.mp hsafe
  · intro h
    obtain ⟨nqueries, hqueries⟩ := word_some h.nqueries
    refine ⟨nqueries, hqueries, ?_⟩
    split
    · exact ⟨_, Comp.returns_pure _⟩
    next hone =>
      have hqueries : word pkt 4 = some 1 := hqueries.trans (congrArg some (not_not.mp hone))
      obtain ⟨nanswers, hanswers⟩ := word_some (h.nanswers hqueries)
      refine safe_word.mpr ⟨nanswers, hanswers, ?_⟩
      split
      · exact ⟨_, Comp.returns_pure _⟩
      next hsome =>
        refine parseAnswers_safe_iff.mpr (h.answers hqueries fun hzero => hsome ?_)
        exact Option.some.inj (hanswers.symm.trans hzero)

theorem dnsHandler_safe_iff {dnsOurPort dest : Nat} :
    (dnsHandler dnsOurPort pkt dest).Safe ↔ dest ≠ dnsOurPort ∨ Readable pkt := by
  unfold dnsHandler
  split
  next hother => exact iff_of_true ⟨_, Comp.returns_pure _⟩ (.inl hother)
  next hours =>
    rw [or_iff_right hours]
    constructor
    · rintro ⟨o, ho⟩
      obtain ⟨u, hu, ho⟩ := Comp.returns_bind.mp ho
      exact (parseHeader_safe_iff (debugLoop_ends_iff.mp ⟨u, hu⟩)).mp ⟨o, ho⟩
    · intro h
      obtain ⟨u, hu⟩ := debugLoop_ends_iff.mpr h.short
      obtain ⟨o, ho⟩ := (parseHeader_safe_iff h.short).mpr h
      exact ⟨o, Comp.returns_bind.mpr ⟨u, hu, ho⟩⟩

/-- A query asks for the address of its name exactly if no dot is behind the last label, and the handler ends and stays
in a payload exactly if it is for another port or readable. -/
theorem dns_query_response_iff (name : HostName) (dnsOurPort : Nat) (pkt : List UInt8) (dest : Nat) :
    (decodeQuery (dnsSend name.text) = some [⟨name.labels, dnsARecord, 1⟩] ↔ name.final = false) ∧
      ((dnsHandler dnsOurPort pkt dest).Safe ↔ dest ≠ dnsOurPort ∨ Readable pkt) :=
  ⟨dnsSend_asks_iff name, dnsHandler_safe_iff⟩

/-- The name `a.` -/
def rooted : HostName := ⟨[[97]], by decide, by decide, true⟩

/-- For `a.` another type is asked for, and an empty payload is read. -/
theorem rooted_name_misread : ¬∀ (name : HostName) (dnsOurPort : Nat) (pkt : List UInt8) (dest : Nat),
    decodeQuery (dnsSend name.text) = some [⟨name.labels, dnsARecord, 1⟩] ∧ (dnsHandler dnsOurPort pkt dest).Safe := by
  intro h
  obtain ⟨hquery, hsafe⟩ := h rooted 53 [] 53
  exact absurd ((dnsSend_asks_iff rooted).mp hquery) (by decide)

end UBoot.Dns
