import UBoot.CString
import UBoot.Cells
import UBoot.TreeWalk

namespace UBoot.Dns

open Cells List Loops

def dot : UInt8 := 46

def dnsARecord : Nat := 1
def dnsCnameRecord : Nat := 5

/-- The loop of `DnsSend` over the name: each chunk up to a dot, with its length in front. -/
def encodeName (name : List UInt8) : List UInt8 :=
  let chunk := name.takeWhile (· != dot)
  match _h : name.drop chunk.length with
  | [] => UInt8.ofNat chunk.length :: chunk
  | _ :: name' => UInt8.ofNat chunk.length :: chunk ++ encodeName name'
termination_by name.length
decreasing_by
  have hlen := congrArg List.length _h
  rw [length_drop, length_cons] at hlen
  omega

/-- The packet of `DnsSend` for a host name. -/
def dnsSend (name : List UInt8) : List UInt8 :=
  [1, 0, 1, 0, 0, 1, 0, 0, 0, 0, 0, 0] ++ encodeName name ++ [0, 0, UInt8.ofNat dnsARecord, 0, 1]

/-- A number in two bytes of the payload, as `ntohs` gives it on a little-endian processor. A read outside the
payload is a failure. -/
def word (pkt : List UInt8) (i : Nat) : Option Nat := do
  some ((← pkt[i]?).toNat * 256 + (← pkt[i + 1]?).toNat)

/-- What the handler comes to: nothing, one of its messages, or the address that it prints and stores. -/
inductive Outcome where
  | ignored
  | noAnswers
  | notARecord
  | invalidIp
  | nothing
  | address (ip : List UInt8)
deriving DecidableEq

/-- The loop that shows the packet, with a counter of 16 bits. -/
def debugRound (len i : Nat) : Nat ⊕ Unit := if i < len then .inl ((i + 4) % 65536) else .inr ()

def debugLoop (len : Nat) : Comp Unit := Comp.loop (fun i => Comp.pure (debugRound len i)) 0

/-- The first NUL from `p` on, or the end of the payload. -/
def skipHost (pkt : List UInt8) (p : Nat) : Nat := p + ((pkt.drop p).takeWhile (· != 0)).length

/-- The first NUL from `p` on with twelve bytes behind it, or the place twelve bytes in front of the end. -/
def skipName (pkt : List UInt8) (p : Nat) : Nat :=
  p + (((pkt.drop p).take (pkt.length - 12 - p)).takeWhile (· != 0)).length

/-- One round of the loop through the answers: the next answer, or the place of an A record if one is found. -/
def answerRound (pkt : List UInt8) (p : Nat) : Option (Nat ⊕ Option Nat) :=
  if p + 12 < pkt.length then do
    let c ← pkt[p]?
    let p := if c ≠ 0xc0 then skipName pkt p - 1 else p
    let type ← word pkt (p + 2)
    if type = dnsCnameRecord then do some (.inl (p + 12 + (← word pkt (p + 10))))
    else if type = dnsARecord then some (.inr (some p))
    else some (.inr none)
  else some (.inr none)

def answerAddress (pkt : List UInt8) : Option Nat → Option Outcome
  | none => some .nothing
  | some p =>
    if p + 12 < pkt.length then do
      let dlen ← word pkt (p + 10)
      let ip ← loadAll pkt (p + 12) 4
      some (if p + 12 + dlen ≤ pkt.length then .address ip else .invalidIp)
    else some .nothing

/-- What `DnsHandler` does behind the header. -/
def parseAnswers (pkt : List UInt8) : Comp (Option Outcome) :=
  let p := skipHost pkt 12
  (Comp.pure (word pkt (p + 1))).andThen fun type =>
    if pkt.length < p + 5 ∨ type ≠ dnsARecord then Comp.pure (some .notARecord)
    else (Comp.loop (fun p => Comp.round (answerRound pkt p)) (p + 5)).andThen fun found =>
      Comp.pure (answerAddress pkt found)

def parseHeader (pkt : List UInt8) : Comp (Option Outcome) :=
  (Comp.pure (word pkt 4)).andThen fun nqueries =>
    if nqueries ≠ 1 then Comp.pure (some .ignored)
    else (Comp.pure (word pkt 6)).andThen fun nanswers =>
      if nanswers = 0 then Comp.pure (some .noAnswers) else parseAnswers pkt

def dnsHandler (dnsOurPort : Nat) (pkt : List UInt8) (dest : Nat) : Comp (Option Outcome) :=
  if dest ≠ dnsOurPort then Comp.pure (some .ignored)
  else (debugLoop pkt.length).bind fun _ => parseHeader pkt

structure Question where
  labels : List (List UInt8)
  qtype : Nat
  qclass : Nat
deriving DecidableEq

def decodeName (msg : List UInt8) : Option (List (List UInt8) × List UInt8) :=
  match msg with
  | [] => none
  | n :: rest =>
    if n = 0 then some ([], rest)
    else if n.toNat ≤ 63 ∧ n.toNat ≤ rest.length then do
      let (labels, behind) ← decodeName (rest.drop n.toNat)
      some (rest.take n.toNat :: labels, behind)
    else none
termination_by msg.length
decreasing_by
  rw [length_drop, length_cons]
  omega

def decodeQuestions : Nat → List UInt8 → Option (List Question)
  | 0, _ => some []
  | n + 1, msg => do
    let (labels, rest) ← decodeName msg
    let question := ⟨labels, ← word rest 0, ← word rest 2⟩
    some (question :: (← decodeQuestions n (rest.drop 4)))

def decodeQuery (msg : List UInt8) : Option (List Question) := do
  let flags ← msg[2]?
  let count ← word msg 4
  if flags.toNat / 8 = 0 then decodeQuestions count (msg.drop 12) else none

/-- A host name: labels of 1 to 63 characters, with a dot behind the last one or without. -/
structure HostName where
  labels : List (List UInt8)
  nonempty : labels ≠ []
  whole : ∀ label ∈ labels, 1 ≤ label.length ∧ label.length ≤ 63 ∧ dot ∉ label ∧ 0 ∉ label
  final : Bool

def joined : List (List UInt8) → List UInt8
  | [] => []
  | [label] => label
  | label :: labels => label ++ dot :: joined labels

def HostName.text (name : HostName) : List UInt8 := joined name.labels ++ if name.final then [dot] else []

variable {label name rest : List UInt8} {labels : List (List UInt8)}

def labelBytes (label : List UInt8) : List UInt8 := UInt8.ofNat label.length :: label

theorem takeWhile_label (h : dot ∉ label) : (label ++ rest).takeWhile (· != dot) =
    label ++ rest.takeWhile (· != dot) := by
  apply takeWhile_append_of_pos
  intro c hc
  rw [bne_iff_ne]
  rintro rfl
  exact h hc

theorem encodeName_last (h : dot ∉ label) : encodeName label = labelBytes label := by
  have hchunk : label.takeWhile (· != dot) = label := by
    have htake : (label ++ []).takeWhile (· != dot) = _ := takeWhile_label h
    rwa [append_nil, takeWhile_nil, append_nil] at htake
  rw [encodeName, hchunk]
  split
  · rfl
  next heq =>
    rw [drop_length] at heq
    cases heq

theorem encodeName_dot (h : dot ∉ label) :
    encodeName (label ++ dot :: rest) = labelBytes label ++ encodeName rest := by
  have hchunk : (label ++ dot :: rest).takeWhile (· != dot) = label := by
    rw [takeWhile_label h, takeWhile_cons_of_neg (by simp), append_nil]
  rw [encodeName, hchunk]
  split
  next heq =>
    rw [drop_left] at heq
    cases heq
  next heq =>
    rw [drop_left] at heq
    rw [(List.cons.inj heq).2]
    rfl

theorem encodeName_joined (hne : labels ≠ []) (h : ∀ label ∈ labels, dot ∉ label) :
    encodeName (joined labels) = labels.flatMap labelBytes := by
  induction labels with
  | nil => exact absurd rfl hne
  | cons label labels ih =>
    have hlabel := h label mem_cons_self
    cases labels with
    | nil =>
      rw [joined, encodeName_last hlabel, flatMap_singleton]
    | cons next labels =>
      have hrest := ih (cons_ne_nil _ _) fun l hl => h l (mem_cons_of_mem _ hl)
      rw [joined, encodeName_dot hlabel, hrest, flatMap_cons (x := label)]
      exact cons_ne_nil _ _

theorem encodeName_final (hne : labels ≠ []) (h : ∀ label ∈ labels, dot ∉ label) :
    encodeName (joined labels ++ [dot]) = labels.flatMap labelBytes ++ [0] := by
  have hempty : encodeName [] = [0] := encodeName_last not_mem_nil
  induction labels with
  | nil => exact absurd rfl hne
  | cons label labels ih =>
    have hlabel := h label mem_cons_self
    cases labels with
    | nil =>
      rw [joined, encodeName_dot hlabel, hempty, flatMap_singleton]
    | cons next labels =>
      have hrest := ih (cons_ne_nil _ _) fun l hl => h l (mem_cons_of_mem _ hl)
      rw [joined, append_assoc, cons_append, encodeName_dot hlabel, hrest, flatMap_cons (x := label),
        append_assoc]
      exact cons_ne_nil _ _

theorem decodeName_root (rest : List UInt8) : decodeName (0 :: rest) = some ([], rest) := by
  rw [decodeName]
  rfl

theorem decodeName_label (hpos : 1 ≤ label.length) (hshort : label.length ≤ 63) :
    decodeName (labelBytes label ++ rest) = (decodeName rest).map fun r => (label :: r.1, r.2) := by
  have hn : (UInt8.ofNat label.length).toNat = label.length :=
    UInt8.toNat_ofNat_of_lt' (lt_of_le_of_lt hshort (by decide))
  have hzero : UInt8.ofNat label.length ≠ 0 := by
    intro h
    rw [h] at hn
    exact absurd hn (ne_of_lt hpos)
  unfold labelBytes
  rw [cons_append, decodeName, if_neg hzero, hn, if_pos ⟨hshort, by rw [length_append]; omega⟩,
    drop_left, take_left]
  cases decodeName rest with
  | none => rfl
  | some r => rfl

theorem decodeName_labels (h : ∀ label ∈ labels, 1 ≤ label.length ∧ label.length ≤ 63) (rest : List UInt8) :
    decodeName (labels.flatMap labelBytes ++ 0 :: rest) = some (labels, rest) := by
  induction labels with
  | nil => exact decodeName_root rest
  | cons label labels ih =>
    obtain ⟨hpos, hshort⟩ := h label mem_cons_self
    rw [flatMap_cons, append_assoc, decodeName_label hpos hshort,
      ih fun l hl => h l (mem_cons_of_mem _ hl)]
    rfl

theorem HostName.encoded (name : HostName) :
    encodeName name.text = name.labels.flatMap labelBytes ++ if name.final then [0] else [] := by
  have hdot : ∀ label ∈ name.labels, dot ∉ label := fun label h => (name.whole label h).2.2.1
  unfold HostName.text
  split
  · exact encodeName_final name.nonempty hdot
  · rw [append_nil, append_nil, encodeName_joined name.nonempty hdot]

theorem dnsSend_decodes (name : HostName) : decodeQuery (dnsSend name.text) = some [if name.final then
    ⟨name.labels, 0, 256⟩ else ⟨name.labels, dnsARecord, 1⟩] := by
  have hlabels : ∀ label ∈ name.labels, 1 ≤ label.length ∧ label.length ≤ 63 :=
    fun label h => ⟨(name.whole label h).1, (name.whole label h).2.1⟩
  have hmsg : decodeQuery (dnsSend name.text) =
      decodeQuestions 1 (encodeName name.text ++ [0, 0, UInt8.ofNat dnsARecord, 0, 1]) := rfl
  rw [hmsg, name.encoded, decodeQuestions]
  split
  · rw [append_assoc, singleton_append, decodeName_labels hlabels]
    rfl
  · rw [append_nil, decodeName_labels hlabels]
    rfl

theorem dnsSend_asks_iff (name : HostName) :
    decodeQuery (dnsSend name.text) = some [⟨name.labels, dnsARecord, 1⟩] ↔ name.final = false := by
  rw [dnsSend_decodes, Option.some.injEq]
  cases name.final with
  | false => exact iff_of_true rfl rfl
  | true =>
    refine iff_of_false (fun h => ?_) (by decide)
    exact absurd (congrArg (List.map Question.qtype) h) (show ¬[0] = [1] by decide)

end UBoot.Dns
