import Mathlib.Data.UInt
import UBoot.CString
import UBoot.Words

namespace UBoot.Kwbimage

open FlashCells List Words

/-- `sizeof (bhr_t)` and `sizeof (extbhr_t)`, and where the checksums and `rcfg` stand in the header. -/
def bhrSize : Nat := 32
def extbhrSize : Nat := 480
def checkSumOffs : Nat := 31
def extCheckSumOffs : Nat := 511
def rcfgOffs : Nat := 64

def kwbimageMaxConfig : Nat := 55

def raddrOffs (k : Nat) : Nat := rcfgOffs + 8 * k
def rdataOffs (k : Nat) : Nat := rcfgOffs + 8 * k + 4

def cmdBootFrom : Int := 1
def cmdNandEccMode : Int := 2
def cmdNandPageSize : Int := 3
def cmdSataPioMode : Int := 4
def cmdDdrInitDelay : Int := 5
def cmdData : Int := 6

abbrev Word := List UInt8

def kwbimageCmds : List (Int × Word) :=
  [(cmdBootFrom, ascii ['B', 'O', 'O', 'T', '_', 'F', 'R', 'O', 'M']),
    (cmdNandEccMode, ascii ['N', 'A', 'N', 'D', '_', 'E', 'C', 'C', '_', 'M', 'O', 'D', 'E']),
    (cmdNandPageSize, ascii ['N', 'A', 'N', 'D', '_', 'P', 'A', 'G', 'E', '_', 'S', 'I', 'Z', 'E']),
    (cmdSataPioMode, ascii ['S', 'A', 'T', 'A', '_', 'P', 'I', 'O', '_', 'M', 'O', 'D', 'E']),
    (cmdDdrInitDelay, ascii ['D', 'D', 'R', '_', 'I', 'N', 'I', 'T', '_', 'D', 'E', 'L', 'A', 'Y']),
    (cmdData, ascii ['D', 'A', 'T', 'A']),
    (0, [])]

def kwbimageBootops : List (Int × Word) :=
  [(0x5a, ascii ['s', 'p', 'i']), (0x8b, ascii ['n', 'a', 'n', 'd']), (0x78, ascii ['s', 'a', 't', 'a']),
    (0x9c, ascii ['p', 'e', 'x']), (0x69, ascii ['u', 'a', 'r', 't'])]

def kwbimageEccmodes : List (Int × Word) :=
  [(0, ascii ['d', 'e', 'f', 'a', 'u', 'l', 't']), (1, ascii ['h', 'a', 'm', 'm', 'i', 'n', 'g']),
    (2, ascii ['r', 's']), (3, ascii ['d', 'i', 's', 'a', 'b', 'l', 'e', 'd'])]

def tolower (c : UInt8) : UInt8 := if 65 ≤ c ∧ c ≤ 90 then c + 32 else c

def strcasecmp (a b : Word) : Bool := a.map tolower == b.map tolower

/-- What the host leaves open: the ids that are found for names behind `kwbimage_cmds`, whose last entry
does not end the search, and what a variable holds that `sscanf` has not set. -/
structure Host where
  behind : Word → Int
  junk : Nat
  junk_lt : junk < 4294967296

/-- `get_table_entry_id`; `other` is the result for a name that is not in the table. -/
def getTableEntryId (table : List (Int × Word)) (name : Word) (other : Int) : Int :=
  match table.find? fun t => strcasecmp t.2 name with
  | some t => t.1
  | none => other

def isSpace (c : UInt8) : Bool := c == 32 || (9 ≤ c && c ≤ 13)

def hexValue (digits : Word) : Nat := digits.foldl (fun v c => v * 16 + digitValue c) 0

/-- The digits of a number with or without `0x`. -/
def hexDigits : Word → Word
  | 48 :: 120 :: ds => ds.takeWhile isxdigit
  | 48 :: 88 :: ds => ds.takeWhile isxdigit
  | ds => ds.takeWhile isxdigit

/-- `check_get_hexval`: `sscanf` with `%x`, where no number ends the program. -/
def checkGetHexval (h : Host) (token : Word) : Option Nat :=
  match token.dropWhile isSpace with
  | [] => some h.junk
  | c :: cs =>
    let digits := hexDigits (if c == 43 || c == 45 then cs else c :: cs)
    let v := hexValue digits % 4294967296
    if digits.isEmpty then none else some ((if c == 45 then 4294967296 - v else v) % 4294967296)

/-- The header, `datacmd_cnt`, and the words stored for `rcfg` so far with their places. -/
structure Parser where
  hdr : Flash
  datacmdCnt : Nat
  stores : List (Nat × Nat)

def Parser.storeWord (p : Parser) (a v : Nat) : Parser :=
  { p with hdr := putLe32 p.hdr a v, stores := p.stores ++ [(a, v)] }

def Parser.storeBytes (p : Parser) (a : Nat) (bs : List UInt8) : Parser := { p with hdr := store p.hdr a bs }

variable (h : Host)

def storeEntry (table : List (Int × Word)) (a : Nat) (token : Word) (p : Parser) : Except Parser Parser :=
  let i := getTableEntryId table token (-1)
  if i < 0 then .error p else .ok (p.storeBytes a [UInt8.ofNat i.toNat])

/-- A number goes to the bytes from `a` on. -/
def storeHexval (a : Nat) (bytes : Nat → List UInt8) (token : Word) (p : Parser) : Except Parser Parser :=
  match checkGetHexval h token with
  | some v => .ok (p.storeBytes a (bytes v))
  | none => .error p

/-- `kwbimage_check_cfgdata`; an error ends the program. -/
def checkCfgdata (token : Word) (cmd : Int) (p : Parser) : Except Parser Parser :=
  if cmd = cmdBootFrom then storeEntry kwbimageBootops 0 token p
  else if cmd = cmdNandEccMode then storeEntry kwbimageEccmodes 1 token p
  else if cmd = cmdNandPageSize then storeHexval h 2 (fun v => [UInt8.ofNat v, UInt8.ofNat (v / 256)]) token p
  else if cmd = cmdSataPioMode then storeHexval h 24 (fun v => [UInt8.ofNat v]) token p
  else if cmd = cmdDdrInitDelay then
    storeHexval h 26 (fun v => [UInt8.ofNat v, UInt8.ofNat (v / 256)]) token p
  else if cmd = cmdData then
    match checkGetHexval h token with
    | some v => .ok (p.storeWord (raddrOffs p.datacmdCnt) v)
    | none => .error p
  else .error p

/-- `CFG_DATA1`: the word is stored before the count is tested. -/
def checkData1 (token : Word) (cmd : Int) (p : Parser) : Except Parser Parser :=
  if cmd ≠ cmdData then .error p
  else
    match checkGetHexval h token with
    | none => .error p
    | some v =>
      let q := p.storeWord (rdataOffs p.datacmdCnt) v
      if kwbimageMaxConfig < p.datacmdCnt then .error q
      else .ok { q with datacmdCnt := q.datacmdCnt + 1 }

def cmdOf (token : Word) : Int := getTableEntryId kwbimageCmds token (h.behind token)

def parseLine (p : Parser) : List Word → Except Parser Parser
  | [] => .ok p
  | token :: rest =>
    let cmd := cmdOf h token
    if cmd = 0 then .error p
    else
      match rest with
      | [] => .ok p
      | data0 :: rest => do
        let p ← checkCfgdata h data0 cmd p
        match rest with
        | [] => .ok p
        | data1 :: rest => do
          let p ← checkData1 h data1 cmd p
          if rest.isEmpty then .ok p else .error p

/-- The tokens that `strtok_r` finds one after the other. -/
def strtok (delim : UInt8 → Bool) (s : List UInt8) : List Word :=
  (s.splitOnP delim).filter fun t => !t.isEmpty

def words (line : List UInt8) : List Word :=
  match strtok (fun c => c == 13 || c == 10) (line.takeWhile fun c => c != 0) with
  | [] => []
  | t :: _ => (strtok (fun c => c == 32 || c == 9) t).takeWhile fun w => w.head? != some 35

def cfgLines (file : List UInt8) : List (List Word) := (file.splitOnP fun c => c == 10).map words

/-- `kwdimage_set_ext_header`; the file cannot be opened or has its text. -/
def setExtHeader (file : Option (List UInt8)) (hdr : Flash) : Except Parser Parser :=
  let p : Parser := ⟨putLe32 hdr 32 rcfgOffs, 0, []⟩
  match file with
  | none => .error p
  | some text => (cfgLines text).foldlM (parseLine h) p

def kwbimageChecksum8 (m : Flash) (a len : Nat) : UInt8 := (read m a len).sum

def kwbimageChecksum32 (m : Flash) (len : Nat) : Nat :=
  if len % 4 = 0 then ((List.range (len / 4)).map fun i => le32 m (4 * i)).sum % 4294967296 else 0

/-- The mapped file, which begins with an empty header, its size, and the addresses of the command line. -/
structure Image where
  bytes : Flash
  stSize : Nat
  addr : Nat
  ep : Nat
  dummy : ∀ x, x < 512 → bytes x = 0

/-- `kwbimage_set_header`: the file with its header, and the checksum that is written behind it. -/
def setHeader (file : Option (List UInt8)) (g : Image) : Option (Flash × Nat) :=
  let checksum := kwbimageChecksum32 g.bytes g.stSize
  let m := putLe32 g.bytes 4 ((g.stSize + 4 - 512) % 4294967296)
  let m := putLe32 m 12 512
  let m := putLe32 m 16 (g.addr % 4294967296)
  let m := putLe32 m 20 (g.ep % 4294967296)
  let m := store m 30 [1]
  match setExtHeader h file m with
  | .error _ => none
  | .ok p =>
    let m := store p.hdr checkSumOffs [kwbimageChecksum8 p.hdr 0 bhrSize]
    let m := store m extCheckSumOffs [kwbimageChecksum8 m bhrSize extbhrSize]
    some (m, checksum)

/-- `kwbimage_verify_header`: both comparisons are of the checksum of the main header. -/
def verifyHeader (m : Flash) : Bool :=
  let calcHdrcsum := kwbimageChecksum8 m 0 (bhrSize - 1)
  let _calcExthdrcsum := kwbimageChecksum8 m bhrSize (extbhrSize - 1)
  if calcHdrcsum ≠ m checkSumOffs then false
  else if calcHdrcsum ≠ m checkSumOffs then false
  else true

def MainMatches (m : Flash) : Prop := kwbimageChecksum8 m 0 (bhrSize - 1) = m checkSumOffs
def ExtMatches (m : Flash) : Prop := kwbimageChecksum8 m bhrSize (extbhrSize - 1) = m extCheckSumOffs

def isData (ws : List Word) : Bool :=
  match ws with
  | [] => false
  | token :: _ => cmdOf h token == cmdData

/-- The word is inside `rcfg`. -/
def InRcfg (s : Nat × Nat) : Prop := rcfgOffs ≤ s.1 ∧ s.1 + 4 ≤ rcfgOffs + 8 * kwbimageMaxConfig

def storesOf : Except Parser Parser → List (Nat × Nat)
  | .ok p => p.stores
  | .error p => p.stores

@[simp] theorem storesOf_ok (p : Parser) : storesOf (.ok p) = p.stores := rfl
@[simp] theorem storesOf_error (p : Parser) : storesOf (.error p) = p.stores := rfl

/-- The lines with the command `DATA` have two values, which are in `rcfg` in the order of the lines. -/
def Stored (lines : List (List Word)) (hdr : Flash) (base : Nat) : Prop :=
  ∀ k ws, (lines.filter (isData h))[k]? = some ws → ∃ c a d va vd, ws = [c, a, d] ∧
    checkGetHexval h a = some va ∧ checkGetHexval h d = some vd ∧
    le32 hdr (raddrOffs (base + k)) = va ∧ le32 hdr (rdataOffs (base + k)) = vd

/-- The words of a configuration are stored inside `rcfg`, also where the configuration is rejected, and
those of one that is accepted are all there. -/
structure Kept (text : List UInt8) (hdr : Flash) : Prop where
  inside : ∀ s ∈ storesOf (setExtHeader h (some text) hdr), InRcfg s
  stored : ∀ p, setExtHeader h (some text) hdr = .ok p → Stored h (cfgLines text) p.hdr 0

def okData0 (cmd : Int) (token : Word) : Bool :=
  if cmd = cmdBootFrom then 0 ≤ getTableEntryId kwbimageBootops token (-1)
  else if cmd = cmdNandEccMode then 0 ≤ getTableEntryId kwbimageEccmodes token (-1)
  else if cmd = cmdNandPageSize ∨ cmd = cmdSataPioMode ∨ cmd = cmdDdrInitDelay ∨ cmd = cmdData then
    (checkGetHexval h token).isSome
  else false

def okLine (ws : List Word) : Bool :=
  match ws with
  | [] => true
  | [c] => cmdOf h c != 0
  | [c, t] => cmdOf h c != 0 && okData0 h (cmdOf h c) t
  | [c, t, d] => cmdOf h c == cmdData && (checkGetHexval h t).isSome && (checkGetHexval h d).isSome
  | _ => false

def storesAddress (ws : List Word) : Bool :=
  match ws with
  | c :: t :: _ => cmdOf h c == cmdData && (checkGetHexval h t).isSome
  | _ => false

/-- Of the lines up to the first bad one, those that store an address follow less than 55 lines with two
values. -/
def Fits : Nat → List (List Word) → Prop
  | _, [] => True
  | n, ws :: rest =>
    (storesAddress h ws = true → n < kwbimageMaxConfig) ∧
    (okLine h ws = true → Fits (if isData h ws && ws.length == 3 then n + 1 else n) rest)

/-- The lines fit, and in a configuration without a bad line all those with the command `DATA` have two
values. -/
structure Plain (text : List UInt8) : Prop where
  fits : Fits h 0 (cfgLines text)
  whole : (∀ ws ∈ cfgLines text, okLine h ws = true) → ∀ ws ∈ cfgLines text, isData h ws = true → ws.length = 3

section Proofs

variable {h : Host} {p q : Parser} {ws : List Word} {c token : Word} {cmd : Int}

/-- Nothing changes behind the fields of the main header. -/
structure Frame (p q : Parser) : Prop where
  count : q.datacmdCnt = p.datacmdCnt
  stores : q.stores = p.stores
  hdr : ∀ x, 28 ≤ x → q.hdr x = p.hdr x

theorem Frame.refl : Frame p p := ⟨rfl, rfl, fun _ _ => rfl⟩

theorem Frame.storeBytes {a : Nat} {bs : List UInt8} (hlen : a + bs.length ≤ 28) :
    Frame p (p.storeBytes a bs) :=
  ⟨rfl, rfl, fun _ _ => store_outside (by omega)⟩

theorem storeEntry_cases (table : List (Int × Word)) {a : Nat} (ha : a < 28) :
    (0 ≤ getTableEntryId table token (-1) → ∃ q, storeEntry table a token p = .ok q ∧ Frame p q) ∧
    (¬0 ≤ getTableEntryId table token (-1) → storeEntry table a token p = .error p) := by
  unfold storeEntry
  refine ⟨fun hid => ⟨_, if_neg (by omega), .storeBytes ?_⟩, fun hid => if_pos (by omega)⟩
  simp only [length_cons, length_nil]
  omega

theorem storeHexval_cases {a : Nat} {bytes : Nat → List UInt8} (hlen : ∀ v, a + (bytes v).length ≤ 28) :
    ((checkGetHexval h token).isSome = true → ∃ q, storeHexval h a bytes token p = .ok q ∧ Frame p q) ∧
    ((checkGetHexval h token).isSome = false → storeHexval h a bytes token p = .error p) := by
  unfold storeHexval
  cases checkGetHexval h token with
  | none => simp
  | some v => simp [Frame.storeBytes (hlen v)]

theorem checkCfgdata_other (hcmd : cmd ≠ cmdData) :
    (okData0 h cmd token = true → ∃ q, checkCfgdata h token cmd p = .ok q ∧ Frame p q) ∧
    (okData0 h cmd token = false → checkCfgdata h token cmd p = .error p) := by
  unfold okData0 checkCfgdata
  by_cases hboot : cmd = cmdBootFrom
  · simp only [if_pos hboot, decide_eq_true_eq, decide_eq_false_iff_not]
    exact storeEntry_cases kwbimageBootops (by omega)
  by_cases hecc : cmd = cmdNandEccMode
  · simp only [if_neg hboot, if_pos hecc, decide_eq_true_eq, decide_eq_false_iff_not]
    exact storeEntry_cases kwbimageEccmodes (by omega)
  by_cases hpage : cmd = cmdNandPageSize
  · simp only [if_neg hboot, if_neg hecc, if_pos hpage, if_pos (Or.inl hpage)]
    exact storeHexval_cases fun v => by simp
  by_cases hsata : cmd = cmdSataPioMode
  · simp only [if_neg hboot, if_neg hecc, if_neg hpage, if_pos hsata, if_pos (Or.inr (Or.inl hsata))]
    exact storeHexval_cases fun v => by simp
  by_cases hddr : cmd = cmdDdrInitDelay
  · simp only [if_neg hboot, if_neg hecc, if_neg hpage, if_neg hsata, if_pos hddr,
      if_pos (Or.inr (Or.inr (Or.inl hddr)))]
    exact storeHexval_cases fun v => by simp
  simp [hboot, hecc, hpage, hsata, hddr, hcmd]

theorem okLine_false_of_other {t : Word} {rest : List Word} (hcmd : cmdOf h c ≠ cmdData)
    (hok : cmdOf h c = 0 ∨ okData0 h (cmdOf h c) t = false ∨ rest ≠ []) : okLine h (c :: t :: rest) = false := by
  cases rest with
  | nil => simpa [okLine, or_iff_not_imp_left] using hok
  | cons d rest =>
    cases rest with
    | nil => simp [okLine, hcmd]
    | cons e rest => rfl

theorem okLine_false_of_address {t : Word} {rest : List Word} (hnone : checkGetHexval h t = none)
    (hcmd : cmdOf h c = cmdData) : okLine h (c :: t :: rest) = false := by
  cases rest with
  | nil => simp [okLine, okData0, hcmd, hnone, cmdData, cmdBootFrom, cmdNandEccMode]
  | cons d rest =>
    cases rest with
    | nil => simp [okLine, hnone]
    | cons e rest => rfl

theorem parseLine_plain (hs : storesAddress h ws = false) :
    (okLine h ws = true → ∃ q, parseLine h p ws = .ok q ∧ Frame p q) ∧
    (okLine h ws = false → ∃ q, parseLine h p ws = .error q ∧ q.stores = p.stores) := by
  cases ws with
  | nil => exact ⟨fun _ => ⟨p, rfl, .refl⟩, nofun⟩
  | cons c ws =>
    by_cases hzero : cmdOf h c = 0
    · have hbad : okLine h (c :: ws) = false := by
        cases ws with
        | nil => simp [okLine, hzero]
        | cons t rest =>
          exact okLine_false_of_other (by rw [hzero]; decide) (.inl hzero)
      simp [hbad, parseLine, hzero]
    cases ws with
    | nil => simp [parseLine, okLine, hzero, Frame.refl]
    | cons t rest =>
      by_cases hcmd : cmdOf h c = cmdData
      · have hnone : checkGetHexval h t = none := by simpa [storesAddress, hcmd] using hs
        have hcheck : checkCfgdata h t cmdData p = .error p := by
          simp [checkCfgdata, hnone, cmdData, cmdBootFrom, cmdNandEccMode, cmdNandPageSize, cmdSataPioMode,
            cmdDdrInitDelay]
        rw [okLine_false_of_address hnone hcmd]
        have hparse : parseLine h p (c :: t :: rest) = .error p := by
          simp only [parseLine, hcmd, hcheck]
          rfl
        simp [hparse]
      obtain ⟨hgood, hbad⟩ := @checkCfgdata_other h p t _ hcmd
      cases hdata : okData0 h (cmdOf h c) t with
      | false =>
        rw [okLine_false_of_other hcmd (.inr (.inl hdata))]
        have hparse : parseLine h p (c :: t :: rest) = .error p := by
          simp only [parseLine, if_neg hzero, hbad hdata]
          rfl
        simp [hparse]
      | true =>
        obtain ⟨q, hcheck, hframe⟩ := hgood hdata
        cases rest with
        | nil =>
          have hparse : parseLine h p [c, t] = .ok q := by
            simp only [parseLine, if_neg hzero, hcheck]
            rfl
          simp [okLine, hparse, hframe, hzero, hdata]
        | cons d rest =>
          rw [okLine_false_of_other hcmd (.inr (.inr (cons_ne_nil d rest)))]
          have hparse : parseLine h p (c :: t :: d :: rest) = .error q := by
            simp only [parseLine, if_neg hzero, hcheck, checkData1, ne_eq, hcmd, not_false_eq_true]
            rfl
          simp [hparse, hframe.stores]

theorem parseLine_address {t : Word} {rest : List Word} {v : Nat} (hcmd : cmdOf h c = cmdData)
    (hv : checkGetHexval h t = some v) :
    parseLine h p (c :: t :: rest) =
      match rest with
      | [] => .ok (p.storeWord (raddrOffs p.datacmdCnt) v)
      | d :: more =>
        (checkData1 h d cmdData (p.storeWord (raddrOffs p.datacmdCnt) v)).bind fun q =>
          if more.isEmpty then .ok q else .error q := by
  have hcheck : checkCfgdata h t cmdData p = .ok (p.storeWord (raddrOffs p.datacmdCnt) v) := by
    simp [checkCfgdata, hv, cmdData, cmdBootFrom, cmdNandEccMode, cmdNandPageSize, cmdSataPioMode,
      cmdDdrInitDelay]
  have hzero : ¬cmdData = 0 := by decide
  simp only [parseLine, hcmd, if_neg hzero]
  cases rest with
  | nil =>
    simp only [hcheck]
    rfl
  | cons d more =>
    simp only [hcheck]
    rfl

theorem exists_address (hs : storesAddress h ws = true) :
    ∃ c t rest v, ws = c :: t :: rest ∧ cmdOf h c = cmdData ∧ checkGetHexval h t = some v := by
  match ws, hs with
  | c :: t :: rest, hs =>
    simp only [storesAddress, Bool.and_eq_true, beq_iff_eq] at hs
    obtain ⟨v, hv⟩ := Option.isSome_iff_exists.mp hs.2
    exact ⟨c, t, rest, v, rfl, hs.1, hv⟩

theorem storesOf_address (hs : storesAddress h ws = true) :
    ∃ v more, storesOf (parseLine h p ws) = p.stores ++ (raddrOffs p.datacmdCnt, v) :: more ∧
      ∀ s ∈ more, s.1 = rdataOffs p.datacmdCnt := by
  obtain ⟨c, t, rest, v, rfl, hcmd, hv⟩ := exists_address hs
  rw [parseLine_address hcmd hv]
  cases rest with
  | nil => exact ⟨v, [], rfl, by simp⟩
  | cons d more =>
    unfold checkData1
    simp only [ne_eq, not_true_eq_false, if_false]
    cases checkGetHexval h d with
    | none => exact ⟨v, [], rfl, by simp⟩
    | some u =>
      refine ⟨v, [(rdataOffs p.datacmdCnt, u)], ?_, by simp⟩
      have hstores : p.stores ++ [(raddrOffs p.datacmdCnt, v)] ++ [(rdataOffs p.datacmdCnt, u)] =
          p.stores ++ [(raddrOffs p.datacmdCnt, v), (rdataOffs p.datacmdCnt, u)] := by simp
      dsimp only
      split
      · exact hstores
      · cases more <;> exact hstores

def Parser.dataLine (p : Parser) (v u : Nat) : Parser :=
  { (p.storeWord (raddrOffs p.datacmdCnt) v).storeWord (rdataOffs p.datacmdCnt) u with
    datacmdCnt := p.datacmdCnt + 1 }

theorem parseLine_two {t d : Word} {v u : Nat} (hcmd : cmdOf h c = cmdData) (hv : checkGetHexval h t = some v)
    (hu : checkGetHexval h d = some u) (hcnt : p.datacmdCnt < kwbimageMaxConfig) :
    parseLine h p [c, t, d] = .ok (p.dataLine v u) := by
  rw [parseLine_address hcmd hv]
  have hbelow : ¬kwbimageMaxConfig < (p.storeWord (raddrOffs p.datacmdCnt) v).datacmdCnt := Nat.not_lt_of_lt hcnt
  simp only [checkData1, ne_eq, not_true_eq_false, if_false, hu, if_neg hbelow]
  rfl

theorem okData0_data {t : Word} : okData0 h cmdData t = (checkGetHexval h t).isSome := by
  simp [okData0, cmdData, cmdBootFrom, cmdNandEccMode]

theorem parseLine_below (hs : storesAddress h ws = true) (hcnt : p.datacmdCnt < kwbimageMaxConfig) :
    (okLine h ws = true → ∃ q, parseLine h p ws = .ok q ∧
      q.datacmdCnt = (if isData h ws && ws.length == 3 then p.datacmdCnt + 1 else p.datacmdCnt)) ∧
    (okLine h ws = false → ∃ q, parseLine h p ws = .error q) := by
  obtain ⟨c, t, rest, v, rfl, hcmd, hv⟩ := exists_address hs
  have hdata : isData h (c :: t :: rest) = true := by simp [isData, hcmd]
  have hbelow : ¬kwbimageMaxConfig < (p.storeWord (raddrOffs p.datacmdCnt) v).datacmdCnt := Nat.not_lt_of_lt hcnt
  rw [hdata]
  cases rest with
  | nil =>
    have hok : okLine h [c, t] = true := by
      simp only [okLine, hcmd, okData0_data, hv]
      rfl
    rw [parseLine_address hcmd hv, hok]
    exact ⟨fun _ => ⟨_, rfl, rfl⟩, nofun⟩
  | cons d rest =>
    cases hd : checkGetHexval h d with
    | none =>
      have hbad : okLine h (c :: t :: d :: rest) = false := by
        cases rest <;> simp [okLine, hd]
      rw [parseLine_address hcmd hv, hbad]
      refine ⟨nofun, fun _ => ⟨p.storeWord (raddrOffs p.datacmdCnt) v, ?_⟩⟩
      simp only [checkData1, hd]
      rfl
    | some u =>
      cases rest with
      | nil =>
        rw [parseLine_two hcmd hv hd hcnt]
        exact ⟨fun _ => ⟨_, rfl, rfl⟩, fun hbad => by simp [okLine, hcmd, hv, hd] at hbad⟩
      | cons e rest =>
        rw [parseLine_address hcmd hv]
        refine ⟨nofun, fun _ => ⟨p.dataLine v u, ?_⟩⟩
        simp only [checkData1, ne_eq, not_true_eq_false, if_false, hd, if_neg hbelow]
        rfl

theorem not_whole (haddr : storesAddress h ws = false) (hok : okLine h ws = true) :
    (isData h ws && ws.length == 3) = false := by
  cases ws with
  | nil => rfl
  | cons c ws =>
    cases ws with
    | nil => simp
    | cons t ws =>
      cases ws with
      | nil => simp
      | cons d ws =>
        cases ws with
        | nil =>
          simp only [okLine, Bool.and_eq_true] at hok
          simp only [storesAddress, hok.1, Bool.and_self, Bool.true_eq_false] at haddr
        | cons e ws => simp [okLine] at hok

theorem parseLine_stores {s : Nat × Nat} (hs : s ∈ p.stores) : s ∈ storesOf (parseLine h p ws) := by
  cases haddr : storesAddress h ws with
  | true =>
    obtain ⟨v, more, hstores, -⟩ := storesOf_address (p := p) haddr
    rw [hstores]
    exact mem_append_left _ hs
  | false =>
    obtain ⟨hgood, hbad⟩ := parseLine_plain (p := p) haddr
    cases hok : okLine h ws with
    | true =>
      obtain ⟨q, hq, hframe⟩ := hgood hok
      rw [hq, storesOf_ok, hframe.stores]
      exact hs
    | false =>
      obtain ⟨q, hq, hstores⟩ := hbad hok
      rw [hq, storesOf_error, hstores]
      exact hs

variable {lines : List (List Word)}

theorem foldlM_ok (hq : parseLine h p ws = .ok q) :
    (ws :: lines).foldlM (parseLine h) p = lines.foldlM (parseLine h) q := by
  rw [foldlM_cons, hq]
  rfl

theorem foldlM_error (hq : parseLine h p ws = .error q) :
    (ws :: lines).foldlM (parseLine h) p = .error q := by
  rw [foldlM_cons, hq]
  rfl

theorem foldlM_stores {s : Nat × Nat} (hs : s ∈ p.stores) : s ∈ storesOf (lines.foldlM (parseLine h) p) := by
  induction lines generalizing p with
  | nil => exact hs
  | cons ws lines ih =>
    have hline := @parseLine_stores h p ws _ hs
    cases hq : parseLine h p ws with
    | ok q =>
      rw [hq] at hline
      rw [foldlM_ok hq]
      exact ih hline
    | error q =>
      rw [hq] at hline
      rw [foldlM_error hq]
      exact hline

theorem inRcfg_iff {k v : Nat} : InRcfg (raddrOffs k, v) ↔ k < kwbimageMaxConfig := by
  unfold InRcfg raddrOffs rcfgOffs kwbimageMaxConfig
  omega

theorem inside_iff (hin : ∀ s ∈ p.stores, InRcfg s) :
    (∀ s ∈ storesOf (lines.foldlM (parseLine h) p), InRcfg s) ↔ Fits h p.datacmdCnt lines := by
  induction lines generalizing p with
  | nil =>
    rw [foldlM_nil]
    exact ⟨fun _ => trivial, fun _ => hin⟩
  | cons ws lines ih =>
    unfold Fits
    cases haddr : storesAddress h ws with
    | true =>
      obtain ⟨v, more, hstores, hmore⟩ := storesOf_address (p := p) haddr
      by_cases hcnt : p.datacmdCnt < kwbimageMaxConfig
      · have hline : ∀ s ∈ storesOf (parseLine h p ws), InRcfg s := by
          intro s hs
          rw [hstores] at hs
          rcases mem_append.mp hs with hs | hs
          · exact hin s hs
          rcases mem_cons.mp hs with rfl | hs
          · exact inRcfg_iff.mpr hcnt
          · have hplace := hmore s hs
            unfold InRcfg
            unfold rdataOffs rcfgOffs at hplace
            unfold rcfgOffs
            omega
        obtain ⟨hgood, hbad⟩ := parseLine_below haddr hcnt
        cases hok : okLine h ws with
        | true =>
          obtain ⟨q, hq, hcount⟩ := hgood hok
          rw [hq] at hline
          rw [foldlM_ok hq, ih hline, hcount]
          simp [hcnt]
        | false =>
          obtain ⟨q, hq⟩ := hbad hok
          rw [hq] at hline
          rw [foldlM_error hq]
          exact ⟨fun _ => ⟨fun _ => hcnt, nofun⟩, fun _ => hline⟩
      · -- the address goes behind `rcfg`, whatever follows
        have hmem : (raddrOffs p.datacmdCnt, v) ∈ storesOf (parseLine h p ws) := by
          rw [hstores]
          exact mem_append_right _ mem_cons_self
        have hall : (raddrOffs p.datacmdCnt, v) ∈ storesOf ((ws :: lines).foldlM (parseLine h) p) := by
          cases hq : parseLine h p ws with
          | ok q =>
            rw [hq] at hmem
            rw [foldlM_ok hq]
            exact foldlM_stores hmem
          | error q =>
            rw [hq] at hmem
            rw [foldlM_error hq]
            exact hmem
        refine ⟨fun hinside => ?_, fun hfits => absurd (hfits.1 rfl) hcnt⟩
        exact absurd (inRcfg_iff.mp (hinside _ hall)) hcnt
    | false =>
      obtain ⟨hgood, hbad⟩ := parseLine_plain (p := p) haddr
      cases hok : okLine h ws with
      | true =>
        obtain ⟨q, hq, hframe⟩ := hgood hok
        rw [foldlM_ok hq, ih (by rw [hframe.stores]; exact hin), hframe.count, not_whole haddr hok]
        simp
      | false =>
        obtain ⟨q, hq, hsame⟩ := hbad hok
        rw [foldlM_error hq, storesOf_error, hsame]
        exact ⟨fun _ => ⟨nofun, nofun⟩, fun _ => hin⟩

theorem accepted_iff (hfits : Fits h p.datacmdCnt lines) :
    (∃ q, lines.foldlM (parseLine h) p = .ok q) ↔ ∀ ws ∈ lines, okLine h ws = true := by
  induction lines generalizing p with
  | nil =>
    rw [foldlM_nil]
    exact ⟨fun _ ws hws => absurd hws not_mem_nil, fun _ => ⟨p, rfl⟩⟩
  | cons ws lines ih =>
    obtain ⟨hbelow, hrest⟩ := hfits
    rw [forall_mem_cons]
    cases hok : okLine h ws with
    | true =>
      have hfits := hrest hok
      obtain ⟨q, hq, hcount⟩ : ∃ q, parseLine h p ws = .ok q ∧
          q.datacmdCnt = (if isData h ws && ws.length == 3 then p.datacmdCnt + 1 else p.datacmdCnt) := by
        cases haddr : storesAddress h ws with
        | true => exact (parseLine_below haddr (hbelow haddr)).1 hok
        | false =>
          obtain ⟨q, hq, hframe⟩ := (parseLine_plain (p := p) haddr).1 hok
          exact ⟨q, hq, by rw [not_whole haddr hok, hframe.count]; rfl⟩
      rw [← hcount] at hfits
      rw [foldlM_ok hq, ih hfits]
      simp
    | false =>
      obtain ⟨q, hq⟩ : ∃ q, parseLine h p ws = .error q := by
        cases haddr : storesAddress h ws with
        | true => exact (parseLine_below haddr (hbelow haddr)).2 hok
        | false =>
          obtain ⟨q, hq, -⟩ := (parseLine_plain (p := p) haddr).2 hok
          exact ⟨q, hq⟩
      rw [foldlM_error hq]
      simp

theorem checkGetHexval_lt {v : Nat} (hv : checkGetHexval h token = some v) : v < 4294967296 := by
  unfold checkGetHexval at hv
  split at hv
  · cases hv
    exact h.junk_lt
  · simp only [Option.ite_none_left_eq_some, Option.some.injEq] at hv
    rw [← hv.2]
    exact Nat.mod_lt _ (by omega)

theorem dataLine_words {v u : Nat} (hv : v < 4294967296) (hu : u < 4294967296) :
    le32 (p.dataLine v u).hdr (raddrOffs p.datacmdCnt) = v ∧
    le32 (p.dataLine v u).hdr (rdataOffs p.datacmdCnt) = u ∧
    ∀ x, x < raddrOffs p.datacmdCnt → (p.dataLine v u).hdr x = p.hdr x := by
  have hhdr : (p.dataLine v u).hdr =
      putLe32 (putLe32 p.hdr (raddrOffs p.datacmdCnt) v) (rdataOffs p.datacmdCnt) u := rfl
  rw [hhdr]
  refine ⟨?_, le32_putLe32 hu, fun x hx => ?_⟩
  · rw [le32_putLe32_of_ne (by unfold raddrOffs rdataOffs; omega), le32_putLe32 hv]
  · rw [putLe32_outside (by unfold rdataOffs; unfold raddrOffs at hx; omega), putLe32_outside (by omega)]

theorem stored_of_whole (hfits : Fits h p.datacmdCnt lines) (hok : ∀ ws ∈ lines, okLine h ws = true)
    (hwhole : ∀ ws ∈ lines, isData h ws = true → ws.length = 3)
    (hq : lines.foldlM (parseLine h) p = .ok q) :
    Stored h lines q.hdr p.datacmdCnt ∧ ∀ x, 28 ≤ x → x < raddrOffs p.datacmdCnt → q.hdr x = p.hdr x := by
  induction lines generalizing p with
  | nil =>
    cases hq
    exact ⟨fun k ws hws => by simp at hws, fun _ _ _ => rfl⟩
  | cons ws lines ih =>
    obtain ⟨hokws, hoklines⟩ := forall_mem_cons.mp hok
    obtain ⟨hwholews, hwholelines⟩ := forall_mem_cons.mp hwhole
    obtain ⟨hbelow, hrest⟩ := hfits
    have hfits := hrest hokws
    cases hdata : isData h ws with
    | true =>
      have hthree := hwholews hdata
      obtain ⟨c, t, d, rfl⟩ := length_eq_three.mp hthree
      simp only [okLine, Bool.and_eq_true, beq_iff_eq] at hokws
      obtain ⟨v, hv⟩ := Option.isSome_iff_exists.mp hokws.1.2
      obtain ⟨u, hu⟩ := Option.isSome_iff_exists.mp hokws.2
      have hcnt := hbelow (by simp [storesAddress, hokws.1.1, hv])
      rw [foldlM_ok (parseLine_two hokws.1.1 hv hu hcnt)] at hq
      obtain ⟨hraddr, hrdata, hbefore⟩ := dataLine_words (p := p) (checkGetHexval_lt hv) (checkGetHexval_lt hu)
      have hplaces : (p.dataLine v u).datacmdCnt = p.datacmdCnt + 1 := rfl
      have hfits' : Fits h (p.dataLine v u).datacmdCnt lines := by
        rw [hplaces]
        simpa [hdata] using hfits
      obtain ⟨hstored, hframe⟩ := ih hfits' hoklines hwholelines hq
      have hkept : ∀ a, 28 ≤ a → a + 4 ≤ raddrOffs (p.datacmdCnt + 1) → le32 q.hdr a = le32 (p.dataLine v u).hdr a :=
        fun a ha hlt => le32_congr fun i hi => hframe _ (by omega) (by rw [hplaces]; omega)
      constructor
      · intro k ws hws
        rw [filter_cons_of_pos hdata] at hws
        cases k with
        | zero =>
          cases hws
          refine ⟨c, t, d, v, u, rfl, hv, hu, ?_, ?_⟩
          · rw [hkept _ (by unfold raddrOffs rcfgOffs; omega) (by unfold raddrOffs; omega)]
            exact hraddr
          · rw [hkept _ (by unfold rdataOffs rcfgOffs; omega) (by unfold rdataOffs raddrOffs; omega)]
            exact hrdata
        | succ k =>
          have hnext := hstored k ws hws
          rw [hplaces] at hnext
          rw [show p.datacmdCnt + (k + 1) = p.datacmdCnt + 1 + k by omega]
          exact hnext
      · intro x hx hlt
        rw [hframe x hx (by rw [hplaces]; unfold raddrOffs at hlt ⊢; omega), hbefore x hlt]
    | false =>
      have haddr : storesAddress h ws = false := by
        cases haddr : storesAddress h ws with
        | false => rfl
        | true =>
          obtain ⟨c, t, rest, v, rfl, hcmd, -⟩ := exists_address haddr
          simp [isData, hcmd] at hdata
      obtain ⟨r, hr, hframe⟩ := (parseLine_plain (p := p) haddr).1 hokws
      rw [foldlM_ok hr] at hq
      have hfits' : Fits h r.datacmdCnt lines := by simpa [hdata, hframe.count] using hfits
      obtain ⟨hstored, hkept⟩ := ih hfits' hoklines hwholelines hq
      rw [hframe.count] at hstored hkept
      refine ⟨?_, fun x hx hlt => (hkept x hx hlt).trans (hframe.hdr x hx)⟩
      intro k ws' hws
      rw [filter_cons_of_neg (by simp [hdata])] at hws
      exact hstored k ws' hws

theorem parseLine_frame (hq : parseLine h p ws = .ok q) : ∀ x, 28 ≤ x → x < rcfgOffs → q.hdr x = p.hdr x := by
  intro x hx hlt
  cases haddr : storesAddress h ws with
  | false =>
    obtain ⟨hgood, hbad⟩ := parseLine_plain (p := p) haddr
    cases hok : okLine h ws with
    | true =>
      obtain ⟨r, hr, hframe⟩ := hgood hok
      rw [hr] at hq
      cases hq
      exact hframe.hdr x hx
    | false =>
      obtain ⟨r, hr, -⟩ := hbad hok
      rw [hr] at hq
      cases hq
  | true =>
    have hword : ∀ (p : Parser) a v, rcfgOffs ≤ a → (p.storeWord a v).hdr x = p.hdr x :=
      fun p a v ha => putLe32_outside (by omega)
    obtain ⟨c, t, rest, v, rfl, hcmd, hv⟩ := exists_address haddr
    rw [parseLine_address hcmd hv] at hq
    cases rest with
    | nil =>
      cases hq
      exact hword p _ v (Nat.le_add_right _ _)
    | cons d more =>
      unfold checkData1 at hq
      simp only [ne_eq, not_true_eq_false, if_false] at hq
      cases hd : checkGetHexval h d with
      | none =>
        rw [hd] at hq
        cases hq
      | some u =>
        rw [hd] at hq
        dsimp only at hq
        split at hq
        · cases hq
        · simp only [Except.bind] at hq
          split at hq
          · cases hq
            refine (hword _ _ u ?_).trans (hword p _ v (Nat.le_add_right _ _))
            exact (Nat.le_add_right _ _).trans (Nat.le_add_right _ _)
          · cases hq

theorem foldlM_frame (hq : lines.foldlM (parseLine h) p = .ok q) :
    ∀ x, 28 ≤ x → x < rcfgOffs → q.hdr x = p.hdr x := by
  induction lines generalizing p with
  | nil =>
    cases hq
    exact fun _ _ _ => rfl
  | cons ws lines ih =>
    cases hr : parseLine h p ws with
    | error r =>
      rw [foldlM_error hr] at hq
      cases hq
    | ok r =>
      rw [foldlM_ok hr] at hq
      exact fun x hx hlt => (ih hq x hx hlt).trans (parseLine_frame hr x hx hlt)

theorem verifyHeader_iff {m : Flash} : verifyHeader m = true ↔ MainMatches m := by
  unfold verifyHeader MainMatches
  by_cases hmain : kwbimageChecksum8 m 0 (bhrSize - 1) = m checkSumOffs
  · simp [hmain]
  · simp [hmain]

theorem setHeader_verifies {file : Option (List UInt8)} {g : Image} {m : Flash} {n : Nat}
    (hset : setHeader h file g = some (m, n)) : verifyHeader m = true := by
  rw [verifyHeader_iff]
  unfold setHeader at hset
  dsimp only at hset
  split at hset
  · cases hset
  next p hp =>
    have hzero : p.hdr checkSumOffs = 0 := by
      unfold setExtHeader at hp
      cases file with
      | none => cases hp
      | some text =>
        rw [foldlM_frame hp checkSumOffs (by decide) (by decide)]
        unfold checkSumOffs
        dsimp only
        rw [putLe32_outside (by omega), store_outside (by simp), putLe32_outside (by omega),
          putLe32_outside (by omega), putLe32_outside (by omega), putLe32_outside (by omega)]
        exact g.dummy 31 (by omega)
    have hsum : kwbimageChecksum8 p.hdr 0 bhrSize = kwbimageChecksum8 p.hdr 0 (bhrSize - 1) := by
      have hlast : read p.hdr (0 + 31) 1 = [p.hdr checkSumOffs] := rfl
      unfold kwbimageChecksum8
      rw [show bhrSize = 31 + 1 from rfl, read_append, hlast, hzero, sum_append]
      simp
    cases hset
    unfold MainMatches
    have hread : ∀ (c d : UInt8) (x : Nat), x < 31 →
        store (store p.hdr checkSumOffs [c]) extCheckSumOffs [d] x = p.hdr x := by
      intro c d x hx
      rw [store_outside (by unfold extCheckSumOffs; omega), store_outside (by unfold checkSumOffs; omega)]
    have hbyte : ∀ (c d : UInt8), store (store p.hdr checkSumOffs [c]) extCheckSumOffs [d] checkSumOffs = c := by
      intro c d
      rw [store_outside (.inl (by decide))]
      simp [store, patch]
    rw [hbyte, hsum]
    exact congrArg List.sum (read_congr fun i hi => hread _ _ _ (by unfold bhrSize at hi; omega))

theorem kept_iff (text : List UInt8) (hdr : Flash) : Kept h text hdr ↔ Plain h text := by
  have hinside := @inside_iff h ⟨putLe32 hdr 32 rcfgOffs, 0, []⟩ (cfgLines text)
    fun s hs => absurd hs not_mem_nil
  constructor
  · rintro ⟨hin, hstored⟩
    have hfits := hinside.mp hin
    refine ⟨hfits, fun hok ws hws hdata => ?_⟩
    obtain ⟨q, hq⟩ := (accepted_iff (p := ⟨putLe32 hdr 32 rcfgOffs, 0, []⟩) hfits).mpr hok
    obtain ⟨k, hk⟩ := mem_iff_getElem?.mp (mem_filter.mpr ⟨hws, hdata⟩)
    obtain ⟨c, a, d, -, -, rfl, -⟩ := hstored q hq k ws hk
    rfl
  · rintro ⟨hfits, hwhole⟩
    refine ⟨hinside.mpr hfits, fun q hq => ?_⟩
    have hok := (accepted_iff (p := ⟨putLe32 hdr 32 rcfgOffs, 0, []⟩) hfits).mp ⟨q, hq⟩
    exact (stored_of_whole (p := ⟨putLe32 hdr 32 rcfgOffs, 0, []⟩) hfits hok (hwhole hok) hq).1

end Proofs

/-- What is built is accepted; what is accepted has both checksums exactly unless the extension alone does
not match; and the words are kept exactly for plain configurations. -/
theorem kwbimage_iff (h : Host) : (∀ file g m n, setHeader h file g = some (m, n) → verifyHeader m = true) ∧
    (∀ m, (verifyHeader m = true → MainMatches m ∧ ExtMatches m) ↔ (MainMatches m → ExtMatches m)) ∧
    ∀ text hdr, Kept h text hdr ↔ Plain h text := by
  refine ⟨fun file g m n hset => setHeader_verifies hset, fun m => ?_, kept_iff⟩
  rw [verifyHeader_iff]
  exact ⟨fun hboth hmain => (hboth hmain).2, fun hext hmain => ⟨hmain, hext hmain⟩⟩

theorem checksum8_zero {m : Flash} {a len : Nat} (hzero : ∀ i, i < len → m (a + i) = 0) :
    kwbimageChecksum8 m a len = 0 := by
  unfold kwbimageChecksum8
  induction len with
  | zero => rfl
  | succ len ih =>
    rw [read_append, sum_append, ih fun i hi => hzero i (by omega)]
    simp [FlashCells.read, hzero len]

/-- An empty header with a wrong checksum of the extension. -/
theorem spoilt_extension_accepted : ¬∀ m, verifyHeader m = true → MainMatches m ∧ ExtMatches m := by
  intro hall
  have hmain : verifyHeader (fun x => if x = 511 then 1 else 0) = true := by decide
  have hext := (hall _ hmain).2
  have hsum : kwbimageChecksum8 (fun x => if x = 511 then 1 else 0) bhrSize (extbhrSize - 1) = 0 :=
    checksum8_zero fun i hi => if_neg (by unfold extbhrSize at hi; unfold bhrSize; omega)
  rw [ExtMatches, hsum] at hext
  exact absurd hext (by decide)

end UBoot.Kwbimage
