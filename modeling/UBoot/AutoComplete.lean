import Mathlib.Data.List.Infix
import UBoot.CommonPrefix
import UBoot.ParseLine

namespace UBoot.AutoComplete

open CommonPrefix List

/-- `CONFIG_SYS_MAXARGS`, `CONFIG_SYS_CBSIZE` -/
def configSysMaxargs : Nat := 16
def configSysCbsize : Nat := 256

/-- The places of `cmdv`. -/
def maxv : Nat := 20

/-- `sizeof(tmp_buf)` of `var_complete` -/
def varBufSize : Nat := 512

def dot : UInt8 := 46
def dots : List UInt8 := [dot, dot, dot]

/-- An entry of the command table. `complete` is `var_complete` or `NULL`. -/
structure CmdTbl where
  name : CString
  complete : Bool

/-- The prompt of the normal console, the command table, and the definitions of the environment. -/
structure Shell where
  prompt : List UInt8
  cmds : List CmdTbl
  env : List CString

/-- A line that the console buffer holds. -/
structure Line where
  bytes : List UInt8
  nulFree : (0 : UInt8) ∉ bytes
  fits : bytes.length < configSysCbsize

/-- `make_argv`, with so many places for arguments. -/
def makeArgv : Nat → List UInt8 → List (List UInt8)
  | 0, _ => []
  | places + 1, s =>
    match s.dropWhile isBlank with
    | [] => []
    | c :: s => (c :: s).takeWhile (!isBlank ·) :: makeArgv places (((c :: s).dropWhile (!isBlank ·)).drop 1)

/-- `len` of `find_cmd_tbl` and `complete_cmdv`: the name up to the first dot. -/
def cmdPart (cmd : List UInt8) : List UInt8 := cmd.takeWhile (· ≠ dot)

/-- The loop of `find_cmd_tbl`, with `cmdtp_temp` and `n_found`. -/
def findLoop (part : List UInt8) : List CmdTbl → Option CmdTbl → Nat → Option CmdTbl
  | [], temp, found => if found = 1 then temp else none
  | cmdtp :: table, temp, found =>
    if part.isPrefixOf cmdtp.name.bytes then
      if part.length = cmdtp.name.bytes.length then some cmdtp else findLoop part table (some cmdtp) (found + 1)
    else findLoop part table temp found

def findCmd (table : List CmdTbl) (cmd : List UInt8) : Option CmdTbl := findLoop (cmdPart cmd) table none 0

/-- Names put into `cmdv`, or dots where there are too many. -/
def putNames : List (List UInt8) → Nat → List (List UInt8)
  | [], _ => []
  | name :: names, found => if found ≥ maxv - 2 then [dots] else name :: putNames names (found + 1)

/-- `env_complete`; an empty definition is the end of the environment. -/
def envComplete (var : List UInt8) : List CString → Nat → Nat → List (List UInt8)
  | [], _, _ => []
  | lval :: env, found, bufsz =>
    if lval.bytes = [] then []
    else
      let val := lval.bytes.takeWhile (· ≠ equalsSign)
      if 0 < var.length ∧ (val.length < var.length ∨ lval.bytes.take var.length ≠ var) then
        envComplete var env found bufsz
      else if found ≥ maxv - 2 ∨ bufsz < val.length + 1 then [dots]
      else val :: envComplete var env (found + 1) (bufsz - (val.length + 1))

/-- `last_char == '\0' || last_char == ' ' || last_char == '\t'`; an empty line has none. -/
def space (lastChar : Option UInt8) : Bool := lastChar.all isBlank

def varComplete (env : List CString) (argv : List (List UInt8)) (lastChar : Option UInt8) : List (List UInt8) :=
  match space lastChar, argv with
  | true, [_] => envComplete [] env 0 varBufSize
  | false, [_, var] => envComplete var env 0 varBufSize
  | _, _ => []

def completeCmdv (sh : Shell) (argv : List (List UInt8)) (lastChar : Option UInt8) : List (List UInt8) :=
  match argv with
  | [] => putNames (sh.cmds.map (·.name.bytes)) 0
  | cmd :: args =>
    if args ≠ [] ∨ space lastChar then
      match findCmd sh.cmds cmd with
      | none => []
      | some cmdtp => if cmdtp.complete then varComplete sh.env (cmd :: args) lastChar else []
    else putNames ((sh.cmds.map (·.name.bytes)).filter (cmdPart cmd).isPrefixOf) 0

def findCommonPrefix : List (List UInt8) → Nat
  | [] => 0
  | anchor :: argv => argv.foldl (fun len t => matched (anchor.take len) t) anchor.length

/-- The end of `cmd_auto_complete`: the text and `sep` are put behind the line, if they fit. -/
def putText (buf text sep : List UInt8) : Int × List UInt8 :=
  if buf.length + (text.length + sep.length) ≥ configSysCbsize - 2 then (1, buf) else (1, buf ++ text ++ sep)

/-- `cmd_auto_complete`: what it returns, and the line. A read outside of `argv` or of a candidate has no result. -/
def cmdAutoComplete (sh : Shell) (prompt buf : List UInt8) : Option (Int × List UInt8) :=
  if prompt ≠ sh.prompt then some (0, buf)
  else
    let argv := makeArgv configSysMaxargs buf
    match completeCmdv sh argv buf.getLast? with
    | [] => some (if argv.length > 1 then 0 else 1, buf)
    | [s] => do
      let arg ← argv.getLast?
      if arg.length ≤ s.length then some (putText buf (s.drop arg.length) [blank]) else none
    | s :: t :: cmdv =>
      let j := findCommonPrefix (s :: t :: cmdv)
      if j = 0 then some (1, buf)
      else do
        let arg ← argv.getLast?
        if arg.length < j then some (putText buf ((s.take j).drop arg.length) []) else some (1, buf)

def candidates (sh : Shell) (buf : List UInt8) : List (List UInt8) :=
  completeCmdv sh (makeArgv configSysMaxargs buf) buf.getLast?

def lastWord (buf : List UInt8) : List UInt8 := (buf.reverse.takeWhile (!isBlank ·)).reverse

/-- The text put behind the line takes the last word towards all candidates, or to the only one, and fits. -/
structure Extends (sh : Shell) (buf buf' text : List UInt8) : Prop where
  appended : buf' = buf ++ text ++ if (candidates sh buf).length = 1 then [blank] else []
  towards : ∀ c ∈ candidates sh buf, lastWord buf ++ text <+: c
  whole : ∀ c, candidates sh buf = [c] → lastWord buf ++ text = c
  fits : buf'.length + 1 ≤ configSysCbsize

def Completes (sh : Shell) (prompt : List UInt8) (line : Line) : Prop :=
  ∃ ret buf', cmdAutoComplete sh prompt line.bytes = some (ret, buf') ∧
    (buf' = line.bytes ∨ ∃ text, Extends sh line.bytes buf' text)

/-- There is room for so many characters behind the line. -/
def Room (buf : List UInt8) (n : Nat) : Prop := buf.length + n < configSysCbsize - 2

/-- What is found for the line agrees with its last argument. -/
def Agrees (sh : Shell) (buf : List UInt8) : Prop :=
  match candidates sh buf with
  | [] => True
  | [c] => ∃ arg, (makeArgv configSysMaxargs buf).getLast? = some arg ∧ arg.length ≤ c.length ∧
      (Room buf (c.length - arg.length + 1) → c.take arg.length = lastWord buf)
  | cs => common cs = [] ∨ ∃ arg, (makeArgv configSysMaxargs buf).getLast? = some arg ∧
      (arg.length < (common cs).length → Room buf ((common cs).length - arg.length) →
        lastWord buf ++ (common cs).drop arg.length <+: common cs)

/-- `q` begins all the names that are listed, and the dots where they do not all fit. -/
def Shared (fits : List (List UInt8) → Prop) (names : List (List UInt8)) (q : List UInt8) : Prop :=
  (∀ front, front <+: names → fits front → ∀ x ∈ front, q <+: x) ∧ (fits names ∨ q <+: dots)

/-- The names that `cmdv` has room for, besides the dots and the `NULL`. -/
def FewNames (front : List (List UInt8)) : Prop := front.length ≤ maxv - 2

/-- Those that are in `tmp_buf` of `var_complete` as well, each with its NUL. -/
def FitsBuffer (front : List (List UInt8)) : Prop :=
  FewNames front ∧ (front.map (·.length + 1)).sum ≤ varBufSize

/-- The names of the commands that begin so. -/
def cmdNames (sh : Shell) (part : List UInt8) : List (List UInt8) :=
  (sh.cmds.map (·.name.bytes)).filter part.isPrefixOf

/-- The names of the variables that begin so, up to an empty definition. -/
def varNames (sh : Shell) (var : List UInt8) : List (List UInt8) :=
  ((sh.env.takeWhile (·.bytes ≠ [])).map (·.bytes.takeWhile (· ≠ equalsSign))).filter var.isPrefixOf

def Completed (sh : Shell) (cmd : List UInt8) : Prop := ∃ cmdtp, findCmd sh.cmds cmd = some cmdtp ∧ cmdtp.complete

/-- A single word with a dot is too long for its command or differs from it, and so for what several commands share. -/
def SpoilsDotted (line word : List UInt8) (names : List (List UInt8)) : Prop :=
  (∃ name, names = [name] ∧
    (name.length < word.length ∨ Room line (name.length - word.length + 1) ∧ ¬word <+: name)) ∨
  2 ≤ names.length ∧ (∃ q, Shared FewNames names q ∧ word.length < q.length ∧ ¬word <+: q) ∧
    ∀ q, Shared FewNames names q → Room line (q.length - word.length)

/-- Behind a blank the word in front of it is passed over in the names of the variables. -/
def SpoilsBehind (line word : List UInt8) (names : List (List UInt8)) : Prop :=
  (∃ name, (names = [name] ∧ name.length < varBufSize ∨
      (∃ long, names.head? = some long ∧ varBufSize ≤ long.length) ∧ name = dots) ∧
    (name.length < word.length ∨ Room line (name.length - word.length + 1))) ∨
  (∃ first, names.head? = some first ∧ first.length < varBufSize) ∧ 2 ≤ names.length ∧
    (∃ q, Shared FitsBuffer names q ∧ word.length < q.length ∧ ¬q.drop word.length <+: q) ∧
    ∀ q, Shared FitsBuffer names q → Room line (q.length - word.length)

/-- The first variable is too long for the buffer, and dots are put in its place. -/
def SpoilsLong (line var : List UInt8) (names : List (List UInt8)) : Prop :=
  (∃ long, names.head? = some long ∧ varBufSize ≤ long.length) ∧
    (dots.length < var.length ∨ Room line (dots.length - var.length + 1) ∧ ¬var <+: dots)

/-- The lines that are not completed as they should be. -/
def Spoils (sh : Shell) (line : List UInt8) : Prop :=
  match wordRuns line with
  | [] => sh.cmds.length = 1 ∨ 2 ≤ sh.cmds.length ∧ ∃ first, Shared FewNames (cmdNames sh []) [first]
  | [word] =>
    EndsInWord line ∧ dot ∈ word ∧ SpoilsDotted line word (cmdNames sh (cmdPart word)) ∨
      ¬EndsInWord line ∧ Completed sh word ∧ SpoilsBehind line word (varNames sh [])
  | [cmd, var] => EndsInWord line ∧ Completed sh cmd ∧ SpoilsLong line var (varNames sh var)
  | _ => False

/-- Names put into `cmdv` and `tmp_buf` of `var_complete`, or dots where there is no room. -/
def putVars : List (List UInt8) → Nat → Nat → List (List UInt8)
  | [], _, _ => []
  | val :: vals, found, bufsz =>
    if found ≥ maxv - 2 ∨ bufsz < val.length + 1 then [dots]
    else val :: putVars vals (found + 1) (bufsz - (val.length + 1))

variable {sh : Shell} {prompt buf text sep : List UInt8} {cs : List (List UInt8)} {c arg : List UInt8} {n : Nat}
  {fits : List (List UInt8) → Prop} {names : List (List UInt8)} {q x : List UInt8}

theorem foldl_matched (anchor : List UInt8) (hn : n ≤ anchor.length) :
    cs.foldl (fun len t => matched (anchor.take len) t) n ≤ anchor.length ∧
      anchor.take (cs.foldl (fun len t => matched (anchor.take len) t) n) =
        cs.foldl (fun p t => p.take (matched p t)) (anchor.take n) := by
  induction cs generalizing n with
  | nil => exact ⟨hn, rfl⟩
  | cons t cs ih =>
    have hle : matched (anchor.take n) t ≤ n := (matched_le _ t).trans (length_take_le n anchor)
    have htake : (anchor.take n).take (matched (anchor.take n) t) = anchor.take (matched (anchor.take n) t) := by
      rw [take_take, min_eq_left hle]
    rw [foldl_cons, foldl_cons, htake]
    exact ih (hle.trans hn)

theorem findCommonPrefix_eq (anchor : List UInt8) (cs : List (List UInt8)) :
    anchor.take (findCommonPrefix (anchor :: cs)) = common (anchor :: cs) ∧
      findCommonPrefix (anchor :: cs) = (common (anchor :: cs)).length := by
  obtain ⟨hle, htake⟩ := @foldl_matched cs anchor.length anchor le_rfl
  rw [take_length] at htake
  refine ⟨htake, ?_⟩
  have hlen := congrArg List.length htake
  rw [length_take, min_eq_left hle] at hlen
  exact hlen

theorem putText_room (h : Room buf (text.length + sep.length)) : putText buf text sep = (1, buf ++ text ++ sep) :=
  if_neg (not_le.mpr h)

theorem putText_full (h : ¬Room buf (text.length + sep.length)) : putText buf text sep = (1, buf) :=
  if_pos (not_lt.mp h)

theorem extends_iff (hroom : Room buf (text.length + sep.length)) (hne : text ++ sep ≠ [])
    (hsep : sep = if (candidates sh buf).length = 1 then [blank] else []) :
    (buf ++ text ++ sep = buf ∨ ∃ t, Extends sh buf (buf ++ text ++ sep) t) ↔
      (∀ c ∈ candidates sh buf, lastWord buf ++ text <+: c) ∧
        ∀ c, candidates sh buf = [c] → lastWord buf ++ text = c := by
  have hgrown : buf ++ text ++ sep ≠ buf := by
    intro h
    rw [append_assoc] at h
    exact hne (append_right_eq_self.mp h)
  constructor
  · rintro (h | ⟨t, h⟩)
    · exact absurd h hgrown
    · have happ := h.appended
      rw [← hsep, append_assoc, append_assoc, append_cancel_left_eq, append_cancel_right_eq] at happ
      subst happ
      exact ⟨h.towards, h.whole⟩
  · rintro ⟨htowards, hwhole⟩
    refine .inr ⟨text, by rw [hsep], htowards, hwhole, ?_⟩
    unfold Room at hroom
    simp only [length_append]
    omega

theorem append_drop_eq (n : Nat) : lastWord buf ++ c.drop n = c ↔ c.take n = lastWord buf := by
  conv_lhs => rhs; rw [← take_append_drop n c]
  rw [append_cancel_right_eq, eq_comm]

theorem completes_one {line : Line} (hprompt : prompt = sh.prompt) (hc : candidates sh line.bytes = [c]) :
    Completes sh prompt line ↔ Agrees sh line.bytes := by
  have hone : [blank] = if (candidates sh line.bytes).length = 1 then [blank] else [] := by simp [hc]
  unfold Completes cmdAutoComplete Agrees
  rw [if_neg (not_not.mpr hprompt)]
  unfold candidates at hc
  simp only [candidates, hc]
  cases harg : (makeArgv configSysMaxargs line.bytes).getLast? with
  | none => simp
  | some arg =>
    simp only [Option.bind_eq_bind, Option.bind_some, Option.some.injEq, exists_eq_left']
    by_cases hle : arg.length ≤ c.length
    · have hsize : (c.drop arg.length).length + [blank].length = c.length - arg.length + 1 := by simp
      simp only [hle, if_true, Option.some.injEq, true_and]
      by_cases hroom : Room line.bytes (c.length - arg.length + 1)
      · rw [putText_room (hsize ▸ hroom)]
        simp only [Prod.mk.injEq, hroom, true_implies]
        rw [← append_drop_eq arg.length]
        have hiff := extends_iff (hsize ▸ hroom) (by simp) hone
        simp only [candidates, hc, mem_singleton, forall_eq, List.cons.injEq, and_true, forall_eq'] at hiff
        constructor
        · rintro ⟨_, _, ⟨rfl, rfl⟩, h⟩
          exact (hiff.mp h).2
        · intro h
          exact ⟨1, _, ⟨rfl, rfl⟩, hiff.mpr ⟨by simp [h], h⟩⟩
      · rw [putText_full (hsize ▸ hroom)]
        simp [hroom]
    · simp [hle]

theorem completes_several {line : Line} {d : List UInt8} (hprompt : prompt = sh.prompt)
    (hc : candidates sh line.bytes = c :: d :: cs) : Completes sh prompt line ↔ Agrees sh line.bytes := by
  obtain ⟨htake, hlen⟩ := findCommonPrefix_eq c (d :: cs)
  have hone : ([] : List UInt8) = if (candidates sh line.bytes).length = 1 then [blank] else [] := by simp [hc]
  have htowards : ∀ q : List UInt8, q <+: common (c :: d :: cs) ↔ ∀ x ∈ candidates sh line.bytes, q <+: x := by
    intro q
    rw [hc]
    exact prefix_common (by simp)
  unfold Completes cmdAutoComplete Agrees
  rw [if_neg (not_not.mpr hprompt)]
  unfold candidates at hc
  simp only [candidates, hc]
  by_cases hnone : common (c :: d :: cs) = []
  · simp [hlen, hnone]
  · have hsome : findCommonPrefix (c :: d :: cs) ≠ 0 := by
      rw [hlen]
      simpa using hnone
    rw [if_neg hsome, htake]
    cases harg : (makeArgv configSysMaxargs line.bytes).getLast? with
    | none => simp [hnone]
    | some arg =>
      simp only [Option.bind_eq_bind, Option.bind_some, Option.some.injEq, exists_eq_left', hnone, false_or]
      rw [hlen]
      by_cases hlong : arg.length < (common (c :: d :: cs)).length
      · have hsize : ((common (c :: d :: cs)).drop arg.length).length + ([] : List UInt8).length =
            (common (c :: d :: cs)).length - arg.length := by simp
        simp only [hlong, if_true, true_implies, Option.some.injEq]
        by_cases hroom : Room line.bytes ((common (c :: d :: cs)).length - arg.length)
        · have hiff := extends_iff (hsize ▸ hroom) (by simpa using hlong) hone
          rw [putText_room (hsize ▸ hroom)]
          simp only [hroom, true_implies, Prod.mk.injEq]
          rw [htowards]
          simp only [candidates, hc, List.cons.injEq, reduceCtorEq, and_false, false_implies, implies_true,
            and_true] at hiff ⊢
          rw [← hiff]
          constructor
          · rintro ⟨_, _, ⟨rfl, rfl⟩, h⟩
            exact h
          · exact fun h => ⟨1, _, ⟨rfl, rfl⟩, h⟩
        · rw [putText_full (hsize ▸ hroom)]
          simp [hroom]
      · simp [hlong]

theorem completes_agrees {line : Line} (hprompt : prompt = sh.prompt) :
    Completes sh prompt line ↔ Agrees sh line.bytes := by
  match hc : candidates sh line.bytes with
  | [] =>
    unfold Completes cmdAutoComplete Agrees
    rw [if_neg (not_not.mpr hprompt)]
    unfold candidates at hc
    simp [candidates, hc]
  | [c] => exact completes_one hprompt hc
  | c :: d :: cs => exact completes_several hprompt hc

theorem makeArgv_nil (n : Nat) : makeArgv n [] = [] := by
  cases n <;> rfl

theorem makeArgv_word {blanks word : List UInt8} {places : Nat} (rest : List UInt8)
    (hblanks : ∀ c ∈ blanks, isBlank c) (hne : word ≠ []) (hword : ∀ c ∈ word, isBlank c = false)
    (hrest : ∀ c ∈ rest.head?, isBlank c) :
    makeArgv (places + 1) (blanks ++ (word ++ rest)) = word :: makeArgv places (rest.drop 1) := by
  obtain ⟨w, tail, rfl⟩ := exists_cons_of_ne_nil hne
  have hskip : (blanks ++ (w :: tail ++ rest)).dropWhile isBlank = w :: (tail ++ rest) := by
    rw [dropWhile_append_of_pos hblanks, cons_append,
      dropWhile_cons_of_neg (by simp [hword w mem_cons_self])]
  have hin : ∀ c ∈ w :: tail, (!isBlank c) = true := fun c hc => by rw [hword c hc]; rfl
  have hout : rest.takeWhile (!isBlank ·) = [] ∧ rest.dropWhile (!isBlank ·) = rest := by
    cases rest with
    | nil => exact ⟨rfl, rfl⟩
    | cons d rest => simp [hrest d rfl]
  rw [makeArgv, hskip]
  dsimp only
  rw [← cons_append, takeWhile_append_of_pos hin, dropWhile_append_of_pos hin, hout.1, hout.2,
    append_nil]

/-- The arguments are the words of the line, as many as there are places. -/
theorem makeArgv_eq (places : Nat) (s : List UInt8) : makeArgv places s = (wordRuns s).take places := by
  induction places generalizing s with
  | zero => rfl
  | succ places ih =>
    rcases line_cases s with hblank | ⟨blanks, word, hblanks, hne, hword, rfl | ⟨c, rest, hc, rfl⟩⟩
    · rw [wordRuns_all_blank hblank, makeArgv, dropWhile_eq_nil_iff.mpr hblank, take_nil]
    · have hone := @makeArgv_word _ _ places [] hblanks hne hword (by simp)
      rw [append_nil, drop_nil, makeArgv_nil] at hone
      rw [hone, wordRuns_blanks hblanks, wordRuns_word hword hne, take_succ_cons, take_nil]
    · rw [makeArgv_word _ hblanks hne hword (by simpa using hc), wordRuns_blanks hblanks,
        wordRuns_word_blank hword hne hc, drop_one, tail_cons, ih, take_succ_cons]

theorem lastWord_word {blanks word : List UInt8} (hblanks : ∀ c ∈ blanks, isBlank c)
    (hword : ∀ c ∈ word, isBlank c = false) : lastWord (blanks ++ word) = word := by
  have hin : ∀ c ∈ word.reverse, (!isBlank c) = true := fun c hc => by rw [hword c (mem_reverse.mp hc)]; rfl
  have hout : blanks.reverse.takeWhile (!isBlank ·) = [] := by
    rw [takeWhile_eq_nil_iff]
    intro hpos
    rw [hblanks _ (mem_reverse.mp (get_mem _ ⟨0, hpos⟩))]
    exact Bool.false_ne_true
  rw [lastWord, reverse_append, takeWhile_append_of_pos hin, hout, append_nil, reverse_reverse]

theorem lastWord_behind {front : List UInt8} {c : UInt8} (hc : isBlank c) :
    lastWord (front ++ c :: text) = lastWord text := by
  have hout : (c :: front.reverse).takeWhile (!isBlank ·) = [] := by simp [hc]
  rw [lastWord, lastWord, reverse_append, reverse_cons, append_assoc, singleton_append,
    takeWhile_append]
  split
  next h =>
    rw [hout, append_nil]
    congr 1
    exact ((List.takeWhile_prefix _).eq_of_length h).symm
  · rfl

theorem space_iff : space buf.getLast? = false ↔ EndsInWord buf := by
  unfold EndsInWord
  cases buf.getLast? with
  | none => simp [space]
  | some c => simp [space]

theorem lastWord_space (h : ¬EndsInWord buf) : lastWord buf = [] := by
  rcases eq_nil_or_concat' buf with rfl | ⟨front, c, rfl⟩
  · rfl
  · refine @lastWord_behind [] front c (Bool.not_eq_false _ ▸ fun hc => h ⟨c, List.getLast?_concat, hc⟩)

/-- The last word of a line that does not end in a blank is the last argument. -/
theorem lastWord_eq (h : EndsInWord buf) : (wordRuns buf).getLast? = some (lastWord buf) := by
  induction hn : buf.length using Nat.strong_induction_on generalizing buf with
  | _ n ih =>
    rcases line_cases buf with hblank | ⟨blanks, word, hblanks, hne, hword, rfl | ⟨c, rest, hc, rfl⟩⟩
    · exact absurd h (not_endsInWord hblank)
    · rw [wordRuns_blanks hblanks, wordRuns_word hword hne, lastWord_word hblanks hword]
      rfl
    · rw [← append_assoc] at h hn
      have hrest := ih rest.length (by simp at hn; omega) ((endsInWord_behind hc).mp h) rfl
      rw [← append_assoc, lastWord_behind hc, append_assoc, wordRuns_blanks hblanks,
        wordRuns_word_blank hword hne hc, ← hrest]
      exact List.getLast?_cons_of_ne_nil fun hnil => by rw [hnil] at hrest; cases hrest

theorem agrees_nil (hc : candidates sh buf = []) : Agrees sh buf := by
  unfold Agrees
  rw [hc]
  trivial

theorem not_agrees_one (hc : candidates sh buf = [c]) (harg : (makeArgv configSysMaxargs buf).getLast? = some arg) :
    ¬Agrees sh buf ↔
      c.length < arg.length ∨ Room buf (c.length - arg.length + 1) ∧ c.take arg.length ≠ lastWord buf := by
  unfold Agrees
  rw [hc]
  simp only [harg, Option.some.injEq, exists_eq_left']
  rw [not_and_or, not_le, Classical.not_imp]

theorem not_agrees_several {d : List UInt8} (hc : candidates sh buf = c :: d :: cs)
    (harg : (makeArgv configSysMaxargs buf).getLast? = some arg) (hlast : (lastWord buf).length ≤ arg.length) :
    ¬Agrees sh buf ↔
      (∃ q, (∀ x ∈ candidates sh buf, q <+: x) ∧ arg.length < q.length ∧ ¬lastWord buf ++ q.drop arg.length <+: q) ∧
        ∀ q, (∀ x ∈ candidates sh buf, q <+: x) → Room buf (q.length - arg.length) := by
  have hcommon (q : List UInt8) : (∀ x ∈ candidates sh buf, q <+: x) ↔ q <+: common (c :: d :: cs) := by
    rw [hc]
    exact (prefix_common (cons_ne_nil c _)).symm
  simp only [hcommon]
  unfold Agrees
  rw [hc]
  simp only [harg, Option.some.injEq, exists_eq_left']
  generalize common (c :: d :: cs) = p
  rw [not_or, Classical.not_imp, Classical.not_imp]
  constructor
  · rintro ⟨_, hlong, hroom, hwrong⟩
    refine ⟨⟨p, prefix_rfl, hlong, hwrong⟩, fun q hq => ?_⟩
    have hle := hq.length_le
    unfold Room at hroom ⊢
    omega
  · rintro ⟨⟨q, hq, hlong, hwrong⟩, hroom⟩
    have hle := hq.length_le
    refine ⟨?_, by omega, hroom p prefix_rfl, fun hp => hwrong ?_⟩
    · rintro rfl
      rw [length_nil] at hle
      omega
    · refine prefix_of_prefix_length_le (((prefix_append_right_inj _).mpr (hq.drop _)).trans hp) hq ?_
      rw [length_append, length_drop]
      omega

theorem shared_cons (h : fits [x]) :
    Shared fits (x :: names) q ↔ q <+: x ∧ Shared (fun front => fits (x :: front)) names q := by
  unfold Shared
  constructor
  · rintro ⟨hall, hdots⟩
    exact ⟨hall [x] (by simp) h x (by simp),
      fun front hfront hfits y hy => hall (x :: front) (cons_prefix_cons.mpr ⟨rfl, hfront⟩) hfits y (by simp [hy]),
      hdots⟩
  · rintro ⟨hx, hall, hdots⟩
    refine ⟨fun front hfront hfits y hy => ?_, hdots⟩
    cases front with
    | nil => cases hy
    | cons z front =>
      obtain ⟨rfl, hrest⟩ := cons_prefix_cons.mp hfront
      rcases mem_cons.mp hy with rfl | hy
      · exact hx
      · exact hall front hrest hfits y hy

theorem shared_full (h : ∀ front, ¬fits (x :: front)) : Shared fits (x :: names) q ↔ q <+: dots := by
  unfold Shared
  rw [or_iff_right (h names)]
  refine and_iff_right_of_imp fun _ front hfront hfits y hy => ?_
  cases front with
  | nil => cases hy
  | cons z front =>
    obtain ⟨rfl, _⟩ := cons_prefix_cons.mp hfront
    exact absurd hfits (h front)

theorem putNames_shared (names : List (List UInt8)) {found : Nat} (h : found ≤ maxv - 2) (q : List UInt8) :
    (∀ c ∈ putNames names found, q <+: c) ↔ Shared (fun front => found + front.length ≤ maxv - 2) names q := by
  induction names generalizing found with
  | nil =>
    simp [putNames, Shared, h]
  | cons x names ih =>
    by_cases hfull : found ≥ maxv - 2
    · rw [putNames, if_pos hfull, shared_full fun front hle => by rw [length_cons] at hle; omega]
      simp
    · have hfits : (fun front : List (List UInt8) => found + (x :: front).length ≤ maxv - 2) =
          fun front => found + 1 + front.length ≤ maxv - 2 := by
        funext front
        rw [length_cons, add_assoc, add_comm 1]
      rw [putNames, if_neg hfull, shared_cons (by rw [length_singleton]; omega), hfits,
        forall_mem_cons, ih (by omega)]

theorem prefix_name_iff {var lval : List UInt8} (p : UInt8 → Bool) :
    ¬(0 < var.length ∧ ((lval.takeWhile p).length < var.length ∨ lval.take var.length ≠ var)) ↔
      var <+: lval.takeWhile p := by
  constructor
  · intro h
    rcases Nat.eq_zero_or_pos var.length with hnil | hpos
    · rw [length_eq_zero_iff.mp hnil]
      exact nil_prefix
    · obtain ⟨hlen, htake⟩ := not_or.mp fun hor => h ⟨hpos, hor⟩
      exact prefix_of_prefix_length_le (prefix_iff_eq_take.mpr (not_not.mp htake).symm)
        (List.takeWhile_prefix p) (not_lt.mp hlen)
  · rintro hpre ⟨_, hlen | htake⟩
    · exact absurd hpre.length_le (not_le.mpr hlen)
    · exact htake (prefix_iff_eq_take.mp (hpre.trans (List.takeWhile_prefix p))).symm

theorem envComplete_eq (var : List UInt8) (env : List CString) (found bufsz : Nat) :
    envComplete var env found bufsz = putVars
      (((env.takeWhile (·.bytes ≠ [])).map (·.bytes.takeWhile (· ≠ equalsSign))).filter var.isPrefixOf) found bufsz := by
  induction env generalizing found bufsz with
  | nil => rfl
  | cons lval env ih =>
    rw [envComplete]
    by_cases hend : lval.bytes = []
    · rw [if_pos hend, takeWhile_cons_of_neg (by simp [hend])]
      rfl
    · rw [if_neg hend, takeWhile_cons_of_pos (by simp [hend]), map_cons]
      by_cases hskip : 0 < var.length ∧ ((lval.bytes.takeWhile (· ≠ equalsSign)).length < var.length ∨
          lval.bytes.take var.length ≠ var)
      · have hnot : ¬var.isPrefixOf (lval.bytes.takeWhile (· ≠ equalsSign)) := by
          rw [List.isPrefixOf_iff_prefix, ← prefix_name_iff]
          exact not_not.mpr hskip
        rw [if_pos hskip, filter_cons_of_neg hnot]
        exact ih found bufsz
      · have hbegins : var.isPrefixOf (lval.bytes.takeWhile (· ≠ equalsSign)) :=
          isPrefixOf_iff_prefix.mpr ((prefix_name_iff _).mp hskip)
        rw [if_neg hskip, filter_cons_of_pos hbegins, putVars, ih]

theorem putVars_shared (names : List (List UInt8)) {found : Nat} (bufsz : Nat) (h : found ≤ maxv - 2) (q : List UInt8) :
    (∀ c ∈ putVars names found bufsz, q <+: c) ↔
      Shared (fun front => found + front.length ≤ maxv - 2 ∧ (front.map (·.length + 1)).sum ≤ bufsz) names q := by
  induction names generalizing found bufsz with
  | nil => simp [putVars, Shared, h]
  | cons x names ih =>
    by_cases hfull : found ≥ maxv - 2 ∨ bufsz < x.length + 1
    · rw [putVars, if_pos hfull, shared_full fun front hfits => by
        simp only [length_cons, map_cons, sum_cons] at hfits
        omega]
      simp
    · have hfits : (fun front : List (List UInt8) => found + (x :: front).length ≤ maxv - 2 ∧
            ((x :: front).map (·.length + 1)).sum ≤ bufsz) =
          fun front => found + 1 + front.length ≤ maxv - 2 ∧
            (front.map (·.length + 1)).sum ≤ bufsz - (x.length + 1) := by
        funext front
        simp only [length_cons, map_cons, sum_cons, eq_iff_iff]
        omega
      rw [putVars, if_neg hfull, shared_cons (by simp; omega), hfits, forall_mem_cons, ih _ (by omega)]

theorem agrees_of_head (hc : candidates sh buf = c :: cs)
    (harg : (makeArgv configSysMaxargs buf).getLast? = some (lastWord buf)) (hpre : lastWord buf <+: c) :
    Agrees sh buf := by
  cases cs with
  | nil =>
    by_contra hnot
    rcases (not_agrees_one hc harg).mp hnot with hshort | ⟨_, hne⟩
    · exact absurd hpre.length_le (not_le.mpr hshort)
    · exact hne (prefix_iff_eq_take.mp hpre).symm
  | cons d cs =>
    by_contra hnot
    obtain ⟨⟨q, hq, hlong, hwrong⟩, _⟩ := (not_agrees_several hc harg le_rfl).mp hnot
    have hwq : lastWord buf <+: q :=
      prefix_of_prefix_length_le hpre (hq c (by rw [hc]; exact mem_cons_self)) hlong.le
    rw [prefix_iff_eq_append.mp hwq] at hwrong
    exact hwrong prefix_rfl

theorem putNames_few (names : List (List UInt8)) (q : List UInt8) :
    (∀ c ∈ putNames names 0, q <+: c) ↔ Shared FewNames names q := by
  rw [putNames_shared names (Nat.zero_le _)]
  simp only [zero_add]
  rfl

theorem putVars_fits (names : List (List UInt8)) (q : List UInt8) :
    (∀ c ∈ putVars names 0 varBufSize, q <+: c) ↔ Shared FitsBuffer names q := by
  rw [putVars_shared names varBufSize (Nat.zero_le _)]
  simp only [zero_add]
  rfl

theorem putNames_two (c d : List UInt8) (cs : List (List UInt8)) :
    putNames (c :: d :: cs) 0 = c :: d :: putNames cs 2 := rfl

theorem putVars_long (hlong : varBufSize ≤ c.length) : putVars (c :: cs) 0 varBufSize = [dots] :=
  if_pos (.inr (Nat.lt_succ_of_le hlong))

theorem putVars_first (hshort : c.length < varBufSize) :
    putVars (c :: cs) 0 varBufSize = c :: putVars cs 1 (varBufSize - (c.length + 1)) :=
  if_neg (by simp [maxv]; omega)

theorem putVars_more (x : List UInt8) (bufsz : Nat) : ∃ d ds, putVars (x :: cs) 1 bufsz = d :: ds := by
  rw [putVars]
  split
  · exact ⟨_, _, rfl⟩
  · exact ⟨_, _, rfl⟩

theorem cmdNames_nil : cmdNames sh [] = sh.cmds.map (·.name.bytes) := filter_eq_self.mpr fun _ _ => rfl

theorem cmdNames_prefix {part : List UInt8} (h : c ∈ cmdNames sh part) : part <+: c :=
  isPrefixOf_iff_prefix.mp (mem_filter.mp h).2

theorem varNames_prefix {var : List UInt8} (h : c ∈ varNames sh var) : var <+: c :=
  isPrefixOf_iff_prefix.mp (mem_filter.mp h).2

theorem noWord_iff (hw : wordRuns buf = []) :
    ¬Agrees sh buf ↔ sh.cmds.length = 1 ∨ 2 ≤ sh.cmds.length ∧ ∃ first, Shared FewNames (cmdNames sh []) [first] := by
  have hargv : makeArgv configSysMaxargs buf = [] := by rw [makeArgv_eq, hw, take_nil]
  have hlen : sh.cmds.length = (cmdNames sh []).length := by rw [cmdNames_nil, length_map]
  have hc : candidates sh buf = putNames (cmdNames sh []) 0 := by
    unfold candidates completeCmdv
    rw [hargv, cmdNames_nil]
  rw [hlen]
  match hnames : cmdNames sh [] with
  | [] =>
    rw [hnames] at hc
    exact iff_of_false (not_not.mpr (agrees_nil hc)) (by simp)
  | [c] =>
    rw [hnames] at hc
    refine iff_of_true ?_ (.inl rfl)
    unfold Agrees
    rw [hc]
    simp [putNames, maxv, hargv]
  | c :: d :: cs =>
    rw [hnames, putNames_two] at hc
    have hshared (q : List UInt8) : Shared FewNames (c :: d :: cs) q ↔ q <+: common (c :: d :: putNames cs 2) := by
      rw [← putNames_few, putNames_two, prefix_common (cons_ne_nil _ _)]
    unfold Agrees
    rw [hc]
    simp only [hargv, hshared]
    cases common (c :: d :: putNames cs 2) with
    | nil => simp
    | cons first p => simp

theorem single_iff {w : List UInt8} (hw : wordRuns buf = [w]) (hend : EndsInWord buf) :
    ¬Agrees sh buf ↔ dot ∈ w ∧ SpoilsDotted buf w (cmdNames sh (cmdPart w)) := by
  have hargv : makeArgv configSysMaxargs buf = [w] := by rw [makeArgv_eq, hw]; rfl
  have hlast : lastWord buf = w := by
    have h := lastWord_eq hend
    rw [hw] at h
    exact (Option.some.inj h).symm
  have harg : (makeArgv configSysMaxargs buf).getLast? = some w := by rw [hargv]; rfl
  have hc : candidates sh buf = putNames (cmdNames sh (cmdPart w)) 0 := by
    unfold candidates completeCmdv
    rw [hargv]
    simp [space_iff.mpr hend, cmdNames]
  by_cases hdot : dot ∈ w
  · rw [and_iff_right hdot]
    match hnames : cmdNames sh (cmdPart w) with
    | [] =>
      rw [hnames] at hc
      exact iff_of_false (not_not.mpr (agrees_nil hc)) (by simp [SpoilsDotted])
    | [c] =>
      rw [hnames] at hc
      rw [not_agrees_one hc harg, hlast, ne_comm, Ne, ← prefix_iff_eq_take]
      simp [SpoilsDotted]
    | c :: d :: cs =>
      rw [hnames] at hc
      have hwrong (q : List UInt8) : w ++ q.drop w.length <+: q ↔ w <+: q :=
        ⟨(prefix_append w _).trans, fun h => by rw [prefix_iff_eq_append.mp h]⟩
      rw [not_agrees_several (hc.trans (putNames_two c d cs)) harg (by rw [hlast])]
      simp [SpoilsDotted, hc, putNames_few, hlast, hwrong]
  · have hpart : cmdPart w = w := by
      refine takeWhile_eq_self_iff.mpr fun x hx => decide_eq_true ?_
      rintro rfl
      exact hdot hx
    rw [hpart] at hc
    refine iff_of_false (not_not.mpr ?_) fun h => hdot h.1
    match hnames : cmdNames sh w with
    | [] =>
      rw [hnames] at hc
      exact agrees_nil hc
    | c :: cs =>
      have hfirst : lastWord buf <+: c := by
        rw [hlast]
        exact cmdNames_prefix (by rw [hnames]; exact mem_cons_self)
      rw [hnames] at hc
      exact agrees_of_head hc (by rw [harg, hlast]) hfirst

theorem completeCmdv_completed {cmd : List UInt8} {args : List (List UInt8)} {lastChar : Option UInt8}
    (hargs : args ≠ [] ∨ space lastChar) (h : Completed sh cmd) :
    completeCmdv sh (cmd :: args) lastChar = varComplete sh.env (cmd :: args) lastChar := by
  obtain ⟨cmdtp, hfind, hcomplete⟩ := h
  rw [completeCmdv, if_pos hargs, hfind]
  exact if_pos hcomplete

theorem completeCmdv_other {cmd : List UInt8} {args : List (List UInt8)} {lastChar : Option UInt8}
    (hargs : args ≠ [] ∨ space lastChar) (h : ¬Completed sh cmd) : completeCmdv sh (cmd :: args) lastChar = [] := by
  rw [completeCmdv, if_pos hargs]
  cases hfind : findCmd sh.cmds cmd with
  | none => rfl
  | some cmdtp => exact if_neg fun hcomplete => h ⟨cmdtp, hfind, hcomplete⟩

theorem wordRuns_ne_nil {w : List UInt8} (h : w ∈ wordRuns buf) : w ≠ [] := by
  have hrun := (mem_filter.mp h).2
  rintro rfl
  cases hrun

theorem behind_iff {w : List UInt8} (hw : wordRuns buf = [w]) (hend : ¬EndsInWord buf) :
    ¬Agrees sh buf ↔ Completed sh w ∧ SpoilsBehind buf w (varNames sh []) := by
  have hargv : makeArgv configSysMaxargs buf = [w] := by rw [makeArgv_eq, hw]; rfl
  have hne : w ≠ [] := wordRuns_ne_nil (hw ▸ mem_singleton_self w)
  have hlast : lastWord buf = [] := lastWord_space hend
  have harg : (makeArgv configSysMaxargs buf).getLast? = some w := by rw [hargv]; rfl
  have hspace : space buf.getLast? = true := Bool.of_not_eq_false fun h => hend (space_iff.mp h)
  by_cases hcmd : Completed sh w
  · rw [and_iff_right hcmd]
    have hc : candidates sh buf = putVars (varNames sh []) 0 varBufSize := by
      unfold candidates
      rw [hargv, completeCmdv_completed (.inr hspace) hcmd]
      unfold varComplete
      rw [hspace]
      exact envComplete_eq [] sh.env 0 varBufSize
    match hnames : varNames sh [] with
    | [] =>
      rw [hnames] at hc
      exact iff_of_false (not_not.mpr (agrees_nil hc)) (by simp [SpoilsBehind])
    | c :: cs =>
      rw [hnames] at hc
      unfold SpoilsBehind
      have hwrong (c : List UInt8) : c.length < w.length ∨ Room buf (c.length - w.length + 1) ∧ c.take w.length ≠ [] ↔
          c.length < w.length ∨ Room buf (c.length - w.length + 1) := by
        refine or_congr_right' fun hlong => and_iff_left ?_
        have hpos := length_pos_iff.mpr hne
        rw [Ne, take_eq_nil_iff, ← length_eq_zero_iff]
        omega
      by_cases hlong : varBufSize ≤ c.length
      · rw [putVars_long hlong] at hc
        rw [not_agrees_one hc harg, hlast, hwrong]
        simp [hlong, not_lt.mpr hlong]
      · have hshort := not_le.mp hlong
        rw [putVars_first hshort] at hc
        cases cs with
        | nil =>
          rw [not_agrees_one hc harg, hlast, hwrong]
          simp [hlong, hshort]
        | cons x cs =>
          obtain ⟨d, ds, hmore⟩ := @putVars_more cs x (varBufSize - (c.length + 1))
          have hshared (q : List UInt8) : (∀ y ∈ candidates sh buf, q <+: y) ↔ Shared FitsBuffer (c :: x :: cs) q := by
            rw [hc, ← putVars_fits, putVars_first hshort]
          rw [not_agrees_several (hc.trans (by rw [hmore])) harg (by rw [hlast]; exact Nat.zero_le _)]
          simp [hlong, hshort, hshared, hlast]
  · refine iff_of_false (not_not.mpr (agrees_nil ?_)) fun h => hcmd h.1
    unfold candidates
    rw [hargv, completeCmdv_other (.inr hspace) hcmd]

theorem variable_iff {cmd var : List UInt8} (hw : wordRuns buf = [cmd, var]) :
    ¬Agrees sh buf ↔ EndsInWord buf ∧ Completed sh cmd ∧ SpoilsLong buf var (varNames sh var) := by
  have hargv : makeArgv configSysMaxargs buf = [cmd, var] := by rw [makeArgv_eq, hw]; rfl
  have hargs : [var] ≠ [] ∨ space buf.getLast? = true := .inl (cons_ne_nil var [])
  by_cases hcmd : Completed sh cmd
  · by_cases hend : EndsInWord buf
    · rw [and_iff_right hend, and_iff_right hcmd]
      have hlast : lastWord buf = var := by
        have h := lastWord_eq hend
        rw [hw] at h
        exact (Option.some.inj h).symm
      have harg : (makeArgv configSysMaxargs buf).getLast? = some var := by rw [hargv]; rfl
      have hc : candidates sh buf = putVars (varNames sh var) 0 varBufSize := by
        unfold candidates
        rw [hargv, completeCmdv_completed hargs hcmd]
        unfold varComplete
        rw [space_iff.mpr hend]
        exact envComplete_eq var sh.env 0 varBufSize
      match hnames : varNames sh var with
      | [] =>
        rw [hnames] at hc
        exact iff_of_false (not_not.mpr (agrees_nil hc)) (by simp [SpoilsLong])
      | c :: cs =>
        have hfirst : lastWord buf <+: c := by
          rw [hlast]
          exact varNames_prefix (by rw [hnames]; exact mem_cons_self)
        rw [hnames] at hc
        by_cases hlong : varBufSize ≤ c.length
        · rw [putVars_long hlong] at hc
          rw [not_agrees_one hc harg, hlast, ne_comm, Ne, ← prefix_iff_eq_take]
          simp [SpoilsLong, hlong]
        · rw [putVars_first (not_le.mp hlong)] at hc
          refine iff_of_false (not_not.mpr (agrees_of_head hc (by rw [harg, hlast]) hfirst)) ?_
          simp [SpoilsLong, hlong]
    · have hspace : space buf.getLast? = true := Bool.of_not_eq_false fun h => hend (space_iff.mp h)
      refine iff_of_false (not_not.mpr (agrees_nil ?_)) fun h => hend h.1
      unfold candidates
      rw [hargv, completeCmdv_completed hargs hcmd]
      unfold varComplete
      rw [hspace]
  · refine iff_of_false (not_not.mpr (agrees_nil ?_)) fun h => hcmd h.2.1
    unfold candidates
    rw [hargv, completeCmdv_other hargs hcmd]

theorem agrees_iff : ¬Agrees sh buf ↔ Spoils sh buf := by
  unfold Spoils
  match hw : wordRuns buf with
  | [] => exact noWord_iff hw
  | [w] =>
    by_cases hend : EndsInWord buf
    · rw [single_iff hw hend]
      simp [hend]
    · rw [behind_iff hw hend]
      simp [hend]
  | [cmd, var] => exact variable_iff hw
  | cmd :: a :: b :: rest =>
    refine iff_of_false (not_not.mpr (agrees_nil ?_)) id
    have hargv : makeArgv configSysMaxargs buf = cmd :: a :: b :: rest.take 13 := by rw [makeArgv_eq, hw]; rfl
    unfold candidates
    rw [hargv]
    by_cases hcmd : Completed sh cmd
    · rw [completeCmdv_completed (.inl (cons_ne_nil _ _)) hcmd]
      unfold varComplete
      cases space buf.getLast? <;> rfl
    · exact completeCmdv_other (.inl (cons_ne_nil _ _)) hcmd

/-- In the normal console all lines are completed as they should be but for those that are spoilt. -/
theorem auto_complete_iff (sh : Shell) (prompt : List UInt8) (line : Line) :
    Completes sh prompt line ↔ prompt ≠ sh.prompt ∨ ¬Spoils sh line.bytes := by
  by_cases hprompt : prompt = sh.prompt
  · rw [or_iff_right (not_not.mpr hprompt), completes_agrees hprompt, ← agrees_iff, not_not]
  · unfold Completes cmdAutoComplete
    simp [hprompt]

/-- `printenv` and a single variable, `bootdelay`. -/
def oneVariable : Shell :=
  ⟨[], [⟨⟨ascii ['p', 'r', 'i', 'n', 't', 'e', 'n', 'v'], by decide⟩, true⟩],
    [⟨ascii ['b', 'o', 'o', 't', 'd', 'e', 'l', 'a', 'y', '=', '3'], by decide⟩]⟩

def printenvLine : Line := ⟨ascii ['p', 'r', 'i', 'n', 't', 'e', 'n', 'v', ' '], by decide, by decide⟩

/-- Behind the blank as many characters of the variable are left out as `printenv` has. -/
theorem variable_behind_blank_cut : ¬∀ (sh : Shell) (prompt : List UInt8) (line : Line), Completes sh prompt line := by
  intro h
  obtain ⟨ret, buf', hrun, hend⟩ := h oneVariable [] printenvLine
  have hline : (cmdAutoComplete oneVariable [] printenvLine.bytes).map Prod.snd =
      some (printenvLine.bytes ++ ascii ['y', ' ']) := by decide
  have hfound : candidates oneVariable printenvLine.bytes = [ascii ['b', 'o', 'o', 't', 'd', 'e', 'l', 'a', 'y']] := by
    decide
  have hword : lastWord printenvLine.bytes = [] := by decide
  rw [hrun, Option.map_some, Option.some.injEq] at hline
  subst hline
  rcases hend with hsame | ⟨text, hext⟩
  · exact absurd hsame (by decide)
  · have hwhole := hext.whole _ hfound
    have happ := hext.appended
    rw [hword, nil_append] at hwhole
    rw [hwhole, hfound] at happ
    exact absurd happ (by decide)

end UBoot.AutoComplete
