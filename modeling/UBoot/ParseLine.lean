import Mathlib.Data.List.TakeWhile
import UBoot.CString
import UBoot.Cells

namespace UBoot

open Cells List

def isBlank (c : UInt8) : Bool := c = 32 || c = 9

/-- The first loop over blanks. Nothing is behind the end of the row. -/
def skipBlanks : List UInt8 → Nat → Option Nat
  | [], _ => none
  | c :: cs, i => if isBlank c then skipBlanks cs (i + 1) else some i

/-- The loop to the end of an argument. -/
def argEnd : List UInt8 → Nat → Option Nat
  | [], _ => none
  | c :: cs, i => if c ≠ 0 ∧ ¬isBlank c then argEnd cs (i + 1) else some i

structure Parsed where
  nargs : Nat
  /-- The memory that holds the line. -/
  mem : List UInt8
  /-- A pointer is an index into the memory. -/
  argv : List (Option Nat)
deriving DecidableEq

/-- The loop of `parse_line` with room for `left` more arguments. -/
def parseArgs : Nat → List UInt8 → Nat → Nat → List (Option Nat) → Option Parsed
  | 0, mem, _, nargs, argv => some ⟨nargs, mem, argv⟩
  | left + 1, mem, line, nargs, argv => do
    let line ← skipBlanks (mem.drop line) line
    if mem[line]? = some 0 then
      let argv ← store argv nargs none
      return ⟨nargs, mem, argv⟩
    let argv ← store argv nargs (some line)
    let line ← argEnd (mem.drop line) line
    if mem[line]? = some 0 then
      let argv ← store argv (nargs + 1) none
      return ⟨nargs + 1, mem, argv⟩
    let mem ← store mem line 0
    parseArgs left mem (line + 1) (nargs + 1) argv

def parseLine (maxargs : Nat) (mem : List UInt8) (line : Nat) (argv : List (Option Nat)) : Option Parsed :=
  parseArgs maxargs mem line 0 argv

def wordRuns (text : List UInt8) : List (List UInt8) := (text.splitOnP isBlank).filter fun run => !run.isEmpty

variable {text word rest done mem : List UInt8} {argv : List (Option Nat)} {nargs left maxargs : Nat}
  {c : UInt8}
variable {blanks : List UInt8}

theorem wordRuns_blank (hc : isBlank c) : wordRuns (c :: text) = wordRuns text := by
  unfold wordRuns
  rw [splitOnP_cons_eq_if_modifyHead, if_pos hc]
  rfl

theorem wordRuns_blanks (h : ∀ c ∈ blanks, isBlank c) : wordRuns (blanks ++ text) = wordRuns text := by
  induction blanks with
  | nil => rfl
  | cons c blanks ih =>
    rw [cons_append, wordRuns_blank (h c mem_cons_self)]
    exact ih fun d hd => h d (mem_cons_of_mem c hd)

theorem wordRuns_word (hword : ∀ c ∈ word, isBlank c = false) (hne : word ≠ []) : wordRuns word = [word] := by
  unfold wordRuns
  rw [splitOnP_eq_singleton hword]
  exact filter_cons_of_pos (by simpa using hne)

theorem wordRuns_word_blank (hword : ∀ c ∈ word, isBlank c = false) (hne : word ≠ []) (hc : isBlank c) :
    wordRuns (word ++ c :: text) = word :: wordRuns text := by
  unfold wordRuns
  rw [splitOnP_append_cons_of_forall_mem hword c hc]
  exact filter_cons_of_pos (by simpa using hne)

theorem skipBlanks_spec (h : ∀ c ∈ blanks, isBlank c) (hc : isBlank c = false) (i : Nat) :
    skipBlanks (blanks ++ c :: rest) i = some (i + blanks.length) := by
  induction blanks generalizing i with
  | nil =>
    rw [nil_append, skipBlanks, hc]
    rfl
  | cons b blanks ih =>
    rw [cons_append, skipBlanks, if_pos (h b mem_cons_self),
      ih (fun d hd => h d (mem_cons_of_mem b hd)), length_cons]
    congr 1
    omega

theorem argEnd_spec (h : ∀ c ∈ word, c ≠ 0 ∧ isBlank c = false) (hc : c = 0 ∨ isBlank c) (i : Nat) :
    argEnd (word ++ c :: rest) i = some (i + word.length) := by
  induction word generalizing i with
  | nil =>
    refine if_neg fun hgo => ?_
    rcases hc with h0 | hb
    · exact hgo.1 h0
    · exact hgo.2 hb
  | cons b word ih =>
    obtain ⟨hb0, hb⟩ := h b mem_cons_self
    rw [cons_append, argEnd, if_pos ⟨hb0, by simp [hb]⟩,
      ih (fun d hd => h d (mem_cons_of_mem b hd)), length_cons]
    congr 1
    omega

def EndsInWord (text : List UInt8) : Prop := ∃ c, text.getLast? = some c ∧ isBlank c = false

theorem line_cases (text : List UInt8) : (∀ c ∈ text, isBlank c) ∨
      ∃ blanks word, (∀ c ∈ blanks, isBlank c) ∧ word ≠ [] ∧ (∀ c ∈ word, isBlank c = false) ∧
        (text = blanks ++ word ∨ ∃ c rest, isBlank c ∧ text = blanks ++ (word ++ c :: rest)) := by
  have hsplit := takeWhile_append_dropWhile (p := isBlank) (l := text)
  have hhead := List.head?_dropWhile_not isBlank text
  cases hdrop : text.dropWhile isBlank with
  | nil => exact .inl (dropWhile_eq_nil_iff.mp hdrop)
  | cons c tail =>
    rw [hdrop] at hsplit hhead
    have hsplit' := takeWhile_append_dropWhile (p := fun d => !isBlank d) (l := tail)
    have hhead' := List.head?_dropWhile_not (fun d => !isBlank d) tail
    refine .inr ⟨text.takeWhile isBlank, c :: tail.takeWhile fun d => !isBlank d,
      fun d hd => mem_takeWhile_imp hd, cons_ne_nil _ _, ?_, ?_⟩
    · intro d hd
      rcases mem_cons.mp hd with rfl | hd
      · simpa using hhead
      · simpa using mem_takeWhile_imp hd
    · cases hdrop' : tail.dropWhile fun d => !isBlank d with
      | nil =>
        left
        rw [hdrop', append_nil] at hsplit'
        rw [hsplit', hsplit]
      | cons d rest =>
        right
        rw [hdrop'] at hsplit' hhead'
        refine ⟨d, rest, by simpa using hhead', ?_⟩
        rw [cons_append, hsplit', hsplit]

theorem wordRuns_all_blank (h : ∀ c ∈ text, isBlank c) : wordRuns text = [] := by
  rw [← append_nil text, wordRuns_blanks h]
  rfl

theorem not_endsInWord (h : ∀ c ∈ text, isBlank c) : ¬EndsInWord text := by
  rintro ⟨c, hlast, hc⟩
  exact absurd (h c (mem_of_getLast? hlast)) (by simp [hc])

theorem endsInWord_word (hne : word ≠ []) (hword : ∀ c ∈ word, isBlank c = false) :
    EndsInWord (blanks ++ word) := by
  refine ⟨word.getLast hne, ?_, hword _ (getLast_mem hne)⟩
  rw [List.getLast?_append_of_ne_nil _ hne, List.getLast?_eq_some_getLast hne]

theorem endsInWord_behind {front : List UInt8} (hc : isBlank c) :
    EndsInWord (front ++ c :: text) ↔ EndsInWord text := by
  unfold EndsInWord
  rw [List.getLast?_append_of_ne_nil _ (cons_ne_nil c text)]
  cases text with
  | nil =>
    refine iff_of_false ?_ ?_
    · rintro ⟨d, hd, hfalse⟩
      rw [List.getLast?_singleton] at hd
      rw [← Option.some.inj hd, hc] at hfalse
      cases hfalse
    · rintro ⟨d, hd, _⟩
      cases hd
  | cons d text => rw [List.getLast?_cons_cons]

/-- What the loop leaves: the arguments in front of the room that is left, and the end of the array
where the line ends in time. -/
structure Parsed.Splits (r : Parsed) (left nargs : Nat) (text done : List UInt8) (argv : List (Option Nat)) :
    Prop where
  count : r.nargs = nargs + min left (wordRuns text).length
  front : done <+: r.mem
  kept : ∀ i < nargs, r.argv[i]? = argv[i]?
  args : ∀ i < min left (wordRuns text).length, ∃ a, r.argv[nargs + i]? = some (some a) ∧
    cstrAt r.mem a = (wordRuns text)[i]?
  finish : (wordRuns text).length < left ∨ (wordRuns text).length = left ∧ EndsInWord text →
    r.argv[r.nargs]? = some none
  left_over : left < (wordRuns text).length ∨ (wordRuns text).length = left ∧ ¬EndsInWord text →
    r.argv[r.nargs]? = argv[r.nargs]?

theorem Parsed.Splits.more {r : Parsed} (hblanks : ∀ c ∈ blanks, isBlank c)
    (hne : word ≠ []) (hword : ∀ c ∈ word, isBlank c = false) (hnul : (0 : UInt8) ∉ word) (hc : isBlank c)
    (hargs : nargs < argv.length)
    (h : r.Splits left (nargs + 1) text (done ++ blanks ++ word ++ [0]) (argv.set nargs (some (done ++ blanks).length))) :
    r.Splits (left + 1) nargs (blanks ++ (word ++ c :: text)) done argv := by
  have hruns : wordRuns (blanks ++ (word ++ c :: text)) = word :: wordRuns text := by
    rw [wordRuns_blanks hblanks, wordRuns_word_blank hword hne hc]
  have hends : EndsInWord (blanks ++ (word ++ c :: text)) ↔ EndsInWord text := by
    rw [← append_assoc]
    exact endsInWord_behind hc
  obtain ⟨tail, hmem⟩ := h.front
  refine ⟨?_, ?_, fun i hi => ?_, fun i hi => ?_, fun hfin => ?_, fun hfin => ?_⟩
  · rw [h.count, hruns, length_cons]
    omega
  · exact ⟨blanks ++ word ++ [0] ++ tail, by rw [← hmem]; simp⟩
  · rw [h.kept i (by omega), List.getElem?_set_ne (by omega)]
  · rw [hruns, length_cons] at hi
    rw [hruns]
    cases i with
    | zero =>
      refine ⟨(done ++ blanks).length, ?_, ?_⟩
      · rw [add_zero, h.kept _ (Nat.lt_add_one _), List.getElem?_set_self hargs]
      · rw [← hmem, append_assoc _ [0], singleton_append, cstrAt_append hnul]
        rfl
    | succ i =>
      obtain ⟨a, ha, hstr⟩ := h.args i (by omega)
      exact ⟨a, by rw [← ha]; congr 1; omega, hstr⟩
  · rw [hruns, length_cons, hends] at hfin
    exact h.finish (hfin.imp Nat.lt_of_succ_lt_succ fun h => ⟨Nat.succ.inj h.1, h.2⟩)
  · rw [hruns, length_cons, hends] at hfin
    rw [h.left_over (hfin.imp Nat.lt_of_succ_lt_succ fun h => ⟨Nat.succ.inj h.1, h.2⟩), List.getElem?_set_ne]
    rw [h.count]
    omega

theorem parseArgs_blank (h : ∀ c ∈ text, isBlank c) (hargs : nargs < argv.length) :
    parseArgs (left + 1) (done ++ text ++ 0 :: rest) done.length nargs argv =
      some ⟨nargs, done ++ text ++ 0 :: rest, argv.set nargs none⟩ := by
  have hdrop : (done ++ text ++ 0 :: rest).drop done.length = text ++ 0 :: rest := by
    rw [append_assoc, drop_left]
  have hend : (done ++ text ++ 0 :: rest)[done.length + text.length]? = some 0 := by
    rw [← length_append, List.getElem?_append_right le_rfl, Nat.sub_self]
    rfl
  have hstore : store argv nargs none = some (argv.set nargs none) := if_pos hargs
  rw [parseArgs, hdrop, skipBlanks_spec h rfl]
  simp only [Option.bind_eq_bind, Option.bind_some, hend, if_true, hstore]
  rfl

variable (rest done left) in
theorem parseArgs_word (hblanks : ∀ c ∈ blanks, isBlank c) (hne : word ≠ [])
    (hword : ∀ c ∈ word, c ≠ 0 ∧ isBlank c = false) (hc : c = 0 ∨ isBlank c) (hargs : nargs + 1 < argv.length) :
    parseArgs (left + 1) (done ++ blanks ++ word ++ c :: rest) done.length nargs argv =
      if c = 0 then some ⟨nargs + 1, done ++ blanks ++ word ++ c :: rest,
        (argv.set nargs (some (done ++ blanks).length)).set (nargs + 1) none⟩
      else parseArgs left (done ++ blanks ++ word ++ 0 :: rest) ((done ++ blanks ++ word).length + 1) (nargs + 1)
        (argv.set nargs (some (done ++ blanks).length)) := by
  have hskip : skipBlanks ((done ++ blanks ++ word ++ c :: rest).drop done.length) done.length =
      some (done ++ blanks).length := by
    obtain ⟨w, word, rfl⟩ := exists_cons_of_ne_nil hne
    rw [append_assoc, append_assoc, drop_left, cons_append,
      skipBlanks_spec hblanks (hword w mem_cons_self).2, length_append]
  have hfirst : (done ++ blanks ++ word ++ c :: rest)[(done ++ blanks).length]? ≠ some 0 := by
    obtain ⟨w, word, rfl⟩ := exists_cons_of_ne_nil hne
    rw [append_assoc, List.getElem?_append_right le_rfl, Nat.sub_self]
    exact fun h => (hword w mem_cons_self).1 (Option.some.inj h)
  have hlast : argEnd ((done ++ blanks ++ word ++ c :: rest).drop (done ++ blanks).length) (done ++ blanks).length =
      some (done ++ blanks ++ word).length := by
    rw [append_assoc, drop_left, argEnd_spec hword hc, ← length_append]
  have hat : (done ++ blanks ++ word ++ c :: rest)[(done ++ blanks ++ word).length]? = some c := by
    rw [List.getElem?_append_right le_rfl, Nat.sub_self]
    rfl
  have hstore : ∀ line : Option Nat, store argv nargs line = some (argv.set nargs line) :=
    fun line => if_pos (by omega)
  have hfinish : ∀ line : Option Nat, store (argv.set nargs line) (nargs + 1) none =
      some ((argv.set nargs line).set (nargs + 1) none) :=
    fun line => if_pos (by rw [length_set]; exact hargs)
  rw [parseArgs, hskip]
  simp only [Option.bind_eq_bind, Option.bind_some, if_neg hfirst, hstore, hlast, hat, Option.some.injEq]
  split
  · rw [hfinish]
    rfl
  · rw [store_at]
    rfl

theorem splits_zero : Parsed.Splits ⟨nargs, done ++ text ++ 0 :: rest, argv⟩ 0 nargs text done argv := by
  refine ⟨by rw [Nat.zero_min, add_zero], ?_, fun _ _ => rfl, fun i hi => by omega, fun h => ?_, fun _ => rfl⟩
  · rw [append_assoc]
    exact prefix_append _ _
  · rcases h with h | ⟨hnone, hends⟩
    · omega
    rcases line_cases text with hblank | ⟨blanks, word, hblanks, hne, hword, rfl | ⟨c, tail, hc, rfl⟩⟩
    · exact absurd hends (not_endsInWord hblank)
    · rw [wordRuns_blanks hblanks, wordRuns_word hword hne] at hnone
      cases hnone
    · rw [wordRuns_blanks hblanks, wordRuns_word_blank hword hne hc] at hnone
      cases hnone

theorem splits_blank (h : ∀ c ∈ text, isBlank c) (hargs : nargs < argv.length) :
    Parsed.Splits ⟨nargs, done ++ text ++ 0 :: rest, argv.set nargs none⟩ (left + 1) nargs text done argv := by
  have hnone := wordRuns_all_blank h
  refine ⟨?_, ?_, fun i hi => ?_, fun i hi => ?_, fun _ => ?_, fun h => ?_⟩
  · rw [hnone]
    rfl
  · rw [append_assoc]
    exact prefix_append _ _
  · exact List.getElem?_set_ne (by omega)
  · rw [hnone, length_nil] at hi
    omega
  · exact List.getElem?_set_self hargs
  · rw [hnone, length_nil] at h
    omega

theorem splits_last (hblanks : ∀ c ∈ blanks, isBlank c) (hne : word ≠ [])
    (hword : ∀ c ∈ word, isBlank c = false) (hnul : (0 : UInt8) ∉ word) (hargs : nargs + 1 < argv.length) :
    Parsed.Splits ⟨nargs + 1, done ++ blanks ++ word ++ 0 :: rest,
        (argv.set nargs (some (done ++ blanks).length)).set (nargs + 1) none⟩
      (left + 1) nargs (blanks ++ word) done argv := by
  have hone : wordRuns (blanks ++ word) = [word] := by
    rw [wordRuns_blanks hblanks, wordRuns_word hword hne]
  refine ⟨?_, ?_, fun i hi => ?_, fun i hi => ?_, fun _ => ?_, fun h => ?_⟩
  · rw [hone, length_singleton]
    dsimp only
    omega
  · rw [append_assoc, append_assoc]
    exact prefix_append _ _
  · rw [List.getElem?_set_ne (by omega), List.getElem?_set_ne (by omega)]
  · rw [hone, length_singleton] at hi
    have hi : i = 0 := by omega
    subst i
    refine ⟨(done ++ blanks).length, ?_, ?_⟩
    · change ((argv.set nargs _).set (nargs + 1) none)[nargs]? = _
      rw [List.getElem?_set_ne (by omega), List.getElem?_set_self (by omega)]
    · rw [hone, cstrAt_append hnul]
      rfl
  · exact List.getElem?_set_self (by rw [length_set]; omega)
  · rw [hone, length_singleton] at h
    rcases h with h | ⟨_, h⟩
    · omega
    · exact absurd (endsInWord_word hne hword) h

theorem parseArgs_splits (hnul : (0 : UInt8) ∉ text) (hargs : nargs + left < argv.length) :
    ∃ r, parseArgs left (done ++ text ++ 0 :: rest) done.length nargs argv = some r ∧
      r.Splits left nargs text done argv := by
  induction left generalizing done text nargs argv with
  | zero => exact ⟨_, rfl, splits_zero⟩
  | succ left ih =>
    rcases line_cases text with hblank | ⟨blanks, word, hblanks, hne, hword, hshape⟩
    · exact ⟨_, parseArgs_blank hblank (by omega), splits_blank hblank (by omega)⟩
    · have hplain : ∀ c ∈ word, c ≠ 0 ∧ isBlank c = false := by
        intro c hcw
        refine ⟨?_, hword c hcw⟩
        rintro rfl
        refine hnul ?_
        rcases hshape with rfl | ⟨c, tail, _, rfl⟩
        · exact mem_append_right _ hcw
        · exact mem_append_right _ (mem_append_left _ hcw)
      have hnulWord : (0 : UInt8) ∉ word := fun h => (hplain 0 h).1 rfl
      rcases hshape with rfl | ⟨c, tail, hc, rfl⟩
      · have hrun := parseArgs_word rest done left hblanks hne hplain (.inl rfl)
          (show nargs + 1 < argv.length by omega)
        rw [if_pos rfl] at hrun
        rw [← append_assoc]
        exact ⟨_, hrun, splits_last hblanks hne hword hnulWord (by omega)⟩
      · have hc0 : c ≠ 0 := by
          rintro rfl
          cases hc
        have hrun := parseArgs_word (tail ++ 0 :: rest) done left hblanks hne hplain
          (.inr hc) (show nargs + 1 < argv.length by omega)
        rw [if_neg hc0] at hrun
        have hnulTail : (0 : UInt8) ∉ tail := fun h =>
          hnul (mem_append_right _ (mem_append_right _ (mem_cons_of_mem c h)))
        have hargs' : nargs + 1 + left < (argv.set nargs (some (done ++ blanks).length)).length := by
          rw [length_set]
          omega
        obtain ⟨r, hr, hsplits⟩ : ∃ r, parseArgs left (done ++ blanks ++ word ++ [0] ++ tail ++ 0 :: rest)
            (done ++ blanks ++ word ++ [0]).length (nargs + 1) (argv.set nargs (some (done ++ blanks).length)) = some r ∧
            r.Splits left (nargs + 1) tail (done ++ blanks ++ word ++ [0])
              (argv.set nargs (some (done ++ blanks).length)) := ih hnulTail hargs'
        refine ⟨r, ?_, hsplits.more hblanks hne hword hnulWord hc (by omega)⟩
        have hbefore : done ++ (blanks ++ (word ++ c :: tail)) ++ 0 :: rest =
            done ++ blanks ++ word ++ c :: (tail ++ 0 :: rest) := by simp
        have hbehind : done ++ blanks ++ word ++ [0] ++ tail ++ 0 :: rest =
            done ++ blanks ++ word ++ 0 :: (tail ++ 0 :: rest) := by simp
        have hplace : (done ++ blanks ++ word ++ [0]).length = (done ++ blanks ++ word).length + 1 := length_append
        rw [hbefore, hrun, ← hr, hbehind, hplace]

variable {pre : List UInt8}

/-- Arguments as the runs of the line, with a NULL pointer behind them. -/
structure Parsed.Right (r : Parsed) (maxargs : Nat) (text : List UInt8) : Prop where
  count : r.nargs = min maxargs (wordRuns text).length
  args : ∀ i < r.nargs, ∃ a, r.argv[i]? = some (some a) ∧ cstrAt r.mem a = (wordRuns text)[i]?
  finish : r.argv[r.nargs]? = some none

/-- The arguments of `parse_line` are right exactly if there are fewer than the array takes, or just as many
with no blank behind the last, or the array ended with a NULL pointer before. -/
theorem parse_line_right_iff (hnul : (0 : UInt8) ∉ text) (hargs : argv.length = maxargs + 1) :
    (∃ r, parseLine maxargs (pre ++ text ++ 0 :: rest) pre.length argv = some r ∧ r.Right maxargs text) ↔
      (wordRuns text).length < maxargs ∨ (wordRuns text).length = maxargs ∧ EndsInWord text ∨
        argv[maxargs]? = some none := by
  obtain ⟨r, hr, hsplits⟩ : ∃ r, parseLine maxargs (pre ++ text ++ 0 :: rest) pre.length argv = some r ∧
      r.Splits maxargs 0 text pre argv := parseArgs_splits hnul (by omega)
  have hcount := hsplits.count
  rw [zero_add] at hcount
  have hiff : (∃ r, parseLine maxargs (pre ++ text ++ 0 :: rest) pre.length argv = some r ∧ r.Right maxargs text) ↔
      r.argv[r.nargs]? = some none := by
    constructor
    · rintro ⟨r', hr', hright⟩
      have heq : r' = r := Option.some.inj (hr'.symm.trans hr)
      rw [← heq]
      exact hright.finish
    · intro hfinish
      refine ⟨r, hr, hcount, fun i hi => ?_, hfinish⟩
      obtain ⟨a, ha, hstr⟩ := hsplits.args i (hcount ▸ hi)
      rw [zero_add] at ha
      exact ⟨a, ha, hstr⟩
  rw [hiff]
  by_cases hin : (wordRuns text).length < maxargs ∨ (wordRuns text).length = maxargs ∧ EndsInWord text
  · exact iff_of_true (hsplits.finish hin) (hin.elim .inl fun h => .inr (.inl h))
  · obtain ⟨hge, hends⟩ := not_or.mp hin
    have hfull : maxargs < (wordRuns text).length ∨ (wordRuns text).length = maxargs ∧ ¬EndsInWord text := by
      rcases Nat.lt_or_eq_of_le (not_lt.mp hge) with hlt | heq
      · exact .inl hlt
      · exact .inr ⟨heq.symm, fun h => hends ⟨heq.symm, h⟩⟩
    rw [hsplits.left_over hfull, hcount, min_eq_left (not_lt.mp hge)]
    exact ⟨fun h => .inr (.inr h), fun h => (h.resolve_left hge).resolve_left hends⟩

theorem parse_line_right_two : (∃ r, parseLine 16 ([] ++ ascii ['l', 's', ' ', 'a'] ++ 0 :: [7]) 0
      (List.replicate 17 (some 3)) = some r ∧ r.Right 16 (ascii ['l', 's', ' ', 'a'])) ↔
    (wordRuns (ascii ['l', 's', ' ', 'a'])).length < 16 ∨
      (wordRuns (ascii ['l', 's', ' ', 'a'])).length = 16 ∧ EndsInWord (ascii ['l', 's', ' ', 'a']) ∨
        (List.replicate 17 (some 3))[16]? = some none :=
  parse_line_right_iff (by decide) (by decide)

def sixteenArgs : List UInt8 := (List.replicate 16 [97, 32]).flatten

/-- The array keeps what stood behind the sixteen pointers. -/
theorem sixteen_args_unterminated : (wordRuns sixteenArgs).length = 16 ∧
    (parseLine 16 (sixteenArgs ++ [0]) 0 (List.replicate 17 (some 3))).map (fun r => (r.nargs, r.argv[16]?)) =
      some (16, some (some 3)) ∧
    ¬∃ r, parseLine 16 (sixteenArgs ++ [0]) 0 (List.replicate 17 (some 3)) = some r ∧
      r.Right 16 sixteenArgs := by
  have hrun : (parseLine 16 (sixteenArgs ++ [0]) 0 (List.replicate 17 (some 3))).map
      (fun r => (r.nargs, r.argv[16]?)) = some (16, some (some 3)) := by decide
  refine ⟨by decide, hrun, ?_⟩
  rintro ⟨r, hr, hright⟩
  rw [hr, Option.map_some] at hrun
  obtain ⟨hcount, hlast⟩ := Prod.mk.inj (Option.some.inj hrun)
  have hfinish := hright.finish
  rw [hcount, hlast] at hfinish
  cases hfinish

end UBoot
