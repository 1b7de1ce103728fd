import Mathlib.Data.List.Induction
import UBoot.CString

namespace UBoot.TestCmd

open List

/-- A difference of characters as a `signed char` -/
def signedChar (c : UInt8) : Int := if c < 128 then c.toNat else c.toNat - 256

/-- `strcmp` of `string.c` -/
def strcmp : List UInt8 → List UInt8 → Int
  | [], [] => 0
  | [], d :: _ => signedChar (0 - d)
  | c :: _, [] => signedChar c
  | c :: cs, d :: ds => if c - d ≠ 0 then signedChar (c - d) else strcmp cs ds

/-- `simple_strtol`, with a `long` of 32 bits -/
def simpleStrtol (s : List UInt8) (base : Nat) : Int :=
  match s with
  | 45 :: s => (-((simpleStrtoul s base).1 : Int)).bmod (2 ^ 32)
  | s => ((simpleStrtoul s base).1 : Int).bmod (2 ^ 32)

def number (s : CString) : Int := simpleStrtol s.bytes 10

/-- `strcmp(s, word) == 0` -/
def is (s : CString) (word : List Char) : Bool := strcmp s.bytes (ascii word) = 0

/-- `a op b`, if there is such an operator. -/
def compareWords (a op b : CString) : Option Bool :=
  if is op ['='] then some (strcmp a.bytes b.bytes = 0)
  else if is op ['!', '='] then some (strcmp a.bytes b.bytes ≠ 0)
  else if is op ['>'] then some (strcmp a.bytes b.bytes > 0)
  else if is op ['<'] then some (strcmp a.bytes b.bytes < 0)
  else if is op ['-', 'e', 'q'] then some (number a = number b)
  else if is op ['-', 'n', 'e'] then some (number a ≠ number b)
  else if is op ['-', 'l', 't'] then some (number a < number b)
  else if is op ['-', 'l', 'e'] then some (number a ≤ number b)
  else if is op ['-', 'g', 't'] then some (number a > number b)
  else if is op ['-', 'g', 'e'] then some (number a ≥ number b)
  else none

/-- The variables of the loop. -/
structure Test where
  expr : Int
  lastExpr : Int
  lastCmp : Int

def Test.primary (t : Test) (value : Bool) : Test :=
  let expr := if t.lastCmp = 0 then t.lastExpr ≠ 0 || value
    else if t.lastCmp = 1 then t.lastExpr ≠ 0 && value
    else value
  { t with expr := expr.toNat, lastCmp := -1 }

/-- The loop of `do_test` up to `expr`. A missing or unknown word ends it. -/
def testLoop : List CString → Test → Int
  | [], t => t.expr
  | a :: ap, t =>
    if is a ['-', 'o'] then testLoop ap { t with lastExpr := t.expr, lastCmp := 0 }
    else if is a ['-', 'a'] then testLoop ap { t with lastExpr := t.expr, lastCmp := 1 }
    else if is a ['-', 'z'] || is a ['-', 'n'] then
      match ap with
      | [] => 1
      | s :: ap => testLoop ap (t.primary (if is a ['-', 'z'] then s.bytes.length = 0 else s.bytes.length ≠ 0))
    else
      match ap with
      | op :: b :: ap =>
        match compareWords a op b with
        | none => 1
        | some value => testLoop ap (t.primary value)
      | _ => 1

/-- `do_test`, with the words behind `argv[0]` -/
def doTest (args : List CString) : Int :=
  if args.length + 1 < 3 then 1
  else
    let neg := args.head?.any fun a => is a ['!']
    let expr := testLoop (if neg then args.tail else args) ⟨-1, -1, -1⟩
    let expr := if neg then if expr = 0 then 1 else 0 else expr
    if expr = 0 then 1 else 0

/-- The operators that there are. -/
inductive Op where
  | eq
  | ne
  | gt
  | lt
  | numEq
  | numNe
  | numLt
  | numLe
  | numGt
  | numGe

def Op.chars : Op → List Char
  | .eq => ['=']
  | .ne => ['!', '=']
  | .gt => ['>']
  | .lt => ['<']
  | .numEq => ['-', 'e', 'q']
  | .numNe => ['-', 'n', 'e']
  | .numLt => ['-', 'l', 't']
  | .numLe => ['-', 'l', 'e']
  | .numGt => ['-', 'g', 't']
  | .numGe => ['-', 'g', 'e']

def Op.holds (a b : CString) : Op → Bool
  | .eq => a = b
  | .ne => a ≠ b
  | .gt => strcmp a.bytes b.bytes > 0
  | .lt => strcmp a.bytes b.bytes < 0
  | .numEq => number a = number b
  | .numNe => number a ≠ number b
  | .numLt => number a < number b
  | .numLe => number a ≤ number b
  | .numGt => number a > number b
  | .numGe => number a ≥ number b

theorem chars_nulFree {w : List Char} (h : w.all (fun c => (UInt8.ofNat c.toNat) ≠ 0)) : (0 : UInt8) ∉ ascii w := by
  simp only [all_eq_true, decide_eq_true_eq] at h
  intro hmem
  obtain ⟨c, hc, hzero⟩ := mem_map.mp hmem
  exact h c hc hzero

def Op.word (op : Op) : CString := ⟨ascii op.chars, chars_nulFree (by cases op <;> decide)⟩

inductive Primary where
  | empty (s : CString)
  | nonempty (s : CString)
  | compare (a : CString) (op : Op) (b : CString)

def orWord : CString := ⟨ascii ['-', 'o'], chars_nulFree (by decide)⟩
def andWord : CString := ⟨ascii ['-', 'a'], chars_nulFree (by decide)⟩
def emptyWord : CString := ⟨ascii ['-', 'z'], chars_nulFree (by decide)⟩
def nonemptyWord : CString := ⟨ascii ['-', 'n'], chars_nulFree (by decide)⟩
def notWord : CString := ⟨ascii ['!'], chars_nulFree (by decide)⟩

def Primary.words : Primary → List CString
  | .empty s => [emptyWord, s]
  | .nonempty s => [nonemptyWord, s]
  | .compare a op b => [a, op.word, b]

def Primary.value : Primary → Bool
  | .empty s => s.bytes = []
  | .nonempty s => s.bytes ≠ []
  | .compare a op b => op.holds a b

def Primary.operands : Primary → List CString
  | .empty s => [s]
  | .nonempty s => [s]
  | .compare a _ b => [a, b]

/-- `-a` and `-o` -/
inductive Connective where
  | and
  | or

def Connective.word : Connective → CString
  | .and => andWord
  | .or => orWord

def Connective.apply : Connective → Bool → Bool → Bool
  | .and => fun a b => a && b
  | .or => fun a b => a || b

/-- `[!] primary ((-a | -o) primary)*` -/
structure Condition where
  neg : Bool
  first : Primary
  rest : List (Connective × Primary)

def Condition.words (c : Condition) : List CString :=
  (if c.neg then [notWord] else []) ++ c.first.words ++ c.rest.flatMap fun x => x.1.word :: x.2.words

/-- From left to right, and negated as a whole. -/
def Condition.value (c : Condition) : Bool :=
  xor c.neg (c.rest.foldl (fun value x => x.1.apply value x.2.value) c.first.value)

def Condition.Plain (c : Condition) : Prop :=
  ∀ p, p = c.first ∨ p ∈ c.rest.map Prod.snd →
    ∀ s ∈ p.operands, s ∉ [notWord, andWord, orWord, emptyWord, nonemptyWord]

def Recognised (args : List CString) : Prop := ∃ c : Condition, args = c.words

/-- The grammar is evaluated, and what is not of its shape is not taken as true. -/
structure Meets (args : List CString) : Prop where
  evaluated : ∀ c : Condition, c.Plain → args = c.words → (doTest args = 0 ↔ c.value = true)
  refused : ¬Recognised args → doTest args ≠ 0

/-- What the loop takes in one round. -/
inductive Piece where
  | connective (c : Connective)
  | primary (p : Primary)

def Piece.words : Piece → List CString
  | .connective c => [c.word]
  | .primary p => p.words

/-- A comparison is taken for one unless its first operand is a word with a meaning of its own. -/
def Piece.Taken : Piece → Prop
  | .primary (.compare a _ _) => a ∉ [andWord, orWord, emptyWord, nonemptyWord]
  | _ => True

/-- A word that has no operand behind it, or a comparison without operator or operand or with an unknown one. -/
inductive Broken : List CString → Prop where
  | unary {a : CString} : a = emptyWord ∨ a = nonemptyWord → Broken [a]
  | short {a : CString} {rest : List CString} : a ∉ [andWord, orWord, emptyWord, nonemptyWord] → rest.length < 2 →
      Broken (a :: rest)
  | unknown {a op b : CString} {rest : List CString} : a ∉ [andWord, orWord, emptyWord, nonemptyWord] →
      (∀ o : Op, op ≠ o.word) → Broken (a :: op :: b :: rest)

/-- The pieces in any order, the last one first: a primary counts alone unless a connective is before it, and without
a primary it is true. -/
def reading : List Piece → Bool
  | [] => true
  | .connective _ :: ps => reading ps
  | .primary p :: .connective c :: ps => c.apply (reading ps) p.value
  | .primary p :: _ => p.value

/-- The words behind a `!`. -/
def body (args : List CString) : List CString := if args.head? = some notWord then args.tail else args

/-- The words are taken for a true condition: without `!` where a word is missing or unknown, or where the pieces read so. -/
def TakenTrue (args : List CString) : Prop :=
  2 ≤ args.length ∧ ∃ pieces : List Piece, (∀ p ∈ pieces, p.Taken) ∧
    ((∃ rest, Broken rest ∧ body args = pieces.flatMap Piece.words ++ rest ∧ args.head? ≠ some notWord) ∨
      body args = pieces.flatMap Piece.words ∧ (reading pieces.reverse = true ↔ args.head? ≠ some notWord))

variable {args rest : List CString} {a b s w op : CString} {chars : List Char} {t : Test} {p : Piece} {ps : List Piece}

theorem signedChar_eq_zero {c : UInt8} : signedChar c = 0 ↔ c = 0 := by
  unfold signedChar
  constructor
  · intro h
    have hlt := c.toNat_lt
    apply UInt8.toNat_inj.mp
    rw [UInt8.toNat_zero]
    split at h <;> omega
  · rintro rfl
    rfl

theorem strcmp_eq_zero {s t : List UInt8} (hs : (0 : UInt8) ∉ s) (ht : (0 : UInt8) ∉ t) : strcmp s t = 0 ↔ s = t := by
  induction s generalizing t with
  | nil =>
    cases t with
    | nil => simp [strcmp]
    | cons d ds =>
      simp only [mem_cons, not_or] at ht
      simp [strcmp, signedChar_eq_zero, Ne.symm ht.1]
  | cons c cs ih =>
    simp only [mem_cons, not_or] at hs
    cases t with
    | nil => simp [strcmp, signedChar_eq_zero, Ne.symm hs.1]
    | cons d ds =>
      simp only [mem_cons, not_or] at ht
      rw [strcmp]
      by_cases hcd : c = d
      · subst d
        simp [ih hs.2 ht.2]
      · have hsub : c - d ≠ 0 := fun h => hcd (by simpa using congrArg (· + d) h)
        simp [hsub, signedChar_eq_zero, hcd]

theorem is_eq (h : w.bytes = ascii chars) : is s chars = decide (s = w) := by
  unfold is
  rw [← h, decide_eq_decide, strcmp_eq_zero s.nulFree w.nulFree]
  cases s
  cases w
  simp

@[simp] theorem is_or : is s ['-', 'o'] = decide (s = orWord) := is_eq rfl
@[simp] theorem is_and : is s ['-', 'a'] = decide (s = andWord) := is_eq rfl
@[simp] theorem is_empty : is s ['-', 'z'] = decide (s = emptyWord) := is_eq rfl
@[simp] theorem is_nonempty : is s ['-', 'n'] = decide (s = nonemptyWord) := is_eq rfl
@[simp] theorem is_not : is s ['!'] = decide (s = notWord) := is_eq rfl

theorem is_op (o : Op) : is op o.chars = decide (op = o.word) := is_eq rfl

theorem compareWords_op (o : Op) : compareWords a o.word b = some (o.holds a b) := by
  have hab : strcmp a.bytes b.bytes = 0 ↔ a = b := by
    rw [strcmp_eq_zero a.nulFree b.nulFree]
    cases a
    cases b
    simp
  cases o with
  | eq => exact congrArg some (by simp [Op.holds, hab])
  | ne => exact congrArg some (by simp [Op.holds, hab])
  | _ => rfl

theorem compareWords_unknown (h : ∀ o : Op, op ≠ o.word) : compareWords a op b = none := by
  have hno : ∀ o : Op, is op o.chars ≠ true := fun o => by simp [is_op, h o]
  exact (if_neg (hno .eq)).trans <| (if_neg (hno .ne)).trans <| (if_neg (hno .gt)).trans <|
    (if_neg (hno .lt)).trans <| (if_neg (hno .numEq)).trans <| (if_neg (hno .numNe)).trans <|
    (if_neg (hno .numLt)).trans <| (if_neg (hno .numLe)).trans <| (if_neg (hno .numGt)).trans <| if_neg (hno .numGe)

def Test.take (t : Test) : Piece → Test
  | .connective .or => { t with lastExpr := t.expr, lastCmp := 0 }
  | .connective .and => { t with lastExpr := t.expr, lastCmp := 1 }
  | .primary p => t.primary p.value

theorem testLoop_piece (h : p.Taken) (rest : List CString) (t : Test) :
    testLoop (p.words ++ rest) t = testLoop rest (t.take p) := by
  match p with
  | .connective .or =>
    rw [testLoop.eq_def]
    simp [Piece.words, Connective.word, Test.take]
  | .connective .and =>
    have hne : andWord ≠ orWord := by decide
    rw [testLoop.eq_def]
    simp [Piece.words, Connective.word, Test.take, hne]
  | .primary (.empty s) =>
    have hor : emptyWord ≠ orWord := by decide
    have hand : emptyWord ≠ andWord := by decide
    simp [Piece.words, Primary.words, testLoop, Test.take, Primary.value, hor, hand]
  | .primary (.nonempty s) =>
    have hor : nonemptyWord ≠ orWord := by decide
    have hand : nonemptyWord ≠ andWord := by decide
    have hempty : nonemptyWord ≠ emptyWord := by decide
    simp [Piece.words, Primary.words, testLoop, Test.take, Primary.value, hor, hand, hempty]
  | .primary (.compare a o b) =>
    simp only [Piece.Taken, mem_cons, not_mem_nil, or_false, not_or] at h
    obtain ⟨hand, hor, hempty, hnonempty⟩ := h
    simp [Piece.words, Primary.words, testLoop, Test.take, Primary.value, hor, hand, hempty, hnonempty, compareWords_op]

/-- The variables after pieces, of which the last one is first. -/
structure Tracks (t : Test) (ps : List Piece) : Prop where
  expr : t.expr ≠ 0 ↔ reading ps = true
  or : ∀ qs, ps = .connective .or :: qs → t.lastCmp = 0 ∧ (t.lastExpr ≠ 0 ↔ reading qs = true)
  and : ∀ qs, ps = .connective .and :: qs → t.lastCmp = 1 ∧ (t.lastExpr ≠ 0 ↔ reading qs = true)
  other : (∀ c qs, ps ≠ .connective c :: qs) → t.lastCmp = -1

theorem Tracks.start : Tracks ⟨-1, -1, -1⟩ [] := ⟨by simp [reading], by simp, by simp, fun _ => rfl⟩

theorem Tracks.take (h : Tracks t ps) (p : Piece) : Tracks (t.take p) (p :: ps) := by
  match p with
  | .connective .or => exact ⟨by simpa [reading, Test.take] using h.expr, by simpa [Test.take] using h.expr, by simp, by simp⟩
  | .connective .and => exact ⟨by simpa [reading, Test.take] using h.expr, by simp, by simpa [Test.take] using h.expr, by simp⟩
  | .primary p =>
    refine ⟨?_, by simp, by simp, fun _ => rfl⟩
    match ps, h with
    | .connective .or :: qs, h =>
      obtain ⟨hcmp, hlast⟩ := h.or qs rfl
      cases hv : p.value <;> simp [Test.take, Test.primary, reading, Connective.apply, hcmp, hv, hlast]
    | .connective .and :: qs, h =>
      obtain ⟨hcmp, hlast⟩ := h.and qs rfl
      cases hv : p.value <;> simp [Test.take, Test.primary, reading, Connective.apply, hcmp, hv, hlast]
    | [], h =>
      have hcmp := h.other (by simp)
      cases hv : p.value <;> simp [Test.take, Test.primary, reading, hcmp, hv]
    | .primary q :: qs, h =>
      have hcmp := h.other (by simp)
      cases hv : p.value <;> simp [Test.take, Test.primary, reading, hcmp, hv]

theorem testLoop_pieces {pieces : List Piece} (hpieces : ∀ p ∈ pieces, p.Taken) (h : Tracks t ps) (rest : List CString) :
    ∃ t', testLoop (pieces.flatMap Piece.words ++ rest) t = testLoop rest t' ∧ Tracks t' (pieces.reverse ++ ps) := by
  induction pieces generalizing t ps with
  | nil => exact ⟨t, rfl, h⟩
  | cons p pieces ih =>
    obtain ⟨t', hloop, ht'⟩ := ih (fun q hq => hpieces q (mem_cons_of_mem p hq)) (h.take p)
    refine ⟨t', ?_, by simpa using ht'⟩
    rw [flatMap_cons, append_assoc, testLoop_piece (hpieces p mem_cons_self), hloop]

theorem testLoop_broken (h : Broken rest) (t : Test) : testLoop rest t = 1 := by
  cases h with
  | unary h =>
    have hempty : emptyWord ≠ orWord ∧ emptyWord ≠ andWord := by decide
    have hnonempty : nonemptyWord ≠ orWord ∧ nonemptyWord ≠ andWord := by decide
    rcases h with rfl | rfl
    · simp [testLoop, hempty]
    · simp [testLoop, hnonempty]
  | @short a rest h hlen =>
    simp only [mem_cons, not_mem_nil, or_false, not_or] at h
    cases rest with
    | nil => simp [testLoop, h]
    | cons op rest =>
      cases rest with
      | nil => simp [testLoop, h]
      | cons b rest =>
        simp only [length_cons] at hlen
        omega
  | unknown h hop =>
    simp only [mem_cons, not_mem_nil, or_false, not_or] at h
    simp [testLoop, h, compareWords_unknown hop]

/-- The words are pieces, up to where something is missing or unknown. -/
def Cut (args : List CString) : Prop :=
  ∃ pieces : List Piece, (∀ p ∈ pieces, p.Taken) ∧
    (args = pieces.flatMap Piece.words ∨ ∃ rest, Broken rest ∧ args = pieces.flatMap Piece.words ++ rest)

theorem Cut.nil : Cut [] := ⟨[], by simp, .inl rfl⟩

theorem Cut.cons (hp : p.Taken) (h : Cut rest) : Cut (p.words ++ rest) := by
  obtain ⟨pieces, hpieces, hcut⟩ := h
  refine ⟨p :: pieces, by simpa using ⟨hp, hpieces⟩, ?_⟩
  rcases hcut with rfl | ⟨broken, hbroken, rfl⟩
  · exact .inl flatMap_cons.symm
  · exact .inr ⟨broken, hbroken, by rw [flatMap_cons, append_assoc]⟩

theorem Cut.broken (h : Broken args) : Cut args := ⟨[], by simp, .inr ⟨args, h, rfl⟩⟩

theorem Cut.special (ha : a ∈ [andWord, orWord, emptyWord, nonemptyWord]) (h : Cut rest) (h' : Cut rest.tail) :
    Cut (a :: rest) := by
  simp only [mem_cons, not_mem_nil, or_false] at ha
  rcases ha with rfl | rfl | ha
  · exact @Cut.cons rest (.connective .and) trivial h
  · exact @Cut.cons rest (.connective .or) trivial h
  · cases rest with
    | nil => exact .broken (.unary ha)
    | cons s rest =>
      rcases ha with rfl | rfl
      · exact @Cut.cons rest (.primary (.empty s)) trivial h'
      · exact @Cut.cons rest (.primary (.nonempty s)) trivial h'

theorem exists_pieces : ∀ args, Cut args
  | [] => .nil
  | [a] =>
    if ha : a ∈ [andWord, orWord, emptyWord, nonemptyWord] then .special ha .nil .nil
    else .broken (.short ha (by simp))
  | [a, s] =>
    if ha : a ∈ [andWord, orWord, emptyWord, nonemptyWord] then .special ha (exists_pieces [s]) .nil
    else .broken (.short ha (by simp))
  | a :: op :: b :: rest => by
    by_cases ha : a ∈ [andWord, orWord, emptyWord, nonemptyWord]
    · exact .special ha (exists_pieces (op :: b :: rest)) (exists_pieces (b :: rest))
    · by_cases hop : ∃ o : Op, op = o.word
      · obtain ⟨o, rfl⟩ := hop
        exact @Cut.cons rest (.primary (.compare a o b)) ha (exists_pieces rest)
      · exact .broken (.unknown ha (not_exists.mp hop))

theorem doTest_zero (h : 2 ≤ args.length) :
    doTest args = 0 ↔ (testLoop (body args) ⟨-1, -1, -1⟩ ≠ 0 ↔ args.head? ≠ some notWord) := by
  have hneg : (args.head?.any fun a => is a ['!']) = decide (args.head? = some notWord) := by
    cases args.head? <;> simp
  unfold doTest body
  rw [if_neg (by omega), hneg]
  by_cases hnot : args.head? = some notWord
  · by_cases hexpr : testLoop args.tail ⟨-1, -1, -1⟩ = 0 <;> simp [hnot, hexpr]
  · by_cases hexpr : testLoop args ⟨-1, -1, -1⟩ = 0 <;> simp [hnot, hexpr]

theorem doTest_short (h : args.length < 2) : doTest args = 1 := if_pos (by omega)

theorem doTest_eq_zero_iff (args : List CString) : doTest args = 0 ↔ TakenTrue args := by
  by_cases hlen : 2 ≤ args.length
  · rw [doTest_zero hlen]
    constructor
    · intro h
      obtain ⟨pieces, hpieces, hcut⟩ := exists_pieces (body args)
      refine ⟨hlen, pieces, hpieces, ?_⟩
      rcases hcut with hcut | ⟨rest, hbroken, hcut⟩
      · obtain ⟨t, hloop, ht⟩ := testLoop_pieces hpieces Tracks.start []
        rw [append_nil, ← hcut] at hloop
        rw [hloop, testLoop, ht.expr, append_nil] at h
        exact .inr ⟨hcut, h⟩
      · obtain ⟨t, hloop, -⟩ := testLoop_pieces hpieces Tracks.start rest
        rw [← hcut, testLoop_broken hbroken] at hloop
        rw [hloop] at h
        exact .inl ⟨rest, hbroken, hcut, h.mp (by decide)⟩
    · rintro ⟨-, pieces, hpieces, ⟨rest, hbroken, hcut, hhead⟩ | ⟨hcut, hread⟩⟩
      · obtain ⟨t, hloop, -⟩ := testLoop_pieces hpieces Tracks.start rest
        rw [hcut, hloop, testLoop_broken hbroken]
        exact ⟨fun _ => hhead, fun _ => by decide⟩
      · obtain ⟨t, hloop, ht⟩ := testLoop_pieces hpieces Tracks.start []
        rw [append_nil, ← hcut] at hloop
        rw [hloop, testLoop, ht.expr, append_nil]
        exact hread
  · rw [doTest_short (by omega)]
    exact ⟨fun h => by simp at h, fun h => absurd h.1 hlen⟩

def Condition.pieces (c : Condition) : List Piece :=
  .primary c.first :: c.rest.flatMap fun x => [.connective x.1, .primary x.2]

theorem Condition.words_eq (c : Condition) :
    c.words = (if c.neg then [notWord] else []) ++ c.pieces.flatMap Piece.words := by
  unfold Condition.words Condition.pieces
  rw [flatMap_cons, flatMap_assoc, append_assoc]
  simp [Piece.words]

theorem Condition.reading (c : Condition) :
    TestCmd.reading c.pieces.reverse = c.rest.foldl (fun value x => x.1.apply value x.2.value) c.first.value := by
  obtain ⟨neg, first, rest⟩ := c
  induction rest using List.reverseRecOn with
  | nil => rfl
  | append_singleton rest x ih =>
    have hsplit : (Condition.mk neg first (rest ++ [x])).pieces.reverse =
        .primary x.2 :: .connective x.1 :: (Condition.mk neg first rest).pieces.reverse := by
      simp [Condition.pieces]
    rw [hsplit, TestCmd.reading, ih, foldl_append]
    rfl

theorem Condition.Plain.taken {c : Condition} (h : c.Plain) : ∀ p ∈ c.pieces, p.Taken := by
  have hprimary : ∀ q, q = c.first ∨ q ∈ c.rest.map Prod.snd → (Piece.primary q).Taken := by
    intro q hq
    match q, hq with
    | .empty s, _ => trivial
    | .nonempty s, _ => trivial
    | .compare a o b, hq =>
      have ha := h _ hq a (by simp [Primary.operands])
      simp only [mem_cons, not_mem_nil, or_false, not_or] at ha
      simp [Piece.Taken, ha]
  intro p hp
  simp only [Condition.pieces, mem_cons, mem_flatMap, not_mem_nil, or_false] at hp
  rcases hp with rfl | ⟨x, hx, rfl | rfl⟩
  · exact hprimary _ (.inl rfl)
  · trivial
  · exact hprimary _ (.inr (mem_map_of_mem hx))

theorem Condition.Plain.body {c : Condition} (h : c.Plain) : body c.words = c.pieces.flatMap Piece.words ∧
    (c.words.head? ≠ some notWord ↔ c.neg = false) := by
  rw [c.words_eq]
  cases hneg : c.neg with
  | true => simp [TestCmd.body]
  | false =>
    have hfirst : ∃ a rest, c.pieces.flatMap Piece.words = a :: rest ∧ a ≠ notWord := by
      unfold Condition.pieces
      rw [flatMap_cons]
      cases hp : c.first with
      | empty s => exact ⟨_, _, rfl, by decide⟩
      | nonempty s => exact ⟨_, _, rfl, by decide⟩
      | compare a o b =>
        have ha := h _ (.inl hp.symm) a (by simp [Primary.operands])
        simp only [mem_cons, not_or] at ha
        exact ⟨a, _, rfl, ha.1⟩
    obtain ⟨a, rest, hwords, ha⟩ := hfirst
    rw [hwords]
    simp [TestCmd.body, ha]

theorem Condition.two_le_length (c : Condition) : 2 ≤ c.words.length := by
  unfold Condition.words
  rw [length_append, length_append]
  cases c.first <;> simp [Primary.words] <;> omega

theorem Condition.Plain.doTest {c : Condition} (h : c.Plain) : doTest c.words = 0 ↔ c.value = true := by
  obtain ⟨hbody, hhead⟩ := h.body
  obtain ⟨t, hloop, ht⟩ := testLoop_pieces h.taken Tracks.start []
  rw [append_nil] at hloop
  rw [doTest_zero c.two_le_length, hbody, hloop, testLoop, ht.expr, append_nil, c.reading, hhead]
  unfold Condition.value
  cases c.neg <;> simp

/-- `test` gives the value of a condition and refuses everything else, but for words without the shape of a condition
that it takes for a true one. -/
theorem do_test_meets_iff (args : List CString) : Meets args ↔ Recognised args ∨ ¬TakenTrue args := by
  constructor
  · intro h
    by_cases hrec : Recognised args
    · exact .inl hrec
    · exact .inr fun htrue => h.refused hrec ((doTest_eq_zero_iff args).mpr htrue)
  · intro h
    refine ⟨fun c hc hargs => ?_, fun hrec hzero => ?_⟩
    · rw [hargs]
      exact hc.doTest
    · exact h.resolve_left hrec ((doTest_eq_zero_iff args).mp hzero)

/-- `test 1 -eq` -/
def operandMissing : List CString := [⟨ascii ['1'], chars_nulFree (by decide)⟩, Op.numEq.word]

theorem missing_operand_is_true : ¬∀ args : List CString, Meets args := by
  intro h
  refine (h operandMissing).refused ?_ (by decide)
  rintro ⟨⟨neg, first, rest⟩, hc⟩
  have hlen := congrArg List.length hc
  have hhead := congrArg List.head? hc
  cases neg <;> cases first <;> simp [Condition.words, Primary.words, operandMissing] at hlen hhead
  · exact absurd hhead (by decide)
  · exact absurd hhead (by decide)

end UBoot.TestCmd
