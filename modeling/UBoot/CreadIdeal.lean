import UBoot.CreadRuns

namespace UBoot

open Cells CursorText List Runs

/-- The line as it should be, and what decides what the next key is for. -/
structure Ideal where
  line : Text UInt8
  insert : Bool
  escSave : List UInt8
  hist : History

/-- What a finished prompt returns and its string, or the line that waits for the next key. -/
inductive IdealResult where
  | more (i : Ideal)
  | done (rc : Int) (str : List UInt8)

namespace Ideal

def start (hist : History) (init : List UInt8) : Ideal := ⟨.whole init, true, [], hist⟩

def moved (i : Ideal) (t : Text UInt8) : IdealResult := .more { i with line := t }

def types (i : Ideal) (str : List UInt8) : IdealResult :=
  .more { i with line := str.foldl (Text.typed i.insert) i.line, escSave := [] }

def recalled (i : Ideal) : History × Option (List UInt8) → IdealResult
  | (hist, none) => .more { i with hist := hist, escSave := [] }
  | (hist, some slot) =>
    .more { i with line := .whole (slot.takeWhile (· ≠ 0)), hist := hist, escSave := [] }

def switch (i : Ideal) (ichar : UInt8) : IdealResult :=
  match keyOf ichar with
  | .esc => .more { i with escSave := if i.escSave = [] then [ichar] else [] }
  | .home => i.moved i.line.home
  | .brk => .done (-1) []
  | .right => i.moved i.line.right
  | .left => i.moved i.line.left
  | .delete => i.moved i.line.delete
  | .eraseToEol => i.moved i.line.kill
  | .toEol => i.moved i.line.toEnd
  | .overwrite => .more { i with insert := !i.insert }
  | .eraseLine => i.moved i.line.home.kill
  | .backspace => i.moved i.line.backspace
  | .prev => i.recalled (histPrev i.hist)
  | .next => i.recalled (histNext i.hist)
  | .tab => .more i
  | .char => i.moved (i.line.typed i.insert ichar)

/-- The tab key may append a completion. Of a line with a NUL in it the bytes behind the completion are left open. -/
inductive Switches (complete : List UInt8 → Option (List UInt8)) (cbsize : Nat) (i : Ideal) (ichar : UInt8) :
    IdealResult → Prop
  | edits (h : keyOf ichar = .tab → completion complete cbsize i.line = none) :
    Switches complete cbsize i ichar (i.switch ichar)
  | completes {s text : List UInt8} (htab : keyOf ichar = .tab) (hs : completion complete cbsize i.line = some s)
    (htext : Completed i.line.text s text) : Switches complete cbsize i ichar (i.moved (.whole text))

/-- One key. The Enter key returns the text, and a sequence of keys that stands for none is typed. -/
def Keys (complete : List UInt8 → Option (List UInt8)) (cbsize : Nat) (i : Ideal) (ichar : UInt8)
    (r : IdealResult) : Prop :=
  if isEnter ichar then r = .done i.line.text.length i.line.text
  else
    match i.escSave with
    | [] => i.Switches complete cbsize ichar r
    | [e] => r = if ichar = 91 then .more { i with escSave := [e, ichar] } else i.types [e]
    | esc =>
      match escKey ichar with
      | some ichar => Switches complete cbsize { i with escSave := [] } ichar r
      | none => r = i.types (esc ++ [ichar])

end Ideal

/-- A prompt that has returned takes no more keys. -/
def IdealResult.Step (complete : List UInt8 → Option (List UInt8)) (cbsize : Nat) :
    IdealResult → UInt8 → IdealResult → Prop
  | .more i, ichar, r => i.Keys complete cbsize ichar r
  | .done rc str, _, r => r = .done rc str

def creadStep (complete : List UInt8 → Option (List UInt8)) :
    CreadResult → UInt8 → Option (Unit × CreadResult)
  | .more s, ichar => (creadKey complete s ichar).map fun r => ((), r)
  | .done rc s, _ => some ((), .done rc s)

def CreadResult.Short : CreadResult → Prop
  | .more s => s.line.eolNum < maxCmdbufSize
  | .done _ _ => True

/-- `cread_line` with the keys that it reads. -/
def creadLine (complete : List UInt8 → Option (List UInt8)) (hist : History) (buf keys : List UInt8) :
    Option CreadResult := do
  let s ← creadStart hist buf
  let (_, r) ← run (creadStep complete) (.more s) keys
  pure r

/-- The key leaves a line shorter than `MAX_CMDBUF_SIZE`. -/
def CreadResult.KeepsShort (complete : List UInt8 → Option (List UInt8)) (r : CreadResult) (ichar : UInt8) :
    Prop :=
  ∀ r', creadStep complete r ichar = some ((), r') → r'.Short

instance : ∀ r : CreadResult, Decidable r.Short
  | .more s => inferInstanceAs (Decidable (s.line.eolNum < maxCmdbufSize))
  | .done _ _ => .isTrue trivial

instance (complete : List UInt8 → Option (List UInt8)) (r : CreadResult) (ichar : UInt8) :
    Decidable (r.KeepsShort complete ichar) :=
  decidable_of_iff (∀ x ∈ creadStep complete r ichar, x.2.Short)
    ⟨fun h r' hr => h ((), r') hr, fun h x hx => h x.2 hx⟩

structure Cread.Matches (cbsize : Nat) (s : Cread) (i : Ideal) : Prop where
  line : s.line.Holds cbsize i.line
  insert : s.insert = i.insert
  escSave : s.escSave = i.escSave
  hist : s.hist = i.hist

/-- The buffer has the text with the cursor in it, or the string that is returned with its NUL. -/
def CreadResult.Matches (cbsize : Nat) : CreadResult → IdealResult → Prop
  | .more s, .more i => s.Matches cbsize i
  | .done rc s, .done rc' str => rc = rc' ∧ str ++ [0] <+: s.line.buf
  | _, _ => False

variable {cbsize : Nat} {s : Cread} {l l' : Line} {t : Text UInt8} {i : Ideal} {ichar : UInt8}
  {r : CreadResult} {complete : List UInt8 → Option (List UInt8)}

theorem creadAddChar_grows {insert : Bool} (h : creadAddChar ichar insert maxCmdbufSize l = some l') :
    l.eolNum ≤ l'.eolNum := by
  have hlast : (maxCmdbufSize - 1).toNat = 255 := by decide
  unfold creadAddChar at h
  split at h
  · exact Option.some.inj h ▸ UInt32.le_refl _
  next hroom =>
    obtain ⟨moved, -, h⟩ := Option.bind_eq_some_iff.mp h
    obtain ⟨buf, -, h⟩ := Option.bind_eq_some_iff.mp h
    rw [← Option.some.inj h]
    split
    next hgrow =>
      have hle := UInt32.le_iff_toNat_le.mp (UInt32.not_lt.mp fun hlt => hroom ⟨hgrow, hlt⟩)
      rw [UInt32.le_iff_toNat_le, UInt32.toNat_add, UInt32.toNat_one]
      omega
    · exact UInt32.le_refl _

theorem creadAddStr_grows {insert : Bool} {str : List UInt8}
    (h : creadAddStr str insert maxCmdbufSize l = some l') : l.eolNum ≤ l'.eolNum := by
  induction str generalizing l with
  | nil => exact Option.some.inj h ▸ UInt32.le_refl _
  | cons c cs ih =>
    rw [creadAddStr, foldlM_cons] at h
    obtain ⟨l₁, hadd, h⟩ := Option.bind_eq_some_iff.mp h
    exact UInt32.le_trans (creadAddChar_grows hadd) (ih h)

theorem creadAddStr_holds (hmin : maxCmdbufSize.toNat ≤ cbsize) (hl : l.Holds cbsize t) {insert : Bool}
    {str : List UInt8} (hrun : creadAddStr str insert maxCmdbufSize l = some l')
    (hshort : l'.eolNum < maxCmdbufSize) : l'.Holds cbsize (str.foldl (Text.typed insert) t) := by
  induction str generalizing l t with
  | nil => exact Option.some.inj hrun ▸ hl
  | cons c cs ih =>
    have hlt := UInt32.lt_of_le_of_lt (creadAddStr_grows hrun) hshort
    rw [UInt32.lt_iff_toNat_lt, hl.eol] at hlt
    obtain ⟨l₁, hadd, hl₁⟩ := hl.addChar hmin hlt c insert
    rw [creadAddStr, foldlM_cons, hadd] at hrun
    exact ih hl₁ hrun

namespace Cread.Matches

theorem moved (h : s.Matches cbsize i) (hl : l.Holds cbsize t) : (s.moved l).Matches cbsize (i.moved t) :=
  ⟨hl, h.insert, h.escSave, h.hist⟩

theorem recalled (hmin : maxCmdbufSize.toNat ≤ cbsize) (h : s.Matches cbsize i)
    {found : History × Option (List UInt8)} (hfound : Recalls found) (hrun : s.recalled found = some r) :
    r.Matches cbsize (i.recalled found) := by
  obtain ⟨hist, slot⟩ := found
  cases slot with
  | none =>
    cases hrun
    exact ⟨h.line, h.insert, rfl, rfl⟩
  | some slot =>
    obtain ⟨hlen, hnul⟩ := hfound.2 slot rfl
    obtain ⟨l, hl, hheld⟩ := h.line.recallLine hmin hlen hnul
    rw [Cread.recalled, hl] at hrun
    cases hrun
    exact ⟨hheld, h.insert, rfl, rfl⟩

end Cread.Matches

theorem creadSwitch_matches (hmin : maxCmdbufSize.toNat ≤ cbsize) (hsize : cbsize < 2 ^ 32)
    (h : s.Matches cbsize i) (hs : s.hist.Sound) (hshort : s.line.eolNum < maxCmdbufSize)
    (hrun : creadSwitch complete s ichar = some r) :
    ∃ r', i.Switches complete cbsize ichar r' ∧ r.Matches cbsize r' := by
  rw [UInt32.lt_iff_toNat_lt, h.line.eol] at hshort
  have hedits : keyOf ichar ≠ .tab → r.Matches cbsize (i.switch ichar) →
      ∃ r', i.Switches complete cbsize ichar r' ∧ r.Matches cbsize r' :=
    fun hkey hr => ⟨_, .edits fun htab => absurd htab hkey, hr⟩
  have hmoved : ∀ {o : Option Line} {t : Text UInt8}, (∃ l, o = some l ∧ l.Holds cbsize t) → o.map s.moved = some r →
      r.Matches cbsize (i.moved t) := by
    rintro _ t ⟨l, rfl, hl⟩ ho
    cases ho
    exact h.moved hl
  unfold creadSwitch at hrun
  unfold Ideal.switch at hedits
  cases hkey : keyOf ichar <;> rw [hkey] at hrun hedits <;> dsimp only at hrun hedits
  case esc =>
    cases hrun
    refine hedits (by decide) ⟨h.line, h.insert, ?_, h.hist⟩
    rw [h.escSave]
  case home =>
    cases hrun
    exact hedits (by decide) (h.moved h.line.home)
  case brk =>
    obtain ⟨c, rest, hbuf⟩ : ∃ c rest, s.line.buf = c :: rest := by
      refine exists_cons_of_ne_nil fun hnil => ?_
      have hlen := h.line.length
      rw [hnil, length_nil] at hlen
      omega
    rw [hbuf, store_some (Nat.zero_lt_succ _)] at hrun
    cases hrun
    exact hedits (by decide) ⟨rfl, rest, rfl⟩
  case right =>
    cases hrun
    exact hedits (by decide) (h.moved h.line.right)
  case left =>
    cases hrun
    exact hedits (by decide) (h.moved h.line.left)
  case delete => exact hedits (by decide) (hmoved h.line.del hrun)
  case eraseToEol =>
    cases hrun
    exact hedits (by decide) (h.moved h.line.eraseToEol)
  case toEol =>
    cases hrun
    exact hedits (by decide) (h.moved h.line.refreshToEol)
  case overwrite =>
    cases hrun
    exact hedits (by decide) ⟨h.line, congrArg not h.insert, h.escSave, h.hist⟩
  case eraseLine =>
    cases hrun
    exact hedits (by decide) (h.moved h.line.home.eraseToEol)
  case backspace => exact hedits (by decide) (hmoved h.line.back hrun)
  case prev =>
    rw [h.hist] at hrun hs
    exact hedits (by decide) (h.recalled hmin (histPrev_recalls hs) hrun)
  case next =>
    rw [h.hist] at hrun hs
    exact hedits (by decide) (h.recalled hmin (histNext_recalls hs) hrun)
  case tab =>
    obtain ⟨l, hl, ⟨hnone, hheld⟩ | ⟨str, text, hsome, htext, hheld⟩⟩ :=
      h.line.complete hsize complete (.inr (lt_of_lt_of_le hshort hmin))
    · rw [hl] at hrun
      cases hrun
      refine ⟨_, .edits fun _ => hnone, ?_⟩
      unfold Ideal.switch
      rw [hkey]
      exact h.moved hheld
    · rw [hl] at hrun
      cases hrun
      exact ⟨_, .completes hkey hsome htext, h.moved hheld⟩
  case char =>
    rw [h.insert] at hrun
    exact hedits (by decide) (hmoved (h.line.addChar hmin hshort ichar i.insert) hrun)

theorem creadFinish_matches (h : s.Matches cbsize i) (hrun : creadFinish s = some r) :
    r.Matches cbsize (.done i.line.text.length i.line.text) := by
  obtain ⟨buf, hbuf, hrun⟩ := Option.bind_eq_some_iff.mp hrun
  obtain ⟨hist, -, hrun⟩ := Option.bind_eq_some_iff.mp hrun
  rw [← Option.some.inj hrun]
  refine ⟨congrArg Nat.cast h.line.eol, ?_⟩
  obtain ⟨rest, hrest⟩ := h.line.text
  rw [h.line.eol, ← hrest] at hbuf
  cases rest with
  | nil =>
    rw [append_nil, store, if_neg (lt_irrefl _)] at hbuf
    cases hbuf
  | cons c rest =>
    rw [store_at] at hbuf
    rw [← Option.some.inj hbuf]
    exact ⟨rest, by simp⟩

theorem creadKey_matches (hmin : maxCmdbufSize.toNat ≤ cbsize) (hsize : cbsize < 2 ^ 32)
    (h : s.Matches cbsize i) (hs : s.hist.Sound) (hshort : s.line.eolNum < maxCmdbufSize)
    (hrun : creadKey complete s ichar = some r) (hr : r.Short) :
    ∃ r', i.Keys complete cbsize ichar r' ∧ r.Matches cbsize r' := by
  have hadded : ∀ {str : List UInt8}, (creadAddStr str s.insert maxCmdbufSize s.line).map
      (fun l => CreadResult.more { s with line := l, escSave := [] }) = some r →
      r.Matches cbsize (i.types str) := by
    intro str ho
    obtain ⟨l, hl, rfl⟩ := Option.map_eq_some_iff.mp ho
    rw [h.insert] at hl
    exact ⟨creadAddStr_holds hmin h.line hl hr, h.insert, rfl, h.hist⟩
  unfold creadKey at hrun
  unfold Ideal.Keys
  by_cases henter : isEnter ichar
  · rw [if_pos henter] at hrun
    simp only [if_pos henter]
    exact ⟨_, rfl, creadFinish_matches h hrun⟩
  rw [if_neg henter] at hrun
  simp only [if_neg henter]
  rcases hesc : s.escSave with _ | ⟨e, _ | ⟨e', rest⟩⟩ <;> rw [hesc] at hrun <;> rw [← h.escSave, hesc] <;>
    dsimp only at hrun ⊢
  · exact creadSwitch_matches hmin hsize h hs hshort hrun
  · refine ⟨_, rfl, ?_⟩
    split at hrun
    next hbracket =>
      cases hrun
      rw [if_pos hbracket]
      exact ⟨h.line, h.insert, rfl, h.hist⟩
    next hbracket =>
      rw [if_neg hbracket]
      exact hadded hrun
  · cases hkey : escKey ichar <;> rw [hkey] at hrun <;> dsimp only at hrun ⊢
    case none => exact ⟨_, rfl, hadded hrun⟩
    case some c =>
      have hcleared : Cread.Matches cbsize { s with escSave := [] } { i with escSave := [] } :=
        ⟨h.line, h.insert, rfl, h.hist⟩
      exact creadSwitch_matches hmin hsize hcleared hs hshort hrun

theorem creadAddBuf_same {buf : List UInt8} {n : Nat} (hn : n ≤ buf.length)
    (hshort : n < maxCmdbufSize.toNat) :
    creadAddBuf n maxCmdbufSize ⟨buf, 0, 0⟩ = some ⟨buf, UInt32.ofNat n, UInt32.ofNat n⟩ := by
  induction n with
  | zero => rfl
  | succ n ih =>
    have hmax : maxCmdbufSize.toNat = 256 := by decide
    have hlast : (maxCmdbufSize - 1).toNat = 255 := by decide
    have hword : UInt32.size = 2 ^ 32 := rfl
    have hnum : (UInt32.ofNat n).toNat = n := UInt32.toNat_ofNat_of_lt' (by omega)
    have hnext : UInt32.ofNat n + 1 = UInt32.ofNat (n + 1) := by
      rw [UInt32.ofNat_add]
      rfl
    have hroom : ¬maxCmdbufSize - 1 < UInt32.ofNat n := by
      rw [UInt32.lt_iff_toNat_lt]
      omega
    have hwlen : ¬(1 : UInt32) < UInt32.ofNat n + 1 - UInt32.ofNat n := by
      rw [UInt32.lt_iff_toNat_lt, UInt32.toNat_sub, UInt32.toNat_add, UInt32.toNat_one]
      omega
    have hread : buf[n]? = some buf[n] := List.getElem?_eq_getElem hn
    have hadd : creadAddChar buf[n] true maxCmdbufSize ⟨buf, UInt32.ofNat n, UInt32.ofNat n⟩ =
        some ⟨buf, UInt32.ofNat (n + 1), UInt32.ofNat (n + 1)⟩ := by
      unfold creadAddChar
      rw [if_neg fun hfull => hroom hfull.2]
      simp only [true_or, if_true, true_and, if_neg hwlen, Option.bind_eq_bind, Option.bind_some, hnum,
        store_some hn, set_getElem_self]
      rw [hnext]
      rfl
    have hrest := ih (by omega) (by omega)
    unfold creadAddBuf at hrest ⊢
    rw [range_succ, foldlM_append, hrest]
    simp only [Option.bind_eq_bind, Option.bind_some, foldlM_cons, foldlM_nil, hread, hadd]
    rfl

theorem creadStart_matches {hist : History} {buf init : List UInt8} (hlen : buf.length = cbsize)
    (hinit : cstrAt buf 0 = some init) (hshort : init.length < maxCmdbufSize.toNat) :
    ∃ s, creadStart hist buf = some s ∧ s.Matches cbsize (.start hist init) := by
  obtain ⟨e, -, htake⟩ := Option.bind_eq_some_iff.mp hinit
  have hbegins : init <+: buf := Option.some.inj htake ▸ take_prefix _ _
  have hmax : maxCmdbufSize.toNat = 256 := by decide
  have hword : UInt32.size = 2 ^ 32 := rfl
  have hnum : (UInt32.ofNat init.length).toNat = init.length := UInt32.toNat_ofNat_of_lt' (by omega)
  refine ⟨⟨⟨buf, UInt32.ofNat init.length, UInt32.ofNat init.length⟩, true, [], hist⟩, ?_, ⟨?_, rfl, rfl, rfl⟩⟩
  · unfold creadStart
    rw [hinit]
    simp only [Option.bind_eq_bind, Option.bind_some, creadAddBuf_same hbegins.length_le hshort]
    rfl
  · exact ⟨hlen, hbegins, hnum, hnum⟩

theorem Cread.Matches.keyFits (hmin : maxCmdbufSize.toNat ≤ cbsize) (h : s.Matches cbsize i)
    (hshort : s.line.eolNum < maxCmdbufSize) (ichar : UInt8) : s.KeyFits ichar := by
  have hmax : maxCmdbufSize.toNat = 256 := by decide
  have hsize : histSize = 256 := rfl
  rw [UInt32.lt_iff_toNat_lt] at hshort
  have hlt : s.line.eolNum.toNat < s.line.buf.length := by
    rw [h.line.length]
    omega
  have hentered : s.line.entered.length ≤ s.line.eolNum.toNat :=
    le_trans (List.takeWhile_prefix _).length_le (length_take_le _ _)
  exact ⟨fun _ => ⟨hlt, .inr (.inr (by omega))⟩, fun _ _ => .inr hlt⟩

theorem creadStep_matches (hmin : maxCmdbufSize.toNat ≤ cbsize) (hsize : cbsize < 2 ^ 32) {m : IdealResult}
    (hshort : r.Short) (hin : r.Inside cbsize) (hm : r.Matches cbsize m) (hkey : r.KeepsShort complete ichar) :
    ∃ b r' m', creadStep complete r ichar = some (b, r') ∧ m.Step complete cbsize ichar m' ∧
      r'.Short ∧ r'.Inside cbsize ∧ r'.Matches cbsize m' := by
  cases r with
  | more s =>
    cases m with
    | done rc str => exact hm.elim
    | more i =>
      have hm : s.Matches cbsize i := hm
      obtain ⟨r', hrun, hin'⟩ : ∃ r', creadKey complete s ichar = some r' ∧ r'.Inside cbsize :=
        creadKey_inside hmin hsize hin (hm.keyFits hmin hshort ichar)
      have hstep : creadStep complete (.more s) ichar = some ((), r') := by
        rw [creadStep, hrun]
        rfl
      obtain ⟨m', hkeys, hm'⟩ := creadKey_matches hmin hsize hm hin.hist hshort hrun (hkey r' hstep)
      exact ⟨(), r', m', hstep, hkeys, hkey r' hstep, hin', hm'⟩
  | done rc s =>
    cases m with
    | more i => exact hm.elim
    | done rc' str => exact ⟨(), .done rc s, .done rc' str, rfl, rfl, hshort, hin, hm⟩

/-- In every run of keys that leave the line shorter than `MAX_CMDBUF_SIZE`, the buffer of `cread_line` has the text
and the cursor of an ideal line that the same keys edit, and what it returns is the text of this line. -/
theorem cread_line_ideal (complete : List UInt8 → Option (List UInt8)) (hmin : maxCmdbufSize.toNat ≤ cbsize)
    (hsize : cbsize < 2 ^ 32) {hist : History} (hs : hist.Sound) {buf init keys : List UInt8}
    (hlen : buf.length = cbsize) (hinit : cstrAt buf 0 = some init) (hshort : init.length < maxCmdbufSize.toNat)
    (hkeys : ∀ s, creadStart hist buf = some s →
      Meets (creadStep complete) (CreadResult.KeepsShort complete) (.more s) keys) :
    ∃ r r', creadLine complete hist buf keys = some r ∧
      Chain (IdealResult.Step complete cbsize) (.more (.start hist init)) keys r' ∧ r.Matches cbsize r' := by
  obtain ⟨s, hstart, hmatches⟩ : ∃ s, creadStart hist buf = some s ∧ s.Matches cbsize (.start hist init) :=
    creadStart_matches hlen hinit hshort
  have hinside : s.Inside cbsize := ⟨hmatches.line.inside, hmatches.hist ▸ hs⟩
  have hline : s.line.eolNum < maxCmdbufSize := UInt32.lt_iff_toNat_lt.mpr (hmatches.line.eol ▸ hshort)
  obtain ⟨answers, r, r', hrun, hchain, -, -, hr⟩ : ∃ answers r r',
      run (creadStep complete) (.more s) keys = some (answers, r) ∧
        Chain (IdealResult.Step complete cbsize) (.more (.start hist init)) keys r' ∧
        r.Short ∧ r.Inside cbsize ∧ r.Matches cbsize r' :=
    run_chain (r := fun r r' => r.Short ∧ r.Inside cbsize ∧ r.Matches cbsize r')
      (fun r r' ichar hrel hkey => creadStep_matches hmin hsize hrel.1 hrel.2.1 hrel.2.2 hkey)
      ⟨hline, hinside, hmatches⟩ (hkeys s hstart)
  refine ⟨r, r', ?_, hchain, hr⟩
  unfold creadLine
  rw [hstart, Option.bind_eq_bind, Option.bind_some, hrun]
  rfl

/-- `ab`, a step back, `c`, then `x` in the place of the first character. -/
def editedKeys : List UInt8 := [97, 98, 2, 99, 1, 4, 120, 13]

theorem cread_line_ideal_edited :
    ∃ r r', creadLine (fun _ => none) histInit (List.replicate 256 0) editedKeys = some r ∧
      Chain (IdealResult.Step (fun _ => none) 256) (.more (.start histInit [])) editedKeys r' ∧
      r.Matches 256 r' ∧ ∃ s, r = .done 3 s ∧ cstrAt s.line.buf 0 = some [120, 99, 98] := by
  have hkeys : ∀ s ∈ creadStart histInit (List.replicate 256 0),
      Meets (creadStep fun _ => none) (CreadResult.KeepsShort fun _ => none) (.more s) editedKeys := by decide +kernel
  obtain ⟨r, r', hrun, hchain, hmatches⟩ := cread_line_ideal (fun _ => none) (le_refl 256) (by decide)
    histInit_sound (length_replicate : (List.replicate 256 (0 : UInt8)).length = 256)
    (show cstrAt (List.replicate 256 0) 0 = some [] from rfl) (by decide) hkeys
  have hdone : ((creadLine (fun _ => none) histInit (List.replicate 256 0) editedKeys).any fun
      | .done rc s => rc = 3 ∧ cstrAt s.line.buf 0 = some [120, 99, 98]
      | .more _ => false) = true := by decide +kernel
  rw [hrun] at hdone
  cases r with
  | more s => cases hdone
  | done rc s =>
    obtain ⟨rfl, hline⟩ := of_decide_eq_true hdone
    exact ⟨_, r', hrun, hchain, hmatches, s, rfl, hline⟩

end UBoot
