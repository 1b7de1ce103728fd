import UBoot.CreadRuns
import UBoot.Ring

namespace UBoot

open Cells List RecentRing Runs

/-- The history keeps the last of `lines`, and its cursor is `pos` lines back. It is not yet set as long as no line
has been entered. -/
structure History.Keeps (h : History) (lines : List (List UInt8)) (pos : Nat) : Prop where
  sound : h.Sound
  addIdx : h.histAddIdx = lines.length % histMaxLines
  max : h.histMax = reach histMaxLines lines.length
  holds : RecentRing.Holds histMaxLines (fun i => cstrAt (h.histLines.getD i []) 0) (lines.map some)
  back : pos ≤ reach histMaxLines lines.length
  cur : h.histCur = slot histMaxLines lines.length pos ∨ h.histCur = -1 ∧ lines = []

/-- The line `pos` lines back, with an empty one behind the latest. -/
def lineBack (lines : List (List UInt8)) : Nat → List UInt8
  | 0 => []
  | pos + 1 => lines.getD pos []

variable {h : History} {lines : List (List UInt8)} {pos : Nat} {line : List UInt8}

theorem lines_pos : 0 < histMaxLines := by decide

theorem histInit_keeps : histInit.Keeps [] 0 :=
  ⟨histInit_sound, rfl, rfl, fun k hk => absurd hk (by simp [reach]), Nat.zero_le _, .inr ⟨rfl, rfl⟩⟩

theorem before_eq {c : Nat} (hcur : h.histCur = c) :
    h.before = ((if c = 0 then h.histMax else c - 1 : Nat) : Int) := by
  unfold History.before
  rw [hcur]
  split_ifs <;> omega

theorem after_eq {c : Nat} (hcur : h.histCur = c) :
    h.after = ((if h.histMax < c + 1 then 0 else c + 1 : Nat) : Int) := by
  unfold History.after
  rw [hcur]
  split_ifs <;> omega

theorem History.Keeps.current (hk : h.Keeps lines pos) {p : Nat} (hp : p < reach histMaxLines lines.length)
    (hcur : h.histCur = slot histMaxLines lines.length (p + 1)) : cstrAt h.current 0 = some (lines.getD p []) := by
  have hlen : p < lines.length := lt_of_lt_of_le hp (Nat.min_le_left _ _)
  have hslot := hk.holds p (by rw [length_map]; exact hp)
  rw [length_map, List.getElem?_map, List.getElem?_eq_getElem hlen] at hslot
  unfold History.current
  rw [hcur, Int.toNat_natCast, getD_eq_getElem _ _ hlen]
  exact (Option.some.inj hslot).symm

theorem histPrev_keeps (hk : h.Keeps lines pos) (hpos : pos < reach histMaxLines lines.length) :
    ∃ h' s, histPrev h = (h', some s) ∧ cstrAt s 0 = some (lineBack lines (pos + 1)) ∧ h'.Keeps lines (pos + 1) := by
  have hcur := hk.cur.resolve_right (by rintro ⟨_, rfl⟩; simp [reach] at hpos)
  obtain ⟨hnext, hne⟩ := slot_next hpos
  have hbefore : h.before = slot histMaxLines lines.length (pos + 1) := by
    rw [before_eq hcur, hk.max, hnext]
  have hkeeps : History.Keeps { h with histCur := slot histMaxLines lines.length (pos + 1) } lines (pos + 1) :=
    ⟨hk.sound.setCur (hbefore ▸ hk.sound.before), hk.addIdx, hk.max, hk.holds, hpos, .inl rfl⟩
  refine ⟨_, _, ?_, hkeeps.current hpos rfl, hkeeps⟩
  unfold histPrev
  rw [if_neg (by omega), hbefore, hk.addIdx, if_neg (by omega)]

theorem histPrev_oldest (hk : h.Keeps lines pos) (hpos : ¬pos < reach histMaxLines lines.length) :
    histPrev h = (h, none) := by
  have hlast : pos = reach histMaxLines lines.length := le_antisymm hk.back (not_lt.mp hpos)
  unfold histPrev
  rcases hk.cur with hcur | ⟨hcur, _⟩
  · rw [if_neg (by omega), before_eq hcur, hk.max, slot_last lines_pos hlast, hk.addIdx, if_pos rfl]
  · rw [if_pos (by omega)]

theorem histNext_keeps (hk : h.Keeps lines (pos + 1)) :
    ∃ h' s, histNext h = (h', some s) ∧ cstrAt s 0 = some (lineBack lines pos) ∧ h'.Keeps lines pos := by
  have hback : pos < reach histMaxLines lines.length := hk.back
  have hcur := hk.cur.resolve_right (by rintro ⟨_, rfl⟩; simp [reach] at hback)
  have hafter : h.after = slot histMaxLines lines.length pos := by
    rw [after_eq hcur, hk.max, slot_back hback]
  have hkeeps : History.Keeps { h with histCur := slot histMaxLines lines.length pos } lines pos :=
    ⟨hk.sound.setCur (hafter ▸ hk.sound.after), hk.addIdx, hk.max, hk.holds, le_of_lt hback, .inl rfl⟩
  have hhere : slot histMaxLines lines.length (pos + 1) ≠ lines.length % histMaxLines :=
    fun heq => absurd ((slot_eq_zero_iff lines_pos hk.back).mp heq) (Nat.succ_ne_zero pos)
  have hrun : histNext h = ({ h with histCur := slot histMaxLines lines.length pos },
      some (if ((slot histMaxLines lines.length pos : Nat) : Int) = h.histAddIdx then [0]
        else History.current { h with histCur := slot histMaxLines lines.length pos })) := by
    unfold histNext
    rw [if_neg (by omega), if_neg (by rw [hcur, hk.addIdx]; omega), hafter]
  refine ⟨_, _, hrun, ?_, hkeeps⟩
  cases pos with
  | zero =>
    rw [if_pos (by rw [hk.addIdx, slot_zero])]
    exact cstrAt_append (p := []) (s := []) (t := []) not_mem_nil
  | succ p =>
    have hne : slot histMaxLines lines.length (p + 1) ≠ lines.length % histMaxLines :=
      fun heq => absurd ((slot_eq_zero_iff lines_pos (le_of_lt hback)).mp heq) (Nat.succ_ne_zero p)
    rw [if_neg (by rw [hk.addIdx]; omega)]
    exact hkeeps.current (by omega) rfl

theorem histNext_latest (hk : h.Keeps lines 0) : histNext h = (h, none) := by
  unfold histNext
  rcases hk.cur with hcur | ⟨hcur, _⟩
  · rw [if_neg (by omega), if_pos (by rw [hcur, hk.addIdx, slot_zero])]
  · rw [if_pos (by omega)]

theorem creadAddToHist_keeps (hk : h.Keeps lines pos) (hnul : (0 : UInt8) ∉ line) (hshort : line.length < histSize) :
    ∃ h', creadAddToHist h line = some h' ∧ History.Keeps { h' with histCur := h'.histAddIdx } (line :: lines) 0 := by
  obtain ⟨h', hadd, hsound⟩ := creadAddToHist_sound hk.sound hshort
  have haddIdx : (h'.histAddIdx : Int) < histMaxLines := Int.ofNat_lt.mpr hsound.addIdx
  have hlt : h.histAddIdx < h.histLines.length := by
    rw [hk.sound.slots]
    exact hk.sound.addIdx
  obtain ⟨hsize, _⟩ := hk.sound.strings _ (getElem_mem hlt)
  have hfit : 0 + (line ++ [0]).length ≤ h.histLines[h.histAddIdx].length := by
    rw [hsize, length_append, length_singleton]
    omega
  have hrun := hadd
  unfold creadAddToHist at hrun
  rw [List.getElem?_eq_getElem hlt] at hrun
  simp only [Option.bind_eq_bind, Option.bind_some, storeAll_eq_splice hfit] at hrun
  have heq := Option.some.inj hrun
  have hidx : h'.histAddIdx = (lines.length + 1) % histMaxLines := by
    rw [← heq, ← next_place lines_pos, ← hk.addIdx]
  refine ⟨h', hadd, hsound.setCur haddIdx, hidx, ?_, ?_, Nat.zero_le _, .inl (by rw [hidx]; rfl)⟩
  · rw [← heq, length_cons, ← reach_grows lines_pos, ← hk.max, ← next_place lines_pos, ← hk.addIdx]
  · have hput : h'.histLines = h.histLines.set h.histAddIdx (splice h.histLines[h.histAddIdx] 0 (line ++ [0])) := by
      rw [← heq]
    rw [map_cons, hput]
    refine hk.holds.put lines_pos ?_ fun i hi => ?_
    · rw [length_map, ← hk.addIdx, getD_eq_getElem _ _ (by rw [length_set]; exact hlt),
        getElem_set_self]
      unfold splice
      rw [take_zero, nil_append, append_assoc]
      exact cstrAt_append (p := []) hnul
    · rw [length_map, ← hk.addIdx] at hi
      rw [getD_eq_getElem?_getD, List.getElem?_set_ne (Ne.symm hi), ← getD_eq_getElem?_getD]

/-- What `cread_line` takes a key for, after the sequence of keys that it may be the end of. -/
def Cread.pressed (s : Cread) (ichar : UInt8) : Option Key :=
  if isEnter ichar then none
  else
    match s.escSave with
    | [] => some (keyOf ichar)
    | [_] => none
    | _ => (escKey ichar).map keyOf

def Line.shown (l : Line) : List UInt8 := l.buf.take l.eolNum.toNat

/-- The lines entered so far, the latest first, and how many lines back the up and down keys are. -/
structure Recall where
  lines : List (List UInt8)
  pos : Nat

/-- A line counts as entered unless it is empty or begins with `!`. -/
def Recall.enter (r : Recall) (line : List UInt8) : Recall :=
  ⟨if line = [] ∨ line.head? = some creadHistChar then r.lines else line :: r.lines, 0⟩

def Recall.key (r : Recall) (s : Cread) (ichar : UInt8) : Recall :=
  if isEnter ichar then r.enter s.line.entered
  else
    match s.pressed ichar with
    | some .prev => ⟨r.lines, min (r.pos + 1) (reach histMaxLines r.lines.length)⟩
    | some .next => ⟨r.lines, r.pos - 1⟩
    | _ => r

def Recall.after (r : Recall) : Editor → EditorEvent → Recall
  | .idle _, .prompt _ => { r with pos := 0 }
  | .editing s, .key ichar => r.key s ichar
  | _, _ => r

def recallStep (complete : List UInt8 → Option (List UInt8)) (p : Editor × Recall) (ev : EditorEvent) :
    Option (Option Int × Editor × Recall) :=
  (editorStep complete p.1 ev).map fun t => (t.1, t.2, p.2.after p.1 ev)

/-- A prompt is not broken while an earlier line is shown. -/
def Recall.Leaves (r : Recall) : Editor → EditorEvent → Prop
  | .editing s, .key ichar => s.pressed ichar = some .brk → r.pos = 0
  | _, _ => True

instance (r : Recall) : ∀ (e : Editor) (ev : EditorEvent), Decidable (r.Leaves e ev)
  | .editing s, .key ichar => inferInstanceAs (Decidable (s.pressed ichar = some .brk → r.pos = 0))
  | .editing _, .prompt _ | .idle _, _ => .isTrue trivial

/-- What the up and down keys do at a prompt. -/
structure Recall.Right (complete : List UInt8 → Option (List UInt8)) (r : Recall) (s : Cread) : Prop where
  up : ∀ c, s.pressed c = some .prev → r.pos < min r.lines.length (histMaxLines - 1) →
    ∃ s', creadKey complete s c = some (.more s') ∧ s'.line.shown = r.lines.getD r.pos []
  oldest : ∀ c, s.pressed c = some .prev → ¬r.pos < min r.lines.length (histMaxLines - 1) →
    ∃ s', creadKey complete s c = some (.more s') ∧ s'.line = s.line
  down : ∀ c, s.pressed c = some .next → 0 < r.pos →
    ∃ s', creadKey complete s c = some (.more s') ∧ s'.line.shown = lineBack r.lines (r.pos - 1)

variable {cbsize : Nat} {s : Cread} {l : Line} {ichar : UInt8} {r : Recall}
  {complete : List UInt8 → Option (List UInt8)}

theorem recallLine_shown {l' : Line} {array w : List UInt8} (hrun : l.recallLine array = some l')
    (hw : cstrAt array 0 = some w) (hlen : w.length < 2 ^ 32) : l'.shown = w := by
  unfold Line.recallLine at hrun
  rw [hw, Option.bind_eq_bind, Option.bind_some] at hrun
  obtain ⟨buf, hbuf, hrun⟩ := Option.bind_eq_some_iff.mp hrun
  have hfit := storeAll_fits (append_ne_nil_of_right_ne_nil _ (cons_ne_nil _ _)) hbuf
  rw [storeAll_eq_splice hfit] at hbuf
  have hshown : ∀ num, Line.shown ⟨buf, num, UInt32.ofNat w.length⟩ = w := by
    intro num
    unfold Line.shown
    rw [← Option.some.inj hbuf, UInt32.toNat_ofNat_of_lt' hlen, splice, take_zero, nil_append,
      append_assoc, take_left' rfl]
  rw [← Option.some.inj hrun]
  unfold Line.refreshToEol
  split
  · exact hshown _
  · exact hshown _

variable (complete s ichar) in
theorem creadKey_cases : (isEnter ichar = true ∧ creadKey complete s ichar = creadFinish s) ∨
    (∃ c esc, isEnter ichar = false ∧ s.pressed ichar = some (keyOf c) ∧
      creadKey complete s ichar = creadSwitch complete { s with escSave := esc } c) ∨
    (isEnter ichar = false ∧ s.pressed ichar = none ∧ ∃ o : Option Line, ∃ esc,
      creadKey complete s ichar = o.map fun l => .more { s with line := l, escSave := esc }) := by
  unfold creadKey Cread.pressed
  by_cases henter : isEnter ichar
  · rw [if_pos henter]
    exact .inl ⟨henter, rfl⟩
  · rw [if_neg henter, if_neg henter]
    have hfalse : isEnter ichar = false := Bool.not_eq_true _ ▸ henter
    right
    obtain ⟨line, insert, escSave, hist⟩ := s
    cases escSave with
    | nil => exact .inl ⟨ichar, [], hfalse, rfl, rfl⟩
    | cons e rest =>
      cases rest with
      | nil =>
        refine .inr ⟨hfalse, rfl, ?_⟩
        dsimp only
        split
        · exact ⟨some line, [e, ichar], rfl⟩
        · exact ⟨_, [], rfl⟩
      | cons e' rest =>
        cases hkey : escKey ichar with
        | some c => exact .inl ⟨c, [], hfalse, rfl, rfl⟩
        | none => exact .inr ⟨hfalse, rfl, _, [], rfl⟩

theorem creadSwitch_hist {res : CreadResult} (hrun : creadSwitch complete s ichar = some res) :
    (keyOf ichar = .brk ∧ ∃ s', res = .done (-1) s' ∧ s'.hist = s.hist) ∨
      (keyOf ichar ≠ .brk ∧ ∃ s', res = .more s' ∧ s'.hist =
        if keyOf ichar = .prev then (histPrev s.hist).1 else if keyOf ichar = .next then (histNext s.hist).1
        else s.hist) := by
  have hmap : ∀ o : Option Line, o.map s.moved = some res → ∃ s', res = .more s' ∧ s'.hist = s.hist := by
    intro o ho
    obtain ⟨l, -, rfl⟩ := Option.map_eq_some_iff.mp ho
    exact ⟨_, rfl, rfl⟩
  have hrecalled : ∀ t, s.recalled t = some res → ∃ s', res = .more s' ∧ s'.hist = t.1 := by
    rintro ⟨hist, found⟩ ht
    cases found with
    | none => exact ⟨_, (Option.some.inj ht).symm, rfl⟩
    | some array =>
      obtain ⟨l, -, rfl⟩ := Option.map_eq_some_iff.mp ht
      exact ⟨_, rfl, rfl⟩
  unfold creadSwitch at hrun
  cases hkey : keyOf ichar <;> rw [hkey] at hrun <;> dsimp only at hrun
  case brk =>
    obtain ⟨buf, -, rfl⟩ := Option.map_eq_some_iff.mp hrun
    exact .inl ⟨rfl, _, rfl, rfl⟩
  case prev => exact .inr ⟨by decide, hrecalled _ hrun⟩
  case next => exact .inr ⟨by decide, hrecalled _ hrun⟩
  case delete => exact .inr ⟨by decide, hmap _ hrun⟩
  case backspace => exact .inr ⟨by decide, hmap _ hrun⟩
  case tab => exact .inr ⟨by decide, hmap _ hrun⟩
  case char => exact .inr ⟨by decide, hmap _ hrun⟩
  all_goals exact .inr ⟨by decide, _, (Option.some.inj hrun).symm, rfl⟩

theorem cstrAt_length {d w : List UInt8} (h : cstrAt d 0 = some w) : w.length ≤ d.length := by
  obtain ⟨e, -, hw⟩ := Option.bind_eq_some_iff.mp h
  rw [← Option.some.inj hw]
  exact length_take_le' _ _

theorem recalled_shown (hmin : maxCmdbufSize.toNat ≤ cbsize) (hin : s.Inside cbsize) {array w : List UInt8}
    (hrecalls : Recalls (h, some array)) (hline : cstrAt array 0 = some w) :
    ∃ s', s.recalled (h, some array) = some (.more s') ∧ s'.line.shown = w := by
  obtain ⟨hshort, hnul⟩ := hrecalls.2 array rfl
  obtain ⟨l, hl, _⟩ := hin.line.recallLine hmin hshort hnul
  have hlen := le_trans (cstrAt_length hline) hshort
  have hsize : histSize = 256 := rfl
  refine ⟨{ s with line := l, hist := h, escSave := [] }, ?_, recallLine_shown hl hline (by omega)⟩
  rw [Cread.recalled, hl]
  rfl

theorem prev_shown (complete : List UInt8 → Option (List UInt8)) (hmin : maxCmdbufSize.toNat ≤ cbsize)
    (hin : s.Inside cbsize) (hk : s.hist.Keeps lines pos) (hkey : keyOf ichar = .prev) :
    ∃ s', creadSwitch complete s ichar = some (.more s') ∧
      (pos < reach histMaxLines lines.length → s'.line.shown = lineBack lines (pos + 1)) ∧
      (¬pos < reach histMaxLines lines.length → s'.line = s.line) := by
  unfold creadSwitch
  rw [hkey]
  by_cases hpos : pos < reach histMaxLines lines.length
  · obtain ⟨h', array, hprev, hline, -⟩ := histPrev_keeps hk hpos
    obtain ⟨s', hrun, hshown⟩ := recalled_shown hmin hin (hprev ▸ histPrev_recalls hk.sound) hline
    rw [hprev]
    exact ⟨s', hrun, fun _ => hshown, fun h => absurd hpos h⟩
  · rw [histPrev_oldest hk hpos]
    exact ⟨_, rfl, fun h => absurd h hpos, fun _ => rfl⟩

theorem next_shown (complete : List UInt8 → Option (List UInt8)) (hmin : maxCmdbufSize.toNat ≤ cbsize)
    (hin : s.Inside cbsize) (hk : s.hist.Keeps lines (pos + 1)) (hkey : keyOf ichar = .next) :
    ∃ s', creadSwitch complete s ichar = some (.more s') ∧ s'.line.shown = lineBack lines pos := by
  obtain ⟨h', array, hnext, hline, -⟩ := histNext_keeps hk
  obtain ⟨s', hrun, hshown⟩ := recalled_shown hmin hin (hnext ▸ histNext_recalls hk.sound) hline
  refine ⟨s', ?_, hshown⟩
  unfold creadSwitch
  rw [hkey]
  rw [hnext]
  exact hrun

/-- The history keeps the lines of the record, and at a prompt it is where the record says. -/
def Recall.Tracks (r : Recall) : Editor → Prop
  | .idle h => h.Keeps r.lines 0
  | .editing s => s.hist.Keeps r.lines r.pos

theorem Recall.Tracks.right (complete : List UInt8 → Option (List UInt8)) (hmin : maxCmdbufSize.toNat ≤ cbsize)
    (hin : s.Inside cbsize) (hk : s.hist.Keeps r.lines r.pos) : r.Right complete s := by
  have hpressed : ∀ {c k}, s.pressed c = some k → ∃ d esc, keyOf d = k ∧
      creadKey complete s c = creadSwitch complete { s with escSave := esc } d := by
    intro c k hpress
    rcases creadKey_cases s c complete with
      ⟨henter, _⟩ | ⟨d, esc, _, hd, hrun⟩ | ⟨_, hnone, _⟩
    · rw [Cread.pressed, if_pos henter] at hpress
      cases hpress
    · exact ⟨d, esc, Option.some.inj (hd.symm.trans hpress), hrun⟩
    · cases hnone.symm.trans hpress
  have hesc : ∀ esc, Cread.Inside cbsize { s with escSave := esc } := fun _ => ⟨hin.line, hin.hist⟩
  refine ⟨fun c hc hpos => ?_, fun c hc hpos => ?_, fun c hc hpos => ?_⟩
  · obtain ⟨d, esc, hkey, hrun⟩ := hpressed hc
    obtain ⟨s', hs', hshown, -⟩ := prev_shown complete hmin (hesc esc) hk hkey
    exact ⟨s', hrun.trans hs', hshown hpos⟩
  · obtain ⟨d, esc, hkey, hrun⟩ := hpressed hc
    obtain ⟨s', hs', -, hsame⟩ := prev_shown complete hmin (hesc esc) hk hkey
    exact ⟨s', hrun.trans hs', hsame hpos⟩
  · obtain ⟨d, esc, hkey, hrun⟩ := hpressed hc
    obtain ⟨p, hp⟩ : ∃ p, r.pos = p + 1 := Nat.exists_eq_succ_of_ne_zero (by omega)
    rw [hp] at hk ⊢
    obtain ⟨s', hs', hshown⟩ := next_shown complete hmin (hesc esc) hk hkey
    exact ⟨s', hrun.trans hs', hshown⟩

theorem creadFinish_keeps (hk : s.hist.Keeps r.lines pos) (hfits : s.line.EnterFits) :
    ∃ rc s', creadFinish s = some (.done rc s') ∧ s'.hist.Keeps (r.enter s.line.entered).lines 0 := by
  obtain ⟨hlt, hline⟩ := hfits
  obtain ⟨hnul, t, hset⟩ := set_entered hlt
  have hhist : ∃ hist, creadHistory s.hist (s.line.entered ++ 0 :: t) = some hist ∧
      History.Keeps { hist with histCur := hist.histAddIdx } (r.enter s.line.entered).lines 0 := by
    rw [creadHistory_eq s.hist hnul]
    unfold Recall.enter
    split
    next hskip =>
      refine ⟨s.hist, rfl, hk.sound.setCur (Int.ofNat_lt.mpr hk.sound.addIdx), hk.addIdx, hk.max, hk.holds,
        Nat.zero_le _, .inl ?_⟩
      rw [hk.addIdx]
      rfl
    next hkept =>
      rw [not_or] at hkept
      exact creadAddToHist_keeps hk hnul ((hline.resolve_left hkept.1).resolve_left hkept.2)
  obtain ⟨hist, hrun, hkeeps⟩ := hhist
  refine ⟨s.line.eolNum.toNat, { s with
    line := { s.line with buf := s.line.entered ++ 0 :: t }
    hist := { hist with histCur := hist.histAddIdx } }, ?_, hkeeps⟩
  unfold creadFinish
  rw [store_some hlt, hset]
  simp only [Option.bind_eq_bind, Option.bind_some, hrun]
  rfl

theorem creadStart_hist {buf : List UInt8} {s : Cread} (h' : creadStart h buf = some s) : s.hist = h := by
  obtain ⟨init, -, h'⟩ := Option.bind_eq_some_iff.mp h'
  obtain ⟨line, -, h'⟩ := Option.bind_eq_some_iff.mp h'
  rw [← Option.some.inj h']

theorem creadSwitch_tracks {res : CreadResult} (hk : s.hist.Keeps r.lines r.pos) (henter : isEnter ichar = false)
    {c : UInt8} {esc : List UInt8} (hpress : s.pressed ichar = some (keyOf c))
    (hbrk : keyOf c = .brk → r.pos = 0)
    (hrun : creadSwitch complete { s with escSave := esc } c = some res) :
    (r.key s ichar).Tracks res.next.2 := by
  unfold Recall.key
  rw [henter, if_neg Bool.false_ne_true, hpress]
  rcases creadSwitch_hist hrun with ⟨hkey, s', rfl, hhist⟩ | ⟨hkey, s', rfl, hhist⟩
  · rw [hkey]
    show s'.hist.Keeps r.lines 0
    rw [hhist, ← hbrk hkey]
    exact hk
  · by_cases hprev : keyOf c = .prev
    · rw [if_pos hprev] at hhist
      rw [hprev]
      show s'.hist.Keeps r.lines (min (r.pos + 1) (reach histMaxLines r.lines.length))
      rw [hhist]
      by_cases hpos : r.pos < reach histMaxLines r.lines.length
      · obtain ⟨h', array, hrun, -, hkeeps⟩ := histPrev_keeps hk hpos
        rw [hrun, min_eq_left hpos]
        exact hkeeps
      · rw [histPrev_oldest hk hpos, min_eq_right (by omega), ← le_antisymm hk.back (not_lt.mp hpos)]
        exact hk
    · rw [if_neg hprev] at hhist
      by_cases hnext : keyOf c = .next
      · rw [if_pos hnext] at hhist
        rw [hnext]
        show s'.hist.Keeps r.lines (r.pos - 1)
        rw [hhist]
        obtain ⟨lines, pos⟩ := r
        cases pos with
        | zero =>
          rw [histNext_latest hk]
          exact hk
        | succ pos =>
          obtain ⟨h', array, hrun, -, hkeeps⟩ := histNext_keeps hk
          rw [hrun]
          exact hkeeps
      · rw [if_neg hnext] at hhist
        have hsame : s'.hist.Keeps r.lines r.pos := hhist ▸ hk
        split
        next h => exact absurd (Option.some.inj h) hprev
        next h => exact absurd (Option.some.inj h) hnext
        · exact hsame

variable (complete) in
theorem recallStep_tracks (hmin : maxCmdbufSize.toNat ≤ cbsize) (hsize : cbsize < 2 ^ 32) {e : Editor}
    {ev : EditorEvent} (hin : e.Inside cbsize) (hk : r.Tracks e) (hev : ev.Valid cbsize) (hfits : e.Fits ev)
    (hleaves : r.Leaves e ev) :
    ∃ rc e', recallStep complete (e, r) ev = some (rc, e', r.after e ev) ∧ e'.Inside cbsize ∧
      (r.after e ev).Tracks e' := by
  obtain ⟨rc, e', hstep, hin'⟩ : ∃ rc e', editorStep complete e ev = some (rc, e') ∧ e'.Inside cbsize :=
    editorStep_inside hmin hsize hin hev hfits
  refine ⟨rc, e', by rw [recallStep, hstep]; rfl, hin', ?_⟩
  cases e with
  | idle h =>
    cases ev with
    | prompt buffer =>
      obtain ⟨s, hs, heq⟩ := Option.map_eq_some_iff.mp hstep
      obtain ⟨-, rfl⟩ := Prod.mk.inj heq
      show s.hist.Keeps r.lines 0
      rw [creadStart_hist hs]
      exact hk
    | key ichar =>
      obtain ⟨-, rfl⟩ := Prod.mk.inj (Option.some.inj hstep)
      exact hk
  | editing s =>
    cases ev with
    | prompt buffer =>
      obtain ⟨-, rfl⟩ := Prod.mk.inj (Option.some.inj hstep)
      exact hk
    | key ichar =>
      obtain ⟨res, hrun, heq⟩ := Option.map_eq_some_iff.mp hstep
      obtain rfl : res.next.2 = e' := congrArg Prod.snd heq
      show (r.key s ichar).Tracks res.next.2
      rcases creadKey_cases s ichar complete with
        ⟨henter, hkey⟩ | ⟨c, esc, henter, hpress, hkey⟩ | ⟨henter, hpress, o, esc, hkey⟩
      · obtain ⟨rc', s', hdone, hkeeps⟩ := creadFinish_keeps (r := r) hk (hfits.1 henter)
        obtain rfl : res = .done rc' s' := Option.some.inj (hrun.symm.trans (hkey.trans hdone))
        unfold Recall.key
        rw [if_pos henter]
        exact hkeeps
      · exact creadSwitch_tracks hk henter hpress (fun hbrk => hleaves (hpress.trans (congrArg some hbrk)))
          (hkey.symm.trans hrun)
      · obtain ⟨l, -, rfl⟩ := Option.map_eq_some_iff.mp (hkey.symm.trans hrun)
        unfold Recall.key
        rw [henter, if_neg Bool.false_ne_true, hpress]
        exact hk

/-- In every run the up key goes back through the lines entered, the latest first, up to the oldest that is kept,
and the down key goes forth through the same lines. -/
theorem history_recall_ring (complete : List UInt8 → Option (List UInt8)) (hmin : maxCmdbufSize.toNat ≤ cbsize)
    (hsize : cbsize < 2 ^ 32) {events : List EditorEvent} (hvalid : ∀ ev ∈ events, ev.Valid cbsize)
    (hmeets : Meets (recallStep complete) (fun p ev => p.1.Fits ev ∧ p.2.Leaves p.1 ev) (.idle histInit, ⟨[], 0⟩)
      events) :
    ∃ answers e r, run (recallStep complete) (.idle histInit, ⟨[], 0⟩) events = some (answers, e, r) ∧
      ∀ s, e = .editing s → r.Right complete s := by
  obtain ⟨answers, ⟨e, r⟩, hrun, hin, hk⟩ := run_total (s := (Editor.idle histInit, (⟨[], 0⟩ : Recall)))
    (v := fun ev : EditorEvent => ev.Valid cbsize)
    (q := fun p : Editor × Recall => p.1.Inside cbsize ∧ p.2.Tracks p.1)
    (fun p ev hq hv hp => by
      obtain ⟨rc, e', hstep, hin', hk'⟩ := recallStep_tracks complete hmin hsize hq.1 hq.2 hv hp.1 hp.2
      exact ⟨rc, (e', _), hstep, hin', hk'⟩)
    ⟨histInit_sound, histInit_keeps⟩ hvalid hmeets
  refine ⟨answers, e, r, hrun, ?_⟩
  rintro s rfl
  exact Recall.Tracks.right complete hmin hin hk

/-- `x` and `y` are entered, a prompt is broken, and at the next one the up key is pressed twice and the down key
once. -/
def twoLines : List EditorEvent :=
  [.prompt (List.replicate 256 0), .key 120, .key 13, .prompt (List.replicate 256 0), .key 121, .key 13,
    .prompt (List.replicate 256 0), .key 3, .prompt (List.replicate 256 0), .key 16, .key 16, .key 14]

/-- The up key then shows `x` and the down key the empty line. -/
theorem history_recall_ring_lines : ∃ answers s r,
    run (recallStep fun _ => none) (.idle histInit, ⟨[], 0⟩) twoLines = some (answers, .editing s, r) ∧
      (∃ s', creadKey (fun _ => none) s 16 = some (.more s') ∧ s'.line.shown = [120]) ∧
      ∃ s', creadKey (fun _ => none) s 14 = some (.more s') ∧ s'.line.shown = [] := by
  obtain ⟨answers, e, r, hrun, hright⟩ := history_recall_ring (fun _ => none) (le_refl 256) (by decide)
    (by decide +kernel : ∀ ev ∈ twoLines, ev.Valid 256) (by decide +kernel)
  have hend : ((run (recallStep fun _ => none) (.idle histInit, ⟨[], 0⟩) twoLines).any fun t =>
      match t.2.1 with
      | .editing s => s.pressed 16 = some .prev ∧ s.pressed 14 = some .next ∧ t.2.2.lines = [[121], [120]] ∧
          t.2.2.pos = 1
      | .idle _ => false) = true := by decide +kernel
  rw [hrun] at hend
  cases e with
  | idle h => cases hend
  | editing s =>
    obtain ⟨hup, hdown, hlines, hpos⟩ := of_decide_eq_true hend
    have hkeys := hright s rfl
    have hprev := hkeys.up 16 hup
    have hnext := hkeys.down 14 hdown
    rw [hlines, hpos] at hprev hnext
    exact ⟨answers, s, r, hrun, hprev (by decide), hnext (by decide)⟩

/-- What is shown after the keys of a run. -/
def shownAfter (events : List EditorEvent) : Option (List UInt8) :=
  match run (editorStep fun _ => none) (.idle histInit) events with
  | some (_, .editing s) => some s.line.shown
  | _ => none

/-- `x` is entered, `a` is typed at the next prompt: up and down leave an empty line in its place. -/
theorem typed_line_not_restored :
    shownAfter [.prompt (List.replicate 256 0), .key 120, .key 13, .prompt (List.replicate 256 0), .key 97] =
        some [97] ∧
      shownAfter [.prompt (List.replicate 256 0), .key 120, .key 13, .prompt (List.replicate 256 0), .key 97,
        .key 16, .key 14] = some [] := by
  decide +kernel

end UBoot
