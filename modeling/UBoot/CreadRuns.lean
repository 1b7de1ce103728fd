import Mathlib.Data.List.GetD
import UBoot.CreadHolds
import UBoot.Runs

namespace UBoot

open Cells CursorText List Runs

/-- Twenty slots, each with a string in it. -/
structure History.Sound (h : History) : Prop where
  slots : h.histLines.length = histMaxLines
  strings : ∀ slot ∈ h.histLines, slot.length = histSize ∧ (0 : UInt8) ∈ slot
  max : h.histMax < histMaxLines
  addIdx : h.histAddIdx < histMaxLines
  cur : h.histCur < histMaxLines

variable {cbsize : Nat} {h : History} {s : Cread} {l : Line} {ichar : UInt8}
  {complete : List UInt8 → Option (List UInt8)}

theorem histInit_sound : histInit.Sound := by
  refine ⟨length_replicate, fun slot hslot => ?_, by decide, by decide, by decide⟩
  rw [eq_of_mem_replicate hslot]
  refine ⟨length_replicate, ?_⟩
  rw [mem_replicate]
  exact ⟨by decide, rfl⟩

/-- What `hist_prev` and `hist_next` leave, and the array they point to. -/
def Recalls (r : History × Option (List UInt8)) : Prop :=
  r.1.Sound ∧ ∀ slot, r.2 = some slot → slot.length ≤ histSize ∧ (0 : UInt8) ∈ slot

theorem recalls_none (hs : h.Sound) : Recalls (h, none) := ⟨hs, nofun⟩

theorem History.Sound.setCur (hs : h.Sound) {cur : Int} (hcur : cur < histMaxLines) :
    History.Sound { h with histCur := cur } := ⟨hs.slots, hs.strings, hs.max, hs.addIdx, hcur⟩

theorem History.Sound.current (hs : h.Sound) : h.current.length ≤ histSize ∧ (0 : UInt8) ∈ h.current := by
  have hlen := hs.slots
  have hcur := hs.cur
  have hlines : histMaxLines = 20 := rfl
  have hlt : h.histCur.toNat < h.histLines.length := by omega
  have hmem : h.current ∈ h.histLines := by
    rw [History.current, getD_eq_getElem _ _ hlt]
    exact getElem_mem hlt
  obtain ⟨hsize, hnul⟩ := hs.strings _ hmem
  exact ⟨le_of_eq hsize, hnul⟩

theorem History.Sound.before (hs : h.Sound) : h.before < histMaxLines := by
  have hmax := hs.max
  have hcur := hs.cur
  unfold History.before
  split <;> omega

theorem History.Sound.after (hs : h.Sound) : h.after < histMaxLines := by
  have hmax := hs.max
  unfold History.after
  split <;> omega

theorem histPrev_recalls (hs : h.Sound) : Recalls (histPrev h) := by
  unfold histPrev
  split
  · exact recalls_none hs
  · split
    · exact recalls_none hs
    · refine ⟨hs.setCur hs.before, fun slot hslot => ?_⟩
      cases Option.some.inj hslot
      exact (hs.setCur hs.before).current

theorem histNext_recalls (hs : h.Sound) : Recalls (histNext h) := by
  unfold histNext
  split
  · exact recalls_none hs
  · split
    · exact recalls_none hs
    · refine ⟨hs.setCur hs.after, fun slot hslot => ?_⟩
      cases Option.some.inj hslot
      split
      · exact ⟨Nat.succ_le_succ (Nat.zero_le 255), mem_singleton.mpr rfl⟩
      · exact (hs.setCur hs.after).current

theorem creadAddToHist_sound (hs : h.Sound) {line : List UInt8} (hshort : line.length < histSize) :
    ∃ h', creadAddToHist h line = some h' ∧ h'.Sound := by
  have hlt : h.histAddIdx < h.histLines.length := by
    rw [hs.slots]
    exact hs.addIdx
  obtain ⟨hsize, _⟩ := hs.strings _ (getElem_mem hlt)
  have hfit : 0 + (line ++ [0]).length ≤ h.histLines[h.histAddIdx].length := by
    rw [hsize, length_append, length_singleton]
    omega
  have hstored := storeAll_eq_splice hfit
  have hslots := hs.slots
  have hmax := hs.max
  obtain ⟨idx, hidx⟩ : ∃ idx, idx =
    if histMaxLines ≤ h.histAddIdx + 1 then 0 else h.histAddIdx + 1 := ⟨_, rfl⟩
  have hidxLt : idx < histMaxLines := by
    rw [hidx]
    split <;> omega
  refine ⟨{ h with
    histLines := h.histLines.set h.histAddIdx (splice h.histLines[h.histAddIdx] 0 (line ++ [0]))
    histAddIdx := idx
    histMax := if h.histMax < idx then idx else h.histMax
    histNum := h.histNum + 1 }, ?_, ?_⟩
  · unfold creadAddToHist
    rw [List.getElem?_eq_getElem hlt]
    simp only [Option.bind_eq_bind, Option.bind_some, hstored, ← hidx]
    rfl
  · refine ⟨length_set.trans hslots, fun slot hslot => ?_, ?_, hidxLt, hs.cur⟩
    · rcases mem_or_eq_of_mem_set hslot with hold | rfl
      · exact hs.strings slot hold
      · refine ⟨(splice_length hfit).trans hsize, ?_⟩
        simp [splice]
    · change (if h.histMax < idx then idx else h.histMax) < histMaxLines
      split <;> omega

theorem creadAddToHist_none (hs : h.Sound) {line : List UInt8} (hlong : ¬line.length < histSize) :
    creadAddToHist h line = none := by
  have hlt : h.histAddIdx < h.histLines.length := by
    rw [hs.slots]
    exact hs.addIdx
  obtain ⟨hsize, _⟩ := hs.strings _ (getElem_mem hlt)
  have hout : storeAll h.histLines[h.histAddIdx] 0 (line ++ [0]) = none := by
    by_contra hsome
    obtain ⟨e, he⟩ := Option.ne_none_iff_exists'.mp hsome
    have hfit := storeAll_fits (by simp) he
    rw [hsize, length_append, length_singleton] at hfit
    omega
  unfold creadAddToHist
  rw [List.getElem?_eq_getElem hlt]
  simp only [Option.bind_eq_bind, Option.bind_some, hout]
  rfl

/-- What `strcpy` takes from the buffer when the line is entered. -/
def Line.entered (l : Line) : List UInt8 := (l.buf.take l.eolNum.toNat).takeWhile (· ≠ 0)

/-- The NUL behind the line is in the buffer, and a line for the history fits into a slot. -/
def Line.EnterFits (l : Line) : Prop :=
  l.eolNum.toNat < l.buf.length ∧
    (l.entered = [] ∨ l.entered.head? = some creadHistChar ∨ l.entered.length < histSize)

instance (l : Line) : Decidable l.EnterFits := inferInstanceAs (Decidable (_ ∧ _))

theorem set_entered (hlt : l.eolNum.toNat < l.buf.length) :
    (0 : UInt8) ∉ l.entered ∧ ∃ t, l.buf.set l.eolNum.toNat 0 = l.entered ++ 0 :: t := by
  rw [set_eq_take_append_cons_drop, if_pos hlt]
  exact takeWhile_nul _ _

theorem creadHistory_eq (h : History) {e : List UInt8} (hnul : (0 : UInt8) ∉ e) (t : List UInt8) :
    creadHistory h (e ++ 0 :: t) =
      if e = [] ∨ e.head? = some creadHistChar then some h else creadAddToHist h e := by
  have hcstr : cstrAt (e ++ 0 :: t) 0 = some e := cstrAt_append (p := []) hnul
  unfold creadHistory
  cases e with
  | nil => rfl
  | cons c cs =>
    have hc : c ≠ 0 := fun h0 => hnul (by rw [h0]; exact mem_cons_self)
    have hfirst : (c :: cs ++ 0 :: t)[0]? = some c := rfl
    rw [hfirst, hcstr]
    simp only [Option.bind_eq_bind, Option.bind_some]
    by_cases hbang : c = creadHistChar
    · have hskip : c :: cs = [] ∨ (c :: cs).head? = some creadHistChar := .inr (congrArg some hbang)
      rw [if_neg fun hboth => hboth.2 hbang, if_pos hskip]
      rfl
    · have hkept : ¬(c :: cs = [] ∨ (c :: cs).head? = some creadHistChar) := by
        rintro (hnil | hhead)
        · cases hnil
        · exact hbang (Option.some.inj hhead)
      rw [if_pos ⟨hc, hbang⟩, if_neg hkept]

theorem creadFinish_sound (hs : s.hist.Sound) (hfits : s.line.EnterFits) :
    ∃ rc s', creadFinish s = some (.done rc s') ∧ s'.hist.Sound := by
  obtain ⟨hlt, hline⟩ := hfits
  obtain ⟨hnul, t, hset⟩ := set_entered hlt
  have hhist : ∃ hist, creadHistory s.hist (s.line.entered ++ 0 :: t) = some hist ∧ hist.Sound := by
    rw [creadHistory_eq s.hist hnul]
    split
    · exact ⟨s.hist, rfl, hs⟩
    next hkept =>
      rw [not_or] at hkept
      exact creadAddToHist_sound hs ((hline.resolve_left hkept.1).resolve_left hkept.2)
  obtain ⟨hist, hrun, hsound⟩ := hhist
  have haddIdx : (hist.histAddIdx : Int) < histMaxLines := Int.ofNat_lt.mpr hsound.addIdx
  refine ⟨s.line.eolNum.toNat, { s with
    line := { s.line with buf := s.line.entered ++ 0 :: t }
    hist := { hist with histCur := hist.histAddIdx } }, ?_, hsound.setCur haddIdx⟩
  unfold creadFinish
  rw [store_some hlt, hset]
  simp only [Option.bind_eq_bind, Option.bind_some, hrun]
  rfl

theorem creadFinish_none (hs : s.hist.Sound) (hfits : ¬s.line.EnterFits) : creadFinish s = none := by
  by_cases hlt : s.line.eolNum.toNat < s.line.buf.length
  · obtain ⟨hnul, t, hset⟩ := set_entered hlt
    have hline : ¬(s.line.entered = [] ∨ s.line.entered.head? = some creadHistChar) ∧
        ¬s.line.entered.length < histSize := by
      have hbad := fun hline => hfits ⟨hlt, hline⟩
      exact ⟨fun hskip => hbad (or_assoc.mp (.inl hskip)), fun hshort => hbad (.inr (.inr hshort))⟩
    unfold creadFinish
    rw [store_some hlt, hset]
    simp only [Option.bind_eq_bind, Option.bind_some]
    rw [creadHistory_eq s.hist hnul, if_neg hline.1, creadAddToHist_none hs hline.2]
    rfl
  · have hout : store s.line.buf s.line.eolNum.toNat 0 = none := if_neg hlt
    unfold creadFinish
    rw [hout]
    rfl

/-- The line is inside of the buffer, and the history inside of its slots. -/
structure Cread.Inside (cbsize : Nat) (s : Cread) : Prop where
  line : s.line.Inside cbsize
  hist : s.hist.Sound

def CreadResult.Inside (cbsize : Nat) : CreadResult → Prop
  | .more s => s.Inside cbsize
  | .done _ s => s.hist.Sound

theorem Cread.Inside.recalled (hmin : maxCmdbufSize.toNat ≤ cbsize) (h : s.Inside cbsize)
    {r : History × Option (List UInt8)} (hr : Recalls r) :
    ∃ res, s.recalled r = some res ∧ res.Inside cbsize := by
  obtain ⟨hist, found⟩ := r
  obtain ⟨hsound, hslot⟩ := hr
  cases found with
  | none => exact ⟨_, rfl, h.line, hsound⟩
  | some slot =>
    obtain ⟨hshort, hnul⟩ := hslot slot rfl
    obtain ⟨l, hl, hin⟩ := h.line.recallLine hmin hshort hnul
    refine ⟨.more { s with line := l, hist := hist, escSave := [] }, ?_, hin, hsound⟩
    rw [Cread.recalled, hl]
    rfl

theorem Cread.Inside.moved (h : s.Inside cbsize) (hl : l.Inside cbsize) : (s.moved l).Inside cbsize :=
  ⟨hl, h.hist⟩

theorem creadSwitch_inside (hmin : maxCmdbufSize.toNat ≤ cbsize) (hsize : cbsize < 2 ^ 32)
    (h : s.Inside cbsize)
    (htab : keyOf ichar = .tab → s.line.num < s.line.eolNum ∨ s.line.eolNum.toNat < cbsize) :
    ∃ r, creadSwitch complete s ichar = some r ∧ r.Inside cbsize := by
  have hline := h.line
  have hmap : ∀ {o : Option Line}, (∃ l, o = some l ∧ l.Inside cbsize) →
      ∃ r, o.map s.moved = some r ∧ r.Inside cbsize := by
    rintro _ ⟨l, rfl, hl⟩
    exact ⟨_, rfl, h.moved hl⟩
  unfold creadSwitch
  cases hkey : keyOf ichar with
  | esc => exact ⟨_, rfl, hline, h.hist⟩
  | home => exact ⟨_, rfl, h.moved hline.home⟩
  | brk =>
    have hpos : 0 < s.line.buf.length := by
      have hmax : maxCmdbufSize.toNat = 256 := by decide
      rw [hline.length]
      omega
    rw [store_some hpos]
    exact ⟨_, rfl, h.hist⟩
  | right => exact ⟨_, rfl, h.moved hline.right⟩
  | left => exact ⟨_, rfl, h.moved hline.left⟩
  | delete => exact hmap hline.del
  | eraseToEol => exact ⟨_, rfl, h.moved hline.eraseToEol⟩
  | toEol => exact ⟨_, rfl, h.moved hline.refreshToEol⟩
  | overwrite => exact ⟨_, rfl, hline, h.hist⟩
  | eraseLine => exact ⟨_, rfl, h.moved hline.home.eraseToEol⟩
  | backspace => exact hmap hline.back
  | prev => exact h.recalled hmin (histPrev_recalls h.hist)
  | next => exact h.recalled hmin (histNext_recalls h.hist)
  | tab => exact hmap (hline.complete hsize complete (htab hkey))
  | char => exact hmap (creadAddChar_inside hmin hline ichar s.insert)

/-- The key finishes no line that does not fit, and asks for no completion of one without a place
for its NUL. -/
def Cread.KeyFits (s : Cread) (ichar : UInt8) : Prop :=
  (isEnter ichar → s.line.EnterFits) ∧ (s.escSave = [] → keyOf ichar = .tab →
      s.line.num < s.line.eolNum ∨ s.line.eolNum.toNat < s.line.buf.length)

instance (s : Cread) (ichar : UInt8) : Decidable (s.KeyFits ichar) := inferInstanceAs (Decidable (_ ∧ _))

theorem escKey_not_tab {c : UInt8} (h : escKey ichar = some c) : keyOf c ≠ .tab := by
  unfold escKey at h
  repeat' split at h
  all_goals cases h
  all_goals decide

theorem creadKey_inside (hmin : maxCmdbufSize.toNat ≤ cbsize) (hsize : cbsize < 2 ^ 32)
    (h : s.Inside cbsize) (hfits : s.KeyFits ichar) :
    ∃ r, creadKey complete s ichar = some r ∧ r.Inside cbsize := by
  obtain ⟨henter, htab⟩ := hfits
  rw [h.line.length] at htab
  have hadded : ∀ str, ∃ r, (creadAddStr str s.insert maxCmdbufSize s.line).map
      (fun l => CreadResult.more { s with line := l, escSave := [] }) = some r ∧ r.Inside cbsize := by
    intro str
    obtain ⟨l, hl, hin⟩ := creadAddStr_inside hmin h.line str s.insert
    exact ⟨_, congrArg _ hl, hin, h.hist⟩
  unfold creadKey
  split
  next hkey =>
    obtain ⟨rc, s', hrun, hsound⟩ := creadFinish_sound h.hist (henter hkey)
    exact ⟨_, hrun, hsound⟩
  · split
    next hesc => exact creadSwitch_inside hmin hsize h (htab hesc)
    · split
      · exact ⟨_, rfl, h.line, h.hist⟩
      · exact hadded _
    · split
      next c hc =>
        have hcleared : Cread.Inside cbsize { s with escSave := [] } := ⟨h.line, h.hist⟩
        exact creadSwitch_inside hmin hsize hcleared fun ht => absurd ht (escKey_not_tab hc)
      · exact hadded _

theorem creadKey_none (h : s.Inside cbsize) (hfits : ¬s.KeyFits ichar) :
    creadKey complete s ichar = none := by
  unfold creadKey
  by_cases hkey : isEnter ichar
  · have hnotTab : keyOf ichar ≠ .tab := by
      unfold isEnter at hkey
      rcases (Bool.or_eq_true _ _).mp hkey with hc | hc <;> rw [of_decide_eq_true hc] <;> decide
    rw [if_pos hkey]
    exact creadFinish_none h.hist fun hline => hfits ⟨fun _ => hline, fun _ ht => absurd ht hnotTab⟩
  · rw [if_neg hkey]
    have htab : s.escSave = [] ∧ keyOf ichar = .tab ∧
        ¬(s.line.num < s.line.eolNum ∨ s.line.eolNum.toNat < s.line.buf.length) := by
      by_contra hno
      refine hfits ⟨fun he => absurd he hkey, fun hesc ht => ?_⟩
      by_contra hfull
      exact hno ⟨hesc, ht, hfull⟩
    obtain ⟨hesc, ht, hfull⟩ := htab
    rw [not_or, h.line.length] at hfull
    rw [hesc]
    rw [creadSwitch, ht]
    rw [h.line.complete_none complete hfull.1 hfull.2]
    rfl

theorem creadStart_inside (hmin : maxCmdbufSize.toNat ≤ cbsize) (hs : h.Sound) {buf : List UInt8}
    (hlen : buf.length = cbsize) (hnul : (0 : UInt8) ∈ buf) :
    ∃ s, creadStart h buf = some s ∧ s.Inside cbsize := by
  obtain ⟨i, hi⟩ := mem_iff_getElem?.mp hnul
  obtain ⟨init, t, hinit, hsplit, _, _⟩ := cstrAt_of_nul hi
  have hbound : init.length ≤ cbsize := by
    have hparts := congrArg List.length hsplit
    rw [length_append] at hparts
    omega
  have hempty : Line.Inside cbsize ⟨buf, 0, 0⟩ := ⟨hlen, UInt32.le_refl _, Nat.zero_le _⟩
  obtain ⟨l, hl, hin⟩ := creadAddBuf_inside hmin hempty hbound
  refine ⟨⟨l, true, [], h⟩, ?_, hin, hs⟩
  unfold creadStart
  rw [hinit]
  simp only [Option.bind_eq_bind, Option.bind_some, hl]
  rfl

/-- Between two prompts, or at one. -/
inductive Editor where
  | idle (hist : History)
  | editing (s : Cread)

inductive EditorEvent where
  | prompt (buffer : List UInt8)
  | key (ichar : UInt8)

def CreadResult.next : CreadResult → Option Int × Editor
  | .more s => (none, .editing s)
  | .done rc s => (some rc, .idle s.hist)

/-- A prompt is answered key by key. Nobody reads a key between two prompts. -/
def editorStep (complete : List UInt8 → Option (List UInt8)) :
    Editor → EditorEvent → Option (Option Int × Editor)
  | .idle hist, .prompt buffer => (creadStart hist buffer).map fun s => (none, .editing s)
  | .editing s, .key ichar => (creadKey complete s ichar).map CreadResult.next
  | e, _ => some (none, e)

def Editor.Inside (cbsize : Nat) : Editor → Prop
  | .idle hist => hist.Sound
  | .editing s => s.Inside cbsize

def Editor.Fits : Editor → EditorEvent → Prop
  | .editing s, .key ichar => s.KeyFits ichar
  | _, _ => True

/-- The buffer of a prompt is one of `CONFIG_SYS_CBSIZE` bytes with a string in it. -/
def EditorEvent.Valid (cbsize : Nat) : EditorEvent → Prop
  | .prompt buffer => buffer.length = cbsize ∧ (0 : UInt8) ∈ buffer
  | .key _ => True

instance : ∀ (e : Editor) (ev : EditorEvent), Decidable (e.Fits ev)
  | .editing s, .key ichar => inferInstanceAs (Decidable (s.KeyFits ichar))
  | .editing _, .prompt _ | .idle _, _ => .isTrue trivial

instance (cbsize : Nat) : ∀ ev : EditorEvent, Decidable (ev.Valid cbsize)
  | .prompt buffer => inferInstanceAs (Decidable (buffer.length = cbsize ∧ _))
  | .key _ => .isTrue trivial

theorem CreadResult.Inside.next {r : CreadResult} (hr : r.Inside cbsize) : r.next.2.Inside cbsize := by
  cases r with
  | more s => exact hr
  | done rc s => exact hr

theorem editorStep_inside (hmin : maxCmdbufSize.toNat ≤ cbsize) (hsize : cbsize < 2 ^ 32) {e : Editor}
    {ev : EditorEvent} (he : e.Inside cbsize) (hev : ev.Valid cbsize) (hfits : e.Fits ev) :
    ∃ rc e', editorStep complete e ev = some (rc, e') ∧ e'.Inside cbsize := by
  cases e with
  | idle hist =>
    cases ev with
    | prompt buffer =>
      obtain ⟨s, hs, hin⟩ := creadStart_inside hmin he hev.1 hev.2
      refine ⟨none, .editing s, ?_, hin⟩
      rw [editorStep, hs]
      rfl
    | key ichar => exact ⟨none, _, rfl, he⟩
  | editing s =>
    cases ev with
    | prompt buffer => exact ⟨none, _, rfl, he⟩
    | key ichar =>
      obtain ⟨r, hr, hin⟩ := creadKey_inside hmin hsize he hfits
      refine ⟨r.next.1, r.next.2, ?_, hin.next⟩
      rw [editorStep, hr]
      rfl

theorem editorStep_none {e : Editor} {ev : EditorEvent} (he : e.Inside cbsize) (hfits : ¬e.Fits ev) :
    editorStep complete e ev = none := by
  cases e with
  | idle hist => cases ev <;> exact absurd trivial hfits
  | editing s =>
    cases ev with
    | prompt buffer => exact absurd trivial hfits
    | key ichar =>
      rw [editorStep, creadKey_none he hfits]
      rfl

/-- Every write of the line editor is inside of its buffers, with the cursor in the line, exactly
when no key finishes or completes a line that has no place for its NUL. -/
theorem cread_line_inside_iff (complete : List UInt8 → Option (List UInt8))
    (hmin : maxCmdbufSize.toNat ≤ cbsize) (hsize : cbsize < 2 ^ 32) {events : List EditorEvent}
    (hvalid : ∀ ev ∈ events, ev.Valid cbsize) :
    (∃ answers e, run (editorStep complete) (.idle histInit) events = some (answers, e) ∧
      e.Inside cbsize) ↔ Meets (editorStep complete) Editor.Fits (.idle histInit) events := by
  refine run_inside_iff ?_ ?_ histInit_sound hvalid
  · exact fun e ev he hev => editorStep_inside hmin hsize he hev
  · exact fun e ev he => editorStep_none he

theorem cread_line_inside_iff_short : (∃ answers e, run (editorStep fun _ => none) (.idle histInit)
      [.prompt (List.replicate 256 0), .key 97, .key 13] = some (answers, e) ∧ e.Inside 256) ↔
    Meets (editorStep fun _ => none) Editor.Fits (.idle histInit)
      [.prompt (List.replicate 256 0), .key 97, .key 13] := by
  refine cread_line_inside_iff _ (by decide) (by decide) fun ev hev => ?_
  rcases mem_cons.mp hev with rfl | hev
  · exact ⟨length_replicate, mem_replicate.mpr ⟨by decide, rfl⟩⟩
  · rcases mem_cons.mp hev with rfl | hev
    · trivial
    · cases mem_singleton.mp hev
      trivial

theorem full_line_none {t : Text UInt8} {n : Nat} (hl : l.Holds 256 t) (hroom : t.text.length + n = 256) :
    run (editorStep complete) (.editing ⟨l, true, [], h⟩)
      (List.replicate n (.key 97) ++ [.key 13]) = none := by
  have hmax : maxCmdbufSize.toNat = 256 := by decide
  induction n generalizing l t with
  | zero =>
    have hout : store l.buf l.eolNum.toNat 0 = none := if_neg (by rw [hl.length, hl.eol]; omega)
    have hkey : editorStep complete (.editing ⟨l, true, [], h⟩) (.key 13) = none := by
      rw [editorStep, creadKey, if_pos (by decide), creadFinish]
      rw [hout]
      rfl
    exact run_head_none hkey
  | succ n ih =>
    obtain ⟨l', hadd, hl'⟩ := hl.addChar (le_of_eq hmax) (by omega) 97 true
    have hkey : editorStep complete (.editing ⟨l, true, [], h⟩) (.key 97) =
        some (none, .editing ⟨l', true, [], h⟩) := by
      have hchar : keyOf 97 = .char := by decide
      rw [editorStep, creadKey, if_neg (by decide)]
      rw [creadSwitch, hchar]
      rw [hadd]
      rfl
    have hlen := t.length_insert 97
    exact run_tail_none hkey (ih hl' (by rw [Text.typed_inserts (.inl rfl)]; omega))

theorem enter_at_full_line : run (editorStep fun _ => none) (.idle histInit)
      (.prompt (List.replicate 256 0) :: (List.replicate 256 (.key 97) ++ [.key 13])) = none := by
  have hstart : editorStep (fun _ => none) (.idle histInit) (.prompt (List.replicate 256 0)) =
      some (none, .editing ⟨⟨List.replicate 256 0, 0, 0⟩, true, [], histInit⟩) := by
    have hnil : cstrAt (List.replicate 256 0) 0 = some [] := by
      rw [replicate_succ]
      exact cstrAt_append (p := []) not_mem_nil
    rw [editorStep, creadStart, hnil]
    rfl
  have hempty : Line.Holds 256 ⟨List.replicate 256 0, 0, 0⟩ (.whole []) :=
    ⟨length_replicate, nil_prefix, rfl, rfl⟩
  exact run_tail_none hstart (full_line_none hempty rfl)

end UBoot
