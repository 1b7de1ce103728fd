import Mathlib.Data.List.TakeWhile
import UBoot.CreadLine
import UBoot.CursorText

namespace UBoot

open Cells CursorText List

theorem store_some {d : List UInt8} {i : Nat} (h : i < d.length) (x : UInt8) :
    store d i x = some (d.set i x) := if_pos h

theorem memmove_up (a b : List UInt8) (y : UInt8) (rest : List UInt8) :
    ∃ z, memmove (a ++ b ++ y :: rest) (a.length + 1) a.length b.length = some (a ++ z :: (b ++ rest)) := by
  obtain ⟨z, b', hz⟩ : ∃ z b', b ++ [y] = z :: b' := exists_cons_of_ne_nil (by simp)
  have hlen : b'.length = b.length := by
    have := congrArg List.length hz
    simpa using this.symm
  have hbuf : a ++ b ++ y :: rest = (a ++ [z]) ++ b' ++ rest := by
    calc a ++ b ++ y :: rest = a ++ (b ++ [y]) ++ rest := by simp
      _ = (a ++ [z]) ++ b' ++ rest := by simp [hz]
  have hmoved : ((a ++ b ++ y :: rest).drop a.length).take b.length = b := by
    rw [append_assoc, drop_left, take_left]
  refine ⟨z, ?_⟩
  unfold memmove
  rw [if_pos (by simp), hmoved, hbuf]
  have hplace : a.length + 1 = (a ++ [z]).length := by simp
  rw [hplace, storeAll_at hlen]
  simp

theorem memmove_down (a : List UInt8) (x : UInt8) (b rest : List UInt8) :
    ∃ z, memmove (a ++ x :: b ++ rest) a.length (a.length + 1) b.length = some (a ++ b ++ z :: rest) := by
  obtain ⟨b', z, hz⟩ : ∃ b' z, x :: b = b' ++ [z] :=
    ⟨_, _, (dropLast_append_getLast (cons_ne_nil x b)).symm⟩
  have hlen : b'.length = b.length := by
    have := congrArg List.length hz
    simpa using this.symm
  have hmoved : ((a ++ x :: b ++ rest).drop (a.length + 1)).take b.length = b := by
    rw [← drop_drop, append_assoc, drop_left]
    exact take_left
  have hbuf : a ++ x :: b ++ rest = a ++ b' ++ z :: rest := by
    rw [hz]
    simp
  refine ⟨z, ?_⟩
  unfold memmove
  rw [if_pos (by simp; omega), hmoved, hbuf, storeAll_at hlen]

/-- The buffer begins with the text, and the two counters are the cursor and its length. -/
structure Line.Holds (cbsize : Nat) (l : Line) (t : Text UInt8) : Prop where
  length : l.buf.length = cbsize
  text : t.text <+: l.buf
  cursor : l.num.toNat = t.cursor
  eol : l.eolNum.toNat = t.text.length

/-- What a completion makes of a text. The string in it goes on with what is appended, and has a NUL behind it. -/
structure Completed (text appended text' : List UInt8) : Prop where
  length : text'.length = text.length + appended.length
  begins : text.takeWhile (· ≠ 0) ++ appended ++ [0] <+: text' ++ [0]

/-- What the tab key appends. There is no completion within a line, and none that comes near the end of the buffer. -/
def completion (complete : List UInt8 → Option (List UInt8)) (cbsize : Nat) (t : Text UInt8) :
    Option (List UInt8) :=
  if t.cursor < t.text.length then none
  else (complete (t.text.takeWhile (· ≠ 0))).filter fun s => t.text.length + s.length < cbsize - 2

theorem completed_take {text s q : List UInt8} {size : Nat}
    (hle : (text.takeWhile (· ≠ 0)).length ≤ text.length)
    (hlen : (text.takeWhile (· ≠ 0) ++ s ++ [0] ++ q).length = size) (hfit : text.length + s.length < size) :
    Completed text s ((text.takeWhile (· ≠ 0) ++ s ++ [0] ++ q).take (text.length + s.length)) := by
  refine ⟨length_take_of_le (by omega), ?_⟩
  rcases Nat.lt_or_eq_of_le hle with hlt | heq
  · have hbegins : (text.takeWhile (· ≠ 0) ++ s ++ [0]).length ≤ text.length + s.length := by
      simp only [length_append, length_singleton]
      omega
    exact (prefix_take_iff.mpr ⟨prefix_append _ _, hbegins⟩).trans (prefix_append _ _)
  · have hexact : (text.takeWhile (· ≠ 0) ++ s).length = text.length + s.length := by
      rw [length_append, heq]
    exact ⟨[], by rw [append_nil, append_assoc _ [0] q, take_left' hexact]⟩

variable {cbsize : Nat} {l : Line} {t : Text UInt8}

namespace Line.Holds

theorem fits (h : l.Holds cbsize t) : t.text.length ≤ cbsize := by
  rw [← h.length]
  exact h.text.length_le

theorem room (h : l.Holds cbsize t) (hlt : t.text.length < cbsize) :
    ∃ y rest, l.buf = t.text ++ y :: rest := by
  obtain ⟨rest, hrest⟩ := h.text
  have hlen := h.length
  cases rest with
  | nil =>
    rw [← hrest, append_nil] at hlen
    omega
  | cons y rest => exact ⟨y, rest, hrest.symm⟩

theorem num_eq (h : l.Holds cbsize t) : l.num = l.eolNum ↔ t.cursor = t.text.length := by
  rw [← UInt32.toNat_inj, h.cursor, h.eol]

theorem num_lt (h : l.Holds cbsize t) : l.num < l.eolNum ↔ t.cursor < t.text.length := by
  rw [UInt32.lt_iff_toNat_lt, h.cursor, h.eol]

theorem at_end (h : l.Holds cbsize t) (hge : ¬l.num < l.eolNum) : t.cursor = t.text.length :=
  le_antisymm t.inside (not_lt.mp fun hlt => hge (h.num_lt.mpr hlt))

theorem add_insert (h : l.Holds cbsize t) (ichar : UInt8) {insert : Bool} {len : UInt32}
    (hgrow : insert ∨ t.cursor = t.text.length) (hroom : ¬len - 1 < l.eolNum)
    (hend : t.text.length + 1 ≤ cbsize) (hmax : t.text.length + 1 < 2 ^ 32) :
    ∃ l', creadAddChar ichar insert len l = some l' ∧ l'.Holds cbsize (t.insert ichar) := by
  have hgrow' : insert = true ∨ l.num = l.eolNum := hgrow.imp id h.num_eq.mpr
  have hnumEq := h.cursor
  have heolEq := h.eol
  have hinside := t.inside
  have heol : (l.eolNum + 1).toNat = t.text.length + 1 := by
    rw [UInt32.toNat_add, UInt32.toNat_one, heolEq]
    omega
  have hnum : (l.num + 1).toNat = t.cursor + 1 := by
    rw [UInt32.toNat_add, UInt32.toNat_one, hnumEq]
    omega
  have hwlen : (l.eolNum + 1 - l.num).toNat = t.text.length + 1 - t.cursor := by
    rw [UInt32.toNat_sub, heol, hnumEq]
    omega
  have hmove : (l.eolNum + 1 - l.num - 1).toNat = t.text.length - t.cursor := by
    rw [UInt32.toNat_sub, hwlen, UInt32.toNat_one]
    omega
  obtain ⟨a, b, hab, ha⟩ := t.split
  obtain ⟨y, rest, hbuf⟩ := h.room hend
  have hb : t.text.length - t.cursor = b.length := by
    rw [hab, length_append]
    omega
  rw [hab] at hbuf
  -- where the memmove is left out there is nothing behind the cursor
  obtain ⟨z, hz⟩ : ∃ z, (if insert = true ∧ 1 < l.eolNum + 1 - l.num then
      memmove l.buf (l.num.toNat + 1) l.num.toNat (l.eolNum + 1 - l.num - 1).toNat
      else some l.buf) = some (a ++ z :: (b ++ rest)) := by
    split
    · rw [hmove, hb, hnumEq, ← ha, hbuf]
      exact memmove_up a b y rest
    next hnone =>
      have hnil : b = [] := by
        refine length_eq_zero_iff.mp ?_
        rcases hgrow with hins | hatEnd
        · have hle := UInt32.le_iff_toNat_le.mp (UInt32.not_lt.mp fun hlt => hnone ⟨hins, hlt⟩)
          rw [hwlen, UInt32.toNat_one] at hle
          omega
        · omega
      refine ⟨y, ?_⟩
      rw [hbuf, hnil, append_nil, nil_append]
  refine ⟨⟨a ++ ichar :: (b ++ rest), l.num + 1, l.eolNum + 1⟩, ?_, ?_, ?_, hnum, ?_⟩
  · unfold creadAddChar
    rw [if_neg fun hfull => hroom hfull.2]
    simp only [if_pos hgrow', hz, Option.bind_eq_bind, Option.bind_some]
    rw [hnumEq, ← ha, store_at]
    rfl
  · have hlen := h.length
    rw [hbuf] at hlen
    simp only [length_append, length_cons] at hlen ⊢
    omega
  · rw [Text.insert_text hab ha]
    exact ⟨rest, by simp⟩
  · rw [Text.length_insert]
    exact heol

theorem add_over (h : l.Holds cbsize t) (ichar : UInt8) {insert : Bool} {len : UInt32}
    (hover : ¬(insert ∨ t.cursor = t.text.length)) :
    ∃ l', creadAddChar ichar insert len l = some l' ∧ l'.Holds cbsize (t.overwrite ichar) := by
  have hover' : ¬(insert = true ∨ l.num = l.eolNum) := fun hor => hover (hor.imp id h.num_eq.mp)
  have hnot := not_or.mp hover
  have hlt : t.cursor < t.text.length := lt_of_le_of_ne t.inside hnot.2
  obtain ⟨a, y, b, hab, ha⟩ := t.split_at hlt
  obtain ⟨htext, hcursor⟩ := Text.overwrite_text hab ha ichar
  obtain ⟨rest, hrest⟩ := h.text
  have hbuf : l.buf = a ++ y :: (b ++ rest) := by
    rw [← hrest, hab, append_assoc]
    rfl
  have hnum : (l.num + 1).toNat = t.cursor + 1 := by
    have heol := h.eol
    have := l.eolNum.toNat_lt
    rw [UInt32.toNat_add, UInt32.toNat_one, h.cursor]
    omega
  refine ⟨⟨a ++ ichar :: (b ++ rest), l.num + 1, l.eolNum⟩, ?_, ?_, ?_, hnum.trans hcursor.symm, ?_⟩
  · unfold creadAddChar
    rw [if_neg fun hfull => hover' hfull.1]
    simp only [if_neg hover', if_neg fun hins : insert = true ∧ _ => hnot.1 hins.1, Option.bind_eq_bind,
      Option.bind_some]
    rw [h.cursor, ← ha, hbuf, store_at]
    rfl
  · rw [← h.length, hbuf]
    simp
  · rw [htext]
    exact ⟨rest, by simp⟩
  · rw [Text.length_overwrite hlt]
    exact h.eol

theorem addChar (hmin : maxCmdbufSize.toNat ≤ cbsize) (h : l.Holds cbsize t)
    (hshort : t.text.length < maxCmdbufSize.toNat) (ichar : UInt8) (insert : Bool) :
    ∃ l', creadAddChar ichar insert maxCmdbufSize l = some l' ∧ l'.Holds cbsize (t.typed insert ichar) := by
  by_cases hgrow : insert ∨ t.cursor = t.text.length
  · have hmax : maxCmdbufSize.toNat = 256 := by decide
    have hlast : (maxCmdbufSize - 1).toNat = 255 := by decide
    have hroom : ¬maxCmdbufSize - 1 < l.eolNum := by
      rw [UInt32.lt_iff_toNat_lt, h.eol]
      omega
    rw [Text.typed_inserts hgrow]
    exact h.add_insert ichar hgrow hroom (by omega) (by omega)
  · rw [Text.typed_replaces hgrow]
    exact h.add_over ichar hgrow

theorem del (h : l.Holds cbsize t) : ∃ l', l.del = some l' ∧ l'.Holds cbsize t.delete := by
  unfold Line.del
  by_cases hlt : t.cursor < t.text.length
  · obtain ⟨a, x, b, hab, ha⟩ := t.split_at hlt
    have hcursor := h.cursor
    have heolEq := h.eol
    have hbound := l.eolNum.toNat_lt
    have hb : t.text.length = t.cursor + (b.length + 1) := by rw [hab, length_append, length_cons, ha]
    have heol : (l.eolNum - 1).toNat = t.text.length - 1 := by
      rw [UInt32.toNat_sub, UInt32.toNat_one]
      omega
    have hwlen : (l.eolNum - l.num - 1).toNat = b.length := by
      rw [UInt32.toNat_sub, UInt32.toNat_sub, UInt32.toNat_one]
      omega
    obtain ⟨rest, hrest⟩ := h.text
    rw [hab] at hrest
    obtain ⟨z, hz⟩ : ∃ z, (if l.eolNum - l.num - 1 ≠ 0 then
        memmove l.buf l.num.toNat (l.num.toNat + 1) (l.eolNum - l.num - 1).toNat
        else some l.buf) = some (a ++ b ++ z :: rest) := by
      split
      · rw [hwlen, hcursor, ← ha, ← hrest]
        exact memmove_down a x b rest
      next hnone =>
        have hnil : b = [] := by
          rw [ne_eq, not_not] at hnone
          rw [hnone] at hwlen
          exact length_eq_zero_iff.mp hwlen.symm
        refine ⟨x, ?_⟩
        rw [← hrest, hnil, append_nil, append_assoc]
        rfl
    refine ⟨⟨a ++ b ++ z :: rest, l.num, l.eolNum - 1⟩, ?_, ?_, ?_, hcursor, ?_⟩
    · rw [if_pos (h.num_lt.mpr hlt)]
      simp only [hz]
      rfl
    · rw [← h.length, ← hrest]
      simp only [length_append, length_cons]
      omega
    · rw [Text.delete_text hab ha]
      exact ⟨z :: rest, rfl⟩
    · rw [Text.length_delete hlt]
      exact heol
  · have hge : ¬l.num < l.eolNum := fun hnum => hlt (h.num_lt.mp hnum)
    rw [if_neg hge, Text.delete_end (h.at_end hge)]
    exact ⟨l, rfl, h⟩

theorem back (h : l.Holds cbsize t) : ∃ l', l.back = some l' ∧ l'.Holds cbsize t.backspace := by
  have hcursor := h.cursor
  unfold Line.back Text.backspace
  by_cases hzero : t.cursor = 0
  · have hnum : ¬l.num ≠ 0 := by
      rw [ne_eq, not_not, ← UInt32.toNat_inj, hcursor, hzero]
      rfl
    rw [if_neg hnum, if_pos hzero]
    exact ⟨l, rfl, h⟩
  · have hnum : l.num ≠ 0 := by
      rintro hnum
      rw [hnum] at hcursor
      exact hzero hcursor.symm
    have hinside := t.inside
    have hlt : t.left.cursor < t.left.text.length := lt_of_lt_of_le (Nat.sub_one_lt hzero) hinside
    obtain ⟨a, x, b, hab, ha⟩ := t.left.split_at hlt
    have hab' : t.text = a ++ x :: b := hab
    have ha' : a.length = t.cursor - 1 := ha
    have heolEq := h.eol
    have hbound := l.eolNum.toNat_lt
    have hb : t.text.length = t.cursor + b.length := by
      rw [hab', length_append, length_cons, ha']
      omega
    have heol : (l.eolNum - 1).toNat = t.text.length - 1 := by
      rw [UInt32.toNat_sub, UInt32.toNat_one]
      omega
    have hnumPred : (l.num - 1).toNat = a.length := by
      rw [UInt32.toNat_sub, UInt32.toNat_one]
      omega
    have hwlen : (l.eolNum - l.num).toNat = b.length := by
      rw [UInt32.toNat_sub]
      omega
    obtain ⟨rest, hrest⟩ := h.text
    rw [hab'] at hrest
    obtain ⟨z, hz⟩ := memmove_down a x b rest
    refine ⟨⟨a ++ b ++ z :: rest, l.num - 1, l.eolNum - 1⟩, ?_, ?_, ?_, ?_, ?_⟩
    · rw [if_pos hnum]
      simp only [hwlen, hnumPred, ← hrest, hz]
      rfl
    · rw [← h.length, ← hrest]
      simp only [length_append, length_cons]
      omega
    · rw [if_neg hzero, Text.delete_text hab ha]
      exact ⟨z :: rest, rfl⟩
    · rw [if_neg hzero]
      exact hnumPred.trans ha
    · rw [if_neg hzero, Text.length_delete hlt]
      exact heol

theorem right (h : l.Holds cbsize t) : l.right.Holds cbsize t.right := by
  unfold Line.right Text.right
  have hbound := l.eolNum.toNat_lt
  have heol := h.eol
  have hinside := t.inside
  split
  next hlt =>
    have hlt := h.num_lt.mp hlt
    refine ⟨h.length, h.text, ?_, heol⟩
    show (l.num + 1).toNat = min (t.cursor + 1) t.text.length
    rw [UInt32.toNat_add, UInt32.toNat_one, h.cursor]
    omega
  next hge =>
    have hend : ¬t.cursor < t.text.length := fun hlt => hge (h.num_lt.mpr hlt)
    refine ⟨h.length, h.text, ?_, heol⟩
    show l.num.toNat = min (t.cursor + 1) t.text.length
    rw [h.cursor]
    omega

theorem left (h : l.Holds cbsize t) : l.left.Holds cbsize t.left := by
  unfold Line.left Text.left
  have hcursor := h.cursor
  have hbound := l.num.toNat_lt
  split
  next hne =>
    have hpos : l.num.toNat ≠ 0 := fun h0 => hne (UInt32.toNat_inj.mp h0)
    refine ⟨h.length, h.text, ?_, h.eol⟩
    show (l.num - 1).toNat = t.cursor - 1
    rw [UInt32.toNat_sub, UInt32.toNat_one]
    omega
  next hzero =>
    rw [ne_eq, not_not] at hzero
    rw [hzero, UInt32.toNat_zero] at hcursor
    refine ⟨h.length, h.text, ?_, h.eol⟩
    show l.num.toNat = t.cursor - 1
    rw [hzero, ← hcursor]
    rfl

theorem home (h : l.Holds cbsize t) : l.home.Holds cbsize t.home := ⟨h.length, h.text, rfl, h.eol⟩

theorem eraseToEol (h : l.Holds cbsize t) : l.eraseToEol.Holds cbsize t.kill := by
  unfold Line.eraseToEol
  split
  next hlt =>
    refine ⟨h.length, (List.take_prefix _ _).trans h.text, h.cursor, ?_⟩
    exact h.cursor.trans (length_take_of_le t.inside).symm
  next hge =>
    rw [Text.kill_end (h.at_end hge)]
    exact h

theorem refreshToEol (h : l.Holds cbsize t) : l.refreshToEol.Holds cbsize t.toEnd := by
  unfold Line.refreshToEol
  split
  · exact ⟨h.length, h.text, h.eol, h.eol⟩
  next hge => exact ⟨h.length, h.text, h.cursor.trans (h.at_end hge), h.eol⟩

theorem recallLine (hmin : maxCmdbufSize.toNat ≤ cbsize) (h : l.Holds cbsize t) {slot : List UInt8}
    (hslot : slot.length ≤ histSize) (hnul : (0 : UInt8) ∈ slot) :
    ∃ l', l.recallLine slot = some l' ∧ l'.Holds cbsize (.whole (slot.takeWhile (· ≠ 0))) := by
  obtain ⟨s, rest, hsplit, hs⟩ := eq_append_cons_of_mem hnul
  have hstr : cstrAt slot 0 = some s := by
    rw [hsplit]
    exact cstrAt_append (p := []) hs
  have hmax : maxCmdbufSize.toNat = 256 := by decide
  have hsize : histSize = 256 := rfl
  have hword : UInt32.size = 2 ^ 32 := rfl
  have hshort : s.length + 1 ≤ slot.length := by
    rw [hsplit, length_append, length_cons]
    omega
  have hempty := h.home.eraseToEol
  have hfit : 0 + (s ++ [0]).length ≤ l.home.eraseToEol.buf.length := by
    rw [hempty.length, length_append, length_singleton]
    omega
  have hlen : (UInt32.ofNat s.length).toNat = s.length := UInt32.toNat_ofNat_of_lt' (by omega)
  have hheld : Line.Holds cbsize ⟨splice l.home.eraseToEol.buf 0 (s ++ [0]), l.home.eraseToEol.num,
      UInt32.ofNat s.length⟩ ⟨s, 0, Nat.zero_le _⟩ := by
    refine ⟨(splice_length hfit).trans hempty.length, ?_, hempty.cursor, hlen⟩
    exact ⟨_, (append_assoc _ _ _).symm⟩
  have hwhole : slot.takeWhile (· ≠ 0) = s := by
    have hne : ∀ c ∈ s, decide (c ≠ 0) = true := fun c hc => decide_eq_true fun h0 => hs (h0 ▸ hc)
    rw [hsplit, takeWhile_append_of_pos hne]
    exact append_nil s
  rw [hwhole]
  refine ⟨_, ?_, hheld.refreshToEol⟩
  simp only [Line.recallLine, hstr, Option.bind_eq_bind, Option.bind_some, storeAll_eq_splice hfit]
  rfl

theorem complete (hsize : cbsize < 2 ^ 32) (h : l.Holds cbsize t)
    (complete : List UInt8 → Option (List UInt8)) (htab : t.cursor < t.text.length ∨ t.text.length < cbsize) :
    ∃ l', l.complete complete = some l' ∧ ((completion complete cbsize t = none ∧ l'.Holds cbsize t) ∨
        ∃ s text', completion complete cbsize t = some s ∧ Completed t.text s text' ∧
          l'.Holds cbsize (.whole text')) := by
  unfold Line.complete completion
  by_cases hmid : t.cursor < t.text.length
  · rw [if_pos (h.num_lt.mpr hmid), if_pos hmid]
    exact ⟨l, rfl, .inl ⟨rfl, h⟩⟩
  rw [if_neg fun hnum => hmid (h.num_lt.mp hnum), if_neg hmid]
  have hend : t.cursor = t.text.length := le_antisymm t.inside (not_lt.mp hmid)
  obtain ⟨y, rest, hbuf⟩ := h.room (htab.resolve_left hmid)
  have hnum : l.num.toNat = t.text.length := h.cursor.trans hend
  have hlen := h.length
  obtain ⟨hnul, rest', hstr⟩ := takeWhile_nul t.text rest
  have hcstr : cstrAt (t.text ++ 0 :: rest) 0 = some (t.text.takeWhile (· ≠ 0)) := by
    rw [hstr]
    exact cstrAt_append (p := []) hnul
  have hclosedLen : (t.text ++ 0 :: rest).length = cbsize := by
    rw [← hlen, hbuf]
    simp
  have hclosed : Line.Holds cbsize ⟨t.text ++ 0 :: rest, l.num, l.eolNum⟩ t :=
    ⟨hclosedLen, prefix_append _ _, h.cursor, h.eol⟩
  rw [hnum, hbuf, store_at]
  simp only [Option.bind_eq_bind, Option.bind_some, hcstr, hclosedLen]
  cases hcomplete : complete (t.text.takeWhile (· ≠ 0)) with
  | none => exact ⟨_, rfl, .inl ⟨rfl, hclosed⟩⟩
  | some s =>
    dsimp only
    by_cases hfull : cbsize - 2 ≤ t.text.length + s.length
    · rw [if_pos hfull]
      refine ⟨_, rfl, .inl ⟨?_, hclosed⟩⟩
      rw [Option.filter_some, if_neg (by simpa using hfull)]
    · rw [if_neg hfull]
      have hle : (t.text.takeWhile (· ≠ 0)).length ≤ t.text.length := (List.takeWhile_prefix _).length_le
      have hfit : (t.text.takeWhile (· ≠ 0)).length + (s ++ [0]).length ≤ (t.text ++ 0 :: rest).length := by
        rw [hclosedLen, length_append, length_singleton]
        omega
      obtain ⟨q, hq⟩ : ∃ q, splice (t.text ++ 0 :: rest) (t.text.takeWhile (· ≠ 0)).length (s ++ [0]) =
          t.text.takeWhile (· ≠ 0) ++ s ++ [0] ++ q := by
        have hfront : (t.text ++ 0 :: rest).take (t.text.takeWhile (· ≠ 0)).length = t.text.takeWhile (· ≠ 0) := by
          rw [hstr, take_left]
        refine ⟨(t.text ++ 0 :: rest).drop ((t.text.takeWhile (· ≠ 0)).length + (s ++ [0]).length), ?_⟩
        rw [splice, hfront, ← append_assoc]
      have hqLen := splice_length hfit
      rw [storeAll_eq_splice hfit, hq]
      rw [hq, hclosedLen] at hqLen
      have hcompleted := completed_take hle hqLen (by omega)
      have hword : UInt32.size = 2 ^ 32 := rfl
      have hcol : (UInt32.ofNat s.length).toNat = s.length := UInt32.toNat_ofNat_of_lt' (by omega)
      have hnumEnd : (l.num + UInt32.ofNat s.length).toNat = t.text.length + s.length := by
        rw [UInt32.toNat_add, hcol, hnum]
        omega
      have heolEnd : (l.eolNum + UInt32.ofNat s.length).toNat = t.text.length + s.length := by
        rw [UInt32.toNat_add, hcol, h.eol]
        omega
      refine ⟨_, rfl, .inr ⟨s, _, ?_, hcompleted, hqLen, take_prefix _ _, ?_, ?_⟩⟩
      · rw [Option.filter_some, if_pos (decide_eq_true (not_le.mp hfull))]
      · exact hnumEnd.trans hcompleted.length.symm
      · exact heolEnd.trans hcompleted.length.symm

end Line.Holds

/-- The cursor is in the line, and the line in the buffer. -/
structure Line.Inside (cbsize : Nat) (l : Line) : Prop where
  length : l.buf.length = cbsize
  cursor : l.num ≤ l.eolNum
  fits : l.eolNum.toNat ≤ cbsize

theorem Line.Holds.inside (h : l.Holds cbsize t) : l.Inside cbsize := by
  have hcursor : l.num.toNat ≤ l.eolNum.toNat := by
    rw [h.cursor, h.eol]
    exact t.inside
  exact ⟨h.length, UInt32.le_iff_toNat_le.mpr hcursor, h.eol.trans_le h.fits⟩

theorem Line.Inside.holds (h : l.Inside cbsize) : ∃ t, l.Holds cbsize t := by
  have hlen : (l.buf.take l.eolNum.toNat).length = l.eolNum.toNat :=
    length_take_of_le (h.length ▸ h.fits)
  have hcursor : l.num.toNat ≤ (l.buf.take l.eolNum.toNat).length := by
    rw [hlen]
    exact UInt32.le_iff_toNat_le.mp h.cursor
  exact ⟨⟨_, _, hcursor⟩, h.length, take_prefix _ _, rfl, hlen.symm⟩

theorem creadAddChar_inside (hmin : maxCmdbufSize.toNat ≤ cbsize) (h : l.Inside cbsize)
    (ichar : UInt8) (insert : Bool) :
    ∃ l', creadAddChar ichar insert maxCmdbufSize l = some l' ∧ l'.Inside cbsize := by
  obtain ⟨t, ht⟩ := h.holds
  have hmax : maxCmdbufSize.toNat = 256 := by decide
  have hlast : (maxCmdbufSize - 1).toNat = 255 := by decide
  by_cases hfull : (insert ∨ l.num = l.eolNum) ∧ maxCmdbufSize - 1 < l.eolNum
  · exact ⟨l, if_pos hfull, h⟩
  · obtain ⟨l', hadd, h'⟩ : ∃ l', creadAddChar ichar insert maxCmdbufSize l = some l' ∧
        l'.Holds cbsize (t.typed insert ichar) := by
      by_cases hgrow : insert ∨ t.cursor = t.text.length
      · have hroom := fun hlt => hfull ⟨hgrow.imp id ht.num_eq.mpr, hlt⟩
        have hle := UInt32.le_iff_toNat_le.mp (UInt32.not_lt.mp hroom)
        exact ht.addChar hmin (by rw [← ht.eol]; omega) ichar insert
      · rw [Text.typed_replaces hgrow]
        exact ht.add_over ichar hgrow
    exact ⟨l', hadd, h'.inside⟩

theorem creadAddStr_inside (hmin : maxCmdbufSize.toNat ≤ cbsize) (h : l.Inside cbsize)
    (str : List UInt8) (insert : Bool) :
    ∃ l', creadAddStr str insert maxCmdbufSize l = some l' ∧ l'.Inside cbsize := by
  induction str generalizing l with
  | nil => exact ⟨l, rfl, h⟩
  | cons c cs ih =>
    obtain ⟨l₁, hadd, h₁⟩ := creadAddChar_inside hmin h c insert
    obtain ⟨l₂, hrest, h₂⟩ := ih h₁
    refine ⟨l₂, ?_, h₂⟩
    rw [creadAddStr, foldlM_cons, hadd]
    exact hrest

theorem creadAddBuf_inside (hmin : maxCmdbufSize.toNat ≤ cbsize) (h : l.Inside cbsize) {n : Nat}
    (hn : n ≤ cbsize) : ∃ l', creadAddBuf n maxCmdbufSize l = some l' ∧ l'.Inside cbsize := by
  induction n with
  | zero => exact ⟨l, rfl, h⟩
  | succ n ih =>
    obtain ⟨l₁, hrest, h₁⟩ := ih (by omega)
    have hn : n < l₁.buf.length := by
      rw [h₁.length]
      omega
    have hread : l₁.buf[n]? = some l₁.buf[n] := List.getElem?_eq_getElem hn
    obtain ⟨l₂, hadd, h₂⟩ := creadAddChar_inside hmin h₁ l₁.buf[n] true
    refine ⟨l₂, ?_, h₂⟩
    unfold creadAddBuf at hrest ⊢
    rw [range_succ, foldlM_append, hrest]
    simp only [Option.bind_eq_bind, Option.bind_some, foldlM_cons, foldlM_nil, hread, hadd]
    rfl

namespace Line.Inside

theorem del (h : l.Inside cbsize) : ∃ l', l.del = some l' ∧ l'.Inside cbsize := by
  obtain ⟨t, ht⟩ := h.holds
  obtain ⟨l', hl, h'⟩ := ht.del
  exact ⟨l', hl, h'.inside⟩

theorem back (h : l.Inside cbsize) : ∃ l', l.back = some l' ∧ l'.Inside cbsize := by
  obtain ⟨t, ht⟩ := h.holds
  obtain ⟨l', hl, h'⟩ := ht.back
  exact ⟨l', hl, h'.inside⟩

theorem right (h : l.Inside cbsize) : l.right.Inside cbsize := by
  obtain ⟨t, ht⟩ := h.holds
  exact ht.right.inside

theorem left (h : l.Inside cbsize) : l.left.Inside cbsize := by
  obtain ⟨t, ht⟩ := h.holds
  exact ht.left.inside

theorem home (h : l.Inside cbsize) : l.home.Inside cbsize := by
  obtain ⟨t, ht⟩ := h.holds
  exact ht.home.inside

theorem eraseToEol (h : l.Inside cbsize) : l.eraseToEol.Inside cbsize := by
  obtain ⟨t, ht⟩ := h.holds
  exact ht.eraseToEol.inside

theorem refreshToEol (h : l.Inside cbsize) : l.refreshToEol.Inside cbsize := by
  obtain ⟨t, ht⟩ := h.holds
  exact ht.refreshToEol.inside

theorem recallLine (hmin : maxCmdbufSize.toNat ≤ cbsize) (h : l.Inside cbsize) {slot : List UInt8}
    (hslot : slot.length ≤ histSize) (hnul : (0 : UInt8) ∈ slot) :
    ∃ l', l.recallLine slot = some l' ∧ l'.Inside cbsize := by
  obtain ⟨t, ht⟩ := h.holds
  obtain ⟨l', hl, h'⟩ := ht.recallLine hmin hslot hnul
  exact ⟨l', hl, h'.inside⟩

theorem complete (hsize : cbsize < 2 ^ 32) (h : l.Inside cbsize)
    (complete : List UInt8 → Option (List UInt8)) (htab : l.num < l.eolNum ∨ l.eolNum.toNat < cbsize) :
    ∃ l', l.complete complete = some l' ∧ l'.Inside cbsize := by
  obtain ⟨t, ht⟩ := h.holds
  have hroom : t.cursor < t.text.length ∨ t.text.length < cbsize := by
    rw [ht.eol] at htab
    exact htab.imp ht.num_lt.mp id
  obtain ⟨l', hl, ⟨-, h'⟩ | ⟨s, text', -, -, h'⟩⟩ := ht.complete hsize complete hroom
  · exact ⟨l', hl, h'.inside⟩
  · exact ⟨l', hl, h'.inside⟩

theorem complete_none (h : l.Inside cbsize) (complete : List UInt8 → Option (List UInt8))
    (hmid : ¬l.num < l.eolNum) (hfull : ¬l.eolNum.toNat < cbsize) : l.complete complete = none := by
  have hge := UInt32.le_iff_toNat_le.mp (UInt32.not_lt.mp hmid)
  have hlen := h.length
  unfold Line.complete
  have hout : store l.buf l.num.toNat 0 = none := if_neg (by omega)
  rw [if_neg hmid, hout]
  rfl

end Line.Inside

end UBoot
