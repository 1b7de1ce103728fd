import UBoot.CString
import UBoot.Cells

namespace UBoot

open Cells

def maxCmdbufSize : UInt32 := 256
def histMaxLines : Nat := 20
def histSize : Nat := 256
def creadHistChar : UInt8 := 33

/-- `hist_list[i]` is `hist_lines[i]` throughout, a slot of `HIST_SIZE` bytes. -/
structure History where
  histMax : Nat
  histAddIdx : Nat
  histCur : Int
  histNum : UInt32
  histLines : List (List UInt8)

def histInit : History :=
  ⟨0, 0, -1, 0, List.replicate histMaxLines (List.replicate histSize 0)⟩

def creadAddToHist (h : History) (line : List UInt8) : Option History := do
  let slot ← h.histLines[h.histAddIdx]?
  let slot ← storeAll slot 0 (line ++ [0])
  let idx := if histMaxLines ≤ h.histAddIdx + 1 then 0 else h.histAddIdx + 1
  pure { h with
    histLines := h.histLines.set h.histAddIdx slot
    histAddIdx := idx
    histMax := if h.histMax < idx then idx else h.histMax
    histNum := h.histNum + 1 }

/-- `hist_list[hist_cur]` -/
def History.current (h : History) : List UInt8 := h.histLines.getD h.histCur.toNat []

def History.before (h : History) : Int := if h.histCur - 1 < 0 then h.histMax else h.histCur - 1

def histPrev (h : History) : History × Option (List UInt8) :=
  if h.histCur < 0 then (h, none)
  else if h.before = h.histAddIdx then (h, none)
  else
    let h := { h with histCur := h.before }
    (h, some h.current)

def History.after (h : History) : Int := if h.histMax < h.histCur + 1 then 0 else h.histCur + 1

def histNext (h : History) : History × Option (List UInt8) :=
  if h.histCur < 0 then (h, none)
  else if h.histCur = h.histAddIdx then (h, none)
  else
    let h := { h with histCur := h.after }
    (h, some (if h.histCur = h.histAddIdx then [0] else h.current))

/-- The caller's buffer, the cursor and the end of the line. A write outside of a buffer has no result. -/
structure Line where
  buf : List UInt8
  num : UInt32
  eolNum : UInt32

def memmove (buf : List UInt8) (dst src n : Nat) : Option (List UInt8) :=
  if src + n ≤ buf.length then storeAll buf dst ((buf.drop src).take n) else none

def creadAddChar (ichar : UInt8) (insert : Bool) (len : UInt32) (l : Line) : Option Line :=
  if (insert ∨ l.num = l.eolNum) ∧ len - 1 < l.eolNum then some l
  else do
    let eolNum := if insert ∨ l.num = l.eolNum then l.eolNum + 1 else l.eolNum
    let wlen := eolNum - l.num
    let moved := if insert ∧ 1 < wlen then
        memmove l.buf (l.num.toNat + 1) l.num.toNat (wlen - 1).toNat
      else some l.buf
    let buf ← moved
    let buf ← store buf l.num.toNat ichar
    pure ⟨buf, l.num + 1, eolNum⟩

def creadAddStr (str : List UInt8) (insert : Bool) (len : UInt32) (l : Line) : Option Line :=
  str.foldlM (fun l ichar => creadAddChar ichar insert len l) l

/-- The string that the buffer holds is added to itself, each character read when its turn comes. -/
def creadAddBuf (initLen : Nat) (len : UInt32) (l : Line) : Option Line :=
  (List.range initLen).foldlM (fun l i => do
    let ichar ← l.buf[i]?
    creadAddChar ichar true len l) l

structure Cread where
  line : Line
  insert : Bool
  /-- the first `esc_len` bytes of `esc_save` -/
  escSave : List UInt8
  hist : History

/-- What a key is for in the second `switch`. -/
inductive Key where
  | esc
  | home
  | brk
  | right
  | left
  | delete
  | eraseToEol
  | toEol
  | overwrite
  | eraseLine
  | backspace
  | prev
  | next
  | tab
  | char
deriving DecidableEq

def ctlCh (c : Char) : UInt8 := UInt8.ofNat (c.toNat - 97 + 1)

def keyOf (ichar : UInt8) : Key :=
  if ichar = 0x1b then .esc
  else if ichar = ctlCh 'a' then .home
  else if ichar = ctlCh 'c' then .brk
  else if ichar = ctlCh 'f' then .right
  else if ichar = ctlCh 'b' then .left
  else if ichar = ctlCh 'd' then .delete
  else if ichar = ctlCh 'k' then .eraseToEol
  else if ichar = ctlCh 'e' then .toEol
  else if ichar = ctlCh 'o' then .overwrite
  else if ichar = ctlCh 'x' ∨ ichar = ctlCh 'u' then .eraseLine
  else if ichar = 255 ∨ ichar = 127 ∨ ichar = 8 then .backspace
  else if ichar = ctlCh 'p' then .prev
  else if ichar = ctlCh 'n' then .next
  else if ichar = 9 then .tab
  else .char

/-- What a finished `cread_line` returns, or the state that waits for the next key. -/
inductive CreadResult where
  | more (s : Cread)
  | done (rc : Int) (s : Cread)

namespace Line

def right (l : Line) : Line := if l.num < l.eolNum then ⟨l.buf, l.num + 1, l.eolNum⟩ else l

def left (l : Line) : Line := if l.num ≠ 0 then ⟨l.buf, l.num - 1, l.eolNum⟩ else l

/-- `BEGINNING_OF_LINE` -/
def home (l : Line) : Line := ⟨l.buf, 0, l.eolNum⟩

def eraseToEol (l : Line) : Line := if l.num < l.eolNum then ⟨l.buf, l.num, l.num⟩ else l

def refreshToEol (l : Line) : Line := if l.num < l.eolNum then ⟨l.buf, l.eolNum, l.eolNum⟩ else l

def del (l : Line) : Option Line :=
  if l.num < l.eolNum then do
    let wlen := l.eolNum - l.num - 1
    let moved := if wlen ≠ 0 then memmove l.buf l.num.toNat (l.num.toNat + 1) wlen.toNat else some l.buf
    let buf ← moved
    pure ⟨buf, l.num, l.eolNum - 1⟩
  else some l

def back (l : Line) : Option Line :=
  if l.num ≠ 0 then do
    let wlen := l.eolNum - l.num
    let num := l.num - 1
    let buf ← memmove l.buf num.toNat (num.toNat + 1) wlen.toNat
    pure ⟨buf, num, l.eolNum - 1⟩
  else some l

def recallLine (l : Line) (slot : List UInt8) : Option Line := do
  let hline ← cstrAt slot 0
  let buf ← storeAll l.home.eraseToEol.buf 0 (hline ++ [0])
  pure (refreshToEol ⟨buf, l.home.eraseToEol.num, UInt32.ofNat hline.length⟩)

/-- The tab key with `cmd_auto_complete`. `complete` finds what the commands and the environment
have to append to the string in the buffer. -/
def complete (complete : List UInt8 → Option (List UInt8)) (l : Line) : Option Line :=
  if l.num < l.eolNum then some l
  else do
    let buf ← store l.buf l.num.toNat 0
    let str ← cstrAt buf 0
    match complete str with
    | none => pure { l with buf := buf }
    | some s =>
      if buf.length - 2 ≤ l.num.toNat + s.length then pure { l with buf := buf }
      else
        let buf ← storeAll buf str.length (s ++ [0])
        let col := UInt32.ofNat s.length
        pure ⟨buf, l.num + col, l.eolNum + col⟩

end Line

def Cread.moved (s : Cread) (l : Line) : CreadResult := .more { s with line := l }

/-- What the keys for the history do with what `hist_prev` and `hist_next` return. -/
def Cread.recalled (s : Cread) : History × Option (List UInt8) → Option CreadResult
  | (hist, none) => some (.more { s with hist := hist, escSave := [] })
  | (hist, some slot) =>
    (s.line.recallLine slot).map fun l => .more { s with line := l, hist := hist, escSave := [] }

/-- The second `switch` of `cread_line`. -/
def creadSwitch (complete : List UInt8 → Option (List UInt8)) (s : Cread) (ichar : UInt8) :
    Option CreadResult :=
  match keyOf ichar with
  | .esc => some (.more { s with escSave := if s.escSave = [] then [ichar] else [] })
  | .home => some (s.moved s.line.home)
  | .brk => (store s.line.buf 0 0).map fun buf => .done (-1) { s with line := { s.line with buf := buf } }
  | .right => some (s.moved s.line.right)
  | .left => some (s.moved s.line.left)
  | .delete => s.line.del.map s.moved
  | .eraseToEol => some (s.moved s.line.eraseToEol)
  | .toEol => some (s.moved s.line.refreshToEol)
  | .overwrite => some (.more { s with insert := !s.insert })
  | .eraseLine => some (s.moved s.line.home.eraseToEol)
  | .backspace => s.line.back.map s.moved
  | .prev => s.recalled (histPrev s.hist)
  | .next => s.recalled (histNext s.hist)
  | .tab => (s.line.complete complete).map s.moved
  | .char => (creadAddChar ichar s.insert maxCmdbufSize s.line).map s.moved

/-- The keys that an arrow or Home key stands for. -/
def escKey (ichar : UInt8) : Option UInt8 :=
  if ichar = 68 then some (ctlCh 'b')
  else if ichar = 67 then some (ctlCh 'f')
  else if ichar = 72 then some (ctlCh 'a')
  else if ichar = 65 then some (ctlCh 'p')
  else if ichar = 66 then some (ctlCh 'n')
  else none

/-- A line goes to the history unless it is empty or begins with `!`. -/
def creadHistory (hist : History) (buf : List UInt8) : Option History := do
  let first ← buf[0]?
  if first ≠ 0 ∧ first ≠ creadHistChar then
    let line ← cstrAt buf 0
    creadAddToHist hist line
  else pure hist

/-- The end of `cread_line`, with the NUL behind the line. -/
def creadFinish (s : Cread) : Option CreadResult := do
  let buf ← store s.line.buf s.line.eolNum.toNat 0
  let hist ← creadHistory s.hist buf
  pure (.done s.line.eolNum.toNat
    { s with line := { s.line with buf := buf }, hist := { hist with histCur := hist.histAddIdx } })

def isEnter (ichar : UInt8) : Bool := ichar = 10 || ichar = 13

/-- One round of the loop of `cread_line`. -/
def creadKey (complete : List UInt8 → Option (List UInt8)) (s : Cread) (ichar : UInt8) : Option CreadResult :=
  if isEnter ichar then creadFinish s
  else
    let added (str : List UInt8) : Option CreadResult :=
      (creadAddStr str s.insert maxCmdbufSize s.line).map fun l =>
        .more { s with line := l, escSave := [] }
    match s.escSave with
    | [] => creadSwitch complete s ichar
    | [e] => if ichar = 91 then some (.more { s with escSave := [e, ichar] }) else added [e]
    | esc =>
      match escKey ichar with
      | some ichar => creadSwitch complete { s with escSave := [] } ichar
      | none => added (esc ++ [ichar])

/-- `readline_into_buffer` up to the first key. -/
def creadStart (hist : History) (buf : List UInt8) : Option Cread := do
  let init ← cstrAt buf 0
  let line ← creadAddBuf init.length maxCmdbufSize ⟨buf, 0, 0⟩
  pure ⟨line, true, [], hist⟩

end UBoot
