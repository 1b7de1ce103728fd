import UBoot.Loops
import UBoot.Words

namespace UBoot.Fdt

open FlashCells Loops Words

/-- A word of 32 bits, or a pointer. An `int` is the number that its bits stand for. -/
def u32 (n : Nat) : Nat := n % 4294967296

/-- An `int` is below zero. -/
def neg (n : Nat) : Bool := decide (2147483648 ≤ n)

def err (code : Nat) : Nat := 4294967296 - code

def notFound : Nat := err 1
def noSpace : Nat := err 3
def badOffset : Nat := err 4
def badState : Nat := err 7
def truncated : Nat := err 8
def badMagic : Nat := err 9
def badVersion : Nat := err 10
def badStructure : Nat := err 11
def badLayout : Nat := err 12

def beginNode : Nat := 1

def endNode : Nat := 2

def propTag : Nat := 3

def nopTag : Nat := 4

def endTag : Nat := 9

def tagAlign (x : Nat) : Nat := u32 (x + 3) / 4 * 4

section Read

variable (m : Flash) (fdt : Nat)

def magic : Nat := be32 m fdt
def totalsize : Nat := be32 m (fdt + 4)
def offDtStruct : Nat := be32 m (fdt + 8)
def offDtStrings : Nat := be32 m (fdt + 12)
def offMemRsvmap : Nat := be32 m (fdt + 16)
def version : Nat := be32 m (fdt + 20)
def lastCompVersion : Nat := be32 m (fdt + 24)
def sizeDtStrings : Nat := be32 m (fdt + 32)
def sizeDtStruct : Nat := be32 m (fdt + 36)

def fdtCheckHeader : Nat :=
  if magic m fdt = 0xd00dfeed then
    if version m fdt < 0x10 then badVersion
    else if 0x11 < lastCompVersion m fdt then badVersion
    else 0
  else if magic m fdt = 0x2ff20112 then
    -- a blob that is still being written
    if sizeDtStruct m fdt = 0 then badState else 0
  else badMagic

def offsetPtr (offset : Nat) : Nat := u32 (fdt + offDtStruct m fdt + offset)

def fdtOffsetPtr (offset len : Nat) : Option Nat :=
  let p := offsetPtr m fdt offset
  if 0x11 ≤ version m fdt ∧ (u32 (offset + len) < offset ∨ sizeDtStruct m fdt < u32 (offset + len)) then none
  else if u32 (p + len) < p then none
  else some p

/-- The end of a node's name. The pointer goes up a byte at a time, and the last byte of memory is refused. -/
def skipName : Nat → Nat → Option Nat
  | 0, _ => none
  | n + 1, offset =>
    (fdtOffsetPtr m fdt offset 1).bind fun p =>
      if m p = 0 then some (u32 (offset + 1)) else skipName n (u32 (offset + 1))

/-- What follows a tag, in `fdt_next_tag`. -/
def skipTag (tag offset : Nat) : Option Nat :=
  if tag = beginNode then skipName m fdt 4294967296 offset
  else if tag = propTag then
    (fdtOffsetPtr m fdt offset 4).map fun lenp => u32 (offset + 8 + be32 m lenp)
  else if tag = endTag ∨ tag = endNode ∨ tag = nopTag then some offset
  else none

/-- `fdt_next_tag`: the tag and the offset of the next one. -/
def fdtNextTag (startoffset : Nat) : Nat × Nat :=
  match fdtOffsetPtr m fdt startoffset 4 with
  | none => (endTag, truncated)
  | some tagp =>
    match skipTag m fdt (be32 m tagp) (u32 (startoffset + 4)) with
    | none => (endTag, badStructure)
    | some offset =>
      match fdtOffsetPtr m fdt startoffset (u32 (offset + 4294967296 - startoffset)) with
      | none => (endTag, badStructure)
      | some _ => (be32 m tagp, tagAlign offset)

def checkNodeOffset (offset : Nat) : Nat :=
  if neg offset ∨ offset % 4 ≠ 0 ∨ (fdtNextTag m fdt offset).1 ≠ beginNode then badOffset
  else (fdtNextTag m fdt offset).2

/-- A round of the loop of `fdt_next_node`. -/
def nodeRound (offset : Nat) : Nat ⊕ Nat :=
  let tag := fdtNextTag m fdt offset
  if tag.1 = beginNode then .inr offset
  else if tag.1 = endTag then .inr (if neg tag.2 ∧ tag.2 ≠ truncated then tag.2 else notFound)
  else .inl tag.2

def nodeFrom (offset : Nat) : Comp Nat := Comp.loop (fun offset => Comp.pure (nodeRound m fdt offset)) offset

/-- `fdt_next_node` with no depth to count. -/
def fdtNextNode (offset : Nat) : Comp Nat :=
  if neg offset then nodeFrom m fdt 0
  else if neg (checkNodeOffset m fdt offset) then Comp.pure (checkNodeOffset m fdt offset)
  else nodeFrom m fdt (checkNodeOffset m fdt offset)

/-- `_fdt_string_eq`: the string is as long as `s` and has its bytes. -/
def stringEq (stroffset : Nat) (s : List UInt8) : Bool :=
  let p := u32 (fdt + offDtStrings m fdt + stroffset)
  (read m p s.length).all (· != 0) && m (p + s.length) == 0 && read m p s.length == s

/-- A round of the loop of `fdt_get_property`, which gives the property or an error. -/
def propertyRound (name : List UInt8) (offset : Nat) : Nat ⊕ Except Nat Nat :=
  let tag := fdtNextTag m fdt offset
  let prop := offsetPtr m fdt offset
  if tag.1 = endTag then .inr (.error (if neg tag.2 then tag.2 else badStructure))
  else if tag.1 = propTag ∧ stringEq m fdt (be32 m (prop + 8)) name = true then .inr (.ok prop)
  else if tag.1 = beginNode ∨ tag.1 = endNode then .inr (.error notFound)
  else .inl tag.2

def propertyFrom (name : List UInt8) (offset : Nat) : Comp (Except Nat Nat) :=
  Comp.loop (fun offset => Comp.pure (propertyRound m fdt name offset)) offset

def fdtGetProperty (nodeoffset : Nat) (name : List UInt8) : Comp (Except Nat Nat) :=
  if fdtCheckHeader m fdt ≠ 0 then Comp.pure (.error (fdtCheckHeader m fdt))
  else if neg (checkNodeOffset m fdt nodeoffset) then Comp.pure (.error (checkNodeOffset m fdt nodeoffset))
  else propertyFrom m fdt name (checkNodeOffset m fdt nodeoffset)

/-- The loop of the searches: the first node for which something is to be returned, or the error at the end. -/
def searchFrom (found : Nat → Comp (Option Nat)) (offset : Nat) : Comp Nat :=
  Comp.loop (fun offset =>
    if neg offset then Comp.pure (.inr offset)
    else (found offset).bind fun r =>
      match r with
      | some answer => Comp.pure (.inr answer)
      | none => (fdtNextNode m fdt offset).bind fun next => Comp.pure (.inl next)) offset

def searchNodes (found : Nat → Comp (Option Nat)) (startoffset : Nat) : Comp Nat :=
  if fdtCheckHeader m fdt ≠ 0 then Comp.pure (fdtCheckHeader m fdt)
  else (fdtNextNode m fdt startoffset).bind (searchFrom m fdt found)

/-- The property is there with a value of this length and these bytes. -/
def hasValue (propval : List UInt8) : Except Nat Nat → Bool
  | .error _ => false
  | .ok prop => be32 m (prop + 4) == propval.length && read m (prop + 12) propval.length == propval

def fdtNodeOffsetByPropValue (startoffset : Nat) (propname propval : List UInt8) : Comp Nat :=
  searchNodes m fdt (fun offset => (fdtGetProperty m fdt offset propname).bind fun prop =>
    Comp.pure (if hasValue m propval prop then some offset else none)) startoffset

/-- `_fdt_stringlist_contains`. Every round leaves a string and its zero byte behind. -/
def stringlistContains (str : List UInt8) : Nat → Nat → Nat → Bool
  | 0, _, _ => false
  | n + 1, strlist, listlen =>
    if neg listlen ∨ listlen < str.length then false
    -- the byte behind the list is compared, too, where nothing else is left of it
    else if read m strlist (str.length + 1) = str ++ [0] then true
    else
      match (read m strlist listlen).findIdx? (· == 0) with
      | none => false
      | some i => stringlistContains str n (strlist + (i + 1)) (listlen - (i + 1))

/-- The string `"compatible"`. -/
def compatibleChars : List UInt8 := [99, 111, 109, 112, 97, 116, 105, 98, 108, 101]

/-- What `fdt_node_check_compatible` answers once it has the property. -/
def isCompatible (compatible : List UInt8) : Except Nat Nat → Nat
  | .error e => e
  | .ok prop =>
    let len := be32 m (prop + 4)
    if stringlistContains m compatible (len + 1) (prop + 12) len = true then 0 else 1

def fdtNodeCheckCompatible (nodeoffset : Nat) (compatible : List UInt8) : Comp Nat :=
  (fdtGetProperty m fdt nodeoffset compatibleChars).bind fun prop => Comp.pure (isCompatible m compatible prop)

def fdtNodeOffsetByCompatible (startoffset : Nat) (compatible : List UInt8) : Comp Nat :=
  searchNodes m fdt (fun offset => (fdtNodeCheckCompatible m fdt offset compatible).bind fun e =>
    Comp.pure (if neg e ∧ e ≠ notFound then some e else if e = 0 then some offset else none)) startoffset

end Read

section Write

variable (m : Flash) (fdt : Nat)

def setVersion (v : Nat) : Flash := store m (fdt + 20) (be32Bytes v)
def setOffDtStrings (v : Nat) : Flash := store m (fdt + 12) (be32Bytes v)
def setSizeDtStrings (v : Nat) : Flash := store m (fdt + 32) (be32Bytes v)
def setSizeDtStruct (v : Nat) : Flash := store m (fdt + 36) (be32Bytes v)

def blocksMisordered (memRsvSize structSize : Nat) : Bool :=
  decide (offMemRsvmap m fdt < 40) ||
    decide (offDtStruct m fdt < u32 (offMemRsvmap m fdt + memRsvSize)) ||
    decide (offDtStrings m fdt < u32 (offDtStruct m fdt + structSize)) ||
    decide (totalsize m fdt < u32 (offDtStrings m fdt + sizeDtStrings m fdt))

/-- `_fdt_rw_check_header`: an error and the memory, where a later version has become version 17. -/
def rwCheckHeader : Nat × Flash :=
  if fdtCheckHeader m fdt ≠ 0 then (fdtCheckHeader m fdt, m)
  else if version m fdt < 17 then (badVersion, m)
  else if blocksMisordered m fdt 16 (sizeDtStruct m fdt) = true then (badLayout, m)
  else (0, if 17 < version m fdt then setVersion m fdt 17 else m)

def dataSize : Nat := u32 (offDtStrings m fdt + sizeDtStrings m fdt)

def memmove (dst src n : Nat) : Flash := store m dst (read m src n)

/-- `_fdt_splice`: everything from behind the old bytes on is moved behind the new ones. -/
def splice (splicepoint oldlen newlen : Nat) : Nat × Flash :=
  let last := u32 (fdt + dataSize m fdt)
  let behind := u32 (splicepoint + oldlen)
  if behind < splicepoint ∨ last < behind then (badOffset, m)
  else if u32 (fdt + totalsize m fdt) < u32 (last + 4294967296 - oldlen + newlen) then (noSpace, m)
  else (0, memmove m (u32 (splicepoint + newlen)) behind (last - behind))

def spliceStruct (p oldlen newlen : Nat) : Nat × Flash :=
  let delta := u32 (newlen + 4294967296 - oldlen)
  let r := splice m fdt p oldlen newlen
  if r.1 ≠ 0 then r
  else
    let m := setSizeDtStruct r.2 fdt (u32 (sizeDtStruct r.2 fdt + delta))
    (0, setOffDtStrings m fdt (u32 (offDtStrings m fdt + delta)))

def spliceString (newlen : Nat) : Nat × Flash :=
  let r := splice m fdt (u32 (fdt + offDtStrings m fdt + sizeDtStrings m fdt)) 0 newlen
  if r.1 ≠ 0 then r
  else (0, setSizeDtStrings r.2 fdt (u32 (sizeDtStrings r.2 fdt + newlen)))

/-- `_fdt_find_string`: where the string, with its zero byte, first lies in the table. -/
def findString (strtab tabsize : Nat) (s : List UInt8) : Option Nat :=
  (List.range (tabsize + 1 - (s.length + 1))).find? fun i => read m (strtab + i) (s.length + 1) == s ++ [0]

/-- `_fdt_find_add_string`: the offset of the string, or an error. -/
def findAddString (s : List UInt8) : Nat × Flash :=
  match findString m (u32 (fdt + offDtStrings m fdt)) (sizeDtStrings m fdt) s with
  | some i => (i, m)
  | none =>
    let r := spliceString m fdt (s.length + 1)
    if r.1 ≠ 0 then r
    else (sizeDtStrings m fdt, store r.2 (u32 (fdt + offDtStrings m fdt + sizeDtStrings m fdt)) (s ++ [0]))

/-- What `_fdt_resize_property` does with the property: an error, the property and the memory. -/
def resizeFound (len : Nat) : Except Nat Nat → Nat × Nat × Flash
  | .error e => (e, 0, m)
  | .ok prop =>
    let r := spliceStruct m fdt (u32 (prop + 12)) (tagAlign (be32 m (prop + 4))) (tagAlign len)
    if r.1 ≠ 0 then (r.1, prop, r.2) else (0, prop, store r.2 (prop + 4) (be32Bytes len))

def resizeProperty (nodeoffset : Nat) (name : List UInt8) (len : Nat) : Comp (Nat × Nat × Flash) :=
  (fdtGetProperty m fdt nodeoffset name).bind fun prop => Comp.pure (resizeFound m fdt len prop)

def addProperty (nodeoffset : Nat) (name : List UInt8) (len : Nat) : Nat × Nat × Flash :=
  let nextoffset := checkNodeOffset m fdt nodeoffset
  if neg nextoffset then (nextoffset, 0, m)
  else
    let str := findAddString m fdt name
    if neg str.1 then (str.1, 0, str.2)
    else
      let prop := offsetPtr str.2 fdt nextoffset
      let r := spliceStruct str.2 fdt prop 0 (u32 (12 + tagAlign len))
      if r.1 ≠ 0 then (r.1, prop, r.2)
      else (0, prop, store r.2 prop (be32Bytes propTag ++ be32Bytes len ++ be32Bytes str.1))

/-- The end of `fdt_setprop`. -/
def setValue (val : List UInt8) (r : Nat × Nat × Flash) : Nat × Flash :=
  if r.1 ≠ 0 then (r.1, r.2.2) else (0, store r.2.2 (r.2.1 + 12) val)

def fdtSetprop (nodeoffset : Nat) (name val : List UInt8) : Comp (Nat × Flash) :=
  let w := rwCheckHeader m fdt
  if w.1 ≠ 0 then Comp.pure w
  else (resizeProperty w.2 fdt nodeoffset name val.length).bind fun r =>
    Comp.pure (setValue val (if r.1 = notFound then addProperty r.2.2 fdt nodeoffset name val.length else r))

end Write

section Fixup

variable (fdt : Nat) (prop val : List UInt8) (create : Bool)

def wanted (m : Flash) (off : Nat) : Comp Bool :=
  if create then Comp.pure true
  else (fdtGetProperty m fdt off prop).bind fun r => Comp.pure r.isOk

/-- What the loops do with a node. -/
def fixNode (m : Flash) (off : Nat) : Comp Flash :=
  (wanted fdt prop create m off).bind fun w =>
    if w then (fdtSetprop m fdt off prop val).bind fun r => Comp.pure r.2 else Comp.pure m

/-- The loop of the fix-ups, from the answer to a search on. -/
def fixFrom (search : Flash → Nat → Comp Nat) (off : Nat) (m : Flash) : Comp Flash :=
  Comp.loop (fun s : Nat × Flash =>
    if s.1 = notFound then Comp.pure (.inr s.2)
    else (fixNode fdt prop val create s.2 s.1).bind fun m => (search m s.1).bind fun off =>
      Comp.pure (.inl (off, m))) (off, m)

def doFixup (search : Flash → Nat → Comp Nat) (m : Flash) : Comp Flash :=
  (search m 4294967295).bind fun off => fixFrom fdt prop val create search off m

def doFixupByProp (pname pval : List UInt8) (m : Flash) : Comp Flash :=
  doFixup fdt prop val create (fun m off => fdtNodeOffsetByPropValue m fdt off pname pval) m

def doFixupByCompat (compat : List UInt8) (m : Flash) : Comp Flash :=
  doFixup fdt prop val create (fun m off => fdtNodeOffsetByCompatible m fdt off compat) m

end Fixup

end UBoot.Fdt
