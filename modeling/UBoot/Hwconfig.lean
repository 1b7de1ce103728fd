import UBoot.CString
import UBoot.TextScan

namespace UBoot.Hwconfig

open TextScan

def strstr (s1 s2 : List UInt8) : Option Nat := TextScan.find s2 s1
def strchr (s : List UInt8) (c : UInt8) : Option Nat := s.findIdx? (· = c)

/-- The loop of `hwconfig_parse`: where the option stands, and the string from there. Nothing where
the loop does not end. -/
def hwconfigNext (maxlen : Nat) (opt : List UInt8) (stopch eqch : UInt8) :
    Nat → Nat → List UInt8 → Option (Option (Nat × List UInt8))
  | 0, _, _ => none
  | fuel + 1, pos, opts =>
    match strstr opts opt with
    | none => some none
    | some k =>
      let str := opts.drop k
      let rest := opts.drop (k + opt.length)
      if maxlen < pos + k + opt.length then some none
      -- `str == opts || str[-1] == stopch`
      else if Leads stopch true opts k ∧ Ends stopch eqch rest then some (some (pos + k, str))
      else hwconfigNext maxlen opt stopch eqch fuel (pos + k + opt.length) rest

/-- `hwconfig_parse`: the offset of the pointer that it returns, and the length for `arglen` where it
is not null. -/
def hwconfigParse (opts : List UInt8) (maxlen : Nat) (opt : List UInt8) (stopch eqch : UInt8)
    (arglen : Bool) : Option (Option (Nat × Nat)) := do
  match ← hwconfigNext maxlen opt stopch eqch (opts.length + 1) 0 opts with
  | none => some none
  | some (pos, str) =>
    if ¬arglen then some (some (pos, 0))
    else if (str.drop opt.length).head? ≠ some eqch then some none
    else
      match strchr str stopch with
      | none => some (some (pos + opt.length + 1, min maxlen str.length - opt.length - 1))
      | some argEnd => some (some (pos + opt.length + 1, argEnd - opt.length - 1))

/-- The variable, `board_hwconfig` and `cpu_hwconfig` -/
structure Sources where
  env : Option (List UInt8)
  board : Option (List UInt8)
  cpu : Option (List UInt8)

def Sources.text (src : Sources) : Option (List UInt8) := src.env.or (src.board.or src.cpu)

/-- `__hwconfig` -/
def hwconfigQuery (src : Sources) (opt : List UInt8) (arglen : Bool) : Option (Option (Nat × Nat)) :=
  match src.text with
  | none => some none
  | some text => hwconfigParse text text.length opt 59 58 arglen

def hwconfig (src : Sources) (opt : List UInt8) : Option Bool :=
  (hwconfigQuery src opt false).map Option.isSome

def hwconfigArg (src : Sources) (opt : List UInt8) : Option (Option (Nat × Nat)) :=
  hwconfigQuery src opt true

def Sources.from (src : Sources) (arg : Nat) : List UInt8 := (src.text.getD []).drop arg

def hwconfigSub (src : Sources) (opt subopt : List UInt8) : Option Bool := do
  match ← hwconfigArg src opt with
  | none => some false
  | some (arg, arglen) => (hwconfigParse (src.from arg) arglen subopt 44 61 false).map Option.isSome

def hwconfigSubarg (src : Sources) (opt subopt : List UInt8) : Option (Option (Nat × Nat)) := do
  match ← hwconfigArg src opt with
  | none => some none
  | some (arg, arglen) =>
    (hwconfigParse (src.from arg) arglen subopt 44 61 true).map
      (Option.map fun r => (arg + r.1, r.2))

def Sep (c : UInt8) : Prop := c = 0 ∨ c = 59 ∨ c = 58 ∨ c = 44 ∨ c = 61

instance (c : UInt8) : Decidable (Sep c) := inferInstanceAs (Decidable (_ ∨ _ ∨ _ ∨ _ ∨ _))

/-- A name or a value -/
structure Word where
  bytes : List UInt8
  plain : Plain Sep bytes
deriving DecidableEq

/-- `name[=value]` -/
structure Sub where
  name : Word
  value : Option Word
deriving DecidableEq

/-- `name[:sub(,sub)*]` -/
structure Opt where
  name : Word
  subs : List Sub
deriving DecidableEq

def following {α : Type} (sep : UInt8) (text : α → List UInt8) (xs : List α) : List UInt8 :=
  xs.flatMap fun x => sep :: text x

def joined {α : Type} (sep : UInt8) (text : α → List UInt8) : List α → List UInt8
  | [] => []
  | x :: xs => text x ++ following sep text xs

def Sub.valueText (x : Sub) : List UInt8 := x.value.elim [] fun v => 61 :: v.bytes

def Sub.text (x : Sub) : List UInt8 := x.name.bytes ++ x.valueText

def Opt.argText (x : Opt) : List UInt8 := if x.subs = [] then [] else 58 :: joined 44 Sub.text x.subs

def Opt.text (x : Opt) : List UInt8 := x.name.bytes ++ x.argText

/-- `option(;option)*` -/
structure Config where
  options : List Opt
  ne : options ≠ []

def Config.text (cfg : Config) : List UInt8 := joined 59 Opt.text cfg.options

/-- Where the argument of the first option of that name stands, the first option being at `pos`. -/
def argSpan (o : Word) : Nat → List Opt → Option (Nat × Nat)
  | _, [] => none
  | pos, x :: xs =>
    if x.name = o then
      if x.subs = [] then none
      else some (pos + x.name.bytes.length + 1, (joined 44 Sub.text x.subs).length)
    else argSpan o (pos + x.text.length + 1) xs

def valueSpan (s : Word) : Nat → List Sub → Option (Nat × Nat)
  | _, [] => none
  | pos, x :: xs =>
    if x.name = s then x.value.map fun v => (pos + x.name.bytes.length + 1, v.bytes.length)
    else valueSpan s (pos + x.text.length + 1) xs

def Config.named (cfg : Config) (o : Word) : Option Opt := cfg.options.find? fun x => x.name = o

def Config.subs (cfg : Config) (o : Word) : List Sub := (cfg.named o).elim [] Opt.subs

def Config.subargSpan (cfg : Config) (o s : Word) : Option (Nat × Nat) :=
  (argSpan o 0 cfg.options).bind fun span => valueSpan s span.1 (cfg.subs o)

/-- What the four queries are to answer. -/
structure Answers (src : Sources) (cfg : Config) (o s : Word) : Prop where
  hwconfig : hwconfig src o.bytes = some (cfg.named o).isSome
  arg : hwconfigArg src o.bytes = some (argSpan o 0 cfg.options)
  sub : hwconfigSub src o.bytes s.bytes = some ((cfg.subs o).any fun x => x.name = s)
  subarg : hwconfigSubarg src o.bytes s.bytes = some (cfg.subargSpan o s)

end UBoot.Hwconfig
