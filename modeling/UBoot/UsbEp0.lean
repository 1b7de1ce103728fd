import Mathlib.Data.UInt
import UBoot.Runs

namespace UBoot.Ep0

/-- The values of `ep0State`. -/
inductive Ep0State
  | init
  | gdDev0 | gdDev1 | gdDev2
  | gdCfg0 | gdCfg1 | gdCfg2 | gdCfg3 | gdCfg4
  | gdCfgOnly0 | gdCfgOnly1
  | gdIfOnly0 | gdIfOnly1
  | gdEp3Only0
  | interfaceGet
  | gdStrI0 | gdStrI1 | gdStrI2
  | configSet
  | getDevStatus | getInfStatus | getEp0Status | getEp3Status
  deriving DecidableEq, Repr

/-- `struct USB_SETUP_DATA` -/
structure SetupData where
  bmRequestType : UInt8
  bRequest : UInt8
  bValueL : UInt8
  bValueH : UInt8
  bIndexL : UInt8
  bIndexH : UInt8
  bLengthL : UInt8
  bLengthH : UInt8
  deriving DecidableEq, Repr

/-- The variables of usbsetup.c. `ep0SubState` is declared for the file and again in `HandleDevReqR`. -/
structure Vars where
  ep0State : Ep0State
  ep0SubState : Nat
  devReqRSubState : Nat
  rwuen : UInt8
  selfpwr : UInt8
  configSet : UInt8
  interfaceGet : UInt8
  statusDevice : UInt8
  statusInterface : UInt8
  statusEndpoint0 : UInt8
  statusEndpoint3 : UInt8
  deriving DecidableEq, Repr

def descDev : List UInt8 :=
  [0x12, 1, 0x10, 0x01, 0xff, 0, 0, 8, 0x45, 0x53, 0x34, 0x12, 0x00, 0x01, 1, 2, 0, 1]

def descConf : List UInt8 := [9, 2, 0x20, 0, 1, 1, 0, 0x80 ||| 0x40, 25]

def descIf : List UInt8 := [9, 4, 0, 0, 2, 0xff, 0, 0, 0]

def descEndpt1 : List UInt8 := [7, 5, 1 ||| 0x80, 2, 64, 0, 0]

def descEndpt3 : List UInt8 := [7, 5, 3 ||| 0x00, 2, 64, 0, 0]

def descStr0 : List UInt8 := [4, 3, 0x09, 0x04]

def descStr (text : List Char) : List UInt8 := (0x30 + 2) :: 3 :: text.flatMap fun c => [UInt8.ofNat c.toNat, 0]

def descStr1 : List UInt8 :=
  descStr ['F', 'r', 'i', 'e', 'n', 'd', 'l', 'y', 'A', 'R', 'M', '/', 'G', 'u', 'o', '_', 'Q', 'i', 'a', 'n', '-',
    'C', 'D', '.']

def descStr2 : List UInt8 :=
  descStr ['M', 'i', 'n', 'i', '2', '4', '4', '0', '/', 'G', 'Q', '2', '4', '4', '0', ' ', 'U', 'S', 'B', ' ', 'd',
    'n', 'w', '.']

def handleGetDescReq (desc : SetupData) (v : Vars) : Vars :=
  match desc.bValueH.toNat with
  | 1 => { v with ep0State := .gdDev0 }
  | 2 => { v with ep0State :=
      if 0x9 < desc.bLengthL.toNat + desc.bLengthH.toNat <<< 8 then .gdCfg0 else .gdCfgOnly0 }
  | 3 => { v with
      ep0State := match desc.bValueL.toNat with
        | 0 => .gdStrI0
        | 1 => .gdStrI1
        | 2 => .gdStrI2
        | _ => v.ep0State
      ep0SubState := 0 }
  | 4 => { v with ep0State := .gdIfOnly0 }
  | 5 => if desc.bValueL.toNat &&& 0xf = 3 then { v with ep0State := .gdEp3Only0 } else v
  | _ => v

/-- `HandleClrFeatureReq` and `HandleSetFeatureReq`, which store the value `on`. -/
def handleFeatureReq (on : UInt8) (desc : SetupData) (v : Vars) : Vars :=
  let v := match desc.bmRequestType.toNat with
    | 0 => if desc.bValueL.toNat = 1 then { v with rwuen := on } else v
    | 2 =>
      if desc.bValueL.toNat = 0 then
        match desc.bIndexL.toNat with
        | 0 => { v with statusEndpoint0 := on }
        | 3 => { v with statusEndpoint3 := on }
        | _ => v
      else v
    | _ => v
  { v with ep0State := .init }

def handleClrFeatureReq : SetupData → Vars → Vars := handleFeatureReq 0

def handleSetFeatureReq : SetupData → Vars → Vars := handleFeatureReq 1

def handleGetStatusReq (desc : SetupData) (v : Vars) : Vars :=
  match desc.bmRequestType.toNat with
  | 0x80 => { v with statusDevice := v.rwuen <<< 1 ||| v.selfpwr, ep0State := .getDevStatus }
  | 0x81 => { v with statusInterface := 0, ep0State := .getInfStatus }
  | 0x82 =>
    match desc.bIndexL.toNat with
    | 0 => { v with ep0State := .getEp0Status }
    | 3 => { v with ep0State := .getEp3Status }
    | _ => v
  | _ => v

def handleDevReqF (desc : SetupData) (v : Vars) : Vars :=
  match desc.bRequest.toNat with
  | 6 => handleGetDescReq desc v
  | 5 => { v with ep0State := .init }
  | 9 => { v with configSet := desc.bValueL, ep0State := .init }
  | 1 => handleClrFeatureReq desc v
  | 8 => { v with ep0State := .configSet }
  | 10 => { v with ep0State := .interfaceGet }
  | 0 => handleGetStatusReq desc v
  | 7 => { v with ep0State := .init }
  | 3 => handleSetFeatureReq desc v
  | 11 => { v with interfaceGet := desc.bValueL, ep0State := .init }
  | 12 => { v with ep0State := .init }
  | _ => { v with ep0State := .init }

/-- `WrPktEp0` from an offset in a buffer; none where it reads beyond the buffer. -/
def wrPktEp0 (buf : List UInt8) (offset num : Nat) : Option (List UInt8) :=
  if offset + num ≤ buf.length then some ((buf.drop offset).take num) else none

def packet (v : Vars) (next : Ep0State) (bytes : Option (List UInt8)) : Option (List UInt8 × Vars) :=
  bytes.map fun b => (b, { v with ep0State := next })

/-- The next packet of a string, whose place is the inner `ep0SubState`. -/
def strPacket (v : Vars) (str : List UInt8) (here : Ep0State) : Option (List UInt8 × Vars) :=
  if v.devReqRSubState * 8 + 8 < str.length then
    (wrPktEp0 str (v.devReqRSubState * 8) 8).map fun b =>
      (b, { v with ep0State := here, devReqRSubState := v.devReqRSubState + 1 })
  else
    (wrPktEp0 str (v.devReqRSubState * 8) (str.length - v.devReqRSubState * 8)).map fun b =>
      (b, { v with ep0State := .init, devReqRSubState := 0 })

/-- `HandleDevReqR`: the bytes for the FIFO. -/
def handleDevReqR (v : Vars) : Option (List UInt8 × Vars) :=
  match v.ep0State with
  | .init => some ([], v)
  | .gdDev0 => packet v .gdDev1 (wrPktEp0 descDev 0 8)
  | .gdDev1 => packet v .gdDev2 (wrPktEp0 descDev 0x8 8)
  | .gdDev2 => packet v .init (wrPktEp0 descDev 0x10 2)
  | .gdCfg0 => packet v .gdCfg1 (wrPktEp0 descConf 0 8)
  | .gdCfg1 => packet v .gdCfg2 do pure ((← wrPktEp0 descConf 0x8 1) ++ (← wrPktEp0 descIf 0 7))
  | .gdCfg2 => packet v .gdCfg3 do pure ((← wrPktEp0 descIf 0x7 2) ++ (← wrPktEp0 descEndpt1 0 6))
  | .gdCfg3 => packet v .gdCfg4 do pure ((← wrPktEp0 descEndpt1 6 1) ++ (← wrPktEp0 descEndpt3 0 7))
  | .gdCfg4 => packet v .init (some [])
  | .gdCfgOnly0 => packet v .gdCfgOnly1 (wrPktEp0 descConf 0 8)
  | .gdCfgOnly1 => packet v .init (wrPktEp0 descConf 8 1)
  | .gdIfOnly0 => packet v .gdIfOnly1 (wrPktEp0 descIf 0 8)
  | .gdIfOnly1 => packet v .init (wrPktEp0 descIf 8 1)
  | .gdEp3Only0 => packet v .init (wrPktEp0 descEndpt3 0 7)
  | .interfaceGet => packet v .init (some [v.interfaceGet])
  | .gdStrI0 => (packet v .init (wrPktEp0 descStr0 0 4)).map fun r => (r.1, { r.2 with devReqRSubState := 0 })
  | .gdStrI1 => strPacket v descStr1 .gdStrI1
  | .gdStrI2 => strPacket v descStr2 .gdStrI2
  | .configSet => packet v .init (some [v.configSet])
  | .getDevStatus => packet v .init (some [v.statusDevice])
  | .getInfStatus => packet v .init (some [v.statusInterface])
  | .getEp0Status => packet v .init (some [v.statusEndpoint0])
  | .getEp3Status => packet v .init (some [v.statusEndpoint3])

/-- The bits of `EP0_CSR` that the handler reads. -/
structure Ep0Csr where
  setupEnd : Bool
  sentStall : Bool
  outPktReady : Bool
  deriving DecidableEq, Repr

def Ep0Csr.Accepts (csr : Ep0Csr) : Prop := csr.setupEnd = false ∧ csr.sentStall = false ∧ csr.outPktReady = true

instance (csr : Ep0Csr) : Decidable csr.Accepts := by
  unfold Ep0Csr.Accepts
  infer_instance

/-- `Ep0Handler`, with the packet in the FIFO. -/
def ep0Handler (csr : Ep0Csr) (desc : SetupData) (v : Vars) : Option (List UInt8 × Vars) :=
  if csr.setupEnd then some ([], { v with ep0State := .init })
  else if csr.sentStall then some ([], { v with ep0State := .init })
  else handleDevReqR (if csr.outPktReady then handleDevReqF desc v else v)

/-- The part of `ReconfigUsbd` outside the registers. -/
def reconfigUsbd (v : Vars) : Vars := { v with ep0State := .init }

/-- An interrupt of the device. -/
inductive Interrupt
  | reset
  | ep0 (csr : Ep0Csr) (desc : SetupData)

/-- The variables, and the last request with the bytes written for it. -/
structure Bus where
  vars : Vars
  answer : Option (SetupData × List UInt8)

def step (s : Bus) : Interrupt → Option (List UInt8 × Bus)
  | .reset => some ([], { s with vars := reconfigUsbd s.vars })
  | .ep0 csr desc => (ep0Handler csr desc s.vars).map fun r =>
    (r.1, ⟨r.2, if csr.Accepts then some (desc, r.1) else s.answer.map fun a => (a.1, a.2 ++ r.1)⟩)

/-- The variables after `UsbdMain`. -/
def start : Bus where
  vars := ⟨.init, 0, 0, 0, 1, 0, 0, 0, 0, 0, 0⟩
  answer := none

def longConf : List UInt8 := descConf ++ descIf ++ descEndpt1 ++ descEndpt3

/-- The descriptor that a request names, empty where there is none; none for the requests of other kinds. -/
def SetupData.descriptor (desc : SetupData) : Option (List UInt8) :=
  if desc.bRequest.toNat = 6 then
    match desc.bValueH.toNat with
    | 1 => some descDev
    | 2 => some (if 0x9 < desc.bLengthL.toNat + desc.bLengthH.toNat <<< 8 then longConf else descConf)
    | 3 =>
      match desc.bValueL.toNat with
      | 0 => some descStr0
      | 1 => some descStr1
      | 2 => some descStr2
      | _ => some []
    | 4 => some descIf
    | 5 => if desc.bValueL.toNat &&& 0xf = 3 then some descEndpt3 else some []
    | _ => none
  else none

/-- The bytes written for the last request are a prefix of its descriptor. -/
def Bus.Truthful (s : Bus) : Prop :=
  ∀ desc bytes whole, s.answer = some (desc, bytes) → desc.descriptor = some whole → bytes <+: whole

def SetupData.AsksString (desc : SetupData) : Prop :=
  desc.bRequest.toNat = 6 ∧ desc.bValueH.toNat = 3 ∧ (desc.bValueL.toNat = 1 ∨ desc.bValueL.toNat = 2)

/-- A request for a string or an endpoint that the device does not have. -/
def SetupData.AsksNothing (desc : SetupData) : Prop := desc.descriptor = some []

/-- The request comes when no place in a string is left from before and, where the device has nothing to answer, no
answer is under way. -/
def Bus.Fresh (s : Bus) : Interrupt → Prop
  | .reset => True
  | .ep0 csr desc => csr.Accepts →
    (desc.AsksString → s.vars.devReqRSubState = 0) ∧
      (desc.AsksNothing → s.vars.ep0State = .init ∨ s.vars.ep0State = .gdCfg4)

end UBoot.Ep0
