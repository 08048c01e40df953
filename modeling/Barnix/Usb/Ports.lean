import Barnix.Lib.Bytes
import Barnix.Lib.Program
import Mathlib.Logic.Function.Basic
/-!
# USB sticks on root ports

`usb_storage.c` for UHCI, OHCI and EHCI: the status bits of the root ports, the
enumeration of what is plugged in, and the commands that reach it. Everything
outside the kernel is a script by time: what happens on the ports between two
looks at the hardware, and what a device answers.

A pointer to the current device is the number of its unit. An xHCI unit answers
as it likes, and reaches no root port.
-/

namespace Barnix.Usb

abbrev Medium := Nat

/-- A root port: bit 0 of its status is set while something is plugged in, bit 1
after every change of that, bit 2 while the port is enabled. -/
structure Port where
  medium : Option Medium
  change : Bool
  enabled : Bool

inductive PortEvent where
  | unplug (unit : Nat)
  | plug (unit : Nat) (medium : Medium)

/-- Whatever is pulled out or put in, the hardware disables the port. -/
def PortEvent.on (ports : Nat → Port) : PortEvent → Nat → Port
  | unplug unit => Function.update ports unit ⟨none, true, false⟩
  | plug unit medium => Function.update ports unit ⟨some medium, true, false⟩

/-- What the descriptors and the first commands of a device say. -/
inductive Found where
  | nothing
  | pointer
  | storage (sectors : Nat)

/-- The script of everything outside the kernel. -/
structure Outside where
  events : Nat → List PortEvent
  answers : Nat → Bool
  found : Nat → Found
  /-- The transfers of an enumeration. -/
  exchanges : Nat → Nat
  /-- The sectors and the generation of an xHCI unit. -/
  xhci : Nat → Nat × Nat
  /-- What a sector reads as. -/
  data : Nat → Nat → Buf 512

/-- `UsbDevice`, as far as storage needs it. `legacy` ports are those of OHCI and EHCI. -/
structure UsbDevice where
  capacity : Nat
  generation : Nat
  legacy : Bool
  ready : Bool
  mouse : Bool
  seen : Bool

/-- What a transfer is part of. -/
inductive Kind where
  | setup
  | read
  | write
  | flush
deriving DecidableEq

/-- A transfer that reached a medium: the unit, how many media had been enumerated
there, and for whom the command was given. -/
structure Reach (τ : Type) where
  unit : Nat
  count : Nat
  medium : Medium
  kind : Kind
  client : τ

/-- The driver's static data, and the history: the media enumerated on each unit,
the last one first, and the transfers. -/
structure Bus (τ : Type) where
  ports : Nat → Port
  devices : Nat → UsbDevice
  deviceCount : Nat
  unit : Nat
  xhciUnit : Option Nat
  outside : Outside
  clock : Nat
  media : Nat → List Medium
  client : τ
  log : List (Reach τ)

variable {τ : Type}

/-- `USB_STORAGE_MAX` -/
def usbMax : Nat := 48
def word : Nat := 2 ^ 32

def Port.connected (p : Port) : Bool := p.medium.isSome && p.enabled && !p.change

/-! ## The hardware -/

/-- Looks at the hardware, after whatever happened on the ports since the last look. -/
def look : StateM (Bus τ) Nat := modifyGet fun s =>
  (s.clock, { s with ports := (s.outside.events s.clock).foldl PortEvent.on s.ports, clock := s.clock + 1 })

/-- A device answers as it was asked to. -/
def answer : StateM (Bus τ) Bool := do
  let time ← look
  return (← get).outside.answers time

def status : StateM (Bus τ) Port := do
  let _ ← look
  let s ← get
  return s.ports s.unit

def connected : StateM (Bus τ) Bool := return (← status).connected

def setPort (f : Port → Port) : StateM (Bus τ) Unit :=
  modify fun s => { s with ports := Function.update s.ports s.unit (f (s.ports s.unit)) }

def setDevice (f : UsbDevice → UsbDevice) : StateM (Bus τ) Unit :=
  modify fun s => { s with devices := Function.update s.devices s.unit (f (s.devices s.unit)) }

/-- The packets of a transfer go to what is in the port. -/
def Bus.reached (s : Bus τ) (p : Port) (kind : Kind) : List (Reach τ) :=
  p.medium.toList.map fun m => ⟨s.unit, (s.media s.unit).length, m, kind, s.client⟩

/-- The check before a transfer. The driver of OHCI and EHCI looks at bits 0 and 2 only. -/
def Port.reachable (p : Port) (legacy : Bool) : Bool := if legacy then p.medium.isSome && p.enabled else p.connected

def transfer (kind : Kind) : StateM (Bus τ) Bool := do
  let p ← status
  let s ← get
  if !p.reachable (s.devices s.unit).legacy then return false
  modify fun s => { s with log := s.log ++ s.reached p kind }
  answer

/-- The `error` label of `command`. -/
def broken : StateM (Bus τ) Int := do
  setDevice ({ · with ready := false })
  return -1

/-- `command`: the request, the data if there are any, and the status. -/
def command (kind : Kind) (data : Bool) : StateM (Bus τ) Int := do
  if !(← transfer kind) then return ← broken
  if data then
    if !(← transfer kind) then return ← broken
  if !(← transfer kind) then return ← broken
  return if ← answer then 0 else 1

/-! ## Units -/

/-- `usb_storage_select`; true when there is such a unit. -/
def storageSelect (index : Nat) : StateM (Bus τ) Bool := do
  if usbMax ≤ index then return false
  let s ← get
  if s.deviceCount ≤ index then
    modify ({ · with xhciUnit := some (index - s.deviceCount) })
    return ← answer
  modify ({ · with xhciUnit := none, unit := index })
  return true

def storagePresent : StateM (Bus τ) Bool := do
  let s ← get
  if s.xhciUnit.isSome then return ← answer
  if (s.devices s.unit).ready then
    if ← connected then return true
  setDevice ({ · with ready := false })
  return false

def storageSectors : StateM (Bus τ) Nat := do
  let s ← get
  if s.xhciUnit.isSome then return (s.outside.xhci (← look)).1
  return (s.devices s.unit).capacity

def storageGeneration : StateM (Bus τ) Nat := do
  let s ← get
  if s.xhciUnit.isSome then return (s.outside.xhci (← look)).2
  return (s.devices s.unit).generation

/-- `n` transfers of an enumeration. -/
def exchange : Nat → StateM (Bus τ) Bool
  | 0 => return true
  | n + 1 => do
    if !(← transfer .setup) then return false
    exchange n

/-- The end of an enumeration that found storage. -/
def enumerated (sectors : Nat) (medium : Medium) : StateM (Bus τ) Unit := do
  setDevice fun d => { d with capacity := sectors, generation := (d.generation + 1) % word, ready := true }
  modify fun s => { s with media := Function.update s.media s.unit (medium :: s.media s.unit) }

/-- `enumerate_port`: 0 for storage, 1 for a pointer. -/
def enumeratePort : StateM (Bus τ) Int := do
  if (← status).medium.isNone then return -1
  -- the reset, which also acknowledges the change
  let taken ← answer
  setPort fun p => { p with change := false, enabled := p.medium.isSome && taken }
  let p ← status
  if !p.connected then return -1
  let time ← look
  if !(← exchange ((← get).outside.exchanges time)) then return -1
  match (← get).outside.found time with
  | .nothing => return -1
  | .pointer =>
    setDevice ({ · with mouse := true })
    return 1
  | .storage sectors =>
    enumerated sectors (p.medium.getD 0)
    return 0

/-- The port is given up after an enumeration that failed. -/
def giveUp : StateM (Bus τ) Unit := do
  let _ ← look
  let s ← get
  setPort fun p => { p with enabled := false, change := p.change && (s.devices s.unit).legacy }
  setDevice ({ · with ready := false })

/-- `usb_storage_probe`; true when a stick is ready. -/
def storageProbe : StateM (Bus τ) Bool := do
  if (← get).xhciUnit.isSome then return ← answer
  if ← storagePresent then return true
  let s ← get
  if (s.devices s.unit).mouse then
    if ← connected then return false
  if s.deviceCount ≤ s.unit then return false
  let result ← enumeratePort
  setDevice ({ · with seen := true })
  if result = 0 then return true
  if result = 1 then return false
  giveUp
  return false

/-! ## Commands -/

/-- `sectors_command`; an xHCI unit transfers as it likes. -/
def sectorsCommand (kind : Kind) (lba count : Nat) : StateM (Bus τ) Bool := do
  if (← get).xhciUnit.isSome then return ← answer
  if !(← storagePresent) then return false
  let s ← get
  let capacity := (s.devices s.unit).capacity
  if count = 0 ∨ 8 < count ∨ capacity ≤ lba ∨ capacity - lba < count then return false
  return (← command kind true) == 0

def storageFlush : StateM (Bus τ) Bool := do
  if (← get).xhciUnit.isSome then return ← answer
  if !(← storagePresent) then return false
  return (← command .flush false) == 0

/-! ## The mouse poll -/

/-- The part of `usb_mouse_poll` that sees a change of the port whose status was `p`:
nothing is ready there any more. -/
def portChanged (p : Port) : StateM (Bus τ) Unit := do
  if p.medium.isNone || p.change then
    setDevice ({ · with mouse := false, seen := false, ready := false })
    if p.change then
      let _ ← look
      setPort fun q => { q with change := false, enabled := q.enabled || (p.enabled && q.medium.isSome) }

/-- A report of the mouse, or its end. -/
def mouseReport : StateM (Bus τ) Unit := do
  if !(← answer) then setDevice ({ · with mouse := false })

/-- One round of `usb_mouse_poll`, for the current unit. -/
def pollUnit : StateM (Bus τ) Unit := do
  let p ← status
  portChanged p
  if p.medium.isNone then return
  let s ← get
  let d := s.devices s.unit
  if !d.seen && !d.ready then
    setDevice ({ · with seen := true })
    if (← enumeratePort) < 0 then return
  let s ← get
  if (s.devices s.unit).mouse then mouseReport

def pollLoop : List Nat → StateM (Bus τ) Unit
  | [] => return
  | n :: ns => do
    modify ({ · with unit := n })
    pollUnit
    pollLoop ns

def mousePoll : StateM (Bus τ) Unit := do
  let s ← get
  if s.deviceCount = 0 then return
  pollLoop (List.range s.deviceCount)
  modify ({ · with unit := s.unit })

end Barnix.Usb
