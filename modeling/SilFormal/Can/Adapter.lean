import SilFormal.Can.EventLoop
import SilFormal.Fmi.Runtime

/-!
# The FMI adapter of the CAN model

The entry points of `fmi.cpp` from the end of initialization on.  An event
collects raised Clocks and written Binaries, is evaluated on a copy of the bus
when its outputs are read or its states updated, and is forgotten at the
update.  How the next event of the bus moved is reported as a qualifier that
the first reading consumes.
-/

namespace SilFormal.Can

open Fallible (require)
open Fmi (Fmu Reference)

/-- `Mode`. -/
inductive Mode
  | instantiated
  | initialization
  | event
  | step
  | terminated
  | error
deriving DecidableEq, Repr

/-- `fmi3IntervalQualifier`. -/
inductive Qualifier
  | notYetKnown
  | unchanged
  | changed
deriving DecidableEq, Repr

/-- The number of a qualifier in FMI. -/
def Qualifier.toInt : Qualifier → Int
  | .notYetKnown => 0
  | .unchanged => 1
  | .changed => 2

/-- What a reading leaves: a change is reported once. -/
def Qualifier.read : Qualifier → Qualifier
  | .changed => .unchanged
  | q => q

/-- `EventState`. -/
structure EventState where
  inputs : Terminal → Bytes := fun _ => []
  written : Terminal → Bool := fun _ => false
  rx : Terminal → Bool := fun _ => false
  tx : Terminal → Bool := fun _ => false
  evaluated : Bool := false
deriving DecidableEq

/-- `EventState::pending`. -/
def EventState.pending (e : EventState) : Prop :=
  e.evaluated = true ∨ (∃ n, e.written n = true) ∨ (∃ n, e.rx n = true) ∨ ∃ n, e.tx n = true

instance (e : EventState) : Decidable e.pending :=
  inferInstanceAs (Decidable (_ ∨ _ ∨ _ ∨ _))

/-- `Instance` of the adapter. -/
structure Adapter where
  bus : Bus
  mode : Mode
  time : Int
  event : EventState
  eventsAtInstant : Nat
  interval : Terminal → Qualifier
deriving DecidableEq

namespace Adapter

/-- The flags of the input Clocks, replaced. -/
def withRx (i : Adapter) (rx : Terminal → Bool) : Adapter :=
  { i with event := { i.event with rx := rx } }

/-- The flags of the countdown Clocks, replaced. -/
def withTx (i : Adapter) (tx : Terminal → Bool) : Adapter :=
  { i with event := { i.event with tx := tx } }

/-- One input, written. -/
def withInput (i : Adapter) (n : Terminal) (value : Bytes) : Adapter :=
  { i with event := { i.event with
    inputs := Function.update i.event.inputs n value
    written := Function.update i.event.written n true } }

end Adapter

/-- What the adapter throws. -/
inductive AdapterError
  | errorState
  | lifecycle
  | initializationOrEvent
  | timeOutsideRange
  | tooManyEvents
  | notTogether
  | notActivated
  | activatedAway
  | notSuppliedTogether
  | bus (message : String)
  | unknownReference
  | updateNotFinished
  | communicationInterval
  | passesCountdown
  | binaryInputCall
  | binaryToInactive
  | clockNotActivated
  | binaryDuplicate
  | clockInputCall
  | unknownClock
  | clockToInactive
  | clockDuplicate
  | outputClockInactive
  | noEntryPoint
deriving DecidableEq, Repr

/-- The text that is logged; `noEntryPoint` stands for a function the library
does not export. -/
def AdapterError.text : AdapterError → String
  | errorState => "instance is in Error state; reset or free it"
  | lifecycle => "invalid FMI lifecycle state"
  | initializationOrEvent => "operation requires Initialization or Event Mode"
  | timeOutsideRange => "time outside the supported range"
  | tooManyEvents => "too many events at one instant"
  | notTogether => "all active countdown Clocks must activate together"
  | notActivated => "due countdown Clock was not activated"
  | activatedAway => "countdown Clock activated away from its due instant"
  | notSuppliedTogether => "input Binary and Clock must be supplied together"
  | bus message => message
  | unknownReference => "unknown value reference"
  | updateNotFinished => "finish the discrete update before Step Mode"
  | communicationInterval => "invalid communication interval"
  | passesCountdown => "step passes pending countdown instant"
  | binaryInputCall => "invalid Binary input call"
  | binaryToInactive => "Binary input to inactive terminal"
  | clockNotActivated => "activate input Clock before Binary write"
  | binaryDuplicate => "invalid or duplicate Binary input"
  | clockInputCall => "invalid Clock input call"
  | unknownClock => "unknown input Clock"
  | clockToInactive => "Clock input to inactive terminal"
  | clockDuplicate => "duplicate Clock activation"
  | outputClockInactive => "output Binary requires active countdown Clock"
  | noEntryPoint => ""

/-! ## The layout of the value references -/

def terminalStride : Nat := 4
def rxData : Nat := 0
def txData : Nat := 1
def rxClock : Nat := 2
def txClock : Nat := 3
def maxBinarySize : Nat := 2048
def maxEventsPerInstant : Nat := 256

/-- The reference of a member of a terminal. -/
def reference (n : Terminal) (member : Nat) : Reference :=
  terminalStride * n.val + member

/-- The terminal a reference belongs to, if it has one. -/
def terminalOfReference (vr : Reference) : Option Terminal :=
  if h : vr / terminalStride < terminalCapacity then some ⟨vr / terminalStride, h⟩ else none

/-- `terminal`: the terminal whose member a reference is. -/
def terminalWith (vr : Reference) (member : Nat) : Except AdapterError Terminal :=
  match terminalOfReference vr with
  | some n => if vr % terminalStride = member then .ok n else .error .unknownReference
  | none => .error .unknownReference

namespace Adapter

/-- A program of the adapter. -/
abbrev Act := EStateM AdapterError Adapter

/-- A computation that may throw. -/
def attempt {α : Type} (x : Except AdapterError α) : Act α :=
  match x with
  | .ok a => pure a
  | .error e => throw e

/-- `require`. -/
def demand (condition : Prop) [Decidable condition] (e : AdapterError) : Act Unit :=
  if condition then pure () else throw e

/-- `invoke_fmi`: the Error state refuses every call, and an exception leads
into it. -/
def invokeFmi {α : Type} (body : Act α) : Act α := fun i =>
  if i.mode = .error then .error .errorState i
  else
    match body i with
    | .ok a i' => .ok a i'
    | .error e i' => .error e { i' with mode := .error }

/-- A call of the bus. -/
def onBus (x : Except String Bus) : Except AdapterError Bus :=
  match x with
  | .ok b => .ok b
  | .error message => .error (.bus message)

/-- `nanoseconds`: a double of seconds as an instant of the bus. -/
def nanoseconds (seconds : ℚ) : Except AdapterError Int := do
  require (0 ≤ seconds ∧ Binary64.nearest (seconds * nsPerS) ≤ maxTime)
    AdapterError.timeOutsideRange
  .ok (Binary64.llround (Binary64.nearest (seconds * nsPerS)))

/-- `until_next_event`. -/
def untilNextEvent (i : Adapter) : Int :=
  match i.bus.nextEvent with
  | some due => due - i.time
  | none => 0

/-- A due frame completes before the requests of the instant are scheduled. -/
def ticked (i : Adapter) : Except AdapterError Bus :=
  if i.event.tx 0 = true then do
    require (i.bus.nextEvent = some i.time) AdapterError.activatedAway
    onBus (i.bus.tick i.time)
  else .ok i.bus

/-- The inputs whose Clocks were raised. -/
def offered (i : Adapter) (n : Terminal) : Bytes :=
  if i.event.rx n = true then i.event.inputs n else []

/-- The copy of the bus that `evaluate` works on, at its end. -/
def evaluatedBus (i : Adapter) : Except AdapterError Bus := do
  require (∀ n, i.event.tx n = (i.bus.isActive n && i.event.tx 0)) AdapterError.notTogether
  require (i.bus.nextEvent = some i.time → i.event.tx 0 = true) AdapterError.notActivated
  let next ← i.ticked
  require (∀ n, i.event.rx n = i.event.written n) AdapterError.notSuppliedTogether
  onBus (next.receive i.offered i.time)

/-- The adapter with the copy of the bus taken over. -/
def commit (i : Adapter) (next : Bus) : Adapter :=
  { i with
    bus := next
    event := { i.event with evaluated := true }
    interval := fun n =>
      if (next.nextEvent ≠ i.bus.nextEvent ∨ i.bus.nextEvent = some i.time) ∧
          next.isActive n = true then
        if next.nextEvent.isSome then .changed else .notYetKnown
      else i.interval n }

/-- `evaluate`. -/
def evaluate : Act Unit := do
  let i ← get
  if i.event.evaluated = true then pure ()
  else do
    demand (i.mode = .event) .lifecycle
    modify fun i => { i with eventsAtInstant := i.eventsAtInstant + 1 }
    demand (i.eventsAtInstant + 1 ≤ maxEventsPerInstant) .tooManyEvents
    let next ← attempt i.evaluatedBus
    modify fun i => i.commit next

/-- `require_initialization_or_event`. -/
def requireInitializationOrEvent (i : Adapter) : Act Unit :=
  demand (i.mode = .initialization ∨ i.mode = .event) .initializationOrEvent

/-- `fmi3EnterEventMode`. -/
def enterEventMode : Act Unit := invokeFmi do
  let i ← get
  demand (i.mode = .step) .lifecycle
  modify fun i => { i with mode := .event }

/-- `fmi3EnterStepMode`. -/
def enterStepMode : Act Unit := invokeFmi do
  let i ← get
  demand (i.mode = .event) .lifecycle
  demand (¬ i.event.pending) .updateNotFinished
  modify fun i => { i with mode := .step }

/-- `fmi3DoStep`. -/
def doStep (current step : ℚ) : Act Fmi.StepAnswer := invokeFmi do
  let i ← get
  demand (i.mode = .step) .lifecycle
  let stop ← attempt (nanoseconds (Binary64.nearest (current + step)))
  let start ← attempt (nanoseconds current)
  demand (start = i.time ∧ i.time < stop) .communicationInterval
  demand (∀ due ∈ i.bus.nextEvent, stop ≤ due) .passesCountdown
  modify fun i => { i with time := stop, eventsAtInstant := 0 }
  pure {
    eventNeeded := false
    terminate := false
    earlyReturn := false
    lastSuccessfulTime := Binary64.nearest (current + step) }

/-- `fmi3SetBinary` of one reference. -/
def setBinary (vr : Reference) (value : Bytes) : Act Unit := invokeFmi do
  let i ← get
  i.requireInitializationOrEvent
  demand (i.event.evaluated = false) .binaryInputCall
  let n ← attempt (terminalWith vr rxData)
  demand (i.bus.isActive n = true) .binaryToInactive
  demand (i.mode = .initialization ∨ i.event.rx n = true) .clockNotActivated
  demand ((i.mode = .initialization ∨ i.event.written n = false) ∧
    value.length ≤ maxBinarySize) .binaryDuplicate
  modify fun i => i.withInput n value

/-- One iteration of `fmi3SetClock`, which raises a Clock. -/
def raise (vr : Reference) : Act Unit := do
  let i ← get
  match terminalOfReference vr with
  | none => throw .unknownClock
  | some n => do
      demand (vr % terminalStride = rxClock ∨ vr % terminalStride = txClock) .unknownClock
      demand (i.bus.isActive n = true) .clockToInactive
      if vr % terminalStride = rxClock then do
        demand (i.event.rx n = false) .clockDuplicate
        modify fun i => i.withRx (Function.update i.event.rx n true)
      else do
        demand (i.event.tx n = false) .clockDuplicate
        modify fun i => i.withTx (Function.update i.event.tx n true)

/-- `fmi3SetClock`. -/
def setClock (references : List Reference) : Act Unit := invokeFmi do
  let i ← get
  demand (i.mode = .event) .lifecycle
  demand (i.event.evaluated = false) .clockInputCall
  forM references raise

/-- `fmi3GetBinary` of one reference. -/
def getBinary (vr : Reference) : Act Bytes := invokeFmi do
  let i ← get
  i.requireInitializationOrEvent
  let n ← attempt (terminalWith vr txData)
  if i.mode = .event then do
    demand (i.event.tx n = true) .outputClockInactive
    evaluate
  else pure ()
  let i ← get
  pure (i.bus.nodes n).output

/-- `fmi3UpdateDiscreteStates`. -/
def updateDiscreteStates : Act Fmi.DiscreteStates := invokeFmi do
  evaluate
  modify fun i => { i with bus := i.bus.clearOutputs, event := {} }
  pure { needUpdate := false, terminate := false, nextEventTime := none }

/-- `fmi3GetIntervalFraction` of one reference, by `read_intervals`. -/
def getIntervalFraction (vr : Reference) : Act Fmi.IntervalAnswer := invokeFmi do
  let i ← get
  i.requireInitializationOrEvent
  let n ← attempt (terminalWith vr txClock)
  modify fun i => { i with
    interval := Function.update i.interval n (i.interval n).read }
  pure {
    counter := i.untilNextEvent.toNat
    resolution := nsPerS
    qualifier := (i.interval n).toInt }

/-- The adapter at the end of `fmi3ExitInitializationMode`, with a configured
bus. -/
def initialized (bus : Bus) : Adapter where
  bus := bus
  mode := .event
  time := 0
  event := {}
  eventsAtInstant := 0
  interval := fun _ => .notYetKnown

/-- The entry points of the CAN model. -/
def fmu : Fmu Adapter AdapterError where
  enterEventMode := enterEventMode
  enterStepMode := enterStepMode
  doStep := doStep
  getClock := fun _ => throw .noEntryPoint
  setClock := setClock
  getBinary := getBinary
  setBinary := setBinary
  getIntervalFraction := getIntervalFraction
  updateDiscreteStates := updateDiscreteStates

end Adapter

end SilFormal.Can
