import SilFormal.Fmi.Runtime

/-!
# The members of a connected group

An FMU of a group and the network terminals it drives.  An instance owns where
its FMU stands in its lifecycle, because a group enters an event on one
instance and not on another.  When to step and which instant to settle next is
the group's business.
-/

namespace SilFormal.Fmi

/-- One activation of a terminal, as the three fields a clocked Channel
carries it in. -/
structure Message where
  channel : String
  payload : Bytes
  length : Nat
  eventTime : Int
deriving DecidableEq, Repr

/-- `Observation`: an out-direction Channel carrying the activations of what a
terminal sends. -/
structure Observation where
  channel : String
  binary : String
  field : String
  capacity : Nat
deriving DecidableEq, Repr

/-- `Injection`: an in-direction Channel whose Messages are activations handed
to a terminal. -/
structure Injection where
  channel : String
  binary : String
  field : String
  lengthField : String
  capacity : Nat
deriving DecidableEq, Repr

/-- `Transceiver`: one network terminal of one instance. -/
structure Transceiver (I T : Type) where
  owner : I
  name : String
  receiveClock : Reference
  receiveData : Reference
  receiveName : String
  capacity : Nat
  peer : Option T
  observation : Option Observation
  injection : Option Injection

variable {I T σ ε α : Type}

/-- `Instance`: one FMU of a group, with the send side of every terminal, split
by who raises its Clock. -/
structure Instance (T σ ε : Type) where
  name : String
  busSimulation : Bool
  fmu : Fmu σ ε
  triggered : List (SendSide T)
  countdown : List (SendSide T)

namespace Instance

/-- What an instance holds while its FMU is driven. -/
structure State (T σ : Type) where
  fmu : σ
  buffers : T → CountdownBuffer
  inEvent : Bool
  eventPending : Bool
  nextEventTime : Option ℚ

/-- A program that drives one instance. -/
abbrev Drive (T σ ε : Type) := EStateM (Failure ε) (State T σ)

/-- One entry point, its status named with it. -/
def call (name : String) (x : EStateM ε σ α) : Drive T σ ε α :=
  zoom State.fmu (fun fmu st => { st with fmu := fmu }) (Failure.status name) x

/-- A computation of the importer itself. -/
def check (x : Except (Failure ε) α) : Drive T σ ε α :=
  match x with
  | .ok a => pure a
  | .error e => throw e

variable [DecidableEq T] (m : Instance T σ ε)

/-- `Instance.enter_event`. -/
def enterEvent : Drive T σ ε Unit := do
  let st ← get
  if st.inEvent = true then pure ()
  else do
    call "fmi3EnterEventMode" m.fmu.enterEventMode
    modify fun st => { st with inEvent := true }

/-- `Instance.leave_event`. -/
def leaveEvent : Drive T σ ε Unit := do
  let st ← get
  if st.inEvent = true then do
    call "fmi3EnterStepMode" m.fmu.enterStepMode
    modify fun st => { st with inEvent := false }
  else pure ()

/-- `CoSimulation.do_step` refuses an interval that was not completed. -/
def completed (point size : ℚ) (answer : StepAnswer) : Except (Failure ε) Bool :=
  if answer.terminate = true then .error .stepTermination
  else if answer.earlyReturn = true then
    .error (.earlyReturn answer.lastSuccessfulTime point size)
  else .ok answer.eventNeeded

/-- `Instance.step`. -/
def step (t dt : Int) : Drive T σ ε Unit := do
  let answer ← call "fmi3DoStep" (m.fmu.doStep (seconds t) (seconds dt))
  let eventNeeded ← check (completed (seconds t) (seconds dt) answer)
  modify fun st => { st with eventPending := eventNeeded }

/-- The countdown buffers due at an instant. -/
def dueBuffers (st : State T σ) (instant : Int) : List (SendSide T) :=
  m.countdown.filter fun side => (st.buffers side.transceiver).dueNs = some instant

/-- `Instance.due`. -/
def due (st : State T σ) (instant : Int) : Bool :=
  st.eventPending || declaredNs st.nextEventTime = some instant ||
    !(m.dueBuffers st instant).isEmpty

/-- The instants an instance asked to be in Event Mode at: the ends of its
countdown intervals and its declared event. -/
def requested (st : State T σ) : List Int :=
  (m.countdown.filterMap fun side => (st.buffers side.transceiver).dueNs) ++
    (declaredNs st.nextEventTime).toList

/-- `Instance.asked_for`. -/
def askedFor (st : State T σ) (after : Int) : List Int :=
  (m.requested st).filter (after < ·)

variable (name : T → String)

/-- What `Instance.require_nothing_passed` makes of one countdown buffer. -/
def requireAhead (st : State T σ) (instant : Int) (side : SendSide T) : Except (Failure ε) Unit :=
  match (st.buffers side.transceiver).dueNs with
  | some due =>
    if due ≤ instant then
      .error (.clockPassed (name side.transceiver) side.clockName due instant)
    else .ok ()
  | none => .ok ()

/-- What `Instance.require_nothing_passed` makes of the declared event. -/
def requireDeclaredAhead (st : State T σ) (instant : Int) : Except (Failure ε) Unit :=
  match declaredNs st.nextEventTime with
  | some declared =>
    if declared ≤ instant then
      .error (.eventPassed m.name st.nextEventTime declared instant)
    else .ok ()
  | none => .ok ()

/-- `Instance.require_nothing_passed`. -/
def requireNothingPassed (instant : Int) : Drive T σ ε Unit := do
  let st ← get
  forM m.countdown fun side => check (requireAhead name st instant side)
  check (m.requireDeclaredAhead st instant)

/-- `ClockedBuffer.read`: the Clock, and the buffer it gates when it is up. -/
def readClocked (side : SendSide T) : Drive T σ ε (Option Bytes) := do
  let active ← call "fmi3GetClock" (m.fmu.getClock side.clock)
  if active = true then do
    let payload ← call "fmi3GetBinary" (m.fmu.getBinary side.data)
    pure (some payload)
  else pure none

/-- `Instance._activations`, over the sides that are left. -/
def activationsOf : List (SendSide T) → Drive T σ ε (List (T × Bytes))
  | [] => pure []
  | side :: rest => do
      let payload ← m.readClocked side
      let others ← activationsOf rest
      pure ((payload.map fun p => (side.transceiver, p)).toList ++ others)

/-- `Instance._activations`. -/
def activations : Drive T σ ε (List (T × Bytes)) :=
  m.activationsOf m.triggered

/-- `_MAX_EVENT_ITERATIONS`. -/
def maxEventIterations : Nat := 100

/-- The loop of `run_event`, with the iterations that are left. -/
def iterate (eventTime : Int) : Nat → Drive T σ ε (List (T × Bytes) × DiscreteStates)
  | 0 => throw (.eventIterations eventTime)
  | left + 1 => do
      let produced ← m.activations
      let states ← call "fmi3UpdateDiscreteStates" m.fmu.updateDiscreteStates
      if states.terminate = true then throw (.eventTermination eventTime)
      else if states.needUpdate = true then do
        let (later, final) ← iterate eventTime left
        pure (produced ++ later, final)
      else do
        let last ← m.activations
        pure (produced ++ last, states)

/-- `run_event`. -/
def runEvent (eventTime : Int) : Drive T σ ε (List (T × Bytes) × DiscreteStates) :=
  m.iterate eventTime maxEventIterations

/-- `CoSimulation.raise_clocks`, if a Clock is due. -/
def raiseClocks (due : List (SendSide T)) : Drive T σ ε Unit :=
  if due = [] then pure ()
  else call "fmi3SetClock" (m.fmu.setClock (due.map (·.clock)))

/-- The buffer of one terminal, replaced. -/
def State.setBuffer (st : State T σ) (x : T) (b : CountdownBuffer) : State T σ :=
  { st with buffers := Function.update st.buffers x b }

/-- `CountdownBuffer.take`: the activation just made is spent. -/
def take (side : SendSide T) : Drive T σ ε Bytes := do
  modify fun st => st.setBuffer side.transceiver { st.buffers side.transceiver with dueNs := none }
  call "fmi3GetBinary" (m.fmu.getBinary side.data)

/-- The payloads of the Clocks just raised.  Only a bus simulation uses an
empty one to mark an arbitration opportunity. -/
def takeEach : List (SendSide T) → Drive T σ ε (List (T × Bytes))
  | [] => pure []
  | side :: rest => do
      let payload ← m.take side
      let others ← takeEach rest
      pure (if payload ≠ [] ∨ m.busSimulation = false then (side.transceiver, payload) :: others
        else others)

/-- `CountdownBuffer.refresh`. -/
def refresh (now : Int) (side : SendSide T) : Drive T σ ε Unit := do
  let answer ← call "fmi3GetIntervalFraction" (m.fmu.getIntervalFraction side.clock)
  let st ← get
  let b ← check ((st.buffers side.transceiver).refreshed side.clockName answer now)
  modify fun st => st.setBuffer side.transceiver b

/-- `Instance.handle`: one event of this FMU, and every activation it hands the
group. -/
def handle (eventTime : Int) : Drive T σ ε (List (T × Bytes)) := do
  m.enterEvent
  modify fun st => { st with eventPending := false }
  let st ← get
  m.raiseClocks (m.dueBuffers st eventTime)
  let taken ← m.takeEach (m.dueBuffers st eventTime)
  let (collected, states) ← m.runEvent eventTime
  modify fun st => { st with nextEventTime := states.nextEventTime }
  forM m.countdown (m.refresh eventTime)
  pure (taken ++ collected)

/-- `Instance.deliver`: one input Clock, and the payload it gates. -/
def deliver (x : Transceiver I T) (payload : Bytes) : Drive T σ ε Unit := do
  if x.capacity < payload.length then
    throw (.maxSize x.name x.receiveName payload.length x.capacity)
  else do
    m.enterEvent
    call "fmi3SetClock" (m.fmu.setClock [x.receiveClock])
    call "fmi3SetBinary" (m.fmu.setBinary x.receiveData payload)

end Instance

end SilFormal.Fmi
