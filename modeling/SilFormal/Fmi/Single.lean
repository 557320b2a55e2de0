import SilFormal.Fmi.CoSimulation
import SilFormal.Fmi.Terminals

/-!
# One FMU on the grid of the kernel

The FMU is stepped over exactly the interval a Step declares.  Messages on a
Channel whose variable declares a Clock are activations, handled in Event Mode;
the others are written before the step and read after it.  Without such a
Channel the FMU never leaves Step Mode.
-/

namespace SilFormal.Fmi

/-- The fields of a Message that was decoded. -/
structure Fields (V : Type) where
  scalar : String → V
  array : String → List V
  bytes : String → Bytes
  length : String → Nat

/-- A field of a Message that is published. -/
inductive FieldValue (V : Type)
  | scalar (value : V)
  | array (values : List V)
  | bytes (payload : Bytes)
  | length (size : Nat)
  | eventTime (instant : Int)

/-- A Message that is published: its Channel and its fields. -/
abbrev Published (V : Type) := String × List (String × FieldValue V)

/-- A Message that arrived. -/
structure Arrived (V : Type) where
  channel : String
  data : Fields V

/-- A field bound to a scalar variable, or to an array of a number of values. -/
structure ScalarField where
  name : String
  reference : Reference
  count : Option Nat

/-- `ScalarGroup`: the fields of a Channel bound to variables of one type. -/
structure ScalarGroup where
  channel : String
  kind : String
  /-- The names of the variables, as a diagnostic states them. -/
  variableNames : String
  fields : List ScalarField

/-- The values a group of scalar fields holds, in the order of its buffer. -/
def ScalarGroup.values {V : Type} (s : ScalarGroup) (data : Fields V) : List V :=
  s.fields.flatMap fun f =>
    match f.count with
    | none => [data.scalar f.name]
    | some _ => data.array f.name

/-- The size of the buffer of a group of scalar fields. -/
def ScalarGroup.size (s : ScalarGroup) : Nat :=
  (s.fields.map fun f => f.count.getD 1).sum

/-- The values of a buffer, as the fields they belong to. -/
def splitFields {V : Type} (toField : V → V) :
    List ScalarField → List V → List (String × FieldValue V)
  | [], _ => []
  | f :: rest, values =>
    match f.count with
    | none =>
      (values.head?.map fun v => (f.name, FieldValue.scalar (toField v))).toList ++
        splitFields toField rest values.tail
    | some count =>
      (f.name, .array ((values.take count).map toField)) ::
        splitFields toField rest (values.drop count)

/-- `BinaryField`. -/
structure BinaryField where
  variableName : String
  reference : Reference
  field : String
  lengthField : String
  capacity : Nat

/-- A group of fields that is one FMI call. -/
inductive FieldGroup
  | scalars (group : ScalarGroup)
  | binaries (bound : List BinaryField)

/-- `ClockedPayload`: a Channel whose Messages are activations of one Clock. -/
structure ClockedPayload where
  binary : BinaryField
  clock : Reference
  eventTimeField : String

/-- The Channels whose Messages are Clock activations. -/
structure Events where
  outputs : List (String × ClockedPayload)
  inputs : List (String × ClockedPayload)

/-- `FmuParticipant` of an FMI 3.0 FMU, with its Channels bound. -/
structure Single (N V : Type) where
  native : Native N V
  starts : List (StartValue V)
  inputs : List (String × List FieldGroup)
  outputs : List (String × List FieldGroup)
  events : Option Events
  /-- `to_field` of each scalar type. -/
  toField : String → V → V

/-- The diagnostics of one FMU. -/
inductive SingleFailure
  | problem (p : Problem)
  /-- A status for the variables of a Channel. -/
  | writing (channel variableNames : String) (p : Problem)
  | reading (channel variableNames : String) (p : Problem)
  /-- Values that do not fill the buffer of their variables. -/
  | bufferSize (channel variableNames : String) (given expected : Nat)
  /-- A Message that declares more bytes than its field carries. -/
  | outgoing (b : String) (field lengthField : String) (length capacity : Nat)
  /-- A payload above the bound of its field. -/
  | incoming (b : String) (field : String) (size capacity : Nat)
  /-- A Message on a Channel that is bound to nothing. -/
  | channel (name : String)
  /-- A diagnostic of driving the instance. -/
  | driving (f : Failure Problem)
  /-- A declared event inside the interval of a Step. -/
  | nextEvent (declared : Option ℚ) (declaredNs t dt : Int)
  /-- An event of an FMU that is not used with Event Mode. -/
  | eventHandling (stop : Int)
  /-- A Step that does not continue where the last one ended. -/
  | contiguity (standing t : Int)

namespace Single

variable {N V α : Type}

/-- `FmuParticipant` between two Steps. -/
structure State (N V : Type) where
  fmu : CoSimulation N
  nextEventTime : Option ℚ
  pendingActivations : List (Published V)
  communicationPoint : Int

/-- A program that drives the FMU. -/
abbrev Drive (N V : Type) := EStateM SingleFailure (State N V)

/-- A program on the instance. -/
def onFmu (fail : Problem → SingleFailure) (x : EStateM Problem (CoSimulation N) α) : Drive N V α :=
  zoom State.fmu (fun fmu st => { st with fmu := fmu }) fail x

/-- A computation of the importer itself. -/
def check (x : Except SingleFailure α) : Drive N V α :=
  match x with
  | .ok a => pure a
  | .error e => throw e

/-! ## Bindings -/

/-- `outgoing_payload`. -/
def outgoingPayload (b : BinaryField) (data : Fields V) : Except SingleFailure Bytes :=
  if b.capacity < data.length b.lengthField then
    .error (.outgoing b.variableName b.field b.lengthField (data.length b.lengthField) b.capacity)
  else .ok ((data.bytes b.field).take (data.length b.lengthField))

/-- `_incoming_payload`. -/
def incomingPayload (b : BinaryField) (payload : Bytes) :
    Except SingleFailure (List (String × FieldValue V)) :=
  if b.capacity < payload.length then
    .error (.incoming b.variableName b.field payload.length b.capacity)
  else .ok [(b.field, .bytes (payload ++ List.replicate (b.capacity - payload.length) 0)),
    (b.lengthField, .length payload.length)]

/-- `activation_message`. -/
def activationMessage (c : ClockedPayload) (payload : Bytes) (eventTime : Int) :
    Except SingleFailure (List (String × FieldValue V)) := do
  let fields ← incomingPayload c.binary payload
  .ok (fields ++ [(c.eventTimeField, .eventTime eventTime)])

/-- A failed call is named with the Channel and the variables it carried; a
signal is not a failed call. -/
def named (f : Problem → SingleFailure) : Problem → SingleFailure
  | .interrupted => .problem .interrupted
  | p => f p

variable (x : Single N V)

/-- `ScalarGroup.write` and `BinaryGroup.write`. -/
def writeGroup (data : Fields V) : FieldGroup → Drive N V Unit
  | .scalars s => do
      let values := s.values data
      if values.length = s.size then
        onFmu (named (.writing s.channel s.variableNames))
          (x.native.call .setValues
            (Native.statusOnly (x.native.setValues s.kind (s.fields.map (·.reference)) values)))
      else throw (.bufferSize s.channel s.variableNames values.length s.size)
  | .binaries bound => do
      let payloads ← check (bound.mapM fun b => outgoingPayload b data)
      onFmu .problem (x.native.call .setBinary
        (Native.statusOnly (x.native.setBinary (bound.map (·.reference)) payloads)))

/-- `ScalarGroup.read` and `BinaryGroup.read`. -/
def readGroup : FieldGroup → Drive N V (List (String × FieldValue V))
  | .scalars s => do
      let values ← onFmu (named (.reading s.channel s.variableNames))
        (x.native.call .getValues (x.native.getValues s.kind (s.fields.map (·.reference))))
      pure (splitFields (x.toField s.kind) s.fields values)
  | .binaries bound => do
      let payloads ← onFmu .problem
        (x.native.call .getBinary (x.native.getBinary (bound.map (·.reference))))
      let fields ← check ((bound.zip payloads).mapM fun b => incomingPayload b.1 b.2)
      pure fields.flatten

/-- `ChannelBinding.write`. -/
def writeChannel (groups : List FieldGroup) (data : Fields V) : Drive N V Unit :=
  forM groups (x.writeGroup data)

/-- `ChannelBinding.read`. -/
def readChannel : List FieldGroup → Drive N V (List (String × FieldValue V))
  | [] => pure []
  | group :: rest => do
      let fields ← x.readGroup group
      let others ← readChannel rest
      pure (fields ++ others)

/-- `ClockedPayload.activation`. -/
def activation (c : ClockedPayload) (eventTime : Int) :
    Drive N V (Option (List (String × FieldValue V))) := do
  let active ← onFmu .problem (x.native.call .getClock (x.native.getClock c.clock))
  if active = true then do
    let payloads ← onFmu .problem
      (x.native.call .getBinary (x.native.getBinary [c.binary.reference]))
    let fields ← check (activationMessage c (payloads.headD []) eventTime)
    pure (some fields)
  else pure none

/-- `ClockedPayload.activate`. -/
def activate (c : ClockedPayload) (data : Fields V) : Drive N V Unit := do
  let payload ← check (outgoingPayload c.binary data)
  onFmu .problem (x.native.call .setClock (Native.statusOnly (x.native.setClock [c.clock])))
  onFmu .problem (x.native.call .setBinary
    (Native.statusOnly (x.native.setBinary [c.binary.reference] [payload])))

/-! ## Events -/

/-- `_Events._activations`. -/
def activations (eventTime : Int) : List (String × ClockedPayload) → Drive N V (List (Published V))
  | [] => pure []
  | output :: rest => do
      let fields ← x.activation output.2 eventTime
      let others ← activations eventTime rest
      pure ((fields.map fun f => (output.1, f)).toList ++ others)

/-- The loop of `run_event`, with the iterations that are left. -/
def iterate (events : Events) (eventTime : Int) :
    Nat → Drive N V (List (Published V) × DiscreteStates)
  | 0 => throw (.driving (.eventIterations eventTime))
  | left + 1 => do
      let produced ← x.activations eventTime events.outputs
      let states ← onFmu .problem
        (x.native.call .updateDiscreteStates x.native.updateDiscreteStates)
      if states.terminate = true then throw (.driving (.eventTermination eventTime))
      else if states.needUpdate = true then do
        let (later, final) ← iterate events eventTime left
        pure (produced ++ later, final)
      else do
        let last ← x.activations eventTime events.outputs
        pure (produced ++ last, states)

/-- `_Events.handle`. -/
def handle (events : Events) (eventTime : Int) : Drive N V (List (Published V)) := do
  let (published, states) ← x.iterate events eventTime Instance.maxEventIterations
  modify fun st => { st with nextEventTime := states.nextEventTime }
  pure published

/-- `_Events.deliver`. -/
def deliverEach (events : Events) (eventTime : Int) :
    List (Arrived V) → Drive N V (List (Published V))
  | [] => pure []
  | message :: rest => do
      match events.inputs.lookup message.channel with
      | none => throw (.channel message.channel)
      | some payload => do
          x.activate payload message.data
          let published ← x.handle events eventTime
          let later ← deliverEach events eventTime rest
          pure (published ++ later)

/-- `_Events.require_next_event_reachable`. -/
def requireReachable (t dt : Int) (st : State N V) : Except SingleFailure Unit :=
  match declaredNs st.nextEventTime with
  | some declared =>
    if declared < t + dt then .error (.nextEvent st.nextEventTime declared t dt) else .ok ()
  | none => .ok ()

/-! ## The participant -/

def enterEventMode : Drive N V Unit :=
  onFmu .problem (x.native.call .enterEventMode (Native.statusOnly x.native.enterEventMode))

def enterStepMode : Drive N V Unit :=
  onFmu .problem (x.native.call .enterStepMode (Native.statusOnly x.native.enterStepMode))

/-- The event that ends initialization, if Event Mode is used. -/
def firstEvent : Drive N V Unit :=
  match x.events with
  | none => pure ()
  | some events => do
      let published ← x.handle events 0
      modify fun st => { st with pendingActivations := published }
      x.enterStepMode

/-- `FmuParticipant.on_init`, with the Channels bound. -/
def onInit : Drive N V Unit := do
  onFmu .problem (x.native.load x.events.isSome x.starts)
  x.firstEvent

/-- `FmuParticipant._deliver`. -/
def deliver (events : Events) (messages : List (Arrived V)) (t : Int) :
    Drive N V (List (Published V)) :=
  if messages.isEmpty = true then pure []
  else do
    x.enterEventMode
    let published ← x.deliverEach events t messages
    x.enterStepMode
    pure published

/-- The inputs of a Step are written in publish order. -/
def writeInput (message : Arrived V) : Drive N V Unit :=
  match x.inputs.lookup message.channel with
  | none => throw (.channel message.channel)
  | some groups => x.writeChannel groups message.data

/-- The outputs of a Step. -/
def readOutputs : List (String × List FieldGroup) → Drive N V (List (Published V))
  | [] => pure []
  | output :: rest => do
      let fields ← x.readChannel output.2
      let others ← readOutputs rest
      pure ((output.1, fields) :: others)

/-- The event at the end of a Step, if there is one. -/
def stepEvent (eventNeeded : Bool) (stop : Int) : Drive N V (List (Published V)) :=
  match x.events with
  | none => if eventNeeded = true then throw (.eventHandling stop) else pure []
  | some events => do
      let st ← get
      if eventNeeded = true ∨ declaredNs st.nextEventTime = some stop then do
        x.enterEventMode
        let published ← x.handle events stop
        x.enterStepMode
        pure published
      else pure []

/-- A declared event is not stepped past. -/
def requireNextEvent (t dt : Int) : Drive N V Unit := do
  let st ← get
  if x.events.isSome = true then check (requireReachable t dt st) else pure ()

/-- `FmuParticipant._step`. -/
def step (t : Int) (dt : Int) (inputs : List (Arrived V)) : Drive N V (List (Published V)) := do
  forM inputs x.writeInput
  x.requireNextEvent t dt
  let answer ← onFmu .problem (x.native.call .doStep (x.native.doStep (seconds t) (seconds dt)))
  let eventNeeded ← check ((Instance.completed (seconds t) (seconds dt) answer).mapError .driving)
  let published ← x.stepEvent eventNeeded (t + dt)
  let outputs ← x.readOutputs x.outputs
  pure (published ++ outputs)

/-- A Step of the kernel. -/
structure Activation (V : Type) where
  t : Int
  dt : Int
  inputs : List (Arrived V)

/-- `FmuParticipant.on_step`. -/
def onStep (a : Activation V) : Drive N V (List (Published V)) :=
  match x.events with
  | none => x.step a.t a.dt a.inputs
  | some events => do
      let st ← get
      if a.t = st.communicationPoint then do
        modify fun st => { st with pendingActivations := [] }
        -- `_split_activations`
        let receives (message : Arrived V) : Bool := (events.inputs.lookup message.channel).isSome
        let delivered ← x.deliver events (a.inputs.filter receives) a.t
        let stepped ← x.step a.t a.dt (a.inputs.filter fun message => !receives message)
        modify fun st => { st with communicationPoint := a.t + a.dt }
        pure (st.pendingActivations ++ delivered ++ stepped)
      else throw (.contiguity st.communicationPoint a.t)

/-- The Steps of a Run, after its initialization. -/
def run : List (Activation V) → Drive N V (List (List (Published V)))
  | [] => pure []
  | a :: rest => do
      let published ← x.onStep a
      let later ← run rest
      pure (published :: later)

/-- Before the FMU is loaded. -/
def unloaded (native : N) : State N V where
  fmu := .unloaded native
  nextEventTime := none
  pendingActivations := []
  communicationPoint := 0

/-- The FMU when a Run ends, with or without a failure. -/
def ended (steps : List (Activation V)) (native : N) : CoSimulation N :=
  match (do x.onInit; x.run steps) (unloaded native) with
  | .ok _ st => st.fmu
  | .error _ st => st.fmu

end Single

end SilFormal.Fmi
