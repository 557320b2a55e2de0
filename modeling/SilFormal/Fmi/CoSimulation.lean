import SilFormal.Fmi.Runtime

/-!
# An instance, and the calls made on it

Every entry point of an FMU answers a status, and the importer goes on after OK
only.  `CoSimulation` keeps whether an instance answered Error or Fatal, which
is what decides how it is closed.

The behaviour of the FMU behind its entry points is a parameter.  An FMI 3.0
FMU exports all of them.  The kernel may end a Run by a signal: the importer
is then unwound before the next call it would make, or, if the signal came
during a call, as soon as the call returns, before its answer is read.  Closing
ignores further signals.

The state carries the calls made on the instance with the statuses they were
answered with, which no decision reads.
-/

namespace SilFormal.Fmi

/-- `fmi3Status`. -/
inductive Status
  | ok
  | warning
  | discard
  | error
  | fatal
  /-- No status of FMI 3.0. -/
  | unknown (code : Int)
deriving DecidableEq, Repr

/-- The calls on an instance.  A write of a start value is told apart from one
of an input. -/
inductive Call
  | instantiate
  | enterConfigurationMode
  | exitConfigurationMode
  | startValue (structural : Bool) (variableName : String)
  | enterInitializationMode
  | exitInitializationMode
  | enterEventMode
  | enterStepMode
  | getClock
  | setClock
  | getIntervalFraction
  | updateDiscreteStates
  | setValues
  | getValues
  | setBinary
  | getBinary
  | doStep
  | terminate
  | freeInstance
deriving DecidableEq, Repr

/-- The entry points of an FMU, over the states of its native side and the
numbers that cross into it. -/
structure Native (N V : Type) where
  /-- The answer is whether an instance was returned, for `eventModeUsed`. -/
  instantiate : Bool → N → Bool × N
  enterConfigurationMode : N → Status × N
  exitConfigurationMode : N → Status × N
  /-- Without a tolerance, from time zero, without a stop time. -/
  enterInitializationMode : N → Status × N
  exitInitializationMode : N → Status × N
  enterEventMode : N → Status × N
  enterStepMode : N → Status × N
  getClock : Reference → N → (Status × Bool) × N
  setClock : List Reference → N → Status × N
  getIntervalFraction : Reference → N → (Status × IntervalAnswer) × N
  updateDiscreteStates : N → (Status × DiscreteStates) × N
  setValues : String → List Reference → List V → N → Status × N
  getValues : String → List Reference → N → (Status × List V) × N
  setBinary : List Reference → List Bytes → N → Status × N
  getBinary : List Reference → N → (Status × List Bytes) × N
  doStep : ℚ → ℚ → N → (Status × StepAnswer) × N
  terminate : N → Status × N
  freeInstance : N → N
  /-- A signal unwinds the importer before a call. -/
  signalled : N → Bool
  /-- A signal that came during a call unwinds the importer when it returns. -/
  interrupted : N → Bool

/-- What a start value is written as. -/
inductive StartData (V : Type)
  | binary (payload : Bytes)
  /-- The whole flattened value of a variable of a kind. -/
  | values (kind : String) (elements : List V)

/-- A declared start value. -/
structure StartValue (V : Type) where
  variableName : String
  /-- Its causality is `structuralParameter`. -/
  structural : Bool
  reference : Reference
  data : StartData V

/-- Why an instance is driven no further. -/
inductive Problem
  | status (call : Call) (answer : Status)
  /-- A status other than OK for a start value, with the state it is written in. -/
  | startValue (variableName state : String) (answer : Status)
  /-- `fmi3InstantiateCoSimulation` returned no instance. -/
  | noInstance
  /-- A signal. -/
  | interrupted
deriving DecidableEq, Repr

/-- `CoSimulation`, from before its constructor on. -/
structure CoSimulation (N : Type) where
  native : N
  /-- The constructor returned. -/
  created : Bool
  /-- `_instance` is not None. -/
  live : Bool
  /-- `_failed`. -/
  failed : Bool
  /-- The answer that a signal kept the importer from reading. -/
  unread : Option Status
  /-- The calls that were made, with their answers. -/
  calls : List (Call × Status)

/-- A call was answered: Error is remembered, and Fatal drops the handle. -/
def CoSimulation.answered {N : Type} (s : CoSimulation N) (c : Call) (status : Status)
    (native : N) : CoSimulation N where
  native := native
  created := s.created
  live := s.live && status ≠ .fatal
  failed := s.failed || status = .error
  unread := s.unread
  calls := s.calls ++ [(c, status)]

/-- Before the FMU is loaded. -/
def CoSimulation.unloaded {N : Type} (native : N) : CoSimulation N where
  native := native
  created := false
  live := false
  failed := false
  unread := none
  calls := []

/-- A call returned, and its answer is lost: an Error is not remembered, and a
Fatal does not drop the handle. -/
def CoSimulation.cut {N : Type} (s : CoSimulation N) (c : Call) (status : Status) (native : N) :
    CoSimulation N :=
  { s with native := native, unread := some status, calls := s.calls ++ [(c, status)] }

/-- No Error and no Fatal was lost. -/
def CoSimulation.Heard {N : Type} (s : CoSimulation N) : Prop :=
  s.unread ≠ some .error ∧ s.unread ≠ some .fatal

namespace Native

variable {N V α : Type} (n : Native N V)

/-- A call on the instance, and what its status means for it. -/
def invoke (c : Call) (fail : Status → Problem) (x : N → (Status × α) × N) :
    EStateM Problem (CoSimulation N) α := fun s =>
  let r := x s.native
  if r.1.1 = .ok then .ok r.1.2 (s.answered c r.1.1 r.2)
  else .error (fail r.1.1) (s.answered c r.1.1 r.2)

/-- A call, unless a signal comes before it or during it. -/
def attempt (c : Call) (fail : Status → Problem) (x : N → (Status × α) × N) :
    EStateM Problem (CoSimulation N) α := fun s =>
  if n.signalled s.native = true then .error .interrupted s
  else
    let r := x s.native
    if n.interrupted r.2 = true then .error .interrupted (s.cut c r.1.1 r.2)
    else invoke c fail x s

/-- `CoSimulation._call`, for a call that answers more than a status. -/
def call (c : Call) (x : N → (Status × α) × N) : EStateM Problem (CoSimulation N) α :=
  n.attempt c (.status c) x

/-- The status of a call that answers nothing else. -/
def statusOnly (x : N → Status × N) (m : N) : (Status × Unit) × N :=
  (((x m).1, ()), (x m).2)

/-- `CoSimulation.__init__`. -/
def create (eventMode : Bool) : EStateM Problem (CoSimulation N) Unit := fun s =>
  if n.signalled s.native = true then .error .interrupted s
  else
    let r := n.instantiate eventMode s.native
    if n.interrupted r.2 = true then
      -- The handle of an instance is lost with the answer.
      .error .interrupted { s with
        native := r.2, calls := s.calls ++ if r.1 = true then [(.instantiate, .ok)] else [] }
    else if r.1 = true then
      .ok () { s with
        native := r.2, created := true, live := true, calls := s.calls ++ [(.instantiate, .ok)] }
    else .error .noInstance { s with native := r.2 }

/-- `CoSimulation._write_start_value`. -/
def writeStart (v : StartValue V) (m : N) : Status × N :=
  match v.data with
  | .binary payload => n.setBinary [v.reference] [payload] m
  | .values kind elements => n.setValues kind [v.reference] elements m

/-- `CoSimulation._write_start_values`. -/
def writeStartValues (starts : List (StartValue V)) (state : String) :
    EStateM Problem (CoSimulation N) Unit :=
  forM starts fun v =>
    n.attempt (.startValue v.structural v.variableName) (.startValue v.variableName state)
      (statusOnly (n.writeStart v))

/-- `CoSimulation.apply_start_values`. -/
def applyStartValues (starts : List (StartValue V)) : EStateM Problem (CoSimulation N) Unit := do
  let structural := starts.filter (·.structural)
  if structural = [] then pure ()
  else do
    n.call .enterConfigurationMode (statusOnly n.enterConfigurationMode)
    n.writeStartValues structural "in Configuration Mode, before initialization"
    n.call .exitConfigurationMode (statusOnly n.exitConfigurationMode)
  n.writeStartValues (starts.filter fun v => !v.structural)
    "in the instantiated state, before initialization"

/-- `CoSimulation.initialize`. -/
def initializeFmu : EStateM Problem (CoSimulation N) Unit := do
  n.call .enterInitializationMode (statusOnly n.enterInitializationMode)
  n.call .exitInitializationMode (statusOnly n.exitInitializationMode)

/-- The FMU is loaded, configured and initialized. -/
def load (eventMode : Bool) (starts : List (StartValue V)) :
    EStateM Problem (CoSimulation N) Unit := do
  n.create eventMode
  n.applyStartValues starts
  n.initializeFmu

/-- The entry points a group drives an instance through. -/
def fmu : Fmu (CoSimulation N) Problem where
  enterEventMode := n.call .enterEventMode (statusOnly n.enterEventMode)
  enterStepMode := n.call .enterStepMode (statusOnly n.enterStepMode)
  doStep point size := n.call .doStep (n.doStep point size)
  getClock clock := n.call .getClock (n.getClock clock)
  setClock clocks := n.call .setClock (statusOnly (n.setClock clocks))
  getBinary data := (fun payloads => payloads.headD []) <$> n.call .getBinary (n.getBinary [data])
  setBinary data payload := n.call .setBinary (statusOnly (n.setBinary [data] [payload]))
  getIntervalFraction clock := n.call .getIntervalFraction (n.getIntervalFraction clock)
  updateDiscreteStates := n.call .updateDiscreteStates n.updateDiscreteStates

/-! ## Closing -/

/-- `fmi3FreeInstance`, unless a call answered Fatal.  It answers nothing, which
is noted as OK. -/
def free (s : CoSimulation N) : CoSimulation N :=
  if s.live = true then
    { s with
      native := n.freeInstance s.native
      live := false
      calls := s.calls ++ [(.freeInstance, .ok)] }
  else s

/-- `CoSimulation.close`. -/
def close : EStateM Problem (CoSimulation N) Unit := fun s =>
  if s.live = true then
    if s.failed = true then .ok () (n.free s)
    else
      match invoke .terminate (.status .terminate) (statusOnly n.terminate) s with
      | .ok _ s' => .ok () (n.free s')
      | .error e s' => .error e (n.free s')
  else .ok () s

end Native

end SilFormal.Fmi
