import SilFormal.Library.Binary64
import SilFormal.Library.Wp

/-!
# The native side of an FMU

The co-simulation entry points the importer drives an FMU through, and the
buffers of its Clocks.  The behaviour behind an entry point is the FMU's own:
it is a program on a state of its own that answers or fails, and nothing else
is known of it.  Seconds are doubles.
-/

namespace SilFormal.Fmi

/-- The bytes of a Binary variable. -/
abbrev Bytes := List UInt8

/-- A value reference. -/
abbrev Reference := Nat

/-- `NS_PER_S`. -/
def nsPerS : Int := 1000000000

/-- The double of seconds that an instant in nanoseconds is given as,
`t / NS_PER_S`. -/
def seconds (t : Int) : ℚ :=
  Binary64.nearest ((t : ℚ) / nsPerS)

/-- `DiscreteStates`: what one `fmi3UpdateDiscreteStates` said about the event. -/
structure DiscreteStates where
  needUpdate : Bool
  terminate : Bool
  nextEventTime : Option ℚ
deriving DecidableEq, Repr

/-- What `fmi3DoStep` said about the interval. -/
structure StepAnswer where
  eventNeeded : Bool
  terminate : Bool
  earlyReturn : Bool
  lastSuccessfulTime : ℚ
deriving DecidableEq, Repr

/-- What `fmi3GetIntervalFraction` said about one Clock. -/
structure IntervalAnswer where
  counter : Nat
  resolution : Nat
  qualifier : Int
deriving DecidableEq, Repr

/-- The entry points of one FMU, over its states and what stands behind a
status other than OK. -/
structure Fmu (σ ε : Type) where
  enterEventMode : EStateM ε σ Unit
  enterStepMode : EStateM ε σ Unit
  doStep : ℚ → ℚ → EStateM ε σ StepAnswer
  getClock : Reference → EStateM ε σ Bool
  /-- Several Clocks are raised in one call; a Clock is never lowered. -/
  setClock : List Reference → EStateM ε σ Unit
  getBinary : Reference → EStateM ε σ Bytes
  setBinary : Reference → Bytes → EStateM ε σ Unit
  getIntervalFraction : Reference → EStateM ε σ IntervalAnswer
  updateDiscreteStates : EStateM ε σ DiscreteStates

/-- The diagnostics of driving one instance, by what each of them states. -/
inductive Failure (ε : Type)
  /-- An entry point answered a status other than OK. -/
  | status (name : String) (answer : ε)
  /-- `fmi3DoStep` requested termination. -/
  | stepTermination
  /-- `fmi3DoStep` left the end of an interval unstepped. -/
  | earlyReturn (last point size : ℚ)
  /-- `fmi3UpdateDiscreteStates` requested termination. -/
  | eventTermination (eventTime : Int)
  /-- One event asked for updates above the importer's bound. -/
  | eventIterations (eventTime : Int)
  /-- An interval qualifier FMI does not know. -/
  | qualifier (clock : String) (answer : Int)
  /-- An interval of resolution zero. -/
  | resolution (clock : String)
  /-- An interval that is no whole number of nanoseconds. -/
  | fraction (clock : String) (counter resolution : Nat)
  /-- A payload above the `maxSize` of the variable that receives it. -/
  | maxSize (transceiver binary : String) (size capacity : Nat)
  /-- A countdown Clock that asks for an instant already gone. -/
  | clockPassed (transceiver clock : String) (due instant : Int)
  /-- A declared event at an instant already gone. -/
  | eventPassed (name : String) (declared : Option ℚ) (declaredNs instant : Int)
deriving DecidableEq, Repr

/-! ## Countdown intervals -/

/-- The send side of a terminal: the Binary it sends and the Clock that gates
it. -/
structure SendSide (T : Type) where
  transceiver : T
  data : Reference
  clock : Reference
  clockName : String
deriving DecidableEq, Repr

/-- `CountdownBuffer`: the interval last stated, and the instant it ends at. -/
structure CountdownBuffer where
  intervalNs : Option Int
  dueNs : Option Int
deriving DecidableEq, Repr

/-- A buffer before the first event. -/
def CountdownBuffer.new : CountdownBuffer where
  intervalNs := none
  dueNs := none

variable {ε : Type}

/-- `CountdownBuffer._exact_ns`: the stated interval in whole nanoseconds. -/
def exactNs (clock : String) (answer : IntervalAnswer) : Except (Failure ε) Int :=
  if answer.resolution = 0 then .error (.resolution clock)
  else if (answer.counter * nsPerS) % answer.resolution ≠ 0 then
    .error (.fraction clock answer.counter answer.resolution)
  else .ok (answer.counter * nsPerS / answer.resolution)

/-- What `CountdownBuffer.refresh` makes of the answer of the FMU. -/
def CountdownBuffer.refreshed (b : CountdownBuffer) (clock : String) (answer : IntervalAnswer)
    (now : Int) : Except (Failure ε) CountdownBuffer :=
  -- `NotYetKnown`, `Changed`, `Unchanged`.
  if answer.qualifier = 0 then .ok { intervalNs := none, dueNs := none }
  else if answer.qualifier = 2 then do
    let interval ← exactNs clock answer
    .ok { intervalNs := some interval, dueNs := some (now + interval) }
  else if answer.qualifier = 1 then
    match b.dueNs, b.intervalNs with
    | none, some interval => .ok { b with dueNs := some (now + interval) }
    | _, _ => .ok b
  else .error (.qualifier clock answer.qualifier)

/-- `declared_ns`: a declared event time on the grid of the kernel. -/
def declaredNs (nextEventTime : Option ℚ) : Option Int :=
  nextEventTime.map fun time => Binary64.roundEven (Binary64.nearest (time * nsPerS))

end SilFormal.Fmi
