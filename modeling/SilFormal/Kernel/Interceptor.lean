import SilFormal.Kernel.VirtualTime

/-!
# Interceptor plans

The compiled interceptor plan of one Channel (`interceptor.hpp`,
`interceptor.cpp`).  Runtime evaluation has one entry point,
`InterceptorPlan.apply`, whose passes are kept in the order of the source:
drop and drop_nth, then delay, then the half-open run-duration truncation,
then override.
-/

namespace SilFormal.Kernel

/-- Payload bytes of a Message. -/
abbrev Bytes := List UInt8

/-- `InterceptorPlan::Kind`. -/
inductive InterceptorKind
  | drop
  | dropNth
  | delay
  | override
deriving DecidableEq, Repr

/-- `InterceptorPlan::Step`. -/
structure InterceptorStep where
  kind : InterceptorKind
  startNs : Nat
  endNs : Nat
  hasEnd : Bool
  parameter : Nat
  windowCount : Nat
  overrideOffset : Nat
  overrideBytes : Bytes
deriving DecidableEq, Repr

/-- The compiled plan: the run duration and the steps in declared order. -/
structure InterceptorPlan where
  durationNs : Nat
  steps : List InterceptorStep
deriving DecidableEq, Repr

/-- `InterceptorPlan::Verdict`. -/
structure Verdict where
  suppressed : Bool
  visibleNs : Nat
deriving DecidableEq, Repr

namespace InterceptorStep

/-- The half-open window test; it always uses the actual publish time. -/
def inWindow (step : InterceptorStep) (nowNs : Nat) : Bool :=
  decide (step.startNs ≤ nowNs) && (!step.hasEnd || decide (nowNs < step.endNs))

/-- The step after `++step.window_count` (a 64-bit counter). -/
def counted (step : InterceptorStep) : InterceptorStep :=
  { step with windowCount := (step.windowCount + 1) % 2 ^ 64 }

/-- Whether an override fits in a payload of `size` bytes. -/
def fits (step : InterceptorStep) (size : Nat) : Bool :=
  !(decide (step.overrideOffset > size) ||
    decide (step.overrideBytes.length > size - step.overrideOffset))

/-- `std::copy` of the override bytes to their offset. -/
def overwrite (step : InterceptorStep) (bytes : Bytes) : Bytes :=
  bytes.take step.overrideOffset ++ step.overrideBytes ++
    bytes.drop (step.overrideOffset + step.overrideBytes.length)

end InterceptorStep

/-- Drop decisions.  The answer says whether the Message is dropped; the
steps come back with the counters the pass advanced.  A dropped Message does
not reach the counters of later steps. -/
def dropPass (nowNs : Nat) : List InterceptorStep → Bool × List InterceptorStep
  | [] => (false, [])
  | step :: rest =>
    if step.inWindow nowNs then
      match step.kind with
      | .drop => (true, step :: rest)
      | .dropNth =>
        if step.counted.windowCount % step.parameter = 0 then
          (true, step.counted :: rest)
        else
          ((dropPass nowNs rest).1, step.counted :: (dropPass nowNs rest).2)
      | .delay | .override => ((dropPass nowNs rest).1, step :: (dropPass nowNs rest).2)
    else
      ((dropPass nowNs rest).1, step :: (dropPass nowNs rest).2)

/-- Delays compose in declared order and saturate at `UINT64_MAX`. -/
def delayPass (nowNs : Nat) : List InterceptorStep → Nat → Nat
  | [], visibleNs => visibleNs
  | step :: rest, visibleNs =>
    if step.kind = .delay ∧ step.inWindow nowNs = true then
      delayPass nowNs rest
        ((virtualTimeAfter visibleNs step.parameter).getD uint64Max)
    else
      delayPass nowNs rest visibleNs

/-- Overrides in declared order; `none` is the `std::out_of_range` of an
override that does not fit the payload. -/
def overridePass (nowNs : Nat) : List InterceptorStep → Bytes → Option Bytes
  | [], bytes => some bytes
  | step :: rest, bytes =>
    if step.kind = .override ∧ step.inWindow nowNs = true then
      if step.fits bytes.length then
        overridePass nowNs rest (step.overwrite bytes)
      else
        none
    else
      overridePass nowNs rest bytes

/-- What one application of a plan gives back: a verdict with the rewritten
bytes, or the exception of an override that does not fit. -/
inductive PlanAnswer
  | verdict (verdict : Verdict) (bytes : Bytes)
  | outOfRange
deriving DecidableEq, Repr

namespace InterceptorPlan

/-- The plan with other steps. -/
def withSteps (plan : InterceptorPlan) (steps : List InterceptorStep) : InterceptorPlan :=
  { plan with steps := steps }

/-- `InterceptorPlan::apply`. -/
def apply (plan : InterceptorPlan) (nowNs : Nat) (bytes : Bytes) : InterceptorPlan × PlanAnswer :=
  let dropped := dropPass nowNs plan.steps
  let plan' := plan.withSteps dropped.2
  if dropped.1 then
    (plan', .verdict ⟨true, nowNs⟩ bytes)
  else
    let visibleNs := delayPass nowNs plan.steps nowNs
    if visibleNs ≥ plan.durationNs then
      (plan', .verdict ⟨true, visibleNs⟩ bytes)
    else
      match overridePass nowNs plan.steps bytes with
      | none => (plan', .outOfRange)
      | some bytes' => (plan', .verdict ⟨false, visibleNs⟩ bytes')

/-- A clone for one Run: the counters start at zero. -/
def clone (plan : InterceptorPlan) : InterceptorPlan :=
  plan.withSteps
    (plan.steps.map fun step => { step with windowCount := 0 })

end InterceptorPlan

end SilFormal.Kernel
