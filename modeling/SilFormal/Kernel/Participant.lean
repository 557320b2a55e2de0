import SilFormal.Kernel.Router

/-!
# Activations of Native and Process participants

A Task callback is code of the participant.  A Native participant reaches the
kernel only through the C ABI, so its callback is a program over the calls of
`sil_api_v1` that are valid inside a Task (`native_participant.cpp`).  A
Process participant is driven by `ProcessParticipant::step`: the kernel takes
all visible inputs, exchanges one Step with the child and publishes the
outputs of its answer (`process_participant.cpp`).

`σ` is the participant's own state.
-/

namespace SilFormal.Kernel

universe u

/-- A failed Run: the diagnostic, and the participant and instant of a
failure that a participant is charged with. -/
structure RunError where
  message : String
  participant : Option String
  virtualTimeNs : Option Nat
deriving DecidableEq, Repr

/-- Answer of the ABI call `take`: 1 with a payload, 0, or `SIL_ERR`. -/
inductive TakeReply
  | message (bytes : Bytes)
  | nothing
  | error
deriving DecidableEq, Repr

/-- A Native Task callback: a program over the ABI calls.  `publish` answers
whether the call returned `SIL_OK`. -/
inductive NativeCode (σ : Type u) where
  | ret (state : σ)
  | take (channel : String) (resume : TakeReply → NativeCode σ)
  | publish (channel : String) (data : Bytes) (resume : Bool → NativeCode σ)
  | fail (reason : String) (resume : NativeCode σ)

/-- The Channel contract the Manifest declares for one participant. -/
structure Contract where
  subscribes : List String
  publishes : List String
deriving DecidableEq, Repr

/-- One output of a Step, with whether its payload crossed inline. -/
structure StepOutput where
  channel : String
  bytes : Bytes
  isInline : Bool
deriving DecidableEq, Repr

/-- What the child answers to a Step: `step_done`, `fail` with a reason, or
no well-formed answer, for which `message` is the diagnostic. -/
inductive StepReply (σ : Type u) where
  | stepDone (state : σ) (outputs : List StepOutput)
  | failed (reason : String)
  | broken (message : String)

/-- `RunBoundaryLimits`, as far as a decoded Step is checked against them. -/
structure RunBoundaryLimits where
  maxStepOutputMessages : Nat := 1024
  maxStepInlinePayloadBytes : Nat := 64 * 1024 * 1024
deriving DecidableEq, Repr

/-- The code behind a Task: `Task::fn` together with the kind of its owner. -/
inductive TaskFn (σ : Type u) where
  | native (fn : Nat → σ → NativeCode σ)
  | process (step : Nat → Nat → σ → List StepInput → StepReply σ)

section Native

variable {σ : Type u}

/-- `Engine::fail`: the first failure is kept. -/
def keepFirst (owner : String) (nowNs : Nat) (failure : Option RunError) (reason : String) :
    Option RunError :=
  match failure with
  | some first => some first
  | none =>
    some ⟨"participant '" ++ owner ++ "' failed: " ++ reason, some owner, some nowNs⟩

/-- One Native activation (`NativeApiBridge`).  Errors of the service calls
are contained: they become the first failure and the error return of the
call, and the callback goes on. -/
def runNative (owner : String) (contract : Contract) :
    NativeCode σ → Router → Option RunError → Router × Option RunError × Option σ
  | .ret state, r, failure => (r, failure, some state)
  | .take channel resume, r, failure =>
    if channel ∈ contract.subscribes then
      match r.take owner channel with
      | none => runNative owner contract (resume .nothing) r failure
      | some (message, r') =>
        runNative owner contract (resume (.message message.bytes)) r'
          failure
    else
      runNative owner contract (resume .error) r
        (keepFirst owner r.nowNs failure
          ("take on unsubscribed channel '" ++ channel ++ "'"))
  | .publish channel data resume, r, failure =>
    if channel ∈ contract.publishes then
      match r.publish owner channel data with
      | (r', none) => runNative owner contract (resume true) r' failure
      | (r', some text) =>
        runNative owner contract (resume false) r'
          (keepFirst owner r.nowNs failure text)
    else
      runNative owner contract (resume false) r
        (keepFirst owner r.nowNs failure
          ("channel '" ++ channel ++ "' is not a declared output"))
  | .fail reason resume, r, failure =>
    runNative owner contract resume r
      (keepFirst owner r.nowNs failure reason)

end Native

section Process

variable {σ : Type u}

/-- Decoded size of the inline payloads of one Step. -/
def inlinePayloadBytes (outputs : List StepOutput) : Nat :=
  (outputs.map fun o => if o.isInline then o.bytes.length else 0).sum

/-- `step_context` after a Step was sent.  A Process steps at every multiple of
its period, so `steps_sent_ - 1` is the quotient. -/
def stepContext (periodNs nowNs : Nat) : String :=
  " during Step " ++ toString (nowNs / periodNs) ++ " at virtual time " ++ toString nowNs ++ " ns"

/-- The guards of `decode_step_done`, in their order: the number of outputs,
the declared Channels, the inline budget. -/
def checkOutputs (owner : String) (contract : Contract) (limits : RunBoundaryLimits)
    (periodNs nowNs : Nat) (outputs : List StepOutput) : Option RunError :=
  if outputs.length > limits.maxStepOutputMessages then
    some ⟨"participant '" ++ owner ++
      "': maximum output-Message count per Step exceeded during Step " ++
      "at virtual time " ++ toString nowNs ++ " ns: configured " ++
      toString limits.maxStepOutputMessages ++ " Messages, observed " ++
      toString outputs.length ++ " Messages", some owner, some nowNs⟩
  else
    match outputs.find? (fun o => decide (o.channel ∉ contract.publishes)) with
    | some o =>
      some ⟨"participant '" ++ owner ++
        "' failed: published on undeclared channel '" ++ o.channel ++ "'" ++
        stepContext periodNs nowNs, some owner, some nowNs⟩
    | none =>
      if inlinePayloadBytes outputs > limits.maxStepInlinePayloadBytes then
        some ⟨"participant '" ++ owner ++
          "': maximum total inline payload bytes per Step exceeded " ++
          "during Step at virtual time " ++ toString nowNs ++
          " ns: configured " ++
          toString limits.maxStepInlinePayloadBytes ++
          " bytes, observed " ++ toString (inlinePayloadBytes outputs) ++
          " bytes", some owner, some nowNs⟩
      else
        none

/-- The publish loop of a Step; an error leaves it. -/
def publishOutputs (owner : String) : List StepOutput → Router → Router × Option RunError
  | [], r => (r, none)
  | output :: rest, r =>
    match r.publish owner output.channel output.bytes with
    | (r', none) => publishOutputs owner rest r'
    | (r', some text) => (r', some ⟨text, none, none⟩)

/-- The second half of `ProcessParticipant::step`: the answer of the child is
decoded and its outputs are published. -/
def settleStep (owner : String) (contract : Contract) (limits : RunBoundaryLimits)
    (periodNs nowNs : Nat) (reply : StepReply σ) (r : Router) :
    Router × Option RunError × Option σ :=
  match reply with
  | .failed reason =>
    (r, some ⟨"participant '" ++ owner ++ "' failed: " ++ reason, some owner, some nowNs⟩, none)
  | .broken message => (r, some ⟨message, some owner, some nowNs⟩, none)
  | .stepDone state outputs =>
    match checkOutputs owner contract limits periodNs nowNs outputs with
    | some error => (r, some error, none)
    | none =>
      ((publishOutputs owner outputs r).1, (publishOutputs owner outputs r).2, some state)

/-- One Process Step (`ProcessParticipant::step`). -/
def runProcess (owner : String) (contract : Contract) (limits : RunBoundaryLimits) (periodNs : Nat)
    (step : Nat → Nat → σ → List StepInput → StepReply σ) (state : σ) (r : Router) :
    Router × Option RunError × Option σ :=
  settleStep owner contract limits periodNs r.nowNs
    (step r.nowNs periodNs state (r.takeInputs owner contract.subscribes).1)
    (r.takeInputs owner contract.subscribes).2

end Process

end SilFormal.Kernel
