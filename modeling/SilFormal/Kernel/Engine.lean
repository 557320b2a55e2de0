import SilFormal.Library.Loop
import SilFormal.Kernel.Participant

/-!
# The run loop: `Engine::run`

Tasks, Replay participants and the loop that steps virtual time (`engine.hpp`,
`engine.cpp`, `replayer.cpp`).  One iteration selects the earliest pending
instant, opens a Slot at it, publishes for the Replay participants without a
priority, and then serves the due Tasks and the prioritised Replay
participants in the order of priority and registration index.

`slots` and `activations` are history variables: the successive values of
`now_ns_`, and the activations with the registration index of their Task.
-/

namespace SilFormal.Kernel

universe u

/-- `Engine::Task`. -/
structure Task (σ : Type u) where
  owner : String
  name : String
  periodNs : Nat
  nextNs : Nat
  priority : Int
  registrationIndex : Nat
  fn : TaskFn σ
  done : Bool

/-- One Message of a Recording, as the reader hands it over. -/
structure RecordedMessage where
  publishNs : Nat
  channel : String
  bytes : Bytes
deriving DecidableEq, Repr

/-- A recorded Message as a reader of the Recording finds it. -/
def Record.toMessage (record : Record) : RecordedMessage :=
  ⟨record.publishNs, record.channel, record.bytes⟩

/-- The Recording of a Run in stored order. -/
def Router.messages (r : Router) : List RecordedMessage :=
  r.recording.map Record.toMessage

/-- `Replayer` with its `ReplayPlace`.  `reader` is what is left of the one
pass over the Recording in stored order, the current Message first. -/
structure Replayer where
  name : String
  priority : Option Int
  registrationIndex : Nat
  channels : List String
  durationNs : Nat
  reader : List RecordedMessage
deriving DecidableEq, Repr

namespace Replayer

/-- Whether a recorded Message is replayed at all. -/
def selects (r : Replayer) (m : RecordedMessage) : Bool :=
  decide (m.channel ∈ r.channels) && decide (m.publishNs < r.durationNs)

/-- `skip_unreplayed`. -/
def skipUnreplayed (r : Replayer) : Replayer :=
  { r with reader := r.reader.dropWhile fun m => !r.selects m }

/-- `next_publish_ns`. -/
def nextPublishNs (r : Replayer) : Nat :=
  match r.reader with
  | [] => uint64Max
  | m :: _ => m.publishNs

/-- The loop of `publish_due` from a given position of the pass.  Messages
that are not replayed are skipped, and an error of the publish leaves the
pass where it stands. -/
def publishFrom (r : Replayer) (nowNs : Nat) :
    List RecordedMessage → Router → List RecordedMessage × Router × Option String
  | [], router => ([], router, none)
  | m :: rest, router =>
    if r.selects m then
      if m.publishNs = nowNs then
        match router.publish r.name m.channel m.bytes with
        | (router', none) => r.publishFrom nowNs rest router'
        | (router', some text) => (m :: rest, router', some text)
      else
        (m :: rest, router, none)
    else
      r.publishFrom nowNs rest router

/-- `publish_due`. -/
def publishDue (r : Replayer) (router : Router) : Replayer × Router × Option String :=
  let out := r.publishFrom router.nowNs r.reader router
  ({ r with reader := out.1 }, out.2.1, out.2.2)

end Replayer

/-- The engine between `setup` and the end of `run`.  `shutdown` answers the
diagnostic of a child process that ends with a bad status. -/
structure Engine (σ : Type u) where
  durationNs : Nat
  contracts : String → Contract
  limits : RunBoundaryLimits
  router : Router
  states : String → σ
  tasks : List (Task σ)
  replayers : List Replayer
  processes : List (String × (σ → Option String))
  nextRegistrationIndex : Nat
  failure : Option RunError
  slots : List Nat
  activations : List (Nat × Nat)

/-- An entry of the due list of a Slot. -/
inductive Due (σ : Type u) where
  | task (t : Task σ)
  | replay (r : Replayer)

namespace Due

variable {σ : Type u}

def priority : Due σ → Int
  | .task t => t.priority
  | .replay r => r.priority.getD 0

def registrationIndex : Due σ → Nat
  | .task t => t.registrationIndex
  | .replay r => r.registrationIndex

/-- The order of `std::sort` in the run loop. -/
def before (a b : Due σ) : Prop :=
  a.priority < b.priority ∨ (a.priority = b.priority ∧ a.registrationIndex ≤ b.registrationIndex)

instance : DecidableRel (before (σ := σ)) := by
  intro a b
  unfold before
  infer_instance

end Due

namespace Task

variable {σ : Type u}

/-- The end of an activation: the next one, or the end of the Task. -/
def advance (durationNs : Nat) (t : Task σ) : Task σ :=
  match virtualTimeAfter t.nextNs t.periodNs with
  | none => { t with done := true }
  | some nextNs =>
    if nextNs ≥ durationNs then { t with done := true }
    else { t with nextNs := nextNs }

end Task

namespace Engine

variable {σ : Type u}

/-- `Engine::add_task`; a Task without a period is a Manifest error. -/
def addTask (e : Engine σ) (owner name : String) (periodNs offsetNs : Nat) (priority : Int)
    (fn : TaskFn σ) : Option (Engine σ) :=
  if periodNs = 0 then none
  else
    some { e with
      tasks := e.tasks ++ [{
        owner := owner
        name := name
        periodNs := periodNs
        nextNs := offsetNs
        priority := priority
        registrationIndex := e.nextRegistrationIndex
        fn := fn
        done := decide (offsetNs ≥ e.durationNs) }]
      nextRegistrationIndex := e.nextRegistrationIndex + 1 }

/-- The Replay branch of `Engine::setup`: the pass starts at the first
replayed Message. -/
def addReplayer (e : Engine σ) (name : String) (priority : Option Int) (channels : List String)
    (recording : List RecordedMessage) : Engine σ :=
  { e with
    replayers := e.replayers ++ [({
          name := name
          priority := priority
          registrationIndex := e.nextRegistrationIndex
          channels := channels
          durationNs := e.durationNs
          reader := recording } : Replayer).skipUnreplayed]
    nextRegistrationIndex := e.nextRegistrationIndex + 1 }

/-- Slot selection: the least pending instant, or the sentinel. -/
def slot (e : Engine σ) : Nat :=
  (e.replayers.map Replayer.nextPublishNs).foldl min
    (((e.tasks.filter fun t => !t.done).map Task.nextNs).foldl min uint64Max)

/-- The due list before sorting: the due Tasks and every Replay participant
with a priority. -/
def dueAt (e : Engine σ) (slot : Nat) : List (Due σ) :=
  (e.tasks.filter fun t => !t.done && t.nextNs == slot).map .task ++
    (e.replayers.filter fun r => r.priority.isSome).map .replay

/-- The work of one Slot in the order in which it is done. -/
def agenda (e : Engine σ) (slot : Nat) : List (Due σ) :=
  (e.replayers.filter fun r => r.priority.isNone).map .replay ++
    (e.dueAt slot).insertionSort Due.before

/-- `now_ns_ = slot`. -/
def openSlot (e : Engine σ) (slot : Nat) : Engine σ :=
  { e with
    router := { e.router with nowNs := slot }
    slots := e.slots ++ [slot] }

/-- `publish_due` of one Replay participant inside a Slot. -/
def replay (e : Engine σ) (r : Replayer) : Engine σ :=
  let out := r.publishDue e.router
  { e with
    router := out.2.1
    replayers := e.replayers.map fun r' =>
      if r'.registrationIndex = r.registrationIndex then out.1 else r'
    failure := out.2.2.map fun text => ⟨text, none, none⟩ }

/-- `t->fn(slot)`. -/
def call (e : Engine σ) (t : Task σ) : Router × Option RunError × Option σ :=
  let router := e.router.note (.activation t.owner e.router.nowNs)
  match t.fn with
  | .native fn =>
    runNative t.owner (e.contracts t.owner)
      (fn e.router.nowNs (e.states t.owner)) router none
  | .process step =>
    runProcess t.owner (e.contracts t.owner) e.limits t.periodNs step
      (e.states t.owner) router

/-- One activation; a failed one leaves the Task where it is. -/
def activate (e : Engine σ) (t : Task σ) : Engine σ :=
  let out := e.call t
  { e with
    router := out.1
    states := fun o =>
      if o = t.owner then out.2.2.getD (e.states o) else e.states o
    tasks :=
      if out.2.1.isSome then e.tasks
      else e.tasks.map fun t' =>
        if t'.registrationIndex = t.registrationIndex then
          t'.advance e.durationNs
        else t'
    failure := out.2.1
    activations := e.activations ++ [(t.registrationIndex, e.router.nowNs)] }

/-- One entry of the due list; nothing happens after a failure. -/
def execute (e : Engine σ) (d : Due σ) : Engine σ :=
  if e.failure.isSome then e
  else
    match d with
    | .task t => e.activate t
    | .replay r => e.replay r

/-- One iteration of the run loop at a given Slot. -/
def runSlot (e : Engine σ) (slot : Nat) : Engine σ :=
  (e.agenda slot).foldl execute (e.openSlot slot)

/-- The loop leaves when no instant is pending, or with a failure. -/
def step (e : Engine σ) : Option (Engine σ) :=
  if e.failure.isSome then none
  else if e.slot = uint64Max then none
  else some (e.runSlot e.slot)

/-- Pending work of one Task. -/
def taskMeasure (durationNs : Nat) (t : Task σ) : Nat :=
  if t.done then 0 else durationNs - t.nextNs

/-- The fuel of a Run.  Every iteration without a failure uses some of the
pending work, and an iteration with a failure is the last one. -/
def measure (e : Engine σ) : Nat :=
  if e.failure.isSome then 0
  else
    (e.tasks.map (taskMeasure e.durationNs)).sum +
      (e.replayers.map fun r => r.reader.length).sum + 1

/-- The end of `run`: every child process is shut down. -/
def shutdown (e : Engine σ) : Engine σ :=
  if e.failure.isSome then e
  else
    match e.processes.findSome? (fun p =>
        (p.2 (e.states p.1)).map fun text => (p.1, text)) with
    | none => e
    | some (owner, text) => { e with failure := some ⟨text, some owner, none⟩ }

/-- The loop of `Engine::run`. -/
def loop (e : Engine σ) : Engine σ :=
  Loop.run step e.measure e

/-- `Engine::run`. -/
def run (e : Engine σ) : Engine σ :=
  e.loop.shutdown

/-- A Run that ends without a failure. -/
def Completes (e : Engine σ) : Prop :=
  e.run.failure = none

instance (e : Engine σ) : Decidable e.Completes :=
  inferInstanceAs (Decidable (e.run.failure = none))

end Engine

end SilFormal.Kernel
