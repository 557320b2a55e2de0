import SilFormal.Kernel.Activation

/-!
# From a Manifest to an engine: the constructor and `Engine::setup`

`Manifest` is a loaded Manifest together with the code of its participants.
What the recorded file, the shared library or the child process contribute is
already resolved: a Native participant lists the routes and Tasks its init
registers, a Replay participant the Messages of its Recording in stored order.
-/

namespace SilFormal.Kernel

universe u

/-- `SubscriberRouteSpec`. -/
structure SubscriberRouteSpec where
  channel : String
  capacity : Option Nat
  overflow : OverflowPolicy
deriving DecidableEq, Repr

/-- `ChannelSpec`, with the size of its schema and its compiled plan. -/
structure ChannelSpec where
  name : String
  schema : String
  byteSize : Nat
  latencyNs : Option Nat
  interceptorPlan : InterceptorPlan
deriving DecidableEq, Repr

/-- One call of `register_task` by a Native participant. -/
structure TaskSpec (σ : Type u) where
  name : String
  periodNs : Nat
  offsetNs : Nat
  priority : Int
  fn : Nat → σ → NativeCode σ

/-- The three kinds of participants. -/
inductive ParticipantImpl (σ : Type u) where
  | native
      (subscribes : List SubscriberRouteSpec) (publishes : List String)
      (tasks : List (TaskSpec σ))
  | process
      (stepPeriodNs : Nat) (subscribes : List SubscriberRouteSpec)
      (publishes : List String) (priority : Int)
      (step : Nat → Nat → σ → List StepInput → StepReply σ)
      (shutdown : σ → Option String)
  | replay
      (channels : List String) (priority : Option Int)
      (recording : List RecordedMessage)

/-- `ParticipantSpec`. -/
structure ParticipantSpec (σ : Type u) where
  name : String
  impl : ParticipantImpl σ

namespace ParticipantSpec

variable {σ : Type u}

def subscribes (p : ParticipantSpec σ) : List SubscriberRouteSpec :=
  match p.impl with
  | .native subscribes _ _ => subscribes
  | .process _ subscribes _ _ _ _ => subscribes
  | .replay _ _ _ => []

def publishes (p : ParticipantSpec σ) : List String :=
  match p.impl with
  | .native _ publishes _ => publishes
  | .process _ _ publishes _ _ _ => publishes
  | .replay channels _ _ => channels

end ParticipantSpec

/-- `Manifest`: Channels and participants in name order, and the state each
participant's code starts in. -/
structure Manifest (σ : Type u) where
  durationNs : Nat
  channels : List ChannelSpec
  participants : List (ParticipantSpec σ)
  initial : String → σ
  limits : RunBoundaryLimits

namespace Manifest

variable {σ : Type u}

/-- `validate_one_publisher_per_channel`. -/
def onePublisherPerChannel (m : Manifest σ) : Bool :=
  decide (m.participants.flatMap ParticipantSpec.publishes).Nodup

/-- The declared contract of a participant. -/
def contract (m : Manifest σ) (owner : String) : Contract :=
  match m.participants.find? (fun p => p.name == owner) with
  | none => ⟨[], []⟩
  | some p => ⟨p.subscribes.map SubscriberRouteSpec.channel, p.publishes⟩

/-- Owners of the routes of a Channel, in the order of their `subscribe`
calls. -/
def subscribers (m : Manifest σ) (channel : String) : List String :=
  (m.participants.filter fun p =>
    decide (channel ∈ p.subscribes.map SubscriberRouteSpec.channel)).map
    ParticipantSpec.name

/-- The Channel as the engine's constructor leaves it: a clone of the plan
and the routes of the subscribers. -/
def channelState (m : Manifest σ) (name : String) : Option ChannelState :=
  (m.channels.find? fun c => c.name == name).map fun c =>
    ⟨c.schema, c.byteSize, 0, c.interceptorPlan.clone, m.subscribers name⟩

/-- The route `subscribe` creates for one owner on one Channel. -/
def route (m : Manifest σ) (owner channel : String) : SubscriberRoute :=
  match (m.participants.find? fun p => p.name == owner).bind fun p =>
      p.subscribes.find? fun s => s.channel == channel with
  | none => ⟨none, none, .fail, []⟩
  | some s =>
    ⟨((m.channels.find? fun c => c.name == channel).bind
        ChannelSpec.latencyNs), s.capacity, s.overflow, []⟩

/-- The routing state before the Run. -/
def router (m : Manifest σ) : Router where
  nowNs := 0
  globalSeq := 0
  channels := m.channelState
  routes := m.route
  recording := []
  trace := []

end Manifest

namespace Engine

variable {σ : Type u}

/-- The engine as its constructor leaves it. -/
def create (m : Manifest σ) : Engine σ where
  durationNs := m.durationNs
  contracts := m.contract
  limits := m.limits
  router := m.router
  states := m.initial
  tasks := []
  replayers := []
  processes := []
  nextRegistrationIndex := 0
  failure := none
  slots := []
  activations := []

/-- The calls of `register_task` of one Native participant. -/
def registerTasks (owner : String) : List (TaskSpec σ) → Engine σ → Option (Engine σ)
  | [], e => some e
  | t :: rest, e =>
    match e.addTask owner t.name t.periodNs t.offsetNs t.priority
        (.native t.fn) with
    | none => none
    | some e' => registerTasks owner rest e'

/-- One iteration of the loop of `setup`. -/
def addParticipant (p : ParticipantSpec σ) (e : Engine σ) : Option (Engine σ) :=
  match p.impl with
  | .native _ _ tasks => registerTasks p.name tasks e
  | .process stepPeriodNs _ _ priority step shutdown =>
    match e.addTask p.name "step" stepPeriodNs 0 priority
        (.process step) with
    | none => none
    | some e' => some { e' with processes := e'.processes ++ [(p.name, shutdown)] }
  | .replay channels priority recording => some (e.addReplayer p.name priority channels recording)

/-- The loop of `setup` over the participants. -/
def addParticipants : List (ParticipantSpec σ) → Engine σ → Option (Engine σ)
  | [], e => some e
  | p :: rest, e =>
    match addParticipant p e with
    | none => none
    | some e' => addParticipants rest e'

/-- The constructor and `Engine::setup`; `none` is a Manifest error. -/
def setup (m : Manifest σ) : Option (Engine σ) :=
  if m.onePublisherPerChannel then
    addParticipants m.participants (create m)
  else
    none

end Engine

/-- Whether a participant is a Replay participant. -/
def ParticipantSpec.isReplay {σ : Type u} (p : ParticipantSpec σ) : Bool :=
  match p.impl with
  | .replay _ _ _ => true
  | _ => false

/-- What `load_manifest` guarantees of every accepted document, as far as a
Run depends on it: times are 64-bit, names are keys of JSON objects, a
participant lists a Channel at most once, and a Replay participant at least one. -/
structure Manifest.Loaded {σ : Type u} (m : Manifest σ) : Prop where
  duration_le : m.durationNs ≤ uint64Max
  participant_names : (m.participants.map ParticipantSpec.name).Nodup
  channel_names : (m.channels.map ChannelSpec.name).Nodup
  subscribes_once : ∀ p ∈ m.participants, (p.subscribes.map SubscriberRouteSpec.channel).Nodup
  plan_duration : ∀ c ∈ m.channels, c.interceptorPlan.durationNs = m.durationNs
  replay_channels : ∀ p ∈ m.participants, p.isReplay = true → p.publishes ≠ []

end SilFormal.Kernel
