import SilFormal.Kernel.SubscriberRoute

/-!
# Routing: `Engine::publish` and `Engine::take`

The part of the engine that carries Messages from publishers to subscriber
routes and to the Recording.  Channels are looked up by name, as
`channel_or_fail` does, and a route is kept under the name of its owner and
of its Channel (a Manifest lists a Channel at most once per participant).

`recording` is the sequence of calls of the recording sink, and `trace` is a
history variable: the routing events of the Run in the order in which they
happen.  No function of the model reads either of them.
-/

namespace SilFormal.Kernel

/-- One call of `RecordingSink::record`. -/
structure Record where
  channel : String
  publishNs : Nat
  seq : Nat
  bytes : Bytes
deriving DecidableEq, Repr

/-- The events of a Run that the statements about it speak of. -/
inductive Event
  | activation (owner : String) (ns : Nat)
  | took (owner channel : String) (message : PendingMessage)
  | published (channel : String) (ns : Nat) (data : Bytes)
      (globalSeq : Nat) (outcome : Option Record)
  | enqueued (owner channel : String) (message : PendingMessage)
  | refused (owner channel : String) (message : PendingMessage)
deriving DecidableEq, Repr

/-- `Engine::ChannelState`: the schema's name and size, the channel sequence
number, the Run's own clone of the interceptor plan and the owners of the
subscriber routes in subscription order. -/
structure ChannelState where
  schema : String
  byteSize : Nat
  nextSeq : Nat
  plan : InterceptorPlan
  subscribers : List String
deriving DecidableEq, Repr

/-- The routing state of the engine.  `globalSeq` counts the publishes of the
Run; the `uint64_t` of the source is this number below `2 ^ 64` publishes. -/
structure Router where
  nowNs : Nat
  globalSeq : Nat
  channels : String → Option ChannelState
  routes : String → String → SubscriberRoute
  recording : List Record
  trace : List Event

namespace Router

/-- Append one event to the history. -/
def note (r : Router) (event : Event) : Router :=
  { r with trace := r.trace ++ [event] }

/-- Replace the state of one Channel. -/
def setChannel (r : Router) (name : String) (c : ChannelState) : Router :=
  { r with channels := fun n => if n = name then some c else r.channels n }

/-- Replace the route of one owner on one Channel. -/
def setRoute (r : Router) (owner channel : String) (route : SubscriberRoute) : Router :=
  { r with
    routes := fun o c =>
      if o = owner ∧ c = channel then route else r.routes o c }

/-- The diagnostic of an overflowing route under the policy `fail`. -/
def overflowText (publisher channel subscriber : String) (route : SubscriberRoute) : String :=
  "subscriber route capacity exceeded: Channel '" ++ channel ++
    "', publisher '" ++ publisher ++ "', subscriber '" ++ subscriber ++
    "', configured capacity " ++ toString (route.capacity.getD 0) ++
    ", current depth " ++ toString route.depth ++ ", policy 'fail'"

/-- The loop of `Engine::publish` over the routes of the Channel.  A refused
push under `fail` leaves the loop with its diagnostic; the routes served
before it keep the Message. -/
def pushAll (publisher channel : String) (message : PendingMessage) :
    List String → Router → Router × Option String
  | [], r => (r, none)
  | owner :: rest, r =>
    match (r.routes owner channel).push message with
    | (.enqueued, route) =>
      pushAll publisher channel message rest
        ((r.setRoute owner channel route).note
          (.enqueued owner channel message))
    | (.droppedNewest, _) =>
      pushAll publisher channel message rest
        (r.note (.refused owner channel message))
    | (.overflowFailure, _) =>
      (r.note (.refused owner channel message), some (overflowText publisher channel owner
          (r.routes owner channel)))

/-- The Channel after one publish of which the plan answered `outcome`: the
plan keeps its counters, and a surviving Message advances the 32-bit channel
sequence number. -/
def advanceChannel (c : ChannelState) (plan : InterceptorPlan) (survives : Bool) : ChannelState :=
  { c with
    plan := plan
    nextSeq := if survives then (c.nextSeq + 1) % 2 ^ 32 else c.nextSeq }

/-- The bookkeeping of one publish the plan has a verdict on: it consumes a
global sequence number, and a surviving Message goes to the Recording. -/
def stamp (r : Router) (channel : String) (c : ChannelState) (plan : InterceptorPlan) (data : Bytes)
    (outcome : Option Record) : Router :=
  ({ r with
      globalSeq := r.globalSeq + 1
      recording := r.recording ++ outcome.toList }.setChannel
    channel (advanceChannel c plan outcome.isSome)).note
    (.published channel r.nowNs data r.globalSeq outcome)

/-- `Engine::publish`.  The diagnostic is what the thrown error says; the
state is the one the throw leaves behind. -/
def publish (owner channel : String) (data : Bytes) (r : Router) : Router × Option String :=
  match r.channels channel with
  | none =>
    (r, some ("manifest error: participant '" ++ owner ++ "': unknown channel '" ++ channel ++ "'"))
  | some c =>
    if data.length ≠ c.byteSize then
      (r, some ("participant '" ++ owner ++ "' published " ++
        toString data.length ++ " bytes on '" ++ channel ++
        "' but schema '" ++ c.schema ++ "' is " ++
        toString c.byteSize ++ " bytes"))
    else
      match c.plan.apply r.nowNs data with
      | (plan, .outOfRange) =>
        (r.setChannel channel (advanceChannel c plan false),
          some "compiled interceptor override exceeds message bytes")
      | (plan, .verdict verdict bytes) =>
        if verdict.suppressed then
          (r.stamp channel c plan data none, none)
        else
          pushAll owner channel
            ⟨verdict.visibleNs, r.globalSeq, bytes⟩ c.subscribers
            (r.stamp channel c plan data
              (some ⟨channel, verdict.visibleNs, c.nextSeq, bytes⟩))

/-- `Engine::take` on the route of `owner` on `channel`. -/
def take (owner channel : String) (r : Router) : Option (PendingMessage × Router) :=
  match (r.routes owner channel).take r.nowNs with
  | none => none
  | some (message, route) =>
    some (message, (r.setRoute owner channel route).note (.took owner channel message))

end Router

/-- One input of a Step (`ProcessParticipant::StepInput`). -/
structure StepInput where
  channel : String
  publishNs : Nat
  bytes : Bytes
deriving DecidableEq, Repr

namespace Router

/-- One iteration of the inner loop of `ProcessParticipant::step`. -/
def better (owner : String) (r : Router) (best : Option String) (channel : String) :
    Option String :=
  if (r.routes owner channel).visibleAt r.nowNs then
    match best with
    | none => some channel
    | some b =>
      if (r.routes owner channel).frontSeq.getD 0 < (r.routes owner b).frontSeq.getD 0 then
        some channel
      else
        some b
  else
    best

/-- The inner loop of `ProcessParticipant::step`: among the visible inputs
the first one with the least global sequence number at its front. -/
def best (owner : String) (r : Router) (inputs : List String) : Option String :=
  inputs.foldl (r.better owner) none

/-- The merge loop of `ProcessParticipant::step`: visible inputs across the
Channels, in global publish order. -/
def merge (owner : String) (inputs : List String) : Nat → Router → List StepInput × Router
  | 0, r => ([], r)
  | fuel + 1, r =>
    match r.best owner inputs with
    | none => ([], r)
    | some channel =>
      match r.take owner channel with
      | none => ([], r)
      | some (message, r') =>
        (⟨channel, message.publishNs, message.bytes⟩ :: (merge owner inputs fuel r').1,
          (merge owner inputs fuel r').2)

/-- Enough iterations for the merge loop: every iteration takes a Message. -/
def mergeFuel (owner : String) (inputs : List String) (r : Router) : Nat :=
  (inputs.map fun channel => (r.routes owner channel).depth).sum

/-- All visible inputs of one Process participant. -/
def takeInputs (owner : String) (inputs : List String) (r : Router) : List StepInput × Router :=
  merge owner inputs (mergeFuel owner inputs r) r

end Router

end SilFormal.Kernel
