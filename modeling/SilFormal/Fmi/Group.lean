import SilFormal.Fmi.Terminals

/-!
# Connected FMUs, coordinated at communication points of their own

The interval one Step declares is covered in sub-intervals ending at every
instant an instance asked for and at every instant an arrived Message states.
At each of them the activations propagate between the FMUs until the instant
stops producing.

The state of a group carries a history that no decision reads: the
communication points, the sub-intervals each instance was stepped over, and
what was handed to which terminal.
-/

namespace SilFormal.Fmi

variable {I T α : Type} {σ ε : I → Type}

/-- What happens in a group. -/
inductive Event (I T : Type) (σ : I → Type)
  /-- The group stands on an instant. -/
  | point (instant : Int)
  /-- An instance is stepped over a sub-interval. -/
  | stepped (i : I) (start stop : Int) (before : Instance.State T (σ i))
  /-- A terminal is handed one payload at the instant that is settled, made of
  parts.  A part that came with a Message names its position among the arrived
  ones. -/
  | handed (x : T) (instant : Int) (parts : List (Option Nat × Bytes))
  /-- An instance handled an event. -/
  | handled (i : I) (instant : Int) (before after : Instance.State T (σ i))

/-- `_Pending`: one event the group owes an instance at the instant it is
settling. -/
inductive Pending (I T : Type)
  | event (i : I)
  | activation (x : T) (payload : Bytes) (origin : Option Nat)
deriving DecidableEq, Repr

/-- The diagnostics a group ends a Run with: those of the instance that was
driven, and its own. -/
inductive GroupFailure (I : Type) (ε : I → Type)
  | member (i : I) (failure : Failure (ε i))
  /-- A payload above the bound of the Channel that observes it. -/
  | observation (binary field : String) (size capacity : Nat)
  /-- A Message that declares more bytes than its field carries. -/
  | injection (binary field lengthField : String) (length capacity : Nat)
  /-- A Message on a Channel that is handed to no terminal. -/
  | channel (name : String)
  /-- A Message stating an instant its Step does not reach. -/
  | unreachable (channel transceiver : String) (instant start stop : Int)
  /-- One instant handed on activations above the importer's bound. -/
  | propagations (instant : Int)
  /-- A Step that does not continue where the last one ended. -/
  | contiguity (standing t : Int)

/-- `Observation.message`, padded to the bound of the Channel. -/
def Observation.message (o : Observation) (payload : Bytes) (eventTime : Int) :
    Except (GroupFailure I ε) Message :=
  if o.capacity < payload.length then
    .error (.observation o.binary o.field payload.length o.capacity)
  else .ok {
    channel := o.channel
    payload := payload ++ List.replicate (o.capacity - payload.length) 0
    length := payload.length
    eventTime := eventTime }

/-- `outgoing_payload`: the bytes of a Message, as the FMU is handed them. -/
def Injection.payload (j : Injection) (m : Message) : Except (GroupFailure I ε) Bytes :=
  if j.capacity < m.length then
    .error (.injection j.binary j.field j.lengthField m.length j.capacity)
  else .ok (m.payload.take m.length)

/-- `_Group`: its instances in declaration order, and the terminals that join
them. -/
structure Group (I T : Type) (σ ε : I → Type) where
  instances : List I
  nodup : instances.Nodup
  member : ∀ i, Instance T (σ i) (ε i)
  transceiver : T → Transceiver I T
  transceivers : List T

namespace Group

/-- The instances as they stand, and what happened so far. -/
structure State (I T : Type) (σ : I → Type) where
  members : ∀ i, Instance.State T (σ i)
  history : List (Event I T σ)

/-- A program that drives a group. -/
abbrev Drive (I T : Type) (σ ε : I → Type) := EStateM (GroupFailure I ε) (State I T σ)

/-- An entry of the history. -/
def note (e : Event I T σ) : Drive I T σ ε Unit :=
  modify fun s => { s with history := s.history ++ [e] }

/-- A computation of the importer itself. -/
def check (x : Except (GroupFailure I ε) α) : Drive I T σ ε α :=
  match x with
  | .ok a => pure a
  | .error e => throw e

variable [DecidableEq I]

/-- One instance, replaced. -/
def State.setMember (s : State I T σ) (i : I) (st : Instance.State T (σ i)) : State I T σ :=
  { s with members := Function.update s.members i st }

theorem State.setMember_self (s : State I T σ) (i : I) (st : Instance.State T (σ i)) :
    (s.setMember i st).members i = st := by
  simp [State.setMember]

theorem State.setMember_of_ne (s : State I T σ) {i j : I} (h : j ≠ i)
    (st : Instance.State T (σ i)) : (s.setMember i st).members j = s.members j := by
  simp [State.setMember, h]

/-- A program that drives one instance of the group. -/
def onMember (i : I) (x : Instance.Drive T (σ i) (ε i) α) : Drive I T σ ε α :=
  zoom (fun s => s.members i) (fun st s => s.setMember i st) (GroupFailure.member i) x

variable [DecidableEq T] (g : Group I T σ ε)

/-- The instance an owed event belongs to. -/
def owner : Pending I T → I
  | .event i => i
  | .activation x _ _ => (g.transceiver x).owner

/-! ## One instant -/

/-- One payload handed to a terminal, from its parts. -/
def handOver (instant : Int) (x : T) (parts : List (Option Nat × Bytes)) : Drive I T σ ε Unit := do
  onMember (g.transceiver x).owner
    ((g.member (g.transceiver x).owner).deliver (g.transceiver x) (parts.flatMap (·.2)))
  note (.handed x instant parts)

/-- The first owed event of an instance that is no bus simulation, and the
work without it. -/
def firstNode : List (Pending I T) → Option (Pending I T × List (Pending I T))
  | [] => none
  | item :: rest =>
    if (g.member (g.owner item)).busSimulation = true then
      (firstNode rest).map fun found => (found.1, item :: found.2)
    else some (item, rest)

/-- The part an owed activation is, with the terminal it is for. -/
def part : Pending I T → Option (T × Option Nat × Bytes)
  | .event _ => none
  | .activation x payload origin => some (x, origin, payload)

/-- `combined.setdefault(transceiver, …).extend(payload)`. -/
def extend (combined : List (T × List (Option Nat × Bytes))) (p : T × Option Nat × Bytes) :
    List (T × List (Option Nat × Bytes)) :=
  match combined with
  | [] => [(p.1, [p.2])]
  | (x, parts) :: rest =>
    if x = p.1 then (x, parts ++ [p.2]) :: rest else (x, parts) :: extend rest p

/-- Several activations of one bus terminal become consecutive operations of
one buffer. -/
def combine (work : List (Pending I T)) : List (T × List (Option Nat × Bytes)) :=
  (work.filterMap part).foldl extend []

/-- `_Group._deliver_same_instant`, for work that has a first item: the
instance whose event is next, and the work that remains. -/
def deliverSameInstant (instant : Int) (first : Pending I T) (others : List (Pending I T)) :
    Drive I T σ ε (I × List (Pending I T)) :=
  match g.firstNode (first :: others) with
  | some (owed, rest) => do
      forM (part owed).toList fun p => g.handOver instant p.1 [p.2]
      pure (g.owner owed, rest)
  | none => do
      let mine := (first :: others).filter fun item => g.owner item = g.owner first
      let remaining := (first :: others).filter fun item => ¬ g.owner item = g.owner first
      forM (combine mine) fun p => g.handOver instant p.1 p.2
      pure (g.owner first, remaining)

/-- One event of one instance, with its entry in the history. -/
def handle (i : I) (instant : Int) : Drive I T σ ε (List (T × Bytes)) := do
  let before ← get
  let produced ← onMember i ((g.member i).handle instant)
  let after ← get
  note (.handled i instant (before.members i) (after.members i))
  pure produced

/-- The Messages of what an event produced. -/
def observed (instant : Int) (produced : List (T × Bytes)) :
    Except (GroupFailure I ε) (List Message) :=
  (produced.filterMap fun p => ((g.transceiver p.1).observation).map fun o => (o, p.2)).mapM
    fun p => p.1.message p.2 instant

/-- What an event hands to connected peers. -/
def propagated (produced : List (T × Bytes)) : List (Pending I T) :=
  produced.filterMap fun p => ((g.transceiver p.1).peer).map fun peer => .activation peer p.2 none

/-- `_Group._quiesce`. -/
def quiesce (instant : Int) : Drive I T σ ε Unit := do
  forM g.instances fun i =>
    onMember i ((g.member i).requireNothingPassed (fun x => (g.transceiver x).name) instant)
  forM g.instances fun i => onMember i (g.member i).leaveEvent

/-- `_MAX_PROPAGATIONS`. -/
def maxPropagations : Nat := 100

/-- The loop of `_Group._settle`, with the propagations that are left. -/
def propagate (instant : Int) : Nat → List (Pending I T) → Drive I T σ ε (List Message)
  | 0, _ => throw (.propagations instant)
  | _ + 1, [] => do
      g.quiesce instant
      pure []
  | left + 1, first :: others => do
      let (i, remaining) ← g.deliverSameInstant instant first others
      let produced ← g.handle i instant
      let published ← check (g.observed instant produced)
      let later ← propagate instant left (remaining ++ g.propagated produced)
      pure (published ++ later)

/-- `_Group._settle`. -/
def settle (instant : Int) (pending : List (Pending I T)) : Drive I T σ ε (List Message) :=
  if pending = [] then pure [] else g.propagate instant maxPropagations pending

/-- `_Group.initialize`. -/
def initializeGroup : Drive I T σ ε (List Message) := do
  note (.point 0)
  g.settle 0 (g.instances.map .event)

/-! ## One Step -/

/-- `_Group._injections`: the terminal a Channel is handed to, the last one
that names it. -/
def injections (channel : String) : Option T :=
  g.transceivers.reverse.find? fun x =>
    ((g.transceiver x).injection).any fun j => j.channel = channel

/-- What the group owes for one arrived Message, with the instant it states. -/
def inject (start stop : Int) (arrived : Message × Nat) :
    Except (GroupFailure I ε) (Int × Pending I T) :=
  match (g.injections arrived.1.channel).bind fun x =>
      ((g.transceiver x).injection).map fun j => (x, j) with
  | none => .error (.channel arrived.1.channel)
  | some (x, j) =>
    -- `_require_reachable`
    if start ≤ arrived.1.eventTime ∧ arrived.1.eventTime ≤ stop then do
      let payload ← j.payload arrived.1
      .ok (arrived.1.eventTime, .activation x payload (some arrived.2))
    else .error (.unreachable arrived.1.channel (g.transceiver x).name arrived.1.eventTime
      start stop)

/-- `_Group._injected`: what the arrived Messages owe, in arrival order, each
with its instant. -/
def injected (inputs : List Message) (start stop : Int) :
    Except (GroupFailure I ε) (List (Int × Pending I T)) :=
  inputs.zipIdx.mapM (g.inject start stop)

/-- `injected.pop(now, [])`, what is popped. -/
def owedAt (injected : List (Int × Pending I T)) (now : Int) : List (Pending I T) :=
  (injected.filter fun owed => owed.1 = now).map (·.2)

/-- `injected.pop(now, [])`, what is left. -/
def owedLater (injected : List (Int × Pending I T)) (now : Int) : List (Int × Pending I T) :=
  injected.filter fun owed => ¬ owed.1 = now

/-- `_Group._boundary`: the next instant the whole group stops at. -/
def boundary (s : State I T σ) (now stop : Int) (injected : List (Int × Pending I T)) : Int :=
  let asked := (g.instances.flatMap fun i =>
      ((g.member i).askedFor (s.members i) now).filter (· ≤ stop)) ++
    (injected.map (·.1)).filter (now < ·)
  asked.min?.getD stop

/-- One instance over one sub-interval, with its entry in the history. -/
def step (start stop : Int) (i : I) : Drive I T σ ε Unit := do
  let before ← get
  onMember i ((g.member i).step start (stop - start))
  note (.stepped i start stop (before.members i))

/-- The loop of `_Group.advance`, with a bound on the sub-intervals. -/
def advanceLoop (stop : Int) : Nat → Int → List (Int × Pending I T) → Drive I T σ ε (List Message)
  | 0, _, _ => pure []
  | left + 1, now, injected =>
    if now < stop then do
      let s ← get
      let boundary := g.boundary s now stop injected
      forM g.instances (g.step now boundary)
      note (.point boundary)
      let s ← get
      -- An arrived Message goes ahead of the events the instant caused by itself.
      let pending := owedAt injected boundary ++
        (g.instances.filter fun i => (g.member i).due (s.members i) boundary).map .event
      let published ← g.settle boundary pending
      let later ← advanceLoop stop left boundary (owedLater injected boundary)
      pure (published ++ later)
    else pure []

/-- `_Group.advance`: a sub-interval is at least one nanosecond long, so `dt`
of them are enough. -/
def advance (t : Int) (dt : Nat) (inputs : List Message) : Drive I T σ ε (List Message) := do
  let injected ← check (g.injected inputs t (t + dt))
  note (.point t)
  let published ← g.settle t (owedAt injected t)
  let later ← g.advanceLoop (t + dt) dt t (owedLater injected t)
  pure (published ++ later)

/-! ## The participant -/

/-- `FmuGroupParticipant`, between two Steps. -/
structure Participant (I T : Type) (σ : I → Type) where
  group : State I T σ
  pendingActivations : List Message
  communicationPoint : Int

/-- The event initialization ended in, as `FmuGroupParticipant.on_init` holds
it until the first Step. -/
def onInit : EStateM (GroupFailure I ε) (Participant I T σ) Unit := do
  let published ← zoom Participant.group (fun s p => { p with group := s }) id g.initializeGroup
  modify fun p => { p with pendingActivations := published }

/-- One Step of the kernel: its instant, its length and the arrived Messages. -/
structure Step where
  t : Int
  dt : Nat
  inputs : List Message

/-- `FmuGroupParticipant.on_step`. -/
def onStep (x : Step) : EStateM (GroupFailure I ε) (Participant I T σ) (List Message) := do
  let p ← get
  -- `require_contiguous`
  if x.t = p.communicationPoint then do
    modify fun p => { p with pendingActivations := [] }
    let published ← zoom Participant.group (fun s p => { p with group := s }) id
      (g.advance x.t x.dt x.inputs)
    modify fun q => { q with communicationPoint := x.t + x.dt }
    pure (p.pendingActivations ++ published)
  else throw (.contiguity p.communicationPoint x.t)

/-- The Steps of a Run, one after the other. -/
def run : List Step → EStateM (GroupFailure I ε) (Participant I T σ) (List (List Message))
  | [] => pure []
  | x :: rest => do
      let published ← g.onStep x
      let later ← run rest
      pure (published :: later)

end Group

end SilFormal.Fmi
