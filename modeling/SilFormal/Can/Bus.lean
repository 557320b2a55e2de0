import SilFormal.Library.Fallible
import SilFormal.Can.Frame

/-!
# The CAN bus: `can::Bus`

The state machine of the bus model (`bus.hpp`, `bus.cpp`).  `Node` collects the
entries of the per-terminal arrays at one terminal, and `RuleState` those of
the per-rule arrays at one rule.  A call that throws is an error.  `receive`
and the adapter around `tick` work on a copy, so the state before the call is
then the one that stays.

`history` and `frames` are history variables that no function reads: what
happened to the requests of a terminal, and the transmissions of the Run.
-/

namespace SilFormal.Can

open Fallible (require visit)

/-- `FaultKind`, with the receiver of a delivery suppression. -/
inductive FaultKind
  | transmissionError
  | receiverDeliverySuppression (receiver : Terminal)
deriving DecidableEq, Repr

/-- `FaultRule`. -/
structure FaultRule where
  kind : FaultKind
  sender : Terminal
  id : Nat
  firstRequest : Int
  lastRequest : Int
  occurrence : Nat
  attempt : Nat
deriving DecidableEq, Repr

/-- `FaultRuleInput`: one-based, and not validated yet. -/
structure FaultRuleInput where
  kind : Nat := 0
  senderNode : Nat := 0
  receiverNode : Nat := 0
  identifier : Nat := 0
  firstRequest : Nat := 0
  lastRequest : Nat := 0
  occurrence : Nat := 0
  attempt : Nat := 0
deriving DecidableEq, Repr

/-- A rule with its entries of `rule_occurrences_` and `fault_consumed_`. -/
structure RuleState where
  rule : FaultRule
  occurrences : Nat
  consumed : Bool
deriving DecidableEq, Repr

/-- `Bus::Request`. -/
structure Request where
  operation : Bytes
  id : Nat
  requestedAt : Int
  occurrence : Nat
  attempt : Nat
deriving DecidableEq, Repr

/-- `Bus::Transfer`; `ends` is its `end`. -/
structure Transfer where
  operation : Bytes
  requests : Terminal → Option Request
  transmissionError : Bool
  primaryErrorNode : Option Terminal
  suppressedReceiver : Option Terminal
  ends : Int
deriving DecidableEq

/-- What happens to a request of a terminal: it is accepted into the queue and
leaves it, and its Confirm or ArbitrationLost is written or its last attempt
fails. -/
inductive Fate
  | committed
  | dequeued
  | lost
  | confirmed
  | exhausted
deriving DecidableEq, Repr

/-- An entry of the history of a terminal. -/
structure NodeEvent where
  fate : Fate
  request : Request
deriving DecidableEq, Repr

/-- One terminal. -/
structure Node where
  output : Bytes := []
  notification : Bytes := []
  formatError : Bytes := []
  queue : List Request := []
  retry : Option Request := none
  configured : Bool := false
  discardsOnLoss : Bool := false
  history : List NodeEvent := []
deriving DecidableEq, Repr

/-- One transmission: its start, and the index of the rule it consumed. -/
structure Frame where
  start : Int
  transfer : Transfer
  rule : Option Nat
deriving DecidableEq

/-- `can::Bus`. -/
structure Bus where
  activeNodes : Nat := 2
  queueCapacity : Nat := 4
  retryLimit : Nat := 1
  bufferCapacity : Nat := maxOperationBuffer
  nodes : Terminal → Node := fun _ => {}
  formatErrorsDue : Option Int := none
  onWire : Option Transfer := none
  rules : List RuleState := []
  bitrate : Option Nat := none
  idleFrom : Int := 0
  frames : List Frame := []
deriving DecidableEq

namespace Node

def note (node : Node) (fate : Fate) (request : Request) : Node :=
  { node with history := node.history ++ [⟨fate, request⟩] }

/-- `head`, where there is a request. -/
def head? (node : Node) : Option Request :=
  match node.retry with
  | some request => some request
  | none => node.queue.head?

/-- `take_head`: the terminal without its head. -/
def takeHead (node : Node) : Node :=
  match node.retry with
  | some _ => { node with retry := none }
  | none =>
    match node.queue with
    | [] => node
    | request :: rest => { node with queue := rest }.note .dequeued request

/-- One iteration of the second loop of `arbitrate`: a contender with the
identifier that was chosen transmits, another one waits or is discarded. -/
def contend (chosen : Request) (node : Node) : Except String (Node × Option Request) :=
  match node.head? with
  | none => .ok (node, none)
  | some contender =>
    if contender.id = chosen.id then
      if contender.operation = chosen.operation then .ok (node.takeHead, some contender)
      else .error ("equal CAN identifiers with different payloads cannot be " ++
        "resolved without error modeling")
    else if node.discardsOnLoss then
      let discarded := node.takeHead.note .lost contender
      .ok ({ discarded with
        notification := discarded.notification ++
          identifierOperation arbitrationLostCode contender.id }, none)
    else .ok (node, none)

/-- One iteration of the first loop of `complete`: the output of a terminal at
the end of a frame. -/
def deliver (done : Transfer) (terminal : Terminal) (node : Node) : Node :=
  if done.transmissionError then
    { node with
      output := node.notification ++ busErrorOperation (u32 done.operation 8)
          (decide (some terminal = done.primaryErrorNode))
          (decide (some terminal = done.primaryErrorNode)) }
  else
    match done.requests terminal with
    | some request =>
      { node with
        output := node.notification ++ identifierOperation confirmCode (u32 done.operation 8) }.note
        .confirmed request
    | none =>
      { node with
        output := node.notification ++
          if done.suppressedReceiver = some terminal then [] else done.operation }

/-- One iteration of the second loop of `complete`: a failed request goes to
the retry slot while it has attempts left. -/
def retryFailed (retryLimit : Nat) (failed : Option Request) (node : Node) : Except String Node :=
  match failed with
  | none => .ok node
  | some request =>
    if request.attempt ≤ retryLimit then do
      require (node.retry = none) "automatic CAN retry slot is already occupied"
      .ok { node with retry := some { request with attempt := request.attempt + 1 } }
    else .ok (node.note .exhausted request)

end Node

namespace Bus

def isActive (b : Bus) (terminal : Terminal) : Bool :=
  decide (terminal.val < b.activeNodes)

/-- The active terminals in index order. -/
def active (b : Bus) : List Terminal :=
  (List.finRange terminalCapacity).filter b.isActive

/-- Replace the entry of one terminal. -/
def modify (b : Bus) (terminal : Terminal) (f : Node → Node) : Bus :=
  { b with nodes := Function.update b.nodes terminal (f (b.nodes terminal)) }

/-- `has_pending`. -/
def hasPending (b : Bus) : Bool :=
  ((List.finRange terminalCapacity).any fun n => !(b.nodes n).queue.isEmpty) ||
    (List.finRange terminalCapacity).any fun n => (b.nodes n).retry.isSome

/-- `bit_time`; the bitrate is known whenever a frame is transmitted. -/
def bitTime (b : Bus) : Int :=
  match b.bitrate with
  | none => 0
  | some rate => (nsPerS / rate : Nat)

/-- `next_event`. -/
def nextEvent (b : Bus) : Option Int :=
  let bus := match b.onWire with
    | some transfer => some transfer.ends
    | none => if b.hasPending then some b.idleFrom else none
  match b.formatErrorsDue, bus with
  | none, bus => bus
  | some due, none => some due
  | some due, some bus => some (min bus due)

/-- `is_completion`. -/
def isCompletion (b : Bus) (now : Int) : Bool :=
  match b.onWire with
  | some transfer => decide (transfer.ends = now)
  | none => false

/-- `clear_outputs`. -/
def clearOutputs (b : Bus) : Bus :=
  { b with nodes := fun n => { b.nodes n with output := [] } }

/-! ## Configuration -/

/-- `validate_configuration_limits`. -/
def validateConfigurationLimits
    (activeNodes queueCapacity retryLimit faultRuleCount bufferCapacity : Nat) :
    Except String PUnit := do
  require (1 ≤ activeNodes ∧ activeNodes ≤ terminalCapacity)
    "active node count outside declared terminal capacity"
  require (1 ≤ queueCapacity ∧ queueCapacity ≤ maxQueueCapacity)
    "per-node queue capacity must be 1..64"
  require (retryLimit ≤ maxFaultRetries) "automatic CAN retransmission limit must be 0..4"
  require (faultRuleCount ≤ maxFaultRules) "fault schedule exceeds its finite rule capacity"
  require (minOperationBuffer ≤ bufferCapacity ∧ bufferCapacity ≤ maxOperationBuffer)
    "per-terminal operation buffer capacity must be 64..2048 bytes"

/-- The terminal of a one-based node number. -/
def terminalOf (node : Nat) : Terminal :=
  Fin.ofNat terminalCapacity (node - 1)

/-- The body of the loop of `configure` for a declared rule. -/
def configureRule (activeNodes retryLimit : Nat) (input : FaultRuleInput) :
    Except String FaultRule := do
  require (input.kind = 1 ∨ input.kind = 2)
    ("fault rule kind must be 1 (transmission error) or 2 (receiver delivery " ++ "suppression)")
  require (1 ≤ input.senderNode ∧ input.senderNode ≤ activeNodes)
    "fault rule sender must name an active one-based terminal"
  require (input.identifier ≤ maxClassicalIdentifier)
    "fault rule identifier is outside Classical CAN"
  require ((input.firstRequest : Int) ≤ maxTime ∧ (input.lastRequest : Int) ≤ maxTime ∧
      input.firstRequest ≤ input.lastRequest)
    ("fault rule request-time window must be an inclusive range within the " ++ "supported time")
  require (0 < input.occurrence) "fault rule occurrence is a one-based positive index"
  require (0 < input.attempt ∧ input.attempt ≤ retryLimit + 1)
    "fault rule attempt exceeds the configured retry bound"
  let rule (kind : FaultKind) : FaultRule :=
    ⟨kind, terminalOf input.senderNode, input.identifier, input.firstRequest,
      input.lastRequest, input.occurrence, input.attempt⟩
  if input.kind = 1 then do
    require (input.receiverNode = 0) "transmission-error rule receiver must be zero"
    .ok (rule .transmissionError)
  else do
    require (1 ≤ input.receiverNode ∧ input.receiverNode ≤ activeNodes ∧
        input.receiverNode ≠ input.senderNode)
      "delivery-suppression receiver must be active and differ from its sender"
    .ok (rule (.receiverDeliverySuppression (terminalOf input.receiverNode)))

/-- `configure`. -/
def configure (activeNodes queueCapacity retryLimit faultRuleCount : Nat)
    (faultRules : List FaultRuleInput) (bufferCapacity : Nat) (b : Bus) : Except String Bus := do
  validateConfigurationLimits activeNodes queueCapacity retryLimit faultRuleCount
    bufferCapacity
  require (faultRules.length ≤ maxFaultRules ∧ faultRuleCount ≤ faultRules.length)
    "fault schedule parameters do not match the declared rule count"
  require (b.hasPending = false ∧ b.onWire = none) "cannot reconfigure a busy bus"
  require (∀ n, (b.nodes n).notification = []) "cannot reconfigure pending notifications"
  require (b.formatErrorsDue = none) "cannot reconfigure pending Format Error reports"
  let rules ← (faultRules.take faultRuleCount).mapM (configureRule activeNodes retryLimit)
  require (∀ input ∈ faultRules.drop faultRuleCount, input = {})
    "fault schedule contains fields beyond its declared rule count"
  .ok { b with
    activeNodes := activeNodes
    queueCapacity := queueCapacity
    bufferCapacity := bufferCapacity
    retryLimit := retryLimit
    rules := rules.map fun rule => ⟨rule, 0, false⟩ }

/-! ## Accepting operations -/

/-- The requests of one event, with their senders. -/
abbrev Requests := List (Terminal × Request)

/-- The loop of `apply` over the rules: every counter of the sender and the
identifier is advanced, and the last one is the occurrence of the request. -/
def countOccurrence (terminal : Terminal) (id : Nat) :
    List RuleState → Nat → Except String (List RuleState × Nat)
  | [], occurrence => .ok ([], occurrence)
  | state :: rest, occurrence =>
    if state.rule.sender ≠ terminal ∨ state.rule.id ≠ id then do
      let out ← countOccurrence terminal id rest occurrence
      .ok (state :: out.1, out.2)
    else do
      require (state.occurrences < 2 ^ 64 - 1) "CAN request occurrence counter exhausted"
      let out ← countOccurrence terminal id rest (state.occurrences + 1)
      .ok ({ state with occurrences := state.occurrences + 1 } :: out.1, out.2)

/-- `apply`. -/
def apply (terminal : Terminal) (op : Bytes) (now : Int) (s : Bus × Requests) :
    Except String (Bus × Requests) :=
  let (b, requests) := s
  let code := u32 op 0
  if code = configurationCode ∧ byteAt op 8 = bitrateKind then do
    let rate := u32 op 9
    require (supportedBitrate rate = true)
      "unsupported bitrate: need 10000..1000000 bit/s dividing 1e9"
    require (b.bitrate = none ∨ b.bitrate = some rate) "inconsistent node bitrates"
    .ok ({ b with bitrate := some rate }.modify terminal
      fun node => { node with configured := true }, requests)
  else if code = configurationCode ∧ byteAt op 8 = arbitrationLostBehaviorKind then
    .ok (b.modify terminal fun node =>
      { node with discardsOnLoss := byteAt op 9 == discardAndNotify }, requests)
  else if code = transmitCode ∧ byteAt op 12 = 0 ∧ byteAt op 13 = 0 then do
    let id := u32 op 8
    let out ← countOccurrence terminal id b.rules 0
    .ok ({ b with rules := out.1 }, requests ++ [(terminal, ⟨op, id, now, out.2, 1⟩)])
  else if code = transmitCode then
    .error "only 11-bit Classical CAN data frames are supported"
  else .error "unsupported CAN operation"

/-- `report_format_error`. -/
def reportFormatError (terminal : Terminal) (op : Bytes) (now : Int) (b : Bus) :
    Except String Bus := do
  require (now < maxTime) "no supported instant remains for a Format Error report"
  require (b.formatErrorsDue = none ∨ b.formatErrorsDue = some (now + 1))
    "a due Format Error report was not delivered"
  require ((b.nodes terminal).formatError.length + (10 + op.length) ≤
      b.bufferCapacity - frameEndOutput)
    "Format Error reports exceed the terminal's output capacity"
  .ok { b.modify terminal fun node =>
      { node with formatError := node.formatError ++ formatErrorHeader op ++ op } with
    formatErrorsDue := some (now + 1) }

/-- The operations `accept` cuts a buffer into, with whether their length is
sound.  Without a sound length the rest of the buffer cannot be split. -/
def splitOperations : Nat → Bytes → List (Bytes × Bool)
  | 0, _ => []
  | _ + 1, [] => []
  | fuel + 1, operations =>
    let length := if 8 ≤ operations.length then u32 operations 4 else 0
    if length < 8 ∨ operations.length < length then [(operations, false)]
    else
      (operations.take length, true) :: splitOperations fuel (operations.drop length)

/-- One iteration of the loop of `accept`. -/
def handle (terminal : Terminal) (now : Int) (s : Bus × Requests) (op : Bytes × Bool) :
    Except String (Bus × Requests) :=
  if op.2 && wellFormed op.1 then apply terminal op.1 now s
  else reportFormatError terminal op.1 now s.1 >>= fun b => .ok (b, s.2)

/-- `accept`. -/
def accept (terminal : Terminal) (operations : Bytes) (now : Int) (s : Bus × Requests) :
    Except String (Bus × Requests) :=
  (splitOperations operations.length operations).foldlM (handle terminal now) s

/-- `enqueue`. -/
def enqueue (b : Bus) (staged : Terminal × Request) : Except String Bus := do
  require (b.bitrate ≠ none) "CAN bitrate is not configured"
  require (∀ n ∈ b.active, (b.nodes n).configured = true)
    "every active terminal must configure the CAN bitrate before transmitting"
  require ((b.nodes staged.1).queue.length < b.queueCapacity) "per-node CAN queue is full"
  .ok (b.modify staged.1 fun node =>
    { node with queue := node.queue ++ [staged.2] }.note .committed staged.2)

/-- One iteration of the first loop of `receive`. -/
def acceptFrom (inputs : Terminal → Bytes) (now : Int) (s : Bus × Requests) (terminal : Terminal) :
    Except String (Bus × Requests) := do
  require (s.1.isActive terminal = true ∨ inputs terminal = []) "input to inactive terminal"
  require ((inputs terminal).length ≤ s.1.bufferCapacity)
    "operation buffer exceeds the configured capacity"
  accept terminal (inputs terminal) now s

/-- The two loops of `receive`: all operations of the event are accepted before
any request enters a queue. -/
def commit (inputs : Terminal → Bytes) (now : Int) (b : Bus) : Except String Bus := do
  let s ← (List.finRange terminalCapacity).foldlM (acceptFrom inputs now) (b, [])
  s.2.foldlM enqueue s.1

/-! ## Transmission -/

/-- One iteration of the first loop of `arbitrate`, with `head(winner)` for the
winner. -/
def contender (b : Bus) (best : Option Request) (terminal : Terminal) : Option Request :=
  match (b.nodes terminal).head? with
  | none => best
  | some request =>
    match best with
    | none => some request
    | some chosen => if request.id < chosen.id then some request else some chosen

/-- The first loop of `arbitrate`: the first head of the lowest identifier. -/
def winner (b : Bus) : Option Request :=
  b.active.foldl b.contender none

/-- The condition of the inner loop over the schedule. -/
def eligible (rule : FaultRule) (terminal : Terminal) (request : Option Request) : Bool :=
  match request with
  | none => false
  | some request =>
    decide (terminal = rule.sender) && request.id == rule.id &&
      decide (rule.firstRequest ≤ request.requestedAt) &&
      decide (request.requestedAt ≤ rule.lastRequest) &&
      request.occurrence == rule.occurrence && request.attempt == rule.attempt

/-- The loop over the schedule: the first rule that is not consumed and that
one of the transmitting requests matches, with its index. -/
def selectFault (active : List Terminal) (requests : Terminal → Option Request) :
    List RuleState → List RuleState × Option (Nat × FaultRule)
  | [] => ([], none)
  | state :: rest =>
    if !state.consumed && active.any fun n => eligible state.rule n (requests n) then
      ({ state with consumed := true } :: rest, some (0, state.rule))
    else
      (state :: (selectFault active requests rest).1,
        (selectFault active requests rest).2.map fun hit => (hit.1 + 1, hit.2))

/-- The transfer of a frame and the fault it meets. -/
def transferOf (operation : Bytes) (requests : Terminal → Option Request) (ends : Int)
    (fault : Option FaultRule) : Transfer :=
  match fault with
  | none => ⟨operation, requests, false, none, none, ends⟩
  | some rule =>
    match rule.kind with
    | .transmissionError => ⟨operation, requests, true, some rule.sender, none, ends⟩
    | .receiverDeliverySuppression receiver =>
      ⟨operation, requests, false, none, some receiver, ends⟩

/-- `arbitrate`. -/
def arbitrate (now : Int) (b : Bus) : Except String Bus :=
  match b.winner with
  | none => .error "arbitration without pending frames"
  | some chosen => do
      let ends := now + frameBits chosen.id (chosen.operation.drop 16) * b.bitTime
      require (ends ≤ maxTime) "frame end beyond the supported time range"
      let table ← visit (fun _ entry => entry.1.contend chosen) b.active
        fun n => (b.nodes n, none)
      let requests := fun n => (table n).2
      let selected := selectFault b.active requests b.rules
      let transfer :=
        transferOf chosen.operation requests ends (selected.2.map Prod.snd)
      .ok { b with
        nodes := fun n => (table n).1
        rules := selected.1
        onWire := some transfer
        frames := b.frames ++ [⟨now, transfer, selected.2.map Prod.fst⟩] }

/-- `receive`. -/
def receive (inputs : Terminal → Bytes) (now : Int) (b : Bus) : Except String Bus := do
  require (0 ≤ now ∧ now ≤ maxTime) "event time outside the supported range"
  require (∀ due ∈ b.nextEvent, now ≤ due) "a bus countdown was skipped"
  let next ← b.commit inputs now
  if next.onWire.isNone && next.hasPending && decide (next.idleFrom ≤ now) then
    next.arbitrate now
  else .ok next

/-- The two loops of `complete`. -/
def completeNodes (done : Transfer) (b : Bus) : Except String (Terminal → Node) :=
  let delivered := fun n =>
    if b.isActive n then (b.nodes n).deliver done n else b.nodes n
  if done.transmissionError then
    visit (fun n node => node.retryFailed b.retryLimit (done.requests n)) b.active delivered
  else .ok delivered

/-- `complete`. -/
def complete (now : Int) (b : Bus) : Except String Bus :=
  match b.onWire with
  | none => .error "no frame ends at this instant"
  | some done => do
      require (done.ends = now) "no frame ends at this instant"
      let nodes ← b.completeNodes done
      .ok { b with
        nodes := fun n => { nodes n with notification := [] }
        idleFrom := now + intermissionBits * b.bitTime
        onWire := none }

/-- The Format Error part of `tick`. -/
def reportDue (now : Int) (b : Bus) : Bus :=
  if b.formatErrorsDue ≠ some now then b
  else
    { b with
      nodes := fun n =>
        { b.nodes n with
          output := if b.isActive n then (b.nodes n).output ++ (b.nodes n).formatError
            else (b.nodes n).output
          formatError := [] }
      formatErrorsDue := none }

/-- `tick`. -/
def tick (now : Int) (b : Bus) : Except String Bus := do
  require (b.nextEvent = some now) "no bus event is due at this instant"
  let ended ← (if b.isCompletion now then b.complete now else .ok b : Except String Bus)
  .ok (ended.reportDue now)

end Bus

end SilFormal.Can
