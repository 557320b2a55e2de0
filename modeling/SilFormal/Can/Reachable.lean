import SilFormal.Can.Accounting

/-!
# The reachable states of the bus

`Valid` is what holds in every state that accepted calls reach from an accepted
configuration.  It is proved call by call.
-/

namespace SilFormal.Can

open Fallible List

/-- A request that the bus can transmit. -/
structure Request.Sound (request : Request) : Prop where
  transmits : TransmitsFrame request.operation
  id_eq : request.id = u32 request.operation 8

/-- The parameters that `configure` is called with. -/
structure Configuration where
  activeNodes : Nat
  queueCapacity : Nat
  retryLimit : Nat
  faultRuleCount : Nat
  faultRules : List FaultRuleInput
  bufferCapacity : Nat

/-- A new bus with a configuration. -/
def Configuration.start (c : Configuration) : Except String Bus :=
  Bus.configure c.activeNodes c.queueCapacity c.retryLimit c.faultRuleCount c.faultRules
    c.bufferCapacity {}

/-- A call of the bus. -/
inductive Call
  | receive (inputs : Terminal → Bytes) (now : Int)
  | tick (now : Int)
  | clearOutputs

namespace Bus

variable {c : Configuration} {calls : List Call}

/-- One call. -/
def call (b : Bus) : Call → Except String Bus
  | .receive inputs now => b.receive inputs now
  | .tick now => b.tick now
  | .clearOutputs => .ok b.clearOutputs

/-- A sequence of calls, up to the first one that throws. -/
def run (b : Bus) (calls : List Call) : Except String Bus :=
  calls.foldlM call b

/-- The states that calls reach from a configuration. -/
def Reaches (c : Configuration) (calls : List Call) (b : Bus) : Prop :=
  ∃ start, c.start = .ok start ∧ start.run calls = .ok b

/-- Whether calls reach a state with a property: the executable `Reaches`. -/
def reachesWith (c : Configuration) (calls : List Call) (p : Bus → Bool) : Bool :=
  match c.start >>= fun start => start.run calls with
  | .ok b => p b
  | .error _ => false

theorem exists_reaches {p : Bus → Bool} (h : reachesWith c calls p = true) :
    ∃ b, Reaches c calls b ∧ p b = true := by
  simp only [reachesWith] at h
  split at h
  · rename_i b hrun
    obtain ⟨start, hstart, hcalls⟩ := bind_eq_ok.mp hrun
    exact ⟨b, ⟨start, hstart, hcalls⟩, h⟩
  · cases h

/-- The request that a terminal has on the wire. -/
def wire (b : Bus) (n : Terminal) : Option Request :=
  match b.onWire with
  | none => none
  | some transfer => transfer.requests n

theorem wire_of_none {b : Bus} (h : b.onWire = none) (n : Terminal) : b.wire n = none := by
  simp only [wire, h]

theorem wire_of_some {b : Bus} {transfer : Transfer} (h : b.onWire = some transfer) (n : Terminal) :
    b.wire n = transfer.requests n := by
  simp only [wire, h]

/-- What holds in every reachable state. -/
structure Valid (b : Bus) : Prop where
  buffer_ge : minOperationBuffer ≤ b.bufferCapacity
  accounted : ∀ n, (b.nodes n).Accounted b.retryLimit (b.wire n)
  sound : ∀ n request, request ∈ (b.nodes n).pending ∨ b.wire n = some request → request.Sound
  inactive : ∀ n, b.isActive n = false →
    (b.nodes n).pending = [] ∧ b.wire n = none ∧ (b.nodes n).formatError = []
  queue_le : ∀ n, (b.nodes n).queue.length ≤ b.queueCapacity
  notified : ∀ n, (b.nodes n).notification = [] ∨ b.onWire ≠ none ∧
    ∃ id, (b.nodes n).notification = identifierOperation arbitrationLostCode id
  formatError_le : ∀ n, (b.nodes n).formatError.length ≤ b.bufferCapacity - frameEndOutput
  due_le : ∀ due, b.formatErrorsDue = some due → due ≤ maxTime
  formatError_nil : b.formatErrorsDue = none → ∀ n, (b.nodes n).formatError = []
  bitrate : ∀ rate, b.bitrate = some rate → supportedBitrate rate = true
  ready : b.hasPending = true ∨ b.onWire ≠ none → b.bitrate ≠ none
  transfer : ∀ done, b.onWire = some done → TransmitsFrame done.operation ∧ done.ends ≤ maxTime ∧
      (∃ n request, done.requests n = some request) ∧
      ∀ n request, done.requests n = some request → request.operation = done.operation

/-! ## The start -/

theorem validateConfigurationLimits_eq_ok
    {activeNodes queueCapacity retryLimit faultRuleCount bufferCapacity : Nat} {x : PUnit}
    (h : validateConfigurationLimits activeNodes queueCapacity retryLimit faultRuleCount
      bufferCapacity = .ok x) :
    (1 ≤ activeNodes ∧ activeNodes ≤ terminalCapacity) ∧
      (1 ≤ queueCapacity ∧ queueCapacity ≤ maxQueueCapacity) ∧
      retryLimit ≤ maxFaultRetries ∧ faultRuleCount ≤ maxFaultRules ∧
      (minOperationBuffer ≤ bufferCapacity ∧ bufferCapacity ≤ maxOperationBuffer) := by
  simpa only [validateConfigurationLimits, require_bind_eq_ok, require_eq_ok] using h

/-- What an accepted configuration of a new bus looks like. -/
theorem start_spec {b : Bus} (h : c.start = .ok b) :
    ∃ rules, (c.faultRules.take c.faultRuleCount).mapM
        (configureRule c.activeNodes c.retryLimit) = .ok rules ∧
      minOperationBuffer ≤ c.bufferCapacity ∧
      b = { ({} : Bus) with
        activeNodes := c.activeNodes
        queueCapacity := c.queueCapacity
        bufferCapacity := c.bufferCapacity
        retryLimit := c.retryLimit
        rules := rules.map fun rule => ⟨rule, 0, false⟩ } := by
  rw [Configuration.start, configure, bind_eq_ok] at h
  obtain ⟨_, hlimits, h⟩ := h
  simp only [require_bind_eq_ok] at h
  obtain ⟨_, _, _, _, h⟩ := h
  rw [bind_eq_ok] at h
  obtain ⟨rules, hrules, h⟩ := h
  rw [require_bind_eq_ok] at h
  obtain ⟨_, h⟩ := h
  cases h
  exact ⟨rules, hrules, (validateConfigurationLimits_eq_ok hlimits).2.2.2.2.1, rfl⟩

theorem valid_start {b : Bus} (h : c.start = .ok b) : b.Valid := by
  obtain ⟨rules, _, hbuffer, rfl⟩ := start_spec h
  exact {
    buffer_ge := hbuffer
    accounted := fun _ => .initial _ _ rfl rfl rfl
    sound := by
      rintro n request (hpending | hwire)
      · cases hpending
      · cases hwire
    inactive := fun _ _ => ⟨rfl, rfl, rfl⟩
    queue_le := fun _ => Nat.zero_le _
    notified := fun _ => .inl rfl
    formatError_le := fun _ => Nat.zero_le _
    due_le := by simp
    formatError_nil := fun _ _ => rfl
    bitrate := by simp
    ready := by
      rintro (hpending | hwire)
      · obtain ⟨n, hhead⟩ := hasPending_eq_true.mp hpending
        exact absurd rfl hhead
      · exact absurd rfl hwire
    transfer := by simp }

/-! ## Committing the operations of an event -/

namespace Committed

variable {now : Int} {b b' : Bus} {s : Bus × Requests}

theorem design_eq (h : Committed now b s b') : b' = { b with
    nodes := b'.nodes, formatErrorsDue := s.1.formatErrorsDue, rules := s.1.rules,
    bitrate := s.1.bitrate } := by
  rw [h.bus_eq, enqueued]
  have hbus := h.accepted.bus_eq
  rw [hbus]

theorem node_eq (h : Committed now b s b') (n : Terminal) : b'.nodes n = { b.nodes n with
    formatError := (s.1.nodes n).formatError, configured := (s.1.nodes n).configured,
    discardsOnLoss := (s.1.nodes n).discardsOnLoss
    queue := (b.nodes n).queue ++ stagedBy s.2 n
    history := (b.nodes n).history ++ (stagedBy s.2 n).map (NodeEvent.mk .committed) } := by
  rw [h.bus_eq]
  have hnode := h.accepted.node_eq n
  simp only [enqueued] at hnode ⊢
  rw [hnode]

theorem pending_eq (h : Committed now b s b') (n : Terminal) :
    (b'.nodes n).pending = (b.nodes n).pending ++ stagedBy s.2 n := by
  rw [h.node_eq n]
  simp [Node.pending]

theorem committed_eq (h : Committed now b s b') (n : Terminal) : (b'.nodes n).requests .committed =
      (b.nodes n).requests .committed ++ stagedBy s.2 n := by
  have hhistory : (b'.nodes n).history =
      (b.nodes n).history ++ (stagedBy s.2 n).map (NodeEvent.mk .committed) := by
    rw [h.node_eq n]
  rw [Node.requests_of_history hhistory]
  simp [filter_map, Function.comp_def]

theorem onWire_eq (h : Committed now b s b') : b'.onWire = b.onWire := by
  rw [h.design_eq]

theorem wire_eq (h : Committed now b s b') (n : Terminal) : b'.wire n = b.wire n := by
  simp only [wire, h.onWire_eq]

theorem activeNodes_eq (h : Committed now b s b') : b'.activeNodes = b.activeNodes := by
  rw [h.design_eq]

theorem fresh_of_mem (h : Committed now b s b') {n : Terminal} {request : Request}
    (hrequest : request ∈ stagedBy s.2 n) : request.Fresh now :=
  h.accepted.fresh _ (mem_stagedBy.mp hrequest)

theorem bitrate_cases (h : Committed now b s b') : b'.bitrate = b.bitrate ∨
      b.bitrate = none ∧ ∃ rate, supportedBitrate rate = true ∧ b'.bitrate = some rate := by
  have hcases := h.accepted.bitrate_cases
  rw [h.design_eq]
  exact hcases

theorem valid (h : Committed now b s b') (hb : b.Valid) : b'.Valid := by
  have haccepted := h.accepted
  have hqueueCapacity : b'.queueCapacity = b.queueCapacity := by rw [h.design_eq]
  have hretryLimit : b'.retryLimit = b.retryLimit := by rw [h.design_eq]
  have hbuffer : b'.bufferCapacity = b.bufferCapacity := by rw [h.design_eq]
  have hdue : b'.formatErrorsDue = s.1.formatErrorsDue := by rw [h.design_eq]
  have hformat : ∀ n, (b'.nodes n).formatError = (s.1.nodes n).formatError := fun n => by
    rw [h.node_eq n]
  have hqueue : ∀ n, (b'.nodes n).queue = (b.nodes n).queue ++ stagedBy s.2 n := fun n => by
    rw [h.node_eq n]
  have hretry : ∀ n, (b'.nodes n).retry = (b.nodes n).retry := fun n => by
    rw [h.node_eq n]
  exact {
    buffer_ge := hbuffer ▸ hb.buffer_ge
    accounted := fun n => by
      rw [hretryLimit, h.wire_eq n]
      exact (hb.accounted n).enqueued (fun request hr => (h.fresh_of_mem hr).attempt_eq)
        (hqueue n) (hretry n) (by rw [h.node_eq n])
    sound := fun n request hrequest => by
      rw [h.pending_eq n, h.wire_eq n, mem_append] at hrequest
      rcases hrequest with (hold | hnew) | hwire
      · exact hb.sound n request (.inl hold)
      · have hfresh := h.fresh_of_mem hnew
        exact ⟨hfresh.transmits, hfresh.id_eq⟩
      · exact hb.sound n request (.inr hwire)
    inactive := fun n hn => by
      rw [isActive_congr h.activeNodes_eq] at hn
      obtain ⟨hsame, hstaged⟩ := haccepted.inactive n hn
      rw [h.pending_eq n, h.wire_eq n, hformat n, hstaged, hsame, append_nil]
      exact hb.inactive n hn
    queue_le := fun n => by
      rw [hqueue n, length_append, hqueueCapacity]
      have hsame : (s.1.nodes n).queue = (b.nodes n).queue := by rw [haccepted.node_eq n]
      have hcapacity : s.1.queueCapacity = b.queueCapacity := by rw [haccepted.bus_eq]
      rcases h.room n with hnil | hle
      · rw [hnil]
        exact hb.queue_le n
      · rwa [hsame, hcapacity] at hle
    notified := fun n => by
      rw [h.onWire_eq, h.node_eq n]
      exact hb.notified n
    formatError_le := fun n => by
      rw [hformat n, hbuffer]
      rcases haccepted.formatError_cases n with hsame | hle
      · rw [hsame]
        exact hb.formatError_le n
      · exact hle
    due_le := fun due hsome => by
      rw [hdue] at hsome
      rcases haccepted.due_cases with ⟨hsame, _⟩ | ⟨hnew, hnow, _⟩
      · exact hb.due_le due (hsame ▸ hsome)
      · rw [hnew] at hsome
        cases hsome
        omega
    formatError_nil := fun hnone n => by
      rw [hdue] at hnone
      rcases haccepted.due_cases with ⟨hsame, hformats⟩ | ⟨hnew, _⟩
      · rw [hformat n, hformats n]
        exact hb.formatError_nil (hsame ▸ hnone) n
      · rw [hnew] at hnone
        cases hnone
    bitrate := fun rate hrate => by
      rcases h.bitrate_cases with hsame | ⟨_, other, hother, hsome⟩
      · exact hb.bitrate rate (hsame ▸ hrate)
      · rw [hsome] at hrate
        cases hrate
        exact hother
    ready := by
      intro hbusy
      have hkept : b.bitrate ≠ none → b'.bitrate ≠ none := by
        intro hne
        rcases h.bitrate_cases with hsame | ⟨hnone, _⟩
        · exact hsame ▸ hne
        · exact absurd hnone hne
      rcases hbusy with hpending | hwire
      · obtain ⟨n, hhead⟩ := hasPending_eq_true.mp hpending
        by_cases hstaged : s.2 = []
        · refine hkept (hb.ready (.inl (hasPending_eq_true.mpr ⟨n, fun hnone => hhead ?_⟩)))
          rw [Node.head?_eq_none] at hnone ⊢
          rw [h.pending_eq n, hnone, hstaged]
          rfl
        · have hready := (h.ready hstaged).1
          rw [h.design_eq]
          exact hready
      · rw [h.onWire_eq] at hwire
        exact hkept (hb.ready (.inr hwire))
    transfer := fun done hdone => hb.transfer done (h.onWire_eq ▸ hdone) }

end Committed

/-! ## Arbitration -/

namespace Arbitrated

variable {now : Int} {b b' : Bus} {chosen : Request} {requests : Terminal → Option Request}

theorem onWire_eq (h : Arbitrated now b chosen requests b') :
    b'.onWire = some (b.transmission now chosen requests).transfer := by
  rw [h.bus_eq]

theorem wire_eq (h : Arbitrated now b chosen requests b') (n : Terminal) :
    b'.wire n = requests n := by
  rw [wire_of_some h.onWire_eq, transmission_requests]

theorem isActive_eq (h : Arbitrated now b chosen requests b') (n : Terminal) :
    b'.isActive n = b.isActive n := by
  rw [h.bus_eq]
  rfl

/-- Every terminal after an arbitration: an inactive one has nothing to contend
with. -/
theorem contends (h : Arbitrated now b chosen requests b') (hb : b.Valid) (n : Terminal) :
    (b.nodes n).Contended chosen (b'.nodes n) (requests n) := by
  cases hn : b.isActive n with
  | true => exact h.contended n hn
  | false =>
    obtain ⟨hnode, hrequest⟩ := h.inactive n hn
    rw [hnode, hrequest]
    exact .idle (Node.head?_eq_none.mpr (hb.inactive n hn).1)

theorem exists_request (h : Arbitrated now b chosen requests b') :
    ∃ n, b.isActive n = true ∧ requests n = some chosen := by
  obtain ⟨n, hactive, hhead⟩ := exists_head_of_winner h.winner_eq
  exact ⟨n, hactive, ((h.contended n hactive).taken_of_id hhead rfl).1⟩

/-- Whoever transmits sends the operation that won. -/
theorem operation_eq (h : Arbitrated now b chosen requests b') {n : Terminal} {request : Request}
    (hrequest : requests n = some request) :
    (b.nodes n).head? = some request ∧ request.operation = chosen.operation ∧
      request.id = chosen.id := by
  cases hn : b.isActive n with
  | false =>
    rw [(h.inactive n hn).2] at hrequest
    cases hrequest
  | true =>
    have hcontended := h.contended n hn
    rw [hrequest] at hcontended
    generalize b'.nodes n = node' at hcontended
    cases hcontended with
    | transmits request hhead hid hop => exact ⟨hhead, hop, hid⟩

theorem valid (h : Arbitrated now b chosen requests b') (hwire : b.onWire = none)
    (hpending : b.hasPending = true) (hb : b.Valid) : b'.Valid := by
  have hcontends := h.contends hb
  have hretryLimit : b'.retryLimit = b.retryLimit := by rw [h.bus_eq]
  have hqueueCapacity : b'.queueCapacity = b.queueCapacity := by rw [h.bus_eq]
  have hbuffer : b'.bufferCapacity = b.bufferCapacity := by rw [h.bus_eq]
  have hbitrate : b'.bitrate = b.bitrate := by rw [h.bus_eq]
  have hdue : b'.formatErrorsDue = b.formatErrorsDue := by rw [h.bus_eq]
  have hformat : ∀ n, (b'.nodes n).formatError = (b.nodes n).formatError := fun n =>
    (hcontends n).frame.1
  exact {
    buffer_ge := hbuffer ▸ hb.buffer_ge
    accounted := fun n => by
      have hbefore := hb.accounted n
      rw [wire_of_none hwire] at hbefore
      rw [h.wire_eq, hretryLimit]
      exact hbefore.contended (hcontends n)
    sound := fun n request hrequest => by
      refine hb.sound n request (.inl ?_)
      rw [h.wire_eq] at hrequest
      rcases (hcontends n).pending_eq with ⟨hnone, hsame⟩ | ⟨head, _, hcons, htaken⟩
      · rw [hsame, hnone] at hrequest
        exact hrequest.resolve_right (by simp)
      · rw [hcons]
        rcases hrequest with hrest | hwon
        · exact mem_cons_of_mem _ hrest
        · rcases htaken with hnone | hsome
          · rw [hnone] at hwon
            cases hwon
          · rw [hsome] at hwon
            cases hwon
            exact mem_cons_self
    inactive := fun n hn => by
      rw [h.isActive_eq] at hn
      obtain ⟨hnode, hrequest⟩ := h.inactive n hn
      obtain ⟨hnil, _, hreports⟩ := hb.inactive n hn
      rw [h.wire_eq, hnode, hrequest]
      exact ⟨hnil, rfl, hreports⟩
    queue_le := fun n => by
      rw [hqueueCapacity]
      exact (hcontends n).queue_length_le.trans (hb.queue_le n)
    notified := fun n => by
      have hnil : (b.nodes n).notification = [] := by
        rcases hb.notified n with hnil | ⟨hbusy, _⟩
        · exact hnil
        · exact absurd hwire hbusy
      rcases (hcontends n).notification_cases with hsame | ⟨id, hnotice⟩
      · exact .inl (hsame.trans hnil)
      · refine .inr ⟨by simp [h.onWire_eq], id, ?_⟩
        rw [hnotice, hnil, nil_append]
    formatError_le := fun n => by
      rw [hformat n, hbuffer]
      exact hb.formatError_le n
    due_le := fun due hsome => hb.due_le due (hdue ▸ hsome)
    formatError_nil := fun hnone n => by
      rw [hformat n]
      exact hb.formatError_nil (hdue ▸ hnone) n
    bitrate := fun rate hrate => hb.bitrate rate (hbitrate ▸ hrate)
    ready := fun _ => hbitrate ▸ hb.ready (.inl hpending)
    transfer := fun done hdone => by
      rw [h.onWire_eq] at hdone
      cases hdone
      obtain ⟨n, hactive, hrequest⟩ := h.exists_request
      have hhead := (h.operation_eq hrequest).1
      have hsound : chosen.Sound :=
        hb.sound n chosen (.inl (by rw [Node.pending_eq_cons hhead]; exact mem_cons_self))
      simp only [transmission_operation, transmission_requests, transmission_ends]
      exact ⟨hsound.transmits, h.ends_le, ⟨n, chosen, hrequest⟩,
        fun m request hm => (h.operation_eq hm).2.1⟩ }

end Arbitrated

/-! ## The end of a frame -/

namespace CompletedAt

variable {now : Int} {b b' : Bus} {done : Transfer}

theorem onWire_after (h : CompletedAt now b done b') : b'.onWire = none := by
  rw [h.bus_eq]

theorem committed_eq (h : CompletedAt now b done b') (n : Terminal) :
    (b'.nodes n).requests .committed = (b.nodes n).requests .committed := by
  cases hn : b.isActive n with
  | true => exact (h.completed n hn).committed_eq
  | false =>
    rw [h.inactive n hn]
    rfl

/-- What a terminal keeps at the end of a frame, active or not. -/
theorem frame (h : CompletedAt now b done b') (n : Terminal) :
    (b'.nodes n).queue = (b.nodes n).queue ∧ (b'.nodes n).formatError = (b.nodes n).formatError ∧
      (b'.nodes n).notification = [] := by
  cases hn : b.isActive n with
  | true => exact (h.completed n hn).frame
  | false =>
    rw [h.inactive n hn]
    exact ⟨rfl, rfl, rfl⟩

theorem pending_cases (h : CompletedAt now b done b') (n : Terminal) :
    (b'.nodes n).pending = (b.nodes n).pending ∨
      ∃ request, b.wire n = some request ∧ done.transmissionError = true ∧
        request.attempt ≤ b.retryLimit ∧
        (b'.nodes n).pending =
          { request with attempt := request.attempt + 1 } :: (b.nodes n).pending := by
  rw [wire_of_some h.onWire_eq]
  cases hn : b.isActive n with
  | true => exact (h.completed n hn).pending_cases
  | false =>
    rw [h.inactive n hn]
    exact .inl rfl

theorem valid (h : CompletedAt now b done b') (hb : b.Valid) : b'.Valid := by
  have hqueueCapacity : b'.queueCapacity = b.queueCapacity := by rw [h.bus_eq]
  have hretryLimit : b'.retryLimit = b.retryLimit := by rw [h.bus_eq]
  have hbuffer : b'.bufferCapacity = b.bufferCapacity := by rw [h.bus_eq]
  have hbitrate : b'.bitrate = b.bitrate := by rw [h.bus_eq]
  have hdue : b'.formatErrorsDue = b.formatErrorsDue := by rw [h.bus_eq]
  have hactive : ∀ n, b'.isActive n = b.isActive n := isActive_congr (by rw [h.bus_eq])
  exact {
    buffer_ge := hbuffer ▸ hb.buffer_ge
    accounted := fun n => by
      have hbefore := hb.accounted n
      rw [wire_of_none h.onWire_after, hretryLimit]
      cases hn : b.isActive n with
      | true =>
        rw [wire_of_some h.onWire_eq] at hbefore
        exact hbefore.completed (h.completed n hn)
      | false =>
        rw [(hb.inactive n hn).2.1] at hbefore
        rw [h.inactive n hn]
        exact hbefore.congr rfl rfl rfl
    sound := fun n request hrequest => by
      rw [wire_of_none h.onWire_after] at hrequest
      have hmem := hrequest.resolve_right (by simp)
      rcases h.pending_cases n with hsame | ⟨failed, hwire, _, _, hcons⟩
      · exact hb.sound n request (.inl (hsame ▸ hmem))
      · rw [hcons] at hmem
        rcases mem_cons.mp hmem with rfl | hold
        · have hsound := hb.sound n failed (.inr hwire)
          exact ⟨hsound.transmits, hsound.id_eq⟩
        · exact hb.sound n request (.inl hold)
    inactive := fun n hn => by
      rw [hactive] at hn
      obtain ⟨hnil, _, hreports⟩ := hb.inactive n hn
      rw [h.inactive n hn, wire_of_none h.onWire_after]
      exact ⟨hnil, rfl, hreports⟩
    queue_le := fun n => by
      rw [(h.frame n).1, hqueueCapacity]
      exact hb.queue_le n
    notified := fun n => .inl (h.frame n).2.2
    formatError_le := fun n => by
      rw [(h.frame n).2.1, hbuffer]
      exact hb.formatError_le n
    due_le := fun due hsome => hb.due_le due (hdue ▸ hsome)
    formatError_nil := fun hnone n => by
      rw [(h.frame n).2.1]
      exact hb.formatError_nil (hdue ▸ hnone) n
    bitrate := fun rate hrate => hb.bitrate rate (hbitrate ▸ hrate)
    ready := fun _ => hbitrate ▸ hb.ready (.inr (by simp [h.onWire_eq]))
    transfer := by simp [h.onWire_after] }

end CompletedAt

/-! ## Reports and outputs -/

/-- A change of outputs and the delivery of reports keep a state valid. -/
theorem Valid.of_frame {b b' : Bus} (hb : b.Valid)
    (hbus : b' = { b with nodes := b'.nodes, formatErrorsDue := b'.formatErrorsDue })
    (hnode : ∀ n, b'.nodes n = { b.nodes n with
      output := (b'.nodes n).output, formatError := (b'.nodes n).formatError })
    (hdue : (b'.formatErrorsDue = b.formatErrorsDue ∧
        ∀ n, (b'.nodes n).formatError = (b.nodes n).formatError) ∨
      (b'.formatErrorsDue = none ∧ ∀ n, (b'.nodes n).formatError = [])) : b'.Valid := by
  have hwire : b'.onWire = b.onWire := by rw [hbus]
  have hwires : ∀ n, b'.wire n = b.wire n := fun n => by simp only [wire, hwire]
  have hpending : ∀ n, (b'.nodes n).pending = (b.nodes n).pending := fun n => by
    rw [hnode n]
    rfl
  have hactive : ∀ n, b'.isActive n = b.isActive n := isActive_congr (by rw [hbus])
  exact {
    buffer_ge := by
      rw [hbus]
      exact hb.buffer_ge
    accounted := fun n => by
      rw [hbus]
      exact (hb.accounted n).congr (by rw [hnode n]) (by rw [hnode n]) (by rw [hnode n])
    sound := fun n request hrequest => by
      rw [hpending, hwires] at hrequest
      exact hb.sound n request hrequest
    inactive := fun n hn => by
      rw [hactive] at hn
      obtain ⟨hnil, hnone, hreports⟩ := hb.inactive n hn
      rw [hpending, hwires]
      refine ⟨hnil, hnone, ?_⟩
      rcases hdue with ⟨_, hsame⟩ | ⟨_, hsent⟩
      · rw [hsame n, hreports]
      · exact hsent n
    queue_le := fun n => by
      rw [hnode n, hbus]
      exact hb.queue_le n
    notified := fun n => by
      rw [hnode n, hwire]
      exact hb.notified n
    formatError_le := fun n => by
      have hbuffer : b'.bufferCapacity = b.bufferCapacity := by rw [hbus]
      rw [hbuffer]
      rcases hdue with ⟨_, hsame⟩ | ⟨_, hsent⟩
      · rw [hsame n]
        exact hb.formatError_le n
      · rw [hsent n]
        exact Nat.zero_le _
    due_le := fun due hsome => by
      rcases hdue with ⟨hsame, _⟩ | ⟨hnone, _⟩
      · exact hb.due_le due (hsame ▸ hsome)
      · rw [hnone] at hsome
        cases hsome
    formatError_nil := fun hnone n => by
      rcases hdue with ⟨hsame, hformats⟩ | ⟨_, hsent⟩
      · rw [hformats n]
        exact hb.formatError_nil (hsame ▸ hnone) n
      · exact hsent n
    bitrate := fun rate hrate => by
      rw [hbus] at hrate
      exact hb.bitrate rate hrate
    ready := fun hbusy => by
      have hsame : b'.bitrate = b.bitrate := by rw [hbus]
      rw [hsame]
      rw [hwire] at hbusy
      refine hb.ready (hbusy.imp_left fun hp => ?_)
      obtain ⟨n, hhead⟩ := hasPending_eq_true.mp hp
      refine hasPending_eq_true.mpr ⟨n, ?_⟩
      rwa [Node.head?_eq, hpending, ← Node.head?_eq] at hhead
    transfer := fun transfer htransfer => hb.transfer transfer (hwire ▸ htransfer) }

theorem Valid.clearOutputs {b : Bus} (hb : b.Valid) : b.clearOutputs.Valid :=
  hb.of_frame rfl (fun _ => rfl) (.inl ⟨rfl, fun _ => rfl⟩)

theorem Valid.reportDue {b : Bus} (hb : b.Valid) (now : Int) : (b.reportDue now).Valid := by
  by_cases hdue : b.formatErrorsDue = some now
  · have hreported : b.reportDue now = { b with
        nodes := fun n =>
          { b.nodes n with
            output := if b.isActive n then (b.nodes n).output ++ (b.nodes n).formatError
              else (b.nodes n).output
            formatError := [] }
        formatErrorsDue := none } := by
      simp only [Bus.reportDue, hdue, ne_eq, not_true_eq_false, if_false]
    rw [hreported]
    exact hb.of_frame rfl (fun _ => rfl) (.inr ⟨rfl, fun _ => rfl⟩)
  · simp only [Bus.reportDue, ne_eq, hdue]
    exact hb

/-! ## Calls -/

theorem Valid.tick {b b' : Bus} {now : Int} (hb : b.Valid) (h : b.tick now = .ok b') :
    b'.Valid := by
  obtain ⟨ended, rfl, ⟨done, hcompleted⟩ | ⟨_, rfl⟩⟩ := tick_spec h
  · exact (hcompleted.valid hb).reportDue now
  · exact hb.reportDue now

theorem Valid.receive {b b' : Bus} {inputs : Terminal → Bytes} {now : Int} (hb : b.Valid)
    (h : b.receive inputs now = .ok b') : b'.Valid := by
  obtain ⟨s, next, hcommitted, ⟨_, _, hstarts, harbitrated⟩ | ⟨_, rfl⟩⟩ := receive_spec h
  · exact harbitrated.valid hstarts.1 hstarts.2.1 (hcommitted.valid hb)
  · exact hcommitted.valid hb

theorem Valid.call {b b' : Bus} {call : Call} (hb : b.Valid) (h : b.call call = .ok b') :
    b'.Valid := by
  cases call with
  | receive inputs now => exact hb.receive h
  | tick now => exact hb.tick h
  | clearOutputs =>
    cases h
    exact hb.clearOutputs

theorem call_design {b b' : Bus} {call : Call} (h : b.call call = .ok b') :
    b'.activeNodes = b.activeNodes ∧ b'.queueCapacity = b.queueCapacity ∧
      b'.retryLimit = b.retryLimit ∧ b'.bufferCapacity = b.bufferCapacity := by
  cases call with
  | receive inputs now =>
    obtain ⟨s, next, hcommitted, hnext⟩ := receive_spec h
    have hdesign : next.activeNodes = b.activeNodes ∧
        next.queueCapacity = b.queueCapacity ∧ next.retryLimit = b.retryLimit ∧
        next.bufferCapacity = b.bufferCapacity := by
      rw [hcommitted.design_eq]
      exact ⟨rfl, rfl, rfl, rfl⟩
    rcases hnext with ⟨_, _, _, harbitrated⟩ | ⟨_, rfl⟩
    · rw [harbitrated.bus_eq]
      exact hdesign
    · exact hdesign
  | tick now =>
    obtain ⟨ended, rfl, hended⟩ := tick_spec h
    have hdesign : ended.activeNodes = b.activeNodes ∧
        ended.queueCapacity = b.queueCapacity ∧ ended.retryLimit = b.retryLimit ∧
        ended.bufferCapacity = b.bufferCapacity := by
      rcases hended with ⟨done, hcompleted⟩ | ⟨_, rfl⟩
      · rw [hcompleted.bus_eq]
        exact ⟨rfl, rfl, rfl, rfl⟩
      · exact ⟨rfl, rfl, rfl, rfl⟩
    simp only [Bus.reportDue]
    split
    · exact hdesign
    · exact hdesign
  | clearOutputs =>
    cases h
    exact ⟨rfl, rfl, rfl, rfl⟩

theorem Reaches.design {b : Bus} (h : Reaches c calls b) :
    b.activeNodes = c.activeNodes ∧ b.queueCapacity = c.queueCapacity ∧
      b.retryLimit = c.retryLimit ∧ b.bufferCapacity = c.bufferCapacity := by
  obtain ⟨start, hstart, hrun⟩ := h
  obtain ⟨rules, _, _, rfl⟩ := start_spec hstart
  refine foldlM_invariant (I := fun b => b.activeNodes = c.activeNodes ∧
    b.queueCapacity = c.queueCapacity ∧ b.retryLimit = c.retryLimit ∧
    b.bufferCapacity = c.bufferCapacity) (fun s call s' _ hs hcall => ?_) hrun
    ⟨rfl, rfl, rfl, rfl⟩
  obtain ⟨hactive, hqueue, hretry, hbuffer⟩ := call_design hcall
  exact ⟨hactive.trans hs.1, hqueue.trans hs.2.1, hretry.trans hs.2.2.1, hbuffer.trans hs.2.2.2⟩

theorem Reaches.valid {b : Bus} (h : Reaches c calls b) : b.Valid := by
  obtain ⟨start, hstart, hrun⟩ := h
  exact foldlM_invariant (fun _ _ _ _ hb hcall => hb.call hcall) hrun (valid_start hstart)

end Bus

end SilFormal.Can
