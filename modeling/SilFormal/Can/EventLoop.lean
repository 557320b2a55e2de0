import SilFormal.Can.Conservation

/-!
# The event loop of the adapter

The adapter takes the bus from instant to instant without passing an event of
the bus.  An event at a due instant ticks, every event then receives, and the
outputs are cleared at its end.  Since the adapter works on a copy of the bus,
an event that throws leaves the state before it.
-/

namespace SilFormal.Can

open Fallible

/-- Where the adapter stands: between two events, or in one before or after
the operations are received. -/
inductive Phase
  | waiting
  | ticked
  | received
deriving DecidableEq, Repr

/-- The states of the bus in the event loop of the adapter, by instant. -/
inductive EventLoop (c : Configuration) : Phase → Int → Bus → Prop
  | start {b : Bus} {now : Int} (hstart : c.start = .ok b) (hnow : 0 ≤ now) :
      EventLoop c .waiting now b
  | step {b : Bus} {now later : Int} (h : EventLoop c .waiting now b) (hlater : now ≤ later)
      (hdue : ∀ due ∈ b.nextEvent, later ≤ due) : EventLoop c .waiting later b
  | tick {b b' : Bus} {now : Int} (h : EventLoop c .waiting now b)
      (hdue : b.nextEvent = some now) (htick : b.tick now = .ok b') :
      EventLoop c .ticked now b'
  | skip {b : Bus} {now : Int} (h : EventLoop c .waiting now b)
      (hdue : b.nextEvent ≠ some now) : EventLoop c .ticked now b
  | receive {b b' : Bus} {now : Int} {inputs : Terminal → Bytes}
      (h : EventLoop c .ticked now b) (hreceive : b.receive inputs now = .ok b') :
      EventLoop c .received now b'
  | clear {b : Bus} {now : Int} (h : EventLoop c .received now b) :
      EventLoop c .waiting now b.clearOutputs

namespace Bus

theorem Reaches.snoc {c : Configuration} {calls : List Call} {b b' : Bus} (call : Call)
    (h : Reaches c calls b) (hcall : b.call call = .ok b') : Reaches c (calls ++ [call]) b' := by
  obtain ⟨start, hstart, hrun⟩ := h
  refine ⟨start, hstart, ?_⟩
  rw [run, List.foldlM_append, bind_eq_ok]
  refine ⟨b, hrun, ?_⟩
  rw [List.foldlM_cons, bind_eq_ok]
  exact ⟨b', hcall, rfl⟩

end Bus

open Bus

theorem EventLoop.reaches {c : Configuration} {phase : Phase} {now : Int} {b : Bus}
    (h : EventLoop c phase now b) : ∃ calls, Reaches c calls b := by
  induction h with
  | start hstart => exact ⟨[], _, hstart, rfl⟩
  | step _ _ _ ih => exact ih
  | tick _ _ htick ih =>
    obtain ⟨calls, hreaches⟩ := ih
    exact ⟨_, hreaches.snoc (.tick _) htick⟩
  | skip _ _ ih => exact ih
  | receive _ hreceive ih =>
    obtain ⟨calls, hreaches⟩ := ih
    exact ⟨_, hreaches.snoc (.receive _ _) hreceive⟩
  | clear _ ih =>
    obtain ⟨calls, hreaches⟩ := ih
    exact ⟨_, hreaches.snoc .clearOutputs rfl⟩

namespace Bus

/-! ## Ticks do not throw -/

theorem Valid.exists_complete {b : Bus} (hb : b.Valid) {done : Transfer}
    (hwire : b.onWire = some done) : ∃ b', b.complete done.ends = .ok b' := by
  have hnode : ∀ n, ∃ node', (b.isActive n = true →
        (b.nodes n).Completed b.retryLimit done n node') ∧
      (b.isActive n = false → node' = { b.nodes n with notification := [] }) := by
    intro n
    cases hn : b.isActive n with
    | false => exact ⟨_, by simp, fun _ => rfl⟩
    | true =>
      have hexclusive := (hb.accounted n).exclusive
      rw [wire_of_some hwire] at hexclusive
      obtain ⟨node', hcompleted⟩ :=
        Node.exists_completed b.retryLimit done n (b.nodes n) hexclusive
      exact ⟨node', fun _ => hcompleted, by simp⟩
  choose nodes hactive hinactive using hnode
  exact ⟨{ b with
      nodes := nodes, idleFrom := done.ends + intermissionBits * b.bitTime, onWire := none },
    complete_eq_ok_iff.mpr ⟨done, hwire, rfl, hactive, hinactive, rfl⟩⟩

theorem Valid.exists_tick {b : Bus} (hb : b.Valid) {now : Int} (hdue : b.nextEvent = some now) :
    ∃ b', b.tick now = .ok b' := by
  cases hcompletion : b.isCompletion now with
  | false => exact ⟨b.reportDue now, tick_eq_ok_iff.mpr ⟨hdue, b, by simp [hcompletion], rfl⟩⟩
  | true =>
    simp only [isCompletion] at hcompletion
    split at hcompletion
    · rename_i done hwire
      have hends : done.ends = now := by simpa using hcompletion
      obtain ⟨ended, hended⟩ := hb.exists_complete hwire
      rw [hends] at hended
      refine ⟨ended.reportDue now, tick_eq_ok_iff.mpr ⟨hdue, ended, ?_, rfl⟩⟩
      simp only [isCompletion, hwire, hends]
      exact hended
    · cases hcompletion

/-! ## The size of the outputs -/

/-- A frame end leaves room for the Format Error reports. -/
theorem CompletedAt.output_length_le {now : Int} {b b' : Bus} {done : Transfer}
    (h : CompletedAt now b done b') (hb : b.Valid) (hempty : ∀ n, (b.nodes n).output = [])
    (n : Terminal) : (b'.nodes n).output.length ≤ frameEndOutput := by
  cases hn : b.isActive n with
  | false =>
    rw [h.inactive n hn]
    simp [hempty n]
  | true =>
    obtain ⟨hframe, _⟩ := hb.transfer done h.onWire_eq
    refine (h.completed n hn).output_length_le ?_ ?_
    · rcases hb.notified n with hnil | ⟨_, id, hnotice⟩
      · simp [hnil]
      · rw [hnotice, identifierOperation_length]
    · have hlength := hframe.length_eq
      have hdata := hframe.data_le
      omega

theorem reportDue_output_length_le {b : Bus} (now : Int) (n : Terminal) :
    ((b.reportDue now).nodes n).output.length ≤
      (b.nodes n).output.length + (b.nodes n).formatError.length := by
  simp only [reportDue]
  split
  · omega
  · simp only
    split
    · rw [List.length_append]
    · omega

/-- The outputs of a tick fit the buffers of the terminals. -/
theorem Valid.tick_output_length_le {b b' : Bus} {now : Int} (hb : b.Valid)
    (hempty : ∀ n, (b.nodes n).output = []) (h : b.tick now = .ok b') (n : Terminal) :
    (b'.nodes n).output.length ≤ b.bufferCapacity := by
  obtain ⟨ended, rfl, hended⟩ := tick_spec h
  have hreport := reportDue_output_length_le (b := ended) now n
  have hroom := hb.formatError_le n
  have hbuffer := hb.buffer_ge
  simp only [minOperationBuffer] at hbuffer
  rcases hended with ⟨done, hcompleted⟩ | ⟨_, rfl⟩
  · have houtput := hcompleted.output_length_le hb hempty n
    rw [(hcompleted.frame n).2.1] at hreport
    simp only [frameEndOutput] at houtput hroom
    omega
  · rw [hempty n, List.length_nil] at hreport
    omega

theorem Valid.receive_output_eq {b b' : Bus} {inputs : Terminal → Bytes} {now : Int} (hb : b.Valid)
    (h : b.receive inputs now = .ok b') (n : Terminal) :
    (b'.nodes n).output = (b.nodes n).output := by
  obtain ⟨s, next, hcommitted, hnext⟩ := receive_spec h
  have hsame : (next.nodes n).output = (b.nodes n).output := by rw [hcommitted.node_eq n]
  rcases hnext with ⟨_, _, _, harbitrated⟩ | ⟨_, rfl⟩
  · exact ((harbitrated.contends (hcommitted.valid hb) n).frame.2).trans hsame
  · exact hsame

end Bus

namespace EventLoop

variable {c : Configuration} {phase : Phase} {now : Int} {b : Bus}

theorem valid (h : EventLoop c phase now b) : b.Valid := by
  obtain ⟨calls, hreaches⟩ := h.reaches
  exact hreaches.valid

theorem design (h : EventLoop c phase now b) :
    b.activeNodes = c.activeNodes ∧ b.queueCapacity = c.queueCapacity ∧
      b.retryLimit = c.retryLimit ∧ b.bufferCapacity = c.bufferCapacity := by
  obtain ⟨calls, hreaches⟩ := h.reaches
  exact hreaches.design

theorem outputs_empty (h : EventLoop c .waiting now b) (n : Terminal) :
    (b.nodes n).output = [] := by
  generalize hphase : Phase.waiting = phase at h
  induction h with
  | start hstart =>
    obtain ⟨rules, _, _, rfl⟩ := start_spec hstart
    rfl
  | step _ _ _ ih => exact ih hphase
  | tick => cases hphase
  | skip => cases hphase
  | receive => cases hphase
  | clear => rfl

/-- In an event the outputs fit the buffers. -/
theorem output_length_le (h : EventLoop c phase now b) (n : Terminal) :
    (b.nodes n).output.length ≤ c.bufferCapacity := by
  induction h with
  | start hstart =>
    obtain ⟨rules, _, _, rfl⟩ := start_spec hstart
    exact Nat.zero_le _
  | step _ _ _ ih => exact ih
  | tick h _ htick =>
    rw [← h.design.2.2.2]
    exact h.valid.tick_output_length_le h.outputs_empty htick n
  | skip _ _ ih => exact ih
  | receive h hreceive ih =>
    rw [h.valid.receive_output_eq hreceive n]
    exact ih
  | clear => exact Nat.zero_le _

/-- The due event of the bus is always possible, and nothing outgrows its
capacity, wherever the event loop stands. -/
theorem due_event_fits (h : EventLoop c phase now b) :
    (phase = .waiting → ∀ due, b.nextEvent = some due →
      ∃ b', b.tick due = .ok b' ∧ ∀ n, (b'.nodes n).output.length ≤ c.bufferCapacity) ∧
      (∀ n, (b.nodes n).retry = none ∨ b.wire n = none) ∧
      (∀ n, (b.nodes n).output.length ≤ c.bufferCapacity) ∧
      (∀ n, (b.nodes n).queue.length ≤ c.queueCapacity) ∧
      ∀ n, (b.nodes n).notification = [] ∨
        ∃ id, (b.nodes n).notification = identifierOperation arbitrationLostCode id := by
  have hvalid := h.valid
  refine ⟨fun hphase due hdue => ?_, fun n => (hvalid.accounted n).exclusive,
    h.output_length_le, fun n => ?_, fun n => ?_⟩
  · subst hphase
    obtain ⟨b', htick⟩ := hvalid.exists_tick hdue
    refine ⟨b', htick, fun n => ?_⟩
    rw [← h.design.2.2.2]
    exact hvalid.tick_output_length_le h.outputs_empty htick n
  · rw [← h.design.2.1]
    exact hvalid.queue_le n
  · exact (hvalid.notified n).imp_right And.right

theorem nextEvent_start (hstart : c.start = .ok b) : b.nextEvent = none := by
  obtain ⟨rules, _, _, rfl⟩ := start_spec hstart
  rfl

theorem first {start : Bus} {inputs : Terminal → Bytes} (hstart : c.start = .ok start)
    (hnow : 0 ≤ now) (hreceive : start.receive inputs now = .ok b) :
    EventLoop c .waiting now b.clearOutputs := by
  refine (((EventLoop.start hstart hnow).skip ?_).receive hreceive).clear
  rw [nextEvent_start hstart]
  simp

end EventLoop

/-- The end of the failed frame of `faultyPair` is such an event. -/
theorem EventLoop.due_event_fits_failed :
    ∃ b, EventLoop faultyPair .waiting 0 b ∧ b.nextEvent = some 376000 ∧
      ∃ b', b.tick 376000 = .ok b' ∧ ∀ n, (b'.nodes n).output.length ≤ 2048 := by
  have hrun : reachesWith faultyPair [.receive faultyInputs 0, .clearOutputs]
      (fun b => b.nextEvent == some 376000) = true := by
    decide +kernel
  obtain ⟨_, ⟨start, hstart, hcalls⟩, hdue⟩ := exists_reaches hrun
  rw [run, List.foldlM_cons, bind_eq_ok] at hcalls
  obtain ⟨b, hreceive, hclear⟩ := hcalls
  cases hclear
  have hloop : EventLoop faultyPair .waiting 0 b.clearOutputs :=
    EventLoop.first hstart (le_refl _) hreceive
  have hnext : b.clearOutputs.nextEvent = some 376000 := by simpa using hdue
  exact ⟨_, hloop, hnext, hloop.due_event_fits.1 rfl _ hnext⟩

end SilFormal.Can
