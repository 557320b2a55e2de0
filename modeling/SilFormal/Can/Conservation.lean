import SilFormal.Can.Reachable

/-!
# No request is lost or duplicated

Every request that a terminal committed is confirmed, lost, exhausted, queued,
in the retry slot or on the wire, and in exactly one of these places.
-/

namespace SilFormal.Can

namespace Bus

/-- The committed requests of a terminal are where its accounts say, in every
state that calls reach from an accepted configuration.  `lost` are those whose
ArbitrationLost notice is written, and `exhausted` those dropped after a bus
error. -/
theorem requests_conserved {c : Configuration} {calls : List Call} {b : Bus} (h : Reaches c calls b)
    (n : Terminal) :
    (↑((b.nodes n).requests .committed) : Multiset Request) =
        (↑((b.nodes n).requests .confirmed) + ↑((b.nodes n).requests .lost) +
          ↑((b.nodes n).requests .exhausted) + ↑(b.nodes n).queue +
          ↑(b.nodes n).retry.toList + ↑(b.wire n).toList :
            Multiset Request).map Request.asCommitted ∧
      (b.nodes n).requests .committed = (b.nodes n).requests .dequeued ++ (b.nodes n).queue ∧
      ((b.nodes n).retry = none ∨ b.wire n = none) ∧
      (∀ request, request ∈ (b.nodes n).pending ∨ b.wire n = some request ∨
          (∃ event ∈ (b.nodes n).history, event.request = request) →
        1 ≤ request.attempt ∧ request.attempt ≤ c.retryLimit + 1) ∧
      ∀ request ∈ (b.nodes n).requests .exhausted, request.attempt = c.retryLimit + 1 := by
  have haccounted := h.valid.accounted n
  rw [h.design.2.2.1] at haccounted
  refine ⟨haccounted.conserved, haccounted.fifo, haccounted.exclusive, ?_, haccounted.exhausted⟩
  rintro request (hpending | hwire | ⟨event, hevent, rfl⟩)
  · rcases List.mem_append.mp hpending with hretry | hqueue
    · exact haccounted.attempts request (.inl (by simpa using hretry))
    · have hattempt := haccounted.queued request hqueue
      omega
  · exact haccounted.attempts request (.inr hwire)
  · exact haccounted.past event hevent

/-- Two terminals at 125 kbit/s and a rule that makes the first attempt of the
first request fail. -/
def faultyPair : Configuration where
  activeNodes := 2
  queueCapacity := 4
  retryLimit := 1
  faultRuleCount := 1
  faultRules := [⟨1, 1, 0, 1, 0, 0, 1, 1⟩]
  bufferCapacity := 2048

/-- Both terminals set the bitrate, and each requests a frame. -/
def faultyInputs : Terminal → Bytes
  | 0 => [0x40, 0, 0, 0, 13, 0, 0, 0, 1, 0x48, 0xe8, 1, 0,
      0x10, 0, 0, 0, 16, 0, 0, 0, 1, 0, 0, 0, 0, 0, 0, 0]
  | 1 => [0x40, 0, 0, 0, 13, 0, 0, 0, 1, 0x48, 0xe8, 1, 0,
      0x10, 0, 0, 0, 16, 0, 0, 0, 2, 0, 0, 0, 0, 0, 0, 0]
  | _ => []

theorem exists_retry : ∃ b, Reaches faultyPair [.receive faultyInputs 0, .tick 376000] b ∧
    (b.nodes 0).retry.map Request.attempt = some 2 := by
  have hrun : reachesWith faultyPair [.receive faultyInputs 0, .tick 376000]
      (fun b => (b.nodes 0).retry.map Request.attempt == some 2) = true := by
    decide +kernel
  obtain ⟨b, hreaches, hretry⟩ := exists_reaches hrun
  exact ⟨b, hreaches, by simpa using hretry⟩

/-- After the failed frame its request waits in the retry slot, and the wire is
free. -/
theorem requests_conserved_retry :
    ∃ b, Reaches faultyPair [.receive faultyInputs 0, .tick 376000] b ∧
      (b.nodes 0).retry.map Request.attempt = some 2 ∧
      (b.nodes 0).requests .committed = (b.nodes 0).requests .dequeued ++ (b.nodes 0).queue ∧
      ((b.nodes 0).retry = none ∨ b.wire 0 = none) := by
  obtain ⟨b, hreaches, hretry⟩ := exists_retry
  obtain ⟨_, hfifo, hexclusive, _⟩ := requests_conserved hreaches 0
  exact ⟨b, hreaches, hretry, hfifo, hexclusive⟩

end Bus

end SilFormal.Can
