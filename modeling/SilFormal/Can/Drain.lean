import SilFormal.Can.Timing

/-!
# Draining the bus

Without new operations the bus comes to rest: the loop over its events ends
with nothing left to transmit.  The loads of the terminals shrink with every
event, and the transmission time that they still need does not grow.
-/

namespace SilFormal.Can

open Fallible List

/-! ## The load of a terminal -/

/-- The requests that a terminal still holds. -/
structure Load where
  pending : List Request
  wire : Option Request

namespace Load

/-- All requests of the load. -/
def holds (load : Load) : List Request :=
  load.pending ++ load.wire.toList

/-- How a load shrinks: a request goes to the wire or is lost, and the request
on the wire is settled or retried. -/
inductive Moves (limit : Nat) : Load → Load → Prop
  | sent (request : Request) (rest : List Request) :
      Moves limit ⟨request :: rest, none⟩ ⟨rest, some request⟩
  | lost (request : Request) (rest : List Request) :
      Moves limit ⟨request :: rest, none⟩ ⟨rest, none⟩
  | settled (pending : List Request) (request : Request) :
      Moves limit ⟨pending, some request⟩ ⟨pending, none⟩
  | retried (pending : List Request) (request : Request)
      (hattempt : request.attempt ≤ limit) :
      Moves limit ⟨pending, some request⟩
        ⟨{ request with attempt := request.attempt + 1 } :: pending, none⟩

/-- The starts and ends of frames that a load still needs at most. -/
def work (limit : Nat) (load : Load) : Nat :=
  (load.pending.map fun request => 2 * (limit + 2 - request.attempt)).sum +
    (load.wire.toList.map fun request => 2 * (limit + 1 - request.attempt) + 1).sum

/-- The time of a frame of a request with the intermission after it. -/
def frameTime (bitTime : Int) (request : Request) : Int :=
  frameBits request.id (request.operation.drop 16) * bitTime + intermissionBits * bitTime

/-- The time of the frames that a load still needs at most, after the one on
the wire. -/
def backlog (limit : Nat) (bitTime : Int) (load : Load) : Int :=
  (load.pending.map fun request =>
      ((limit + 2 - request.attempt : Nat) : Int) * frameTime bitTime request).sum +
    (load.wire.toList.map fun request =>
      ((limit + 1 - request.attempt : Nat) : Int) * frameTime bitTime request).sum

variable {limit : Nat} {bitTime : Int} {load load' : Load}

theorem Moves.work_lt (h : Moves limit load load')
    (hbound : ∀ request ∈ load.holds, request.attempt ≤ limit + 1) :
    load'.work limit < load.work limit := by
  cases h with
  | sent request rest =>
    have hattempt := hbound request (by simp [holds])
    simp only [work, map_cons, sum_cons, Option.toList_some, map_nil, sum_nil]
    omega
  | lost request rest =>
    have hattempt := hbound request (by simp [holds])
    simp only [work, map_cons, sum_cons]
    omega
  | settled pending request =>
    simp only [work, Option.toList_some, Option.toList_none, map_cons, sum_cons, map_nil, sum_nil]
    omega
  | retried pending request =>
    simp only [work, Option.toList_some, Option.toList_none, map_cons, sum_cons, map_nil, sum_nil]
    omega

theorem frameTime_nonneg (hbit : 0 ≤ bitTime) (request : Request) : 0 ≤ frameTime bitTime request :=
  Int.add_nonneg (Int.mul_nonneg (by omega) hbit) (Int.mul_nonneg (by omega) hbit)

theorem backlog_nonneg (limit : Nat) (hbit : 0 ≤ bitTime) (load : Load) :
    0 ≤ load.backlog limit bitTime := by
  refine Int.add_nonneg (sum_nonneg ?_) (sum_nonneg ?_)
  · intro x hx
    obtain ⟨request, _, rfl⟩ := mem_map.mp hx
    exact Int.mul_nonneg (by omega) (frameTime_nonneg hbit request)
  · intro x hx
    obtain ⟨request, _, rfl⟩ := mem_map.mp hx
    exact Int.mul_nonneg (by omega) (frameTime_nonneg hbit request)

/-- A request that goes to the wire leaves one frame less to come. -/
theorem backlog_sent (bitTime : Int) {request : Request} (rest : List Request)
    (hattempt : request.attempt ≤ limit + 1) :
    (Load.mk rest (some request)).backlog limit bitTime + frameTime bitTime request =
      (Load.mk (request :: rest) none).backlog limit bitTime := by
  have hcount : ((limit + 2 - request.attempt : Nat) : Int) =
      ((limit + 1 - request.attempt : Nat) : Int) + 1 := by omega
  simp only [backlog, map_cons, sum_cons, Option.toList_some, Option.toList_none, hcount,
    Int.add_mul]
  omega

theorem Moves.backlog_le (h : Moves limit load load') (hbit : 0 ≤ bitTime)
    (hbound : ∀ request ∈ load.holds, request.attempt ≤ limit + 1) :
    load'.backlog limit bitTime ≤ load.backlog limit bitTime := by
  cases h with
  | sent request rest =>
    rw [← backlog_sent bitTime rest (hbound request (by simp [holds]))]
    have hframe := frameTime_nonneg hbit request
    omega
  | lost request rest =>
    have hpart : 0 ≤ ((limit + 2 - request.attempt : Nat) : Int) * frameTime bitTime request :=
      Int.mul_nonneg (by omega) (frameTime_nonneg hbit request)
    simp only [backlog, map_cons, sum_cons]
    omega
  | settled pending request =>
    have hpart : 0 ≤ ((limit + 1 - request.attempt : Nat) : Int) * frameTime bitTime request :=
      Int.mul_nonneg (by omega) (frameTime_nonneg hbit request)
    simp only [backlog, Option.toList_some, Option.toList_none, map_cons, sum_cons]
    omega
  | retried pending request =>
    have hcount : limit + 2 - (request.attempt + 1) = limit + 1 - request.attempt := by omega
    simp only [backlog, Option.toList_some, Option.toList_none, map_cons, sum_cons, hcount,
      frameTime]
    omega

/-- A load shrinks to requests that it held before, up to their attempts. -/
theorem Moves.holds (h : Moves limit load load') {request : Request}
    (hrequest : request ∈ load'.holds) :
    ∃ before ∈ load.holds, before.id = request.id ∧ before.operation = request.operation := by
  cases h with
  | sent first rest =>
    refine ⟨request, ?_, rfl, rfl⟩
    simpa [Load.holds, or_comm] using hrequest
  | lost first rest =>
    refine ⟨request, ?_, rfl, rfl⟩
    simp only [Load.holds, Option.toList_none, append_nil, mem_cons] at hrequest ⊢
    exact .inr hrequest
  | settled pending last =>
    refine ⟨request, ?_, rfl, rfl⟩
    simp only [Load.holds, Option.toList_none, append_nil] at hrequest
    exact mem_append_left _ hrequest
  | retried pending last =>
    simp only [Load.holds, Option.toList_none, append_nil, mem_cons] at hrequest
    rcases hrequest with rfl | hrest
    · exact ⟨last, by simp [Load.holds], rfl, rfl⟩
    · exact ⟨request, mem_append_left _ hrest, rfl, rfl⟩

end Load

/-- No two terminals hold requests of one identifier and different operations. -/
def Compatible (holds : Terminal → List Request) : Prop :=
  ∀ n, ∀ request ∈ holds n, ∀ m, ∀ other ∈ holds m, n ≠ m → request.id = other.id →
    request.operation = other.operation

instance (holds : Terminal → List Request) : Decidable (Compatible holds) :=
  inferInstanceAs (Decidable (∀ n, ∀ request ∈ holds n, ∀ m, ∀ other ∈ holds m, n ≠ m →
    request.id = other.id → request.operation = other.operation))

namespace Bus

variable {now : Int} {b b' : Bus} {done : Transfer} {chosen : Request}
    {requests : Terminal → Option Request}

/-- The load of a terminal. -/
def load (b : Bus) (n : Terminal) : Load :=
  ⟨(b.nodes n).pending, b.wire n⟩

/-- When the wire is next free. -/
def freeFrom (b : Bus) : Int :=
  match b.onWire with
  | some done => done.ends + intermissionBits * b.bitTime
  | none => b.idleFrom

/-- When the wire is free after all that the terminals hold, with all attempts
they may need. -/
def horizon (b : Bus) : Int :=
  b.freeFrom + ∑ n, (b.load n).backlog b.retryLimit b.bitTime

/-- The events that are still to come at most. -/
def eventsLeft (b : Bus) : Nat :=
  ∑ n, (b.load n).work b.retryLimit + if b.formatErrorsDue.isSome then 1 else 0

/-- The loop that takes the bus from event to event, for a number of them. -/
def drain : Nat → Bus → Except String (Option Bus)
  | 0, _ => .ok none
  | fuel + 1, b =>
    match b.nextEvent with
    | none => .ok (some b)
    | some due => do
        let ticked ← b.tick due
        let received ← ticked.receive (fun _ => []) due
        drain fuel received

theorem bitTime_nonneg (b : Bus) : 0 ≤ b.bitTime := by
  simp only [bitTime]
  cases b.bitrate with
  | none => exact le_refl _
  | some rate => exact Int.natCast_nonneg _

/-! ## The clocks are within the Run -/

/-- No clock of the bus is before the start of the Run. -/
structure Clocked (b : Bus) : Prop where
  idle : 0 ≤ b.idleFrom
  wire : ∀ done, b.onWire = some done → 0 ≤ done.ends
  report : ∀ due, b.formatErrorsDue = some due → 0 ≤ due

theorem Clocked.receive {inputs : Terminal → Bytes} (hb : b.Clocked)
    (h : b.receive inputs now = .ok b') : b'.Clocked := by
  have hnow := (receive_eq_ok_iff.mp h).1.1
  obtain ⟨s, next, hcommitted, hnext⟩ := receive_spec h
  have hclocked : next.Clocked := by
    refine ⟨?_, ?_, fun due hdue => ?_⟩
    · rw [hcommitted.design_eq]
      exact hb.idle
    · rw [hcommitted.onWire_eq]
      exact hb.wire
    · rw [hcommitted.design_eq] at hdue
      rcases hcommitted.accepted.due_cases with ⟨hsame, _⟩ | ⟨hnew, _⟩
      · exact hb.report due (hsame ▸ hdue)
      · rw [hnew] at hdue
        cases hdue
        omega
  rcases hnext with ⟨chosen, requests, _, harbitrated⟩ | ⟨_, rfl⟩
  · refine ⟨?_, fun done hdone => ?_, ?_⟩
    · rw [harbitrated.bus_eq]
      exact hclocked.idle
    · rw [harbitrated.onWire_eq] at hdone
      cases hdone
      rw [transmission_ends]
      exact Int.add_nonneg hnow (Int.mul_nonneg (by omega) next.bitTime_nonneg)
    · rw [harbitrated.bus_eq]
      exact hclocked.report
  · exact hclocked

theorem Clocked.completedAt (hb : b.Clocked) (h : CompletedAt now b done b') : b'.Clocked := by
  have hends := hb.wire done h.onWire_eq
  rw [h.ends_eq] at hends
  refine ⟨?_, by simp [h.onWire_after], ?_⟩
  · rw [h.bus_eq]
    exact Int.add_nonneg hends (Int.mul_nonneg (by omega) b.bitTime_nonneg)
  · rw [h.bus_eq]
    exact hb.report

theorem Clocked.tick (hb : b.Clocked) (h : b.tick now = .ok b') : b'.Clocked := by
  obtain ⟨ended, rfl, hended⟩ := tick_spec h
  have hclocked : ended.Clocked := by
    rcases hended with ⟨done, hcompleted⟩ | ⟨_, rfl⟩
    · exact hb.completedAt hcompleted
    · exact hb
  simp only [Bus.reportDue]
  split
  · exact hclocked
  · exact ⟨hclocked.idle, hclocked.wire, by simp⟩

theorem Reaches.clocked {c : Configuration} {calls : List Call} (h : Reaches c calls b) :
    b.Clocked := by
  obtain ⟨start, hstart, hrun⟩ := h
  obtain ⟨rules, _, _, rfl⟩ := start_spec hstart
  refine foldlM_invariant (fun s call s' _ hs hcall => ?_) hrun
    ⟨le_refl _, by simp, by simp⟩
  cases call with
  | receive inputs now => exact hs.receive hcall
  | tick now => exact hs.tick hcall
  | clearOutputs =>
    cases hcall
    exact ⟨hs.idle, hs.wire, hs.report⟩

/-! ## Loads shrink -/

/-- The loads of a bus after a step that commits nothing. -/
def Shrinks (b b' : Bus) : Prop :=
  ∀ n, b'.load n = b.load n ∨ Load.Moves b.retryLimit (b.load n) (b'.load n)

theorem Valid.attempt_le (hb : b.Valid) {n : Terminal} {request : Request}
    (hrequest : request ∈ (b.load n).holds) : request.attempt ≤ b.retryLimit + 1 := by
  have haccounted := hb.accounted n
  simp only [Load.holds, load, Node.pending, mem_append, Option.mem_toList] at hrequest
  rcases hrequest with (hretry | hqueue) | hwire
  · exact (haccounted.attempts request (.inl hretry)).2
  · have hattempt := haccounted.queued request hqueue
    omega
  · exact (haccounted.attempts request (.inr hwire)).2

theorem Shrinks.work_le (h : Shrinks b b') (hb : b.Valid) (n : Terminal) :
    (b'.load n).work b.retryLimit ≤ (b.load n).work b.retryLimit := by
  rcases h n with hsame | hmoves
  · rw [hsame]
  · exact (hmoves.work_lt fun _ => hb.attempt_le).le

theorem Shrinks.backlog_le (h : Shrinks b b') (hb : b.Valid) (n : Terminal) :
    (b'.load n).backlog b.retryLimit b.bitTime ≤ (b.load n).backlog b.retryLimit b.bitTime := by
  rcases h n with hsame | hmoves
  · rw [hsame]
  · exact hmoves.backlog_le b.bitTime_nonneg fun _ => hb.attempt_le

theorem Shrinks.eventsLeft_lt (h : Shrinks b b') (hb : b.Valid)
    (hlimit : b'.retryLimit = b.retryLimit) (hdue : b'.formatErrorsDue = b.formatErrorsDue)
    {m : Terminal} (hmoves : Load.Moves b.retryLimit (b.load m) (b'.load m)) :
    b'.eventsLeft < b.eventsLeft := by
  have hsum := Finset.sum_lt_sum (fun n (_ : n ∈ Finset.univ) => h.work_le hb n)
    ⟨m, Finset.mem_univ m, hmoves.work_lt fun _ => hb.attempt_le⟩
  simp only [eventsLeft, hlimit, hdue]
  omega

theorem Shrinks.compatible (h : Shrinks b b') (hb : Compatible fun n => (b.load n).holds) :
    Compatible fun n => (b'.load n).holds := by
  have hbefore : ∀ n, ∀ request ∈ (b'.load n).holds, ∃ before ∈ (b.load n).holds,
      before.id = request.id ∧ before.operation = request.operation := by
    intro n request hrequest
    rcases h n with hsame | hmoves
    · exact ⟨request, hsame ▸ hrequest, rfl, rfl⟩
    · exact hmoves.holds hrequest
  intro n request hrequest m other hother hne hid
  obtain ⟨first, hfirst, hfirstId, hfirstOp⟩ := hbefore n request hrequest
  obtain ⟨second, hsecond, hsecondId, hsecondOp⟩ := hbefore m other hother
  rw [← hfirstOp, ← hsecondOp]
  exact hb n first hfirst m second hsecond hne (by rw [hfirstId, hsecondId, hid])

theorem Arbitrated.load_cases (h : Arbitrated now b chosen requests b') (hb : b.Valid)
    (hwire : b.onWire = none) (n : Terminal) :
    b'.load n = b.load n ∨ Load.Moves b.retryLimit (b.load n) (b'.load n) := by
  simp only [load, h.wire_eq, wire_of_none hwire]
  rcases (h.contends hb n).pending_eq with ⟨hnone, hsame⟩ | ⟨request, _, hcons, hnone | hsome⟩
  · exact .inl (by rw [hnone, hsame])
  · rw [hnone, hcons]
    exact .inr (.lost request _)
  · rw [hsome, hcons]
    exact .inr (.sent request _)

theorem Arbitrated.exists_sent (h : Arbitrated now b chosen requests b') (hb : b.Valid)
    (hwire : b.onWire = none) :
    ∃ n rest, b.load n = ⟨chosen :: rest, none⟩ ∧ b'.load n = ⟨rest, some chosen⟩ := by
  obtain ⟨n, _, hrequest⟩ := h.exists_request
  refine ⟨n, (b'.nodes n).pending, ?_, by rw [load, h.wire_eq, hrequest]⟩
  rw [load, wire_of_none hwire]
  rcases (h.contends hb n).pending_eq with ⟨hnone, _⟩ | ⟨request, _, hcons, hnone | hsome⟩
  · rw [hrequest] at hnone
    cases hnone
  · rw [hrequest] at hnone
    cases hnone
  · rw [hrequest] at hsome
    cases hsome
    rw [hcons]

theorem CompletedAt.load_cases (h : CompletedAt now b done b') (n : Terminal) :
    (b'.load n = b.load n ∧ b.wire n = none) ∨ Load.Moves b.retryLimit (b.load n) (b'.load n) := by
  simp only [load, wire_of_none h.onWire_after]
  rcases h.pending_cases n with hsame | ⟨request, hwire, _, hattempt, hcons⟩
  · rw [hsame]
    cases hwire : b.wire n with
    | none => exact .inl ⟨rfl, rfl⟩
    | some request => exact .inr (.settled _ request)
  · rw [hwire, hcons]
    exact .inr (.retried _ request hattempt)

theorem reportDue_load (b : Bus) (now : Int) (n : Terminal) :
    (b.reportDue now).load n = b.load n := by
  simp only [Bus.reportDue]
  split
  · rfl
  · rfl

theorem reportDue_frame (b : Bus) (now : Int) :
    (b.reportDue now).onWire = b.onWire ∧ (b.reportDue now).idleFrom = b.idleFrom ∧
      (b.reportDue now).retryLimit = b.retryLimit ∧
      (b.reportDue now).bitTime = b.bitTime := by
  simp only [Bus.reportDue]
  split
  · exact ⟨rfl, rfl, rfl, rfl⟩
  · exact ⟨rfl, rfl, rfl, rfl⟩

/-! ## One event of the loop -/

/-- A bus that can be drained: no two terminals will ever collide, and there is
time for all that they hold. -/
structure Drainable (b : Bus) : Prop where
  valid : b.Valid
  clocked : b.Clocked
  compatible : Compatible fun n => (b.load n).holds
  fits : b.horizon ≤ maxTime + intermissionBits * b.bitTime

/-- A sum that one terminal lowers. -/
theorem sum_add_le {f g : Terminal → Int} (cost : Int) (m : Terminal) (hle : ∀ n, g n ≤ f n)
    (hm : g m + cost = f m) : ∑ n, g n + cost ≤ ∑ n, f n := by
  have hcost : ∑ n, (if n = m then cost else 0) = cost := by simp
  calc ∑ n, g n + cost = ∑ n, (g n + if n = m then cost else 0) := by
        rw [Finset.sum_add_distrib, hcost]
    _ ≤ ∑ n, f n := by
        refine Finset.sum_le_sum fun n _ => ?_
        by_cases hn : n = m
        · rw [if_pos hn, hn, hm]
        · rw [if_neg hn, Int.add_zero]
          exact hle n

theorem Drainable.frameEnd_le (hb : b.Drainable) (hwire : b.onWire = none) {n : Terminal}
    {request : Request} (hhead : (b.nodes n).head? = some request) :
    b.frameEnd b.idleFrom request ≤ maxTime := by
  have hload : b.load n = ⟨request :: (b.nodes n).takeHead.pending, none⟩ := by
    rw [load, wire_of_none hwire, Node.pending_eq_cons hhead]
  have hattempt : request.attempt ≤ b.retryLimit + 1 :=
    hb.valid.attempt_le (n := n) (by simp [hload, Load.holds])
  have hsent := Load.backlog_sent b.bitTime (b.nodes n).takeHead.pending hattempt
  rw [← hload] at hsent
  have hrest := Load.backlog_nonneg b.retryLimit b.bitTime_nonneg
    ⟨(b.nodes n).takeHead.pending, some request⟩
  have hsum : (b.load n).backlog b.retryLimit b.bitTime ≤
      ∑ m, (b.load m).backlog b.retryLimit b.bitTime :=
    Finset.single_le_sum (fun m _ => Load.backlog_nonneg _ b.bitTime_nonneg (b.load m))
      (Finset.mem_univ n)
  have hfits := hb.fits
  simp only [horizon, freeFrom, hwire] at hfits
  simp only [Load.frameTime] at hsent
  rw [frameEnd]
  omega

theorem Drainable.exists_arbitrate (hb : b.Drainable) (hwire : b.onWire = none)
    (hpending : b.hasPending = true) :
    ∃ chosen requests b', Arbitrated b.idleFrom b chosen requests b' := by
  cases hwinner : b.winner with
  | none =>
    obtain ⟨n, hhead⟩ := hasPending_eq_true.mp hpending
    cases hn : b.isActive n with
    | true => exact absurd (winner_eq_none.mp hwinner n hn) hhead
    | false => exact absurd (Node.head?_eq_none.mpr (hb.valid.inactive n hn).1) hhead
  | some chosen =>
    obtain ⟨m, _, hm⟩ := exists_head_of_winner hwinner
    have hmem : ∀ n request, (b.nodes n).head? = some request → request ∈ (b.load n).holds := by
      intro n request hhead
      rw [Load.holds, load, Node.pending_eq_cons hhead]
      simp
    have hnode : ∀ n, ∃ node' taken,
        (b.isActive n = true → (b.nodes n).Contended chosen node' taken) ∧
          (b.isActive n = false → node' = b.nodes n ∧ taken = none) := by
      intro n
      cases hn : b.isActive n with
      | false => exact ⟨b.nodes n, none, by simp, fun _ => ⟨rfl, rfl⟩⟩
      | true =>
        have hsame : ∀ request, (b.nodes n).head? = some request →
            request.id = chosen.id → request.operation = chosen.operation := by
          intro request hhead hid
          by_cases hnm : n = m
          · subst hnm
            rw [hm] at hhead
            cases hhead
            rfl
          · exact hb.compatible n request (hmem n request hhead) m chosen
              (hmem m chosen hm) hnm hid
        obtain ⟨node', taken, hcontended⟩ := Node.exists_contended hsame
        exact ⟨node', taken, fun _ => hcontended, by simp⟩
    choose nodes requests hactive hinactive using hnode
    exact ⟨chosen, requests, { b with
        nodes := nodes
        rules := (selectFault b.active requests b.rules).1
        onWire := some (b.transmission b.idleFrom chosen requests).transfer
        frames := b.frames ++ [b.transmission b.idleFrom chosen requests] },
      hwinner, hb.frameEnd_le hwire hm, hactive, hinactive, rfl⟩

/-- The start of a frame uses up time that was set aside for it. -/
theorem Arbitrated.horizon_le (h : Arbitrated b.idleFrom b chosen requests b') (hb : b.Valid)
    (hwire : b.onWire = none) : b'.horizon ≤ b.horizon := by
  obtain ⟨m, rest, hbefore, hafter⟩ := h.exists_sent hb hwire
  have hshrinks : Shrinks b b' := h.load_cases hb hwire
  have hattempt : chosen.attempt ≤ b.retryLimit + 1 :=
    hb.attempt_le (n := m) (by simp [hbefore, Load.holds])
  have hsum := sum_add_le (Load.frameTime b.bitTime chosen) m (hshrinks.backlog_le hb) (by
    rw [hafter, hbefore]
    exact Load.backlog_sent b.bitTime rest hattempt)
  have hlimit : b'.retryLimit = b.retryLimit := by rw [h.bus_eq]
  have htime : b'.bitTime = b.bitTime := by
    rw [h.bus_eq]
    rfl
  simp only [horizon, freeFrom, hwire, h.onWire_eq, hlimit, htime, transmission_ends, frameEnd]
  simp only [Load.frameTime] at hsum
  omega

/-- The end of a frame leaves the time that was set aside for the rest. -/
theorem CompletedAt.horizon_le (h : CompletedAt now b done b') (hb : b.Valid) :
    b'.horizon ≤ b.horizon := by
  have hshrinks : Shrinks b b' := fun n => (h.load_cases n).imp_left And.left
  have hsum := Finset.sum_le_sum fun n (_ : n ∈ Finset.univ) => hshrinks.backlog_le hb n
  have hlimit : b'.retryLimit = b.retryLimit := by rw [h.bus_eq]
  have htime : b'.bitTime = b.bitTime := by
    rw [h.bus_eq]
    rfl
  have hidle : b'.idleFrom = now + intermissionBits * b.bitTime := by rw [h.bus_eq]
  simp only [horizon, freeFrom, h.onWire_after, h.onWire_eq, hlimit, htime, h.ends_eq]
  omega

/-- A tick leaves the next event at or after its instant. -/
theorem le_nextEvent_after_tick (h : b.tick now = .ok b') : ∀ due ∈ b'.nextEvent, now ≤ due := by
  obtain ⟨hwire, hreport⟩ := lt_after_tick h
  rw [le_nextEvent_iff]
  refine ⟨fun done hdone => (hwire done hdone).le, fun hnone hpending => ?_,
    fun due hdue => (hreport due hdue).le⟩
  have hdue := (tick_eq_ok_iff.mp h).1
  obtain ⟨ended, rfl, hended⟩ := tick_spec h
  obtain ⟨hframe, hidle, _⟩ := ended.reportDue_frame now
  rw [hidle]
  rw [hframe] at hnone
  rcases hended with ⟨done, hcompleted⟩ | ⟨_, rfl⟩
  · have hgap : 0 ≤ (intermissionBits : Int) * b.bitTime :=
      Int.mul_nonneg (by omega) b.bitTime_nonneg
    rw [hcompleted.bus_eq]
    show now ≤ now + intermissionBits * b.bitTime
    omega
  · have hle : ∀ due ∈ ended.nextEvent, now ≤ due := by
      rw [hdue]
      rintro due ⟨⟩
      exact le_refl _
    refine (le_nextEvent_iff.mp hle).2.1 hnone ?_
    obtain ⟨n, hhead⟩ := hasPending_eq_true.mp hpending
    refine hasPending_eq_true.mpr ⟨n, ?_⟩
    have hload := congrArg Load.pending (ended.reportDue_load now n)
    rw [Node.head?_eq] at hhead ⊢
    exact fun hnil => hhead ((congrArg head? hload).trans hnil)

/-- An event without inputs, once it is not yet time for a frame. -/
theorem receive_empty_of_not_starting (hnow : 0 ≤ now ∧ now ≤ maxTime)
    (hnext : ∀ due ∈ b.nextEvent, now ≤ due)
    (hstays : ¬ (b.onWire = none ∧ b.hasPending = true ∧ b.idleFrom ≤ now)) :
    b.receive (fun _ => []) now = .ok b :=
  receive_eq_ok_iff.mpr ⟨hnow, hnext, b, commit_empty now b, .inr ⟨hstays, rfl⟩⟩

/-- What a part of an event leaves: a bus that can be drained, with no more
requests and no more events to come. -/
structure Progress (b b' : Bus) : Prop where
  drainable : b'.Drainable
  committed_eq : ∀ n, (b'.nodes n).requests .committed = (b.nodes n).requests .committed
  eventsLeft_le : b'.eventsLeft ≤ b.eventsLeft

theorem Progress.trans {b₁ b₂ : Bus} (h : Progress b b₁) (h' : Progress b₁ b₂) : Progress b b₂ :=
  ⟨h'.drainable, fun n => (h'.committed_eq n).trans (h.committed_eq n),
    h'.eventsLeft_le.trans h.eventsLeft_le⟩

theorem Drainable.completedAt (hb : b.Drainable) (h : CompletedAt now b done b') :
    Progress b b' ∧ b'.eventsLeft < b.eventsLeft := by
  have hshrinks : Shrinks b b' := fun n => (h.load_cases n).imp_left And.left
  have hlimit : b'.retryLimit = b.retryLimit := by rw [h.bus_eq]
  have htime : b'.bitTime = b.bitTime := by
    rw [h.bus_eq]
    rfl
  have hdue : b'.formatErrorsDue = b.formatErrorsDue := by rw [h.bus_eq]
  have hlt : b'.eventsLeft < b.eventsLeft := by
    obtain ⟨_, _, ⟨m, request, hrequest⟩, _⟩ := hb.valid.transfer done h.onWire_eq
    have hmoves : Load.Moves b.retryLimit (b.load m) (b'.load m) := by
      rcases h.load_cases m with ⟨_, hnone⟩ | hmoves
      · rw [wire_of_some h.onWire_eq, hrequest] at hnone
        cases hnone
      · exact hmoves
    exact hshrinks.eventsLeft_lt hb.valid hlimit hdue hmoves
  refine ⟨⟨⟨h.valid hb.valid, hb.clocked.completedAt h, hshrinks.compatible hb.compatible, ?_⟩,
    h.committed_eq, hlt.le⟩, hlt⟩
  rw [htime]
  exact (h.horizon_le hb.valid).trans hb.fits

theorem Drainable.arbitrated (hb : b.Drainable) (h : Arbitrated b.idleFrom b chosen requests b')
    (hwire : b.onWire = none) (hpending : b.hasPending = true) (hclocked : b'.Clocked) :
    Progress b b' ∧ b'.eventsLeft < b.eventsLeft := by
  have hshrinks : Shrinks b b' := h.load_cases hb.valid hwire
  have hlimit : b'.retryLimit = b.retryLimit := by rw [h.bus_eq]
  have htime : b'.bitTime = b.bitTime := by
    rw [h.bus_eq]
    rfl
  have hdue : b'.formatErrorsDue = b.formatErrorsDue := by rw [h.bus_eq]
  have hlt : b'.eventsLeft < b.eventsLeft := by
    obtain ⟨m, rest, hbefore, hafter⟩ := h.exists_sent hb.valid hwire
    have hmoves : Load.Moves b.retryLimit (b.load m) (b'.load m) := by
      rw [hbefore, hafter]
      exact .sent chosen rest
    exact hshrinks.eventsLeft_lt hb.valid hlimit hdue hmoves
  refine ⟨⟨⟨h.valid hwire hpending hb.valid, hclocked, hshrinks.compatible hb.compatible, ?_⟩,
    fun n => (h.contends hb.valid n).committed_eq, hlt.le⟩, hlt⟩
  rw [htime]
  exact (h.horizon_le hb.valid hwire).trans hb.fits

theorem Drainable.reportDue (hb : b.Drainable) (hclocked : (b.reportDue now).Clocked) :
    Progress b (b.reportDue now) ∧
      (b.formatErrorsDue = some now → (b.reportDue now).eventsLeft < b.eventsLeft) := by
  obtain ⟨hwire, hidle, hlimit, htime⟩ := b.reportDue_frame now
  have hhorizon : (b.reportDue now).horizon = b.horizon := by
    simp only [horizon, freeFrom, hwire, hidle, hlimit, htime, b.reportDue_load now]
  have hwork : ∑ n, ((b.reportDue now).load n).work (b.reportDue now).retryLimit =
      ∑ n, (b.load n).work b.retryLimit := by
    simp only [hlimit, b.reportDue_load now]
  have hreported : b.formatErrorsDue = some now → (b.reportDue now).formatErrorsDue = none := by
    intro hdue
    simp only [Bus.reportDue, hdue, ne_eq, not_true_eq_false, if_false]
  have hkept : b.formatErrorsDue ≠ some now → b.reportDue now = b := by
    intro hdue
    simp only [Bus.reportDue, if_pos hdue]
  have hlt : b.formatErrorsDue = some now → (b.reportDue now).eventsLeft < b.eventsLeft := by
    intro hdue
    simp only [eventsLeft, hwork, hreported hdue, hdue]
    simp
  have hcompatible : Compatible fun n => ((b.reportDue now).load n).holds := by
    simpa only [b.reportDue_load now] using hb.compatible
  refine ⟨⟨⟨hb.valid.reportDue now, hclocked, hcompatible, ?_⟩, fun n => ?_, ?_⟩, hlt⟩
  · rw [hhorizon, htime]
    exact hb.fits
  · simp only [Bus.reportDue]
    split
    · rfl
    · rfl
  · by_cases hdue : b.formatErrorsDue = some now
    · exact (hlt hdue).le
    · rw [hkept hdue]

/-- A tick of the loop: it ends a frame or sends reports, unless it is time for
the next frame. -/
theorem Drainable.tick (hb : b.Drainable) (h : b.tick now = .ok b') :
    Progress b b' ∧ (b'.eventsLeft < b.eventsLeft ∨
      b'.onWire = none ∧ b'.hasPending = true ∧ b'.idleFrom ≤ now) := by
  have hclocked := hb.clocked.tick h
  have hdue := (tick_eq_ok_iff.mp h).1
  obtain ⟨ended, rfl, ⟨done, hcompleted⟩ | ⟨hcompletion, rfl⟩⟩ := tick_spec h
  · obtain ⟨hfirst, hlt⟩ := hb.completedAt hcompleted
    have hsecond := (hfirst.drainable.reportDue hclocked).1
    exact ⟨hfirst.trans hsecond, .inl (hsecond.eventsLeft_le.trans_lt hlt)⟩
  · obtain ⟨hprogress, hlt⟩ := hb.reportDue hclocked
    refine ⟨hprogress, ?_⟩
    by_cases hreport : ended.formatErrorsDue = some now
    · exact .inl (hlt hreport)
    · refine .inr ?_
      rw [show ended.reportDue now = ended by simp only [Bus.reportDue, if_pos hreport]]
      rcases nextEvent_cases hdue with hcomplete | hsent | ⟨hwire, hpending, hidle⟩
      · rw [hcompletion] at hcomplete
        cases hcomplete
      · exact absurd hsent hreport
      · exact ⟨hwire, hpending, hidle.le⟩

theorem Drainable.due_bounds {due : Int} (hb : b.Drainable) (hdue : b.nextEvent = some due) :
    0 ≤ due ∧ due ≤ maxTime := by
  rcases nextEvent_cases hdue with hcompletion | hreport | ⟨hwire, hpending, hidle⟩
  · simp only [isCompletion] at hcompletion
    split at hcompletion
    · rename_i done hwire
      have hends : done.ends = due := by simpa using hcompletion
      rw [← hends]
      exact ⟨hb.clocked.wire done hwire, (hb.valid.transfer done hwire).2.1⟩
    · cases hcompletion
  · exact ⟨hb.clocked.report due hreport, hb.valid.due_le due hreport⟩
  · refine ⟨hidle ▸ hb.clocked.idle, ?_⟩
    obtain ⟨n, hhead⟩ := hasPending_eq_true.mp hpending
    obtain ⟨request, hrequest⟩ := Option.ne_none_iff_exists'.mp hhead
    have hends := hb.frameEnd_le hwire hrequest
    have hframe : 0 ≤ (frameBits request.id (request.operation.drop 16) : Int) * b.bitTime :=
      Int.mul_nonneg (by omega) b.bitTime_nonneg
    rw [frameEnd] at hends
    omega

/-- One event of the loop succeeds and leaves fewer events to come. -/
theorem Drainable.event {due : Int} (hb : b.Drainable) (hdue : b.nextEvent = some due) :
    ∃ ticked received, b.tick due = .ok ticked ∧
      ticked.receive (fun _ => []) due = .ok received ∧ Progress b received ∧
      received.eventsLeft < b.eventsLeft := by
  obtain ⟨ticked, htick⟩ := hb.valid.exists_tick hdue
  obtain ⟨hprogress, hcase⟩ := hb.tick htick
  have hbounds := hb.due_bounds hdue
  have hnext := le_nextEvent_after_tick htick
  by_cases hstarts : ticked.onWire = none ∧ ticked.hasPending = true ∧ ticked.idleFrom ≤ due
  · obtain ⟨hwire, hpending, hidle⟩ := hstarts
    have hnow : ticked.idleFrom = due :=
      le_antisymm hidle ((le_nextEvent_iff.mp hnext).2.1 hwire hpending)
    obtain ⟨chosen, requests, received, harbitrated⟩ :=
      hprogress.drainable.exists_arbitrate hwire hpending
    have hreceive : ticked.receive (fun _ => []) due = .ok received := by
      refine receive_eq_ok_iff.mpr ⟨hbounds, hnext, ticked, commit_empty due ticked,
        .inl ⟨hwire, hpending, hidle, arbitrate_eq_ok_iff.mpr ⟨chosen, requests, ?_⟩⟩⟩
      rw [← hnow]
      exact harbitrated
    obtain ⟨hmore, hlt⟩ := hprogress.drainable.arbitrated harbitrated hwire hpending
      (hprogress.drainable.clocked.receive hreceive)
    exact ⟨ticked, received, htick, hreceive, hprogress.trans hmore,
      hlt.trans_le hprogress.eventsLeft_le⟩
  · refine ⟨ticked, ticked, htick, receive_empty_of_not_starting hbounds hnext hstarts,
      hprogress, ?_⟩
    rcases hcase with hlt | hstarted
    · exact hlt
    · exact absurd hstarted hstarts

theorem Drainable.exists_drain (hb : b.Drainable) :
    ∃ fuel drained, b.drain fuel = .ok (some drained) ∧ drained.nextEvent = none ∧
      Progress b drained := by
  induction hleft : b.eventsLeft using Nat.strong_induction_on generalizing b with
  | h left ih =>
    cases hdue : b.nextEvent with
    | none => refine ⟨1, b, by simp only [drain, hdue], hdue, ⟨hb, fun _ => rfl, le_refl _⟩⟩
    | some due =>
      obtain ⟨ticked, received, htick, hreceive, hprogress, hlt⟩ := hb.event hdue
      obtain ⟨fuel, drained, hdrain, hnone, hrest⟩ :=
        ih received.eventsLeft (hleft ▸ hlt) hprogress.drainable rfl
      refine ⟨fuel + 1, drained, ?_, hnone, hprogress.trans hrest⟩
      simp only [drain, hdue, bind_eq_ok]
      exact ⟨ticked, htick, received, hreceive, hdrain⟩

theorem at_rest (h : b.nextEvent = none) (n : Terminal) :
    b.onWire = none ∧ (b.nodes n).queue = [] ∧ (b.nodes n).retry = none := by
  simp only [nextEvent] at h
  cases hwire : b.onWire with
  | some done =>
    cases hdue : b.formatErrorsDue with
    | none => simp [hwire, hdue] at h
    | some due => simp [hwire, hdue] at h
  | none =>
    have hidle : b.hasPending = false := by
      cases hpending : b.hasPending with
      | false => rfl
      | true =>
        cases hdue : b.formatErrorsDue with
        | none => simp [hwire, hdue, hpending] at h
        | some due => simp [hwire, hdue, hpending] at h
    have hnil : (b.nodes n).pending = [] := by
      rw [← Node.head?_eq_none]
      by_contra hhead
      rw [hasPending_eq_true.mpr ⟨n, hhead⟩] at hidle
      cases hidle
    simp only [Node.pending, append_eq_nil_iff, Option.toList_eq_nil_iff] at hnil
    exact ⟨rfl, hnil.2, hnil.1⟩

/-- Draining from a reachable state in which no two terminals hold requests of
one identifier and different operations, counting the requests on the wire, and
in which the frames that the held requests may need end in time: the loop ends
without throwing, the bus is at rest, and every request that was held is
confirmed, lost or exhausted. -/
theorem drain_settles {c : Configuration} {calls : List Call} {b : Bus} (h : Reaches c calls b)
    (hcompatible : Compatible fun n => (b.load n).holds)
    (hfits : b.horizon ≤ maxTime + intermissionBits * b.bitTime) :
    ∃ fuel drained, b.drain fuel = .ok (some drained) ∧ drained.onWire = none ∧
      ∀ n, (drained.nodes n).queue = [] ∧ (drained.nodes n).retry = none ∧
        (drained.nodes n).settled.map Request.asCommitted =
          ((b.nodes n).settled + ↑(b.load n).holds).map Request.asCommitted := by
  have hb : b.Drainable := ⟨h.valid, h.clocked, hcompatible, hfits⟩
  obtain ⟨fuel, drained, hdrain, hnone, hprogress⟩ := hb.exists_drain
  have hvalid := hprogress.drainable.valid
  refine ⟨fuel, drained, hdrain, (at_rest hnone 0).1, fun n => ?_⟩
  obtain ⟨hwire, hqueue, hretry⟩ := at_rest hnone n
  refine ⟨hqueue, hretry, ?_⟩
  have hafter := (hvalid.accounted n).conserved
  rw [hprogress.committed_eq n, (hb.valid.accounted n).conserved, wire_of_none hwire, hqueue,
    hretry] at hafter
  simp only [Option.toList_none, Multiset.coe_nil, add_zero] at hafter
  rw [← hafter]
  simp only [Load.holds, load, Node.pending, ← Multiset.coe_add, Multiset.map_add]
  abel

/-- The failed frame of `faultyPair` and what waits behind it are drained. -/
theorem drain_settles_faultyPair :
    ∃ b, Reaches faultyPair [.receive faultyInputs 0] b ∧ b.hasPending = true ∧
      ∃ fuel drained, b.drain fuel = .ok (some drained) ∧ drained.onWire = none := by
  have hrun : reachesWith faultyPair [.receive faultyInputs 0] (fun b =>
      b.hasPending && decide (Compatible fun n => (b.load n).holds) &&
        decide (b.horizon ≤ maxTime + intermissionBits * b.bitTime)) = true := by
    decide +kernel
  obtain ⟨b, hreaches, hchecks⟩ := exists_reaches hrun
  simp only [Bool.and_eq_true, decide_eq_true_eq] at hchecks
  obtain ⟨⟨hpending, hcompatible⟩, hfits⟩ := hchecks
  obtain ⟨fuel, drained, hdrain, hwire, _⟩ := drain_settles hreaches hcompatible hfits
  exact ⟨b, hreaches, hpending, fuel, drained, hdrain, hwire⟩

/-- When the wire is free after the queued and retried requests alone. -/
def pendingHorizon (b : Bus) : Int :=
  b.freeFrom + ∑ n, (Load.mk (b.nodes n).pending none).backlog b.retryLimit b.bitTime

/-- Only the first terminal requests a frame. -/
def soleInputs : Terminal → Bytes
  | 0 => faultyInputs 0
  | 1 => (faultyInputs 1).take 13
  | _ => []

/-- A second request of the identifier on the wire, with other data. -/
def collidingInputs : Terminal → Bytes
  | 1 => [0x10, 0, 0, 0, 17, 0, 0, 0, 1, 0, 0, 0, 0, 0, 1, 0, 7]
  | _ => []

/-- The same pair with a rule for the whole Run. -/
def lateFault : Configuration :=
  { faultyPair with faultRules := [⟨1, 1, 0, 1, 0, 2 ^ 50, 1, 1⟩] }

/-- It is not enough to look at the queued and retried requests: the request on
the wire may come back.  Its retry can collide with what was queued meanwhile,
and there may be no time left for it. -/
theorem drain_throws_by_retry :
    (∃ b, Reaches faultyPair [.receive soleInputs 0, .receive collidingInputs 1000] b ∧
      (Compatible fun n => (b.nodes n).pending) ∧
      b.pendingHorizon ≤ maxTime + intermissionBits * b.bitTime ∧
      ∃ fuel message, b.drain fuel = .error message) ∧
    ∃ b, Reaches lateFault [.receive soleInputs (2 ^ 50 - 376000)] b ∧
      (Compatible fun n => (b.load n).holds) ∧
      b.pendingHorizon ≤ maxTime + intermissionBits * b.bitTime ∧
      ∃ fuel message, b.drain fuel = .error message := by
  have hthrows : ∀ {c : Configuration} {calls : List Call} {P : Bus → Prop} [DecidablePred P],
      reachesWith c calls (fun b => decide (P b) &&
        decide (b.pendingHorizon ≤ maxTime + intermissionBits * b.bitTime) &&
        !(b.drain 3).isOk) = true →
      ∃ b, Reaches c calls b ∧ P b ∧ b.pendingHorizon ≤ maxTime + intermissionBits * b.bitTime ∧
        ∃ fuel message, b.drain fuel = .error message := by
    intro c calls P _ hrun
    obtain ⟨b, hreaches, hchecks⟩ := exists_reaches hrun
    simp only [Bool.and_eq_true, decide_eq_true_eq, Bool.not_eq_true'] at hchecks
    refine ⟨b, hreaches, hchecks.1.1, hchecks.1.2, 3, ?_⟩
    cases hdrain : b.drain 3 with
    | error message => exact ⟨message, rfl⟩
    | ok drained =>
      rw [hdrain] at hchecks
      cases hchecks.2
  exact ⟨hthrows (by decide +kernel), hthrows (by decide +kernel)⟩

end Bus

end SilFormal.Can
