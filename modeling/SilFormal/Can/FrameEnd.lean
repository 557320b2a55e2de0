import SilFormal.Can.EventLoop

/-!
# What the terminals get at the end of a frame

Who sends, who loses and which fault applies is decided when a frame goes on
the wire, several events before its end.  `ArbitratedBy` finds that arbitration
again in the calls that led to a state, and the outputs at the end of the frame
are given by what the terminals contended with there.
-/

namespace SilFormal.Can

open Fallible

namespace Bus

/-! ## The arbitration of a frame -/

variable {b : Bus} {done : Transfer} {c : Configuration} {calls : List Call}
  {requests : Terminal → Option Request}

/-- The event of the calls that put a frame on the wire: the bus is in the state
`before` when it arbitrates at `start`, and no terminal was told of the outcome
since. -/
def ArbitratedBy (c : Configuration) (calls : List Call) (b : Bus) (done : Transfer) (before : Bus)
    (start : Int) : Prop :=
  ∃ earlier inputs later opened after, calls = earlier ++ .receive inputs start :: later ∧
      Reaches c earlier opened ∧ opened.onWire = none ∧
      opened.commit inputs start = .ok before ∧ before.arbitrate start = .ok after ∧
      after.onWire = some done ∧
      ∀ n, (b.nodes n).notification = (after.nodes n).notification

/-- A call keeps the frame on the wire and the notices, or it puts the frame
there. -/
theorem call_onWire {b' : Bus} {call : Call} (h : b.call call = .ok b')
    (hwire : b'.onWire = some done) :
    (b.onWire = some done ∧ ∀ n, (b'.nodes n).notification = (b.nodes n).notification) ∨
      ∃ inputs now before, call = .receive inputs now ∧ b.onWire = none ∧
        b.commit inputs now = .ok before ∧ before.arbitrate now = .ok b' := by
  cases call with
  | receive inputs now =>
    obtain ⟨_, _, next, hcommit, hnext⟩ := receive_eq_ok_iff.mp h
    obtain ⟨s, hcommitted⟩ := commit_spec hcommit
    rcases hnext with ⟨hfree, _, _, harbitrate⟩ | ⟨_, rfl⟩
    · rw [hcommitted.onWire_eq] at hfree
      exact .inr ⟨inputs, now, next, rfl, hfree, hcommit, harbitrate⟩
    · rw [hcommitted.onWire_eq] at hwire
      refine .inl ⟨hwire, fun n => ?_⟩
      rw [hcommitted.node_eq n]
  | tick now =>
    obtain ⟨ended, rfl, hended⟩ := tick_spec h
    have hkept : (ended.reportDue now).onWire = ended.onWire ∧
        ∀ n, ((ended.reportDue now).nodes n).notification = (ended.nodes n).notification := by
      simp only [reportDue]
      split
      · exact ⟨rfl, fun _ => rfl⟩
      · exact ⟨rfl, fun _ => rfl⟩
    rw [hkept.1] at hwire
    rcases hended with ⟨_, hcompleted⟩ | ⟨_, rfl⟩
    · cases hcompleted.onWire_after.symm.trans hwire
    · exact .inl ⟨hwire, hkept.2⟩
  | clearOutputs =>
    cases h
    exact .inl ⟨hwire, fun _ => rfl⟩

theorem Reaches.of_snoc {call : Call} {b' : Bus} (h : Reaches c (calls ++ [call]) b') :
    ∃ b, Reaches c calls b ∧ b.call call = .ok b' := by
  obtain ⟨start, hstart, hrun⟩ := h
  rw [run, List.foldlM_append, bind_eq_ok] at hrun
  obtain ⟨b, hcalls, hlast⟩ := hrun
  rw [List.foldlM_cons, bind_eq_ok] at hlast
  obtain ⟨_, hcall, hnil⟩ := hlast
  cases hnil
  exact ⟨b, ⟨start, hstart, hcalls⟩, hcall⟩

theorem Reaches.arbitratedBy (h : Reaches c calls b) (hwire : b.onWire = some done) :
    ∃ before start, ArbitratedBy c calls b done before start := by
  induction calls using List.reverseRecOn generalizing b with
  | nil =>
    obtain ⟨start, hstart, hrun⟩ := h
    obtain ⟨_, _, _, rfl⟩ := start_spec hstart
    cases hrun
    cases hwire
  | append_singleton calls call ih =>
    obtain ⟨b₀, hreaches, hcall⟩ := h.of_snoc
    rcases call_onWire hcall hwire with
      ⟨hwire₀, hnotices⟩ | ⟨inputs, now, before, rfl, hfree, hcommit, harbitrate⟩
    · obtain ⟨before, start, earlier, inputs, later, opened, after, rfl, hopened, hfree,
        hcommit, harbitrate, hdone, hkept⟩ := ih hreaches hwire₀
      exact ⟨before, start, earlier, inputs, later ++ [call], opened, after, by simp, hopened,
        hfree, hcommit, harbitrate, hdone, fun n => (hnotices n).trans (hkept n)⟩
    · exact ⟨before, now, calls, inputs, [], b₀, b, rfl, hreaches, hfree, hcommit, harbitrate,
        hwire, fun _ => rfl⟩

/-- Those transmit whose head has the identifier that wins. -/
theorem Arbitrated.requests_iff {now : Int} {before after : Bus} {chosen : Request}
    (h : Arbitrated now before chosen requests after) {n : Terminal} {request : Request} :
    requests n = some request ↔ before.isActive n = true ∧ (before.nodes n).head? = some request ∧
        request.id = chosen.id := by
  constructor
  · intro hrequest
    obtain ⟨hhead, _, hid⟩ := h.operation_eq hrequest
    cases hn : before.isActive n with
    | true => exact ⟨rfl, hhead, hid⟩
    | false => cases (h.inactive n hn).2.symm.trans hrequest
  · rintro ⟨hn, hhead, hid⟩
    exact ((h.contended n hn).taken_of_id hhead hid).1

/-! ## The notices -/

/-- What a terminal is told of an arbitration that `chosen` wins: the identifier
of its head, if that is larger and the terminal discards what loses. -/
def lossNotice (before : Bus) (chosen : Request) (n : Terminal) : Bytes :=
  match (before.nodes n).head? with
  | none => []
  | some request =>
    if chosen.id < request.id ∧ (before.nodes n).discardsOnLoss = true then
      identifierOperation arbitrationLostCode request.id
    else []

/-- The notices of an arbitration on a bus that owes none. -/
theorem Arbitrated.notification_eq {now : Int} {before after : Bus} {chosen : Request}
    (h : Arbitrated now before chosen requests after) (hvalid : before.Valid)
    (hfree : before.onWire = none) (n : Terminal) :
    (after.nodes n).notification = before.lossNotice chosen n := by
  have hnone : (before.nodes n).notification = [] :=
    (hvalid.notified n).resolve_right fun hbusy => hbusy.1 hfree
  have hactive : ∀ request, (before.nodes n).head? = some request →
      before.isActive n = true := fun request hhead => by
    cases hn : before.isActive n with
    | true => rfl
    | false =>
      rw [Node.head?_eq, (hvalid.inactive n hn).1] at hhead
      cases hhead
  have hcontends := h.contends hvalid n
  generalize after.nodes n = node at hcontends
  generalize requests n = taken at hcontends
  cases hcontends with
  | idle hhead =>
    simp only [lossNotice, hhead]
    exact hnone
  | transmits request hhead hid _ =>
    simp only [lossNotice, hhead]
    rw [if_neg (by omega), Node.takeHead_notification, hnone]
  | lost request hhead hid hdiscards =>
    have hle := winner_id_le h.winner_eq (hactive request hhead) hhead
    simp only [lossNotice, hhead]
    rw [if_pos ⟨by omega, hdiscards⟩, Node.discarding, Node.takeHead_notification, hnone]
    rfl
  | waits request hhead hid hdiscards =>
    simp only [lossNotice, hhead]
    rw [if_neg (by simp [hdiscards]), hnone]

/-! ## The outputs -/

/-- The bus writes no output for an inactive terminal. -/
def SilentInactive (b : Bus) : Prop :=
  ∀ n, b.isActive n = false → (b.nodes n).output = []

theorem SilentInactive.call {b' : Bus} {call : Call} (hb : b.SilentInactive)
    (h : b.call call = .ok b') : b'.SilentInactive := by
  intro n hn
  rw [isActive_congr (call_design h).1] at hn
  cases call with
  | receive inputs now =>
    obtain ⟨s, next, hcommitted, hnext⟩ := receive_spec h
    have hsilent : (next.nodes n).output = [] := by
      rw [hcommitted.node_eq n]
      exact hb n hn
    rcases hnext with ⟨chosen, requests, _, harbitrated⟩ | ⟨_, rfl⟩
    · rw [(harbitrated.inactive n (by rw [isActive_congr hcommitted.activeNodes_eq, hn])).1]
      exact hsilent
    · exact hsilent
  | tick now =>
    obtain ⟨ended, rfl, hended⟩ := tick_spec h
    have hsilent : (ended.nodes n).output = [] ∧ ended.isActive n = false := by
      rcases hended with ⟨done, hcompleted⟩ | ⟨_, rfl⟩
      · rw [hcompleted.inactive n hn, hcompleted.bus_eq]
        exact ⟨hb n hn, hn⟩
      · exact ⟨hb n hn, hn⟩
    simp only [reportDue]
    split
    · exact hsilent.1
    · simp [hsilent.1, hsilent.2]
  | clearOutputs =>
    cases h
    rfl

theorem Reaches.silentInactive (h : Reaches c calls b) : b.SilentInactive := by
  obtain ⟨start, hstart, hrun⟩ := h
  obtain ⟨_, _, _, rfl⟩ := start_spec hstart
  exact foldlM_invariant (fun _ _ _ _ hb hcall => hb.call hcall) hrun fun _ _ => rfl

/-- In every reachable state an inactive terminal holds and gets nothing, no
request is pending without a supported bitrate, arbitration is lost only to a
frame on the wire, and all who send that frame send one operation. -/
theorem reachable_traffic {c : Configuration} {calls : List Call} {b : Bus}
    (h : Reaches c calls b) :
    (∀ n, b.isActive n = false →
      (b.nodes n).pending = [] ∧ b.wire n = none ∧ (b.nodes n).output = []) ∧
    (b.hasPending = true ∨ b.onWire ≠ none →
      ∃ rate, b.bitrate = some rate ∧ supportedBitrate rate = true) ∧
    (∀ n, (b.nodes n).notification ≠ [] → b.onWire ≠ none) ∧
    ∀ n n' request request', b.wire n = some request → b.wire n' = some request' →
      request.operation = request'.operation := by
  have hvalid := h.valid
  refine ⟨fun n hn => ?_, fun hbusy => ?_, fun n hn => ?_, fun n n' request request' hw hw' => ?_⟩
  · obtain ⟨hpending, hwire, -⟩ := hvalid.inactive n hn
    exact ⟨hpending, hwire, h.silentInactive n hn⟩
  · obtain ⟨rate, hrate⟩ := Option.ne_none_iff_exists'.mp (hvalid.ready hbusy)
    exact ⟨rate, hrate, hvalid.bitrate rate hrate⟩
  · exact ((hvalid.notified n).resolve_left hn).1
  · cases hdone : b.onWire with
    | none => simp [wire_of_none hdone] at hw
    | some done =>
      rw [wire_of_some hdone] at hw hw'
      obtain ⟨-, -, -, hsame⟩ := hvalid.transfer done hdone
      exact (hsame n request hw).trans (hsame n' request' hw').symm

theorem reachable_traffic_pair :
    ∃ b, Reaches faultyPair [.receive faultyInputs 0] b ∧ b.hasPending = true ∧
      ∃ rate, b.bitrate = some rate ∧ supportedBitrate rate = true := by
  have hrun : reachesWith faultyPair [.receive faultyInputs 0] hasPending = true := by
    decide +kernel
  obtain ⟨b, hreaches, hpending⟩ := exists_reaches hrun
  exact ⟨b, hreaches, hpending, (reachable_traffic hreaches).2.1 (.inl hpending)⟩

/-- What the end of a frame sends to a terminal: a Bus Error if the attempt
failed, a Confirm to a sender, nothing to the receiver whose delivery is
suppressed, and the operation as it was sent to anyone else. -/
def frameEndOperation (done : Transfer) (n : Terminal) : Bytes :=
  if done.transmissionError = true then Node.errorOutput done n
  else if (done.requests n).isSome = true then
    identifierOperation confirmCode (u32 done.operation 8)
  else if done.suppressedReceiver = some n then []
  else done.operation

theorem output_of_completed {retryLimit : Nat} {n : Terminal} {node node' : Node}
    (h : node.Completed retryLimit done n node') :
    node'.output = node.notification ++ frameEndOperation done n := by
  cases h with
  | confirmed request hok hrequest => simp [frameEndOperation, hok, hrequest]
  | received hok hrequest => simp [frameEndOperation, hok, hrequest]
  | bystander herror => simp [frameEndOperation, herror]
  | retried request herror => simp [frameEndOperation, herror]
  | exhausted request herror => simp [frameEndOperation, herror]

/-- The end of a frame.  Each active terminal gets its notice, if its head lost
the arbitration of this frame and is discarded, and then what
`frameEndOperation` says.  A sender lost nothing, so that its request gets a
Confirm or a Bus Error and nothing else.  Inactive terminals get nothing. -/
theorem frame_end_delivery {c : Configuration} {calls : List Call} {b : Bus} {done : Transfer}
    (h : Reaches c calls b) (hwire : b.onWire = some done) :
    ∃ b' before start chosen, b.complete done.ends = .ok b' ∧
      ArbitratedBy c calls b done before start ∧ before.winner = some chosen ∧
      done.operation = chosen.operation ∧
      (∀ n request, done.requests n = some request ↔
        b.isActive n = true ∧ (before.nodes n).head? = some request ∧ request.id = chosen.id) ∧
      (∀ n, b.isActive n = true →
        (b'.nodes n).output = before.lossNotice chosen n ++ frameEndOperation done n) ∧
      (∀ n request, done.requests n = some request → (b'.nodes n).output =
          if done.transmissionError = true then Node.errorOutput done n
          else identifierOperation confirmCode (u32 done.operation 8)) ∧
      ∀ n, b.isActive n = false → (b'.nodes n).output = [] := by
  obtain ⟨before, start, harbitratedBy⟩ := h.arbitratedBy hwire
  obtain ⟨earlier, inputs, later, opened, after, hcalls, hopened, hfree, hcommit, harbitrate,
    hdone, hnotices⟩ := harbitratedBy
  obtain ⟨chosen, requests, harbitrated⟩ := arbitrate_eq_ok_iff.mp harbitrate
  obtain ⟨s, hcommitted⟩ := commit_spec hcommit
  have hvalid := hcommitted.valid hopened.valid
  have htransfer : done = (before.transmission start chosen requests).transfer :=
    Option.some.inj (hdone.symm.trans harbitrated.onWire_eq)
  have hrequests : done.requests = requests := by rw [htransfer, transmission_requests]
  have hactive : ∀ n, b.isActive n = before.isActive n := isActive_congr
    (h.design.1.trans (hcommitted.activeNodes_eq.trans hopened.design.1).symm)
  have hnotice : ∀ n, (b.nodes n).notification = before.lossNotice chosen n := fun n =>
    (hnotices n).trans (harbitrated.notification_eq hvalid (hcommitted.onWire_eq.trans hfree) n)
  obtain ⟨b', hcomplete⟩ := h.valid.exists_complete hwire
  obtain ⟨_, hcompleted⟩ := complete_eq_ok_iff.mp hcomplete
  cases hcompleted.onWire_eq.symm.trans hwire
  have houtput : ∀ n, b.isActive n = true →
      (b'.nodes n).output = before.lossNotice chosen n ++ frameEndOperation done n := fun n hn => by
    rw [output_of_completed (hcompleted.completed n hn), hnotice n]
  have hsenders : ∀ n request, done.requests n = some request ↔
      b.isActive n = true ∧ (before.nodes n).head? = some request ∧ request.id = chosen.id :=
    fun n request => by rw [hrequests, hactive n, harbitrated.requests_iff]
  refine ⟨b', before, start, chosen, hcomplete,
    ⟨earlier, inputs, later, opened, after, hcalls, hopened, hfree, hcommit, harbitrate, hdone,
      hnotices⟩,
    harbitrated.winner_eq, by rw [htransfer, transmission_operation], hsenders, houtput,
    fun n request hrequest => ?_, fun n hn => ?_⟩
  · -- A head with the identifier that wins is not discarded.
    obtain ⟨hn, hhead, hid⟩ := (hsenders n request).mp hrequest
    have hsent : before.lossNotice chosen n = [] := by
      simp only [lossNotice, hhead]
      rw [if_neg (by omega)]
    rw [houtput n hn, hsent, frameEndOperation, hrequest]
    rfl
  · rw [hcompleted.inactive n hn]
    exact h.silentInactive n hn

/-- The first terminal of the pair has its failed frame on the wire and gets a
Bus Error, while the head of the second one waits. -/
theorem frame_end_delivery_pair :
    ∃ (b : Bus) (done : Transfer) (b' before : Bus) (chosen : Request),
      Reaches faultyPair [.receive faultyInputs 0] b ∧ b.onWire = some done ∧
      b.complete done.ends = .ok b' ∧ b.isActive 0 = true ∧ b.isActive 1 = true ∧
      (∀ n, b.isActive n = true →
        (b'.nodes n).output = before.lossNotice chosen n ++ frameEndOperation done n) ∧
      (b'.nodes 0).output = Node.errorOutput done 0 ∧
      ∀ n, b.isActive n = false → (b'.nodes n).output = [] := by
  have hrun : reachesWith faultyPair [.receive faultyInputs 0]
      (fun b => b.isActive 0 && b.isActive 1 && b.onWire.any fun done =>
        done.transmissionError && (done.requests 0).isSome) = true := by
    decide +kernel
  obtain ⟨b, hreaches, hstate⟩ := exists_reaches hrun
  simp only [Bool.and_eq_true, Option.any_eq_true] at hstate
  obtain ⟨⟨h₀, h₁⟩, done, hdone, herror, hsome⟩ := hstate
  obtain ⟨request, hrequest⟩ := Option.isSome_iff_exists.mp hsome
  obtain ⟨b', before, _, chosen, hcomplete, _, _, _, _, hactive, hsender, hinactive⟩ :=
    frame_end_delivery hreaches hdone
  exact ⟨b, done, b', before, chosen, hreaches, hdone, hcomplete, h₀, h₁, hactive,
    (hsender 0 request hrequest).trans (if_pos herror), hinactive⟩

end Bus

end SilFormal.Can
