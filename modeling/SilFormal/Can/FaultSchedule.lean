import SilFormal.Can.Timing

/-!
# The fault schedule

Every transmission meets the first rule of the schedule that no earlier one
consumed and that matches it.  The counters of the rules number the committed
requests, so a rule can name a request by its occurrence.
-/

namespace SilFormal.Can

open Fallible List

/-- A rule matches the request that its sender transmits: by its identifier, the
window of request times, the occurrence and the number of the attempt. -/
def FaultRule.matches (rule : FaultRule) (requests : Terminal → Option Request) : Bool :=
  (requests rule.sender).any fun request => request.id = rule.id ∧
      rule.firstRequest ≤ request.requestedAt ∧ request.requestedAt ≤ rule.lastRequest ∧
      request.occurrence = rule.occurrence ∧ request.attempt = rule.attempt

/-- The first rule of a schedule that is not spent and matches, with its index. -/
def firstMatch (schedule : List FaultRule) (spent : List Nat)
    (requests : Terminal → Option Request) : Option (FaultRule × Nat) :=
  schedule.zipIdx.find? fun entry => decide (entry.2 ∉ spent) && entry.1.matches requests

/-- The rules that transmissions consumed, in order. -/
def consumedBy (frames : List Frame) : List Nat :=
  frames.filterMap Frame.rule

namespace Bus

variable {requests : Terminal → Option Request} {schedule : List FaultRule} {b b' : Bus} {now : Int}

/-! ## The choice of a rule -/

/-- The condition under which the loop over the schedule stops at a rule. -/
def hits (active : List Terminal) (requests : Terminal → Option Request) (state : RuleState) :
    Bool :=
  !state.consumed && active.any fun n => eligible state.rule n (requests n)

theorem selectFault_snd (active : List Terminal) (requests : Terminal → Option Request)
    (rules : List RuleState) (k : Nat) :
    (selectFault active requests rules).2.map (fun hit => (hit.2, hit.1 + k)) =
      ((rules.zipIdx k).find? fun entry => hits active requests entry.1).map
        fun entry => (entry.1.rule, entry.2) := by
  induction rules generalizing k with
  | nil => rfl
  | cons state rest ih =>
    rw [zipIdx_cons, find?_cons, selectFault]
    cases hhit : hits active requests state with
    | true =>
      rw [if_pos (show (!state.consumed && active.any fun n =>
        eligible state.rule n (requests n)) = true from hhit)]
      simp
    | false =>
      rw [if_neg (show ¬ (!state.consumed && active.any fun n =>
        eligible state.rule n (requests n)) = true from Bool.eq_false_iff.mp hhit)]
      simp only [Option.map_map, ← ih (k + 1)]
      refine congrArg (fun g => Option.map g _) (funext fun hit => ?_)
      simp [Nat.add_assoc, Nat.add_comm 1 k]

/-- Consuming a rule changes nothing else of the schedule. -/
theorem selectFault_fst (active : List Terminal) (requests : Terminal → Option Request)
    (rules : List RuleState) (i : Nat) :
    (selectFault active requests rules).1[i]? = rules[i]?.map fun state =>
      if (selectFault active requests rules).2.map Prod.fst = some i then
        { state with consumed := true }
      else state := by
  induction rules generalizing i with
  | nil => simp [selectFault]
  | cons state rest ih =>
    rw [selectFault]
    split
    · cases i with
      | zero => simp
      | succ i => simp
    · cases i with
      | zero => simp [Option.map_eq_some_iff]
      | succ i =>
        simp only [getElem?_cons_succ, ih i, Option.map_map]
        refine congrArg (fun g => Option.map g rest[i]?) (funext fun other => ?_)
        cases (selectFault active requests rest).2 with
        | none => simp
        | some hit => simp

/-- The sender of a rule is the only terminal that can match it. -/
theorem eligible_iff {rule : FaultRule} {n : Terminal} :
    eligible rule n (requests n) = true ↔ n = rule.sender ∧ rule.matches requests = true := by
  rw [FaultRule.matches]
  constructor
  · intro heligible
    cases hrequest : requests n with
    | none => simp [eligible, hrequest] at heligible
    | some request =>
      simp only [eligible, hrequest, Bool.and_eq_true, decide_eq_true_eq, beq_iff_eq] at heligible
      obtain ⟨⟨⟨⟨⟨rfl, hid⟩, hfirst⟩, hlast⟩, hoccurrence⟩, hattempt⟩ := heligible
      simp [hrequest, hid, hfirst, hlast, hoccurrence, hattempt]
  · rintro ⟨rfl, hmatches⟩
    cases hrequest : requests rule.sender with
    | none => simp [hrequest] at hmatches
    | some request =>
      simpa [eligible, hrequest, and_assoc] using hmatches

theorem any_eligible {active : List Terminal} {rule : FaultRule}
    (hinactive : ∀ n, n ∉ active → requests n = none) :
    (active.any fun n => eligible rule n (requests n)) = rule.matches requests := by
  rw [Bool.eq_iff_iff, any_eq_true]
  constructor
  · rintro ⟨n, _, heligible⟩
    exact (eligible_iff.mp heligible).2
  · intro hmatches
    refine ⟨rule.sender, ?_, eligible_iff.mpr ⟨rfl, hmatches⟩⟩
    by_contra hnot
    rw [FaultRule.matches, hinactive _ hnot] at hmatches
    cases hmatches

/-! ## The invariant -/

/-- What a Run has done with a schedule. -/
structure Scheduled (schedule : List FaultRule) (b : Bus) : Prop where
  rules_eq : b.rules.map RuleState.rule = schedule
  numbered : ∀ state ∈ b.rules, (((b.nodes state.rule.sender).requests .committed).filter
      fun request => request.id = state.rule.id).map Request.occurrence =
        List.range' 1 state.occurrences
  consumed : ∀ i state, b.rules[i]? = some state → (state.consumed = true ↔ i ∈ consumedBy b.frames)
  once : (consumedBy b.frames).Nodup
  faults : ∀ earlier f later, b.frames = earlier ++ f :: later →
    f.rule = (firstMatch schedule (consumedBy earlier) f.transfer.requests).map Prod.snd ∧
      f.transfer = transferOf f.transfer.operation f.transfer.requests f.transfer.ends
        ((firstMatch schedule (consumedBy earlier) f.transfer.requests).map Prod.fst)
  carried : ∀ f ∈ b.frames, ∀ n request, f.transfer.requests n = some request →
    request.asCommitted ∈ (b.nodes n).requests .committed

/-- The counter of a rule is the number of the requests that it counts. -/
theorem Scheduled.occurrences_eq (h : b.Scheduled schedule) {state : RuleState}
    (hstate : state ∈ b.rules) :
    state.occurrences = (((b.nodes state.rule.sender).requests .committed).filter
      fun request => request.id = state.rule.id).length := by
  have hlength := congrArg length (h.numbered state hstate)
  rw [length_map, length_range'] at hlength
  exact hlength.symm

theorem Scheduled.uniform (h : b.Scheduled schedule) : RuleState.Uniform b.rules := by
  intro state hstate other hother hnames
  rw [h.occurrences_eq hstate, h.occurrences_eq hother, hnames.1, hnames.2]

/-- A change that neither commits nor transmits. -/
theorem Scheduled.of_frame (h : b.Scheduled schedule) (hrules : b'.rules = b.rules)
    (hframes : b'.frames = b.frames)
    (hcommitted : ∀ n, (b'.nodes n).requests .committed = (b.nodes n).requests .committed) :
    b'.Scheduled schedule where
  rules_eq := by rw [hrules, h.rules_eq]
  numbered := by
    rw [hrules]
    intro state hstate
    rw [hcommitted]
    exact h.numbered state hstate
  consumed := by
    rw [hrules, hframes]
    exact h.consumed
  once := by
    rw [hframes]
    exact h.once
  faults := by
    rw [hframes]
    exact h.faults
  carried := by
    rw [hframes]
    intro f hf n request hrequest
    rw [hcommitted]
    exact h.carried f hf n request hrequest

theorem scheduled_start {c : Configuration} (h : c.start = .ok b) :
    ∃ schedule, (c.faultRules.take c.faultRuleCount).mapM
        (configureRule c.activeNodes c.retryLimit) = .ok schedule ∧ b.Scheduled schedule := by
  obtain ⟨schedule, hschedule, _, rfl⟩ := start_spec h
  refine ⟨schedule, hschedule, ?_⟩
  exact {
    rules_eq := by simp [Function.comp_def]
    numbered := fun state hstate => by
      obtain ⟨rule, _, rfl⟩ := mem_map.mp hstate
      rfl
    consumed := fun i state hstate => by
      simp only [getElem?_map, Option.map_eq_some_iff] at hstate
      obtain ⟨rule, _, rfl⟩ := hstate
      simp [consumedBy]
    once := nodup_nil
    faults := by simp
    carried := by simp }

theorem Scheduled.committed {s : Bus × Requests} (hb : b.Scheduled schedule)
    (h : Committed now b s b') : b'.Scheduled schedule := by
  have hrules : b'.rules = b.rules.map (RuleState.advance (stagedBy s.2)) := by
    rw [h.design_eq]
    exact h.accepted.rules_eq
  have hframes : b'.frames = b.frames := by rw [h.design_eq]
  exact {
    rules_eq := by
      rw [hrules, map_map, ← hb.rules_eq]
      rfl
    numbered := fun state hstate => by
      rw [hrules] at hstate
      obtain ⟨origin, horigin, rfl⟩ := mem_map.mp hstate
      have hnew := h.accepted.numbered hb.uniform origin horigin
      have hold := hb.numbered origin horigin
      show (((b'.nodes origin.rule.sender).requests .committed).filter
          fun request => request.id = origin.rule.id).map Request.occurrence =
        range' 1 (origin.occurrences + (origin.counted (stagedBy s.2)).length)
      rw [h.committed_eq, filter_append, map_append, hold]
      refine (congrArg (range' 1 origin.occurrences ++ ·) hnew).trans ?_
      rw [Nat.add_comm origin.occurrences 1, range'_append_1]
    consumed := fun i state hstate => by
      rw [hrules, getElem?_map, Option.map_eq_some_iff] at hstate
      obtain ⟨origin, horigin, rfl⟩ := hstate
      rw [hframes]
      exact hb.consumed i origin horigin
    once := hframes ▸ hb.once
    faults := hframes ▸ hb.faults
    carried := by
      rw [hframes]
      intro f hf n request hrequest
      rw [h.committed_eq, mem_append]
      exact .inl (hb.carried f hf n request hrequest) }

/-- The loop over the schedule finds the first match of the schedule. -/
theorem Scheduled.selectFault_eq (hb : b.Scheduled schedule)
    (hinactive : ∀ n, b.isActive n = false → requests n = none) :
    (selectFault b.active requests b.rules).2.map (fun hit => (hit.2, hit.1)) =
      firstMatch schedule (consumedBy b.frames) requests := by
  have hloop := selectFault_snd b.active requests b.rules 0
  simp only [Nat.add_zero] at hloop
  rw [hloop, firstMatch, ← hb.rules_eq, zipIdx_map, find?_map]
  have hsame : b.rules.zipIdx.find? (fun entry => hits b.active requests entry.1) =
      b.rules.zipIdx.find? ((fun entry : FaultRule × Nat =>
        decide (entry.2 ∉ consumedBy b.frames) && entry.1.matches requests) ∘
          Prod.map RuleState.rule id) := by
    rw [← head?_filter, ← head?_filter]
    refine congrArg head? (filter_congr fun entry hentry => ?_)
    have hconsumed := hb.consumed entry.2 entry.1 (mem_zipIdx_iff_getElem?.mp hentry)
    have hany : (b.active.any fun n => eligible entry.1.rule n (requests n)) =
        entry.1.rule.matches requests :=
      any_eligible fun n hn => hinactive n (by simpa using hn)
    simp only [hits, Function.comp_apply, Prod.map_snd, id_eq]
    congr 1
    rw [Bool.eq_iff_iff, decide_eq_true_eq, ← hconsumed]
    simp
  rw [hsame]
  rfl

theorem Scheduled.arbitrated {chosen : Request} (hs : b.Scheduled schedule) (hb : b.Valid)
    (h : Arbitrated now b chosen requests b') : b'.Scheduled schedule := by
  have hcommitted : ∀ n, (b'.nodes n).requests .committed = (b.nodes n).requests .committed :=
    fun n => (h.contends hb n).committed_eq
  have hrules : b'.rules = (selectFault b.active requests b.rules).1 := by rw [h.bus_eq]
  have hframes : b'.frames = b.frames ++ [b.transmission now chosen requests] := by
    rw [h.bus_eq]
  have hselected := hs.selectFault_eq fun n hn => (h.inactive n hn).2
  have hrule : (b.transmission now chosen requests).rule =
      (firstMatch schedule (consumedBy b.frames) requests).map Prod.snd := by
    rw [← hselected, Option.map_map]
    rfl
  have hconsumed : consumedBy b'.frames = consumedBy b.frames ++
      (b.transmission now chosen requests).rule.toList := by
    rw [hframes, consumedBy, filterMap_append]
    refine congrArg (consumedBy b.frames ++ ·) ?_
    cases hcase : (b.transmission now chosen requests).rule with
    | none => simp [hcase]
    | some i => simp [hcase]
  -- The rule of the new transmission was not consumed before.
  have hfresh : ∀ i, (b.transmission now chosen requests).rule = some i →
      i ∉ consumedBy b.frames := by
    intro i hi
    rw [hrule, Option.map_eq_some_iff] at hi
    obtain ⟨entry, hentry, rfl⟩ := hi
    have hfound := find?_some hentry
    simp only [Bool.and_eq_true, decide_eq_true_eq] at hfound
    exact hfound.1
  have hstates : ∀ i, b'.rules[i]? = b.rules[i]?.map fun state =>
      if (b.transmission now chosen requests).rule = some i then
        { state with consumed := true }
      else state := by
    intro i
    rw [hrules]
    exact selectFault_fst b.active requests b.rules i
  exact {
    rules_eq := by
      rw [← hs.rules_eq]
      refine ext_getElem? fun i => ?_
      rw [getElem?_map, getElem?_map, hstates i, Option.map_map]
      refine congrArg (fun g => Option.map g b.rules[i]?) (funext fun state => ?_)
      split <;> rfl
    numbered := fun state hstate => by
      obtain ⟨i, hi⟩ := getElem?_of_mem hstate
      rw [hstates i, Option.map_eq_some_iff] at hi
      obtain ⟨origin, horigin, rfl⟩ := hi
      have hnumbered := hs.numbered origin (mem_of_getElem? horigin)
      rw [hcommitted]
      split
      · exact hnumbered
      · exact hnumbered
    consumed := fun i state hstate => by
      rw [hstates i, Option.map_eq_some_iff] at hstate
      obtain ⟨origin, horigin, rfl⟩ := hstate
      have hbefore := hs.consumed i origin horigin
      rw [hconsumed, mem_append, Option.mem_toList]
      split
      · rename_i hi
        simp [hi]
      · rename_i hi
        rw [hbefore]
        constructor
        · exact .inl
        · rintro (hold | hnew)
          · exact hold
          · exact absurd hnew hi
    once := by
      rw [hconsumed, nodup_append]
      refine ⟨hs.once, ?_, fun i hi j hj => ?_⟩
      · cases (b.transmission now chosen requests).rule with
        | none => simp
        | some i => simp
      · rw [Option.mem_toList] at hj
        rintro rfl
        exact hfresh i hj hi
    faults := fun earlier f later hsplit => by
      rw [hframes] at hsplit
      rcases eq_nil_or_concat later with rfl | ⟨rest, last, rfl⟩
      · obtain ⟨rfl, hnew⟩ := append_inj' hsplit rfl
        cases hnew
        rw [transmission_requests, transmission_operation, transmission_ends]
        refine ⟨hrule, ?_⟩
        rw [← hselected, Option.map_map]
        rfl
      · rw [concat_eq_append, ← cons_append, ← append_assoc] at hsplit
        exact hs.faults earlier f rest (append_inj' hsplit rfl).1
    carried := by
      rw [hframes]
      intro f hf n request hrequest
      rw [hcommitted]
      rcases mem_append.mp hf with hold | hnew
      · exact hs.carried f hold n request hrequest
      · cases mem_singleton.mp hnew
        rw [transmission_requests] at hrequest
        refine (hb.accounted n).asCommitted_mem (.inl ?_)
        rw [Node.pending_eq_cons (h.operation_eq hrequest).1]
        exact mem_cons_self }

theorem Scheduled.call {call : Call} (hs : b.Scheduled schedule) (hb : b.Valid)
    (h : b.call call = .ok b') : b'.Scheduled schedule := by
  cases call with
  | receive inputs now =>
    obtain ⟨s, next, hcommitted, ⟨chosen, requests, _, harbitrated⟩ | ⟨_, rfl⟩⟩ := receive_spec h
    · exact (hs.committed hcommitted).arbitrated (hcommitted.valid hb) harbitrated
    · exact hs.committed hcommitted
  | tick now =>
    obtain ⟨ended, rfl, hended⟩ := tick_spec h
    have hscheduled : ended.Scheduled schedule := by
      rcases hended with ⟨done, hcompleted⟩ | ⟨_, rfl⟩
      · exact hs.of_frame (by rw [hcompleted.bus_eq]) (by rw [hcompleted.bus_eq])
          hcompleted.committed_eq
      · exact hs
    simp only [Bus.reportDue]
    split
    · exact hscheduled
    · exact hscheduled.of_frame rfl rfl fun _ => rfl
  | clearOutputs =>
    cases h
    exact hs.of_frame rfl rfl fun _ => rfl

theorem Reaches.scheduled {c : Configuration} {calls : List Call} (h : Reaches c calls b) :
    ∃ schedule, (c.faultRules.take c.faultRuleCount).mapM
        (configureRule c.activeNodes c.retryLimit) = .ok schedule ∧ b.Scheduled schedule := by
  obtain ⟨start, hstart, hrun⟩ := h
  obtain ⟨schedule, hschedule, hscheduled⟩ := scheduled_start hstart
  exact ⟨schedule, hschedule, (foldlM_invariant (I := fun b => b.Valid ∧ b.Scheduled schedule)
    (fun _ _ _ _ hs hcall => ⟨hs.1.call hcall, hs.2.call hs.1 hcall⟩) hrun
    ⟨valid_start hstart, hscheduled⟩).2⟩

/-! ## The outputs of a failed frame -/

/-- A frame that fails is the last one, and does so by the rule that it meets,
whose sender has a request on the wire. -/
theorem Scheduled.exists_error_rule (hs : b.Scheduled schedule) (hp : b.Paced) (hb : b.Valid)
    {done : Transfer} (hwire : b.onWire = some done) (herror : done.transmissionError = true) :
    ∃ earlier f rule i, b.frames = earlier ++ [f] ∧ f.transfer = done ∧
      firstMatch schedule (consumedBy earlier) done.requests = some (rule, i) ∧
      schedule[i]? = some rule ∧ rule.kind = .transmissionError ∧
      b.isActive rule.sender = true ∧ done.primaryErrorNode = some rule.sender := by
  obtain ⟨earlier, f, hframes, rfl⟩ := hp.busy done hwire
  have hfault := (hs.faults earlier f [] hframes).2
  cases hmatch : firstMatch schedule (consumedBy earlier) f.transfer.requests with
  | none =>
    rw [hmatch] at hfault
    rw [hfault] at herror
    cases herror
  | some entry =>
    obtain ⟨rule, i⟩ := entry
    rw [hmatch] at hfault
    have hfound := find?_some hmatch
    simp only [Bool.and_eq_true] at hfound
    have hmember : schedule[i]? = some rule :=
      mem_zipIdx_iff_getElem?.mp (mem_of_find?_eq_some hmatch)
    have hactive : b.isActive rule.sender = true := by
      by_contra hnot
      have hnone := (hb.inactive rule.sender (by simpa using hnot)).2.1
      rw [wire_of_some hwire] at hnone
      have hmatches := hfound.2
      rw [FaultRule.matches, hnone] at hmatches
      cases hmatches
    cases hkind : rule.kind with
    | transmissionError =>
      refine ⟨earlier, f, rule, i, hframes, rfl, hmatch, hmember, hkind, hactive, ?_⟩
      rw [hfault]
      simp only [transferOf, Option.map_some, hkind]
    | receiverDeliverySuppression receiver =>
      rw [hfault] at herror
      simp only [transferOf, Option.map_some, hkind] at herror
      cases herror

theorem tick_output_of_error {done : Transfer} (hwire : b.onWire = some done)
    (hends : done.ends = now) (herror : done.transmissionError = true) (h : b.tick now = .ok b')
    {n : Terminal} (hn : b.isActive n = true) :
    (b'.nodes n).output = (b.nodes n).notification ++ Node.errorOutput done n ++
      if b.formatErrorsDue = some now then (b.nodes n).formatError else [] := by
  obtain ⟨_, ended, hended, rfl⟩ := tick_eq_ok_iff.mp h
  have hcompletion : b.isCompletion now = true := by
    simp [isCompletion, hwire, hends]
  rw [if_pos hcompletion] at hended
  obtain ⟨_, hcompleted⟩ := complete_eq_ok_iff.mp hended
  cases hwire.symm.trans hcompleted.onWire_eq
  have houtput := (hcompleted.completed n hn).output_of_error herror
  have hdue : ended.formatErrorsDue = b.formatErrorsDue := by rw [hcompleted.bus_eq]
  have hactive : ended.isActive n = true := by
    rw [isActive_congr (b := b) (by rw [hcompleted.bus_eq]), hn]
  simp only [Bus.reportDue, hdue]
  by_cases hnow : b.formatErrorsDue = some now
  · simp only [hnow, ne_eq, not_true_eq_false, if_false, hactive, if_true, houtput,
      (hcompleted.frame n).2.1]
  · simp only [hnow, ne_eq, not_false_eq_true, if_true, houtput, if_false, append_nil]

/-- The fault schedule over a Run: the counters of a sender and an identifier
agree and number its committed requests, a request keeps its number until it is
settled, no rule is used twice, every transmission meets exactly the first
matching rule that is left, and an injected error has one primary terminal and
one sender, which is that of the rule that its transmission meets. -/
theorem fault_schedule {c : Configuration} {calls : List Call} {b : Bus} (h : Reaches c calls b) :
    ∃ schedule, (c.faultRules.take c.faultRuleCount).mapM
          (configureRule c.activeNodes c.retryLimit) = .ok schedule ∧
      b.rules.map RuleState.rule = schedule ∧
      (∀ state ∈ b.rules, ∀ other ∈ b.rules,
        other.rule.sender = state.rule.sender ∧ other.rule.id = state.rule.id →
          other.occurrences = state.occurrences) ∧
      (∀ rule ∈ schedule, ∀ k request, (((b.nodes rule.sender).requests .committed).filter
          fun request => request.id = rule.id)[k]? = some request → request.occurrence = k + 1) ∧
      (∀ n request, request ∈ (b.nodes n).pending ∨ b.wire n = some request ∨
          (∃ f ∈ b.frames, f.transfer.requests n = some request) →
        ∃ committed ∈ (b.nodes n).requests .committed,
          request = { committed with attempt := request.attempt }) ∧
      (b.frames.filterMap Frame.rule).Nodup ∧
      (∀ earlier f later, b.frames = earlier ++ f :: later →
        f.rule = (firstMatch schedule (earlier.filterMap Frame.rule)
            f.transfer.requests).map Prod.snd ∧
          f.transfer = transferOf f.transfer.operation f.transfer.requests f.transfer.ends
            ((firstMatch schedule (earlier.filterMap Frame.rule)
              f.transfer.requests).map Prod.fst)) ∧
      (∀ done now b', b.onWire = some done → done.transmissionError = true →
        done.ends = now → b.tick now = .ok b' →
          ∃ earlier f rule i, b.frames = earlier ++ [f] ∧ f.transfer = done ∧
            firstMatch schedule (earlier.filterMap Frame.rule) done.requests = some (rule, i) ∧
            schedule[i]? = some rule ∧ rule.kind = .transmissionError ∧
            b.isActive rule.sender = true ∧
            ∀ n, b.isActive n = true → (b'.nodes n).output = (b.nodes n).notification ++
              busErrorOperation (u32 done.operation 8) (decide (n = rule.sender))
                (decide (n = rule.sender)) ++
              if b.formatErrorsDue = some now then (b.nodes n).formatError else []) := by
  obtain ⟨schedule, hschedule, hs⟩ := h.scheduled
  have hb := h.valid
  refine ⟨schedule, hschedule, hs.rules_eq, hs.uniform, ?_, ?_, hs.once, hs.faults, ?_⟩
  · intro rule hrule k request hrequest
    rw [← hs.rules_eq] at hrule
    obtain ⟨state, hstate, rfl⟩ := mem_map.mp hrule
    have hnumbered := congrArg (·[k]?) (hs.numbered state hstate)
    simp only [getElem?_map, hrequest] at hnumbered
    obtain ⟨hk, hvalue⟩ := List.getElem?_eq_some_iff.mp hnumbered.symm
    rw [getElem_range'] at hvalue
    omega
  · intro n request hrequest
    have hmem : request.asCommitted ∈ (b.nodes n).requests .committed := by
      rcases hrequest with hpending | hwire | ⟨f, hf, hsent⟩
      · exact (hb.accounted n).asCommitted_mem (.inl hpending)
      · exact (hb.accounted n).asCommitted_mem (.inr hwire)
      · exact hs.carried f hf n request hsent
    exact ⟨_, hmem, rfl⟩
  · intro done now b' hwire herror hends htick
    obtain ⟨earlier, f, rule, i, hframes, hlast, hmatch, hrule, hkind, hactive, hprimary⟩ :=
      hs.exists_error_rule h.paced hb hwire herror
    refine ⟨earlier, f, rule, i, hframes, hlast, hmatch, hrule, hkind, hactive, fun n hn => ?_⟩
    rw [tick_output_of_error hwire hends herror htick hn, Node.errorOutput, hprimary]
    simp only [Option.some.injEq]

/-- `faultyPair` consumes its rule in the first frame and not in the retry. -/
theorem fault_schedule_consumed : ∃ b, Reaches faultyPair [.receive faultyInputs 0, .tick 376000,
        .receive (fun _ => []) 400000] b ∧
      b.frames.map Frame.rule = [some 0, none] ∧ (b.frames.filterMap Frame.rule).Nodup := by
  have hrun : reachesWith faultyPair [.receive faultyInputs 0, .tick 376000,
      .receive (fun _ => []) 400000]
        (fun b => b.frames.map Frame.rule == [some 0, none]) = true := by
    decide +kernel
  obtain ⟨b, hreaches, hrules⟩ := exists_reaches hrun
  obtain ⟨schedule, _, _, _, _, _, honce, _⟩ := fault_schedule hreaches
  exact ⟨b, hreaches, by simpa using hrules, honce⟩

end Bus

end SilFormal.Can
