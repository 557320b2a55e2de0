import SilFormal.Kernel.AgendaOrder
import SilFormal.Kernel.PlanSemantics
import SilFormal.Kernel.Publishes
import SilFormal.Kernel.Separation
import SilFormal.Kernel.SlotOrder

/-!
# Channels and their Recording over a Run

A Run changes the counters of a Channel and nothing of its design.  Without
delay interceptors every Message is recorded with the instant of its publish,
and without capacities the Messages a subscriber has taken and those pending
on its route together are the recorded ones.
-/

namespace SilFormal.Kernel

open List

variable {nowNs : Nat} {plan : InterceptorPlan}

universe u

variable {σ : Type u}

/-- What a publish leaves of a Channel: its schema, its subscribers and the
kinds of the steps of its plan. -/
structure ChannelState.SameDesign (c₀ c : ChannelState) : Prop where
  schema : c.schema = c₀.schema
  byteSize : c.byteSize = c₀.byteSize
  subscribers : c.subscribers = c₀.subscribers
  duration : c.plan.durationNs = c₀.plan.durationNs
  kinds : ∀ s ∈ c.plan.steps, ∃ s₀ ∈ c₀.plan.steps, s.kind = s₀.kind

theorem ChannelState.SameDesign.refl (c : ChannelState) : c.SameDesign c :=
  ⟨rfl, rfl, rfl, rfl, fun s hs => ⟨s, hs, rfl⟩⟩

/-- Applying a plan only advances counters. -/
theorem InterceptorPlan.apply_plan (plan : InterceptorPlan) (nowNs : Nat) (data : Bytes) :
    (plan.apply nowNs data).1 = plan.withSteps (dropPass nowNs plan.steps).2 := by
  simp only [apply]
  split_ifs
  · rfl
  · rfl
  · cases overridePass nowNs plan.steps data <;> rfl

theorem ChannelState.SameDesign.advance {c₀ c : ChannelState} (h : c₀.SameDesign c) {data : Bytes}
    {answer : PlanAnswer} (happly : c.plan.apply nowNs data = (plan, answer)) (survives : Bool) :
    c₀.SameDesign (Router.advanceChannel c plan survives) := by
  have hplan : plan = c.plan.withSteps (dropPass nowNs c.plan.steps).2 := by
    rw [← InterceptorPlan.apply_plan c.plan nowNs data, happly]
  subst hplan
  refine ⟨h.schema, h.byteSize, h.subscribers, h.duration, ?_⟩
  exact InterceptorPlan.dropPass_forall
    (fun _ hs => hs) h.kinds

/-- An override keeps the size of a payload. -/
theorem overridePass_length {steps : List InterceptorStep} {bytes bytes' : Bytes}
    (h : overridePass nowNs steps bytes = some bytes') : bytes'.length = bytes.length := by
  induction steps generalizing bytes with
  | nil =>
    injection h with h
    rw [h]
  | cons step rest ih =>
    simp only [overridePass] at h
    split_ifs at h with hover hfits
    · rw [ih h]
      apply InterceptorStep.overwrite_length
      simp only [InterceptorStep.fits, Bool.not_eq_true', Bool.or_eq_false_iff,
        decide_eq_false_iff_not] at hfits
      omega
    · exact ih h

/-- A plan without delays lets a Message through at the instant of its
publish. -/
theorem InterceptorPlan.apply_prompt {plan' : InterceptorPlan} {visibleNs : Nat}
    {data bytes : Bytes} (hprompt : ∀ s ∈ plan.steps, s.kind ≠ .delay)
    (h : plan.apply nowNs data = (plan', .verdict ⟨false, visibleNs⟩ bytes)) :
    visibleNs = nowNs ∧ bytes.length = data.length := by
  have hdelay : ∀ steps : List InterceptorStep, (∀ s ∈ steps, s.kind ≠ .delay) →
      ∀ t, delayPass nowNs steps t = t := by
    intro steps
    induction steps with
    | nil =>
      intro _ t
      rfl
    | cons step rest ih =>
      intro hsteps t
      have hstep := hsteps step (by simp)
      rw [delayPass, if_neg fun hh => hstep hh.1]
      exact ih (fun s hs => hsteps s (mem_cons_of_mem _ hs)) t
  simp only [apply] at h
  split_ifs at h with hdrop hlate
  · simp at h
  · simp at h
  · cases hover : overridePass nowNs plan.steps data with
    | none => simp [hover] at h
    | some bytes' =>
      simp only [hover, Prod.mk.injEq, PlanAnswer.verdict.injEq, Verdict.mk.injEq, true_and] at h
      obtain ⟨_, hvisible, rfl⟩ := h
      exact ⟨by rw [← hvisible, hdelay plan.steps hprompt], overridePass_length hover⟩

theorem InterceptorPlan.apply_plain (hsteps : plan.steps = []) (hnow : nowNs < plan.durationNs)
    (data : Bytes) : plan.apply nowNs data = (plan.withSteps [], .verdict ⟨false, nowNs⟩ data) := by
  have hnot : ¬ nowNs ≥ plan.durationNs := by omega
  simp [apply, hsteps, dropPass, delayPass, overridePass, hnot]

theorem ChannelState.SameDesign.plain {c₀ c : ChannelState} (h : c₀.SameDesign c)
    (hplain : c₀.plan.steps = []) : c.plan.steps = [] := by
  rw [eq_nil_iff_forall_not_mem]
  intro s hs
  obtain ⟨s₀, hs₀, _⟩ := h.kinds s hs
  rw [hplain] at hs₀
  cases hs₀

namespace Router

variable {ok : Bool}

/-- Every Channel still has the design it had in `base`. -/
def Designed (base : String → Option ChannelState) (r : Router) : Prop :=
  ∀ c, (base c = none ∧ r.channels c = none) ∨
    ∃ c₀ st, base c = some c₀ ∧ r.channels c = some st ∧ c₀.SameDesign st

theorem Designed.of_some {base : String → Option ChannelState} {r : Router} (h : r.Designed base)
    {c : String} {st : ChannelState} (hst : r.channels c = some st) :
    ∃ c₀, base c = some c₀ ∧ c₀.SameDesign st := by
  rcases h c with ⟨_, hnone⟩ | ⟨c₀, st', hc₀, hst', hdesign⟩
  · rw [hnone] at hst
    cases hst
  · rw [hst', Option.some.injEq] at hst
    exact ⟨c₀, hc₀, hst ▸ hdesign⟩

theorem Designed.published {base : String → Option ChannelState} {r r' : Router}
    (h : r.Designed base) {owner channel : String} {data : Bytes} {error : Option String}
    (hpub : Published owner channel data r r' error) : r'.Designed base := by
  intro c
  by_cases hc : c = channel
  · subst hc
    cases hpub with
    | unknown _ _ => exact h c
    | wrongSize _ _ _ _ => exact h c
    | outOfRange st plan _ hst _ happly =>
      obtain ⟨c₀, hc₀, hdesign⟩ := h.of_some hst
      refine .inr ⟨c₀, _, hc₀, ?_, hdesign.advance happly false⟩
      rw [setChannel_channels, if_pos rfl]
    | suppressed st plan _ _ hst _ happly =>
      obtain ⟨c₀, hc₀, hdesign⟩ := h.of_some hst
      refine .inr ⟨c₀, _, hc₀, ?_, hdesign.advance happly false⟩
      rw [stamp_channels, if_pos rfl]
      rfl
    | delivered st plan _ _ _ _ hst _ happly hpush =>
      obtain ⟨c₀, hc₀, hdesign⟩ := h.of_some hst
      refine .inr ⟨c₀, _, hc₀, ?_, hdesign.advance happly true⟩
      rw [(pushAll_frame hpush).2.2.1, stamp_channels, if_pos rfl]
      rfl
  · rw [(hpub.other hc).1]
    exact h c

theorem Designed.step {base : String → Option ChannelState} {r r' : Router} (h : r.Designed base)
    (hstep : Step ok r r') : r'.Designed base := by
  cases hstep with
  | tick _ _ => exact h
  | activation _ _ => exact h
  | act hact =>
    cases hact with
    | take _ htook =>
      intro c
      rw [htook.frame.2.2.1]
      exact h c
    | publish _ _ hpub => exact h.published hpub

theorem Step.latencyNs_eq {r r' : Router} (hstep : Step ok r r') (hopen : r.Open) (o c : String) :
    (r'.routes o c).latencyNs = (r.routes o c).latencyNs := by
  cases hstep with
  | tick _ _ => rfl
  | activation _ _ => rfl
  | act hact =>
    cases hact with
    | take _ htook => exact (htook.static o c).2
    | publish _ _ hpub =>
      obtain ⟨_, hroute, _⟩ := hpub.routes_of_open hopen o c
      rw [hroute]

/-! ## Growth of the Recording -/

/-- Without delays, what a step records carries the current instant and a
payload of the size of its Channel. -/
theorem Step.recording {base : String → Option ChannelState} {r r' : Router}
    (hdesign : r.Designed base)
    (hprompt : ∀ c c₀, base c = some c₀ → ∀ s ∈ c₀.plan.steps, s.kind ≠ .delay)
    (hstep : Step ok r r') :
    ∃ new, r'.recording = r.recording ++ new ∧ ∀ record ∈ new, record.publishNs = r.nowNs ∧
        ∃ c₀, base record.channel = some c₀ ∧ record.bytes.length = c₀.byteSize := by
  have hnothing : r'.recording = r.recording → ∃ new, r'.recording = r.recording ++ new ∧
        ∀ record ∈ new, record.publishNs = r.nowNs ∧
          ∃ c₀, base record.channel = some c₀ ∧ record.bytes.length = c₀.byteSize :=
    fun heq => ⟨[], by simp [heq], by simp⟩
  cases hstep with
  | tick _ _ => exact hnothing rfl
  | activation _ _ => exact hnothing rfl
  | act hact =>
    cases hact with
    | take _ htook => exact hnothing htook.frame.2.2.2
    | publish _ _ hpub =>
      cases hpub with
      | unknown _ _ => exact hnothing rfl
      | wrongSize _ _ _ _ => exact hnothing rfl
      | outOfRange _ _ _ _ _ _ => exact hnothing rfl
      | suppressed _ _ _ _ _ _ _ => exact hnothing (by simp)
      | delivered st plan visibleNs bytes _ _ hst hsize happly hpush =>
        obtain ⟨c₀, hc₀, hdes⟩ := hdesign.of_some hst
        have hkinds : ∀ s ∈ st.plan.steps, s.kind ≠ .delay := by
          intro s hs
          obtain ⟨s₀, hs₀, hkind⟩ := hdes.kinds s hs
          rw [hkind]
          exact hprompt _ c₀ hc₀ s₀ hs₀
        obtain ⟨rfl, hlen⟩ := InterceptorPlan.apply_prompt hkinds happly
        refine ⟨_, by rw [(pushAll_frame hpush).2.2.2, stamp_recording], ?_⟩
        intro record hrecord
        rw [mem_singleton.mp hrecord]
        exact ⟨rfl, c₀, hc₀, hlen.trans (hsize.trans hdes.byteSize)⟩

/-! ## Conservation without capacities -/

/-- The recorded Messages of a Channel by time and bytes. -/
def recordedContent (r : Router) (channel : String) : List (Nat × Bytes) :=
  (r.recorded channel).map fun record => (record.publishNs, record.bytes)

/-- What an owner has taken from a route. -/
def takenContent (r : Router) (owner channel : String) : List (Nat × Bytes) :=
  (r.intake owner channel).filterMap Fifo.Event.took?

/-- Everything recorded on a Channel was taken by a subscriber or is pending
on its route. -/
def Conserved (subscribers : String → List String) (r : Router) : Prop :=
  ∀ o c, r.takenContent o c ++ r.pendingContent o c =
    if o ∈ subscribers c then r.recordedContent c else []

/-- The subscribers of a Channel by its design. -/
def designedSubscribers (base : String → Option ChannelState) (c : String) : List String :=
  ((base c).map ChannelState.subscribers).getD []

section Conserved

variable
    {subscribers : String → List String} {r r' : Router}
    {owner channel : String}

theorem Conserved.took {m : PendingMessage} (h : r.Conserved subscribers)
    (htook : Took owner channel m r r') : r'.Conserved subscribers := by
  intro o c
  have hrecorded : r'.recordedContent c = r.recordedContent c := by
    rw [recordedContent, recorded, htook.frame.2.2.2]
    rfl
  rw [hrecorded, ← h o c]
  by_cases hoc : o = owner ∧ c = channel
  · obtain ⟨rfl, rfl⟩ := hoc
    obtain ⟨rest, hready⟩ := htook.ready
    -- the front of the ready part is the front of the queue
    have hpending : (r.routes o c).pending = m :: (r.routes o c).pop.pending := by
      have hsplit := (r.routes o c).ready_append_waiting r.nowNs
      rw [hready] at hsplit
      rw [SubscriberRoute.pop, ← hsplit]
      rfl
    have htaken : r'.takenContent o c = r.takenContent o c ++ [m.content] := by
      rw [takenContent, intake, htook.self.2, filterMap_append, filterMap_append]
      rfl
    rw [htaken, pendingContent, pendingContent, htook.self.1, hpending]
    simp
  · have htaken : r'.takenContent o c = r.takenContent o c := by
      rw [takenContent, intake, (htook.other hoc).2]
      rfl
    rw [htaken, pendingContent, pendingContent, (htook.other hoc).1]

theorem Conserved.published {base : String → Option ChannelState} (hdesign : r.Designed base)
    (hnodup : ∀ c, (designedSubscribers base c).Nodup) (hopen : r.Open)
    (h : r.Conserved (designedSubscribers base)) {data : Bytes} {error : Option String}
    (hpub : Published owner channel data r r' error) : r'.Conserved (designedSubscribers base) := by
  intro o c
  have htaken : r'.takenContent o c = r.takenContent o c := by
    rw [takenContent, hpub.intake_eq]
    rfl
  rw [htaken]
  by_cases hc : c = channel
  · subst hc
    cases hpub with
    | unknown _ _ => exact h o c
    | wrongSize _ _ _ _ => exact h o c
    | outOfRange _ _ _ _ _ _ => exact h o c
    | suppressed st plan _ _ _ _ _ =>
      have hrecorded : (r.stamp c st plan data none).recordedContent c = r.recordedContent c := by
        rw [recordedContent, stamp_recorded]
        exact congrArg _ (append_nil _)
      rw [hrecorded]
      exact h o c
    | delivered st plan visibleNs bytes _ _ hst _ _ hpush =>
      obtain ⟨c₀, hc₀, hdes⟩ := hdesign.of_some hst
      have hsubs : designedSubscribers base c = st.subscribers := by
        rw [designedSubscribers, hc₀, hdes.subscribers]
        rfl
      have hrecorded : r'.recordedContent c = r.recordedContent c ++ [(visibleNs, bytes)] := by
        rw [recordedContent, recorded, (pushAll_frame hpush).2.2.2]
        have := stamp_recorded r c st plan data
          (some ⟨c, visibleNs, st.nextSeq, bytes⟩) c
        rw [recorded] at this
        rw [this]
        simp [recordedContent]
      have hpending : r'.pendingContent o c = r.pendingContent o c ++
          replicate (st.subscribers.count o) (visibleNs, bytes) := by
        rw [pendingContent, (pushAll_open hpush hopen.capacity).2 o]
        simp [pendingContent, PendingMessage.content]
      have hold := h o c
      rw [hpending, hrecorded, ← append_assoc, hold]
      by_cases ho : o ∈ designedSubscribers base c
      · rw [if_pos ho, if_pos ho, count_eq_one_of_mem (hsubs ▸ hnodup c)
          (hsubs ▸ ho)]
        rfl
      · rw [if_neg ho, if_neg ho, count_eq_zero_of_not_mem (hsubs ▸ ho)]
        rfl
  · obtain ⟨_, hrecorded, hroutes⟩ := hpub.other hc
    rw [pendingContent, recordedContent, hrecorded, (hroutes o).1]
    exact h o c

theorem Conserved.step {base : String → Option ChannelState} (hdesign : r.Designed base)
    (hnodup : ∀ c, (designedSubscribers base c).Nodup) (hopen : r.Open)
    (h : r.Conserved (designedSubscribers base)) {ok : Bool} (hstep : Step ok r r') :
    r'.Conserved (designedSubscribers base) ∧ r'.Open := by
  cases hstep with
  | tick _ hle => exact ⟨h, hopen.capacity, hopen.latency, hle⟩
  | activation actor _ =>
    refine ⟨fun o c => ?_, hopen.capacity, hopen.latency, hopen.now_le⟩
    have htaken : (r.note (.activation actor r.nowNs)).takenContent o c = r.takenContent o c := by
      rw [takenContent, intake_note]
      by_cases hactor : actor = o
      · simp [Event.onRoute, hactor, intakeEvent, Fifo.Event.took?, takenContent]
      · simp [Event.onRoute, hactor, takenContent]
    rw [htaken]
    exact h o c
  | act hact =>
    cases hact with
    | take _ htook => exact ⟨h.took htook, htook.keeps_open hopen⟩
    | publish _ _ hpub => exact ⟨h.published hdesign hnodup hopen hpub, hpub.keeps_open hopen⟩

/-- A subscriber's queue is what the Recording has beyond what it took. -/
theorem Conserved.pendingContent_eq {subscribers' : String → List String}
    (h : r.Conserved subscribers) (h' : r'.Conserved subscribers') {o c : String}
    (hsubs : o ∈ subscribers c ↔ o ∈ subscribers' c) (hintake : r.intake o c = r'.intake o c)
    (hrecorded : r.recordedContent c = r'.recordedContent c) :
    r.pendingContent o c = r'.pendingContent o c := by
  have htaken : r.takenContent o c = r'.takenContent o c := by
    rw [takenContent, takenContent, hintake]
  have hsame := h o c
  rw [if_congr hsubs hrecorded rfl, ← h' o c, htaken] at hsame
  exact append_cancel_left hsame

end Conserved

end Router

/-! ## Whole Runs -/

namespace Engine

variable {e ef : Engine σ} {m : Manifest σ}

variable {base : String → Option ChannelState}

theorem reach_designed {e' : Engine σ} (h : e.router.Designed base) (hr : Loop.Reach step e e') :
    e'.router.Designed base :=
  (reach_steps false hr (by simp)).invariant (fun _ _ ha hs => ha.step hs) h

/-- A Slot records at its own instant. -/
theorem runSlot_recording (hdesign : e.router.Designed base)
    (hprompt : ∀ c c₀, base c = some c₀ → ∀ s ∈ c₀.plan.steps, s.kind ≠ .delay) (slot : Nat) :
    ∃ new, (e.runSlot slot).router.recording = e.router.recording ++ new ∧
      ∀ record ∈ new, record.publishNs = slot ∧
        ∃ c₀, base record.channel = some c₀ ∧ record.bytes.length = c₀.byteSize := by
  have hstart : (e.openSlot slot).router.Designed base := hdesign
  refine (foldl_execute_invariant (I := fun x => x.nowNs = slot ∧ x.Designed base ∧
    ∃ new, x.recording = e.router.recording ++ new ∧ ∀ record ∈ new, record.publishNs = slot ∧
        ∃ c₀, base record.channel = some c₀ ∧ record.bytes.length = c₀.byteSize)
    ?_ ?_
    ⟨rfl, hstart, [], by simp [openSlot], by simp⟩).2.2
  · rintro r owner ⟨hnow, hdes, hnew⟩
    exact ⟨hnow, hdes, hnew⟩
  · rintro r r' owner contract ⟨hnow, hdes, new, hrec, hall⟩ hact
    obtain ⟨more, hmore, hall'⟩ := (Router.Step.act hact).recording hdes hprompt
    refine ⟨hact.nowNs_eq.trans hnow, hdes.step (.act hact), new ++ more, ?_, ?_⟩
    · rw [hmore, hrec, append_assoc]
    · intro record hmem
      rcases mem_append.mp hmem with hmem | hmem
      · exact hall record hmem
      · exact hnow ▸ hall' record hmem

/-- What a Run still records lies between its next Slot and the duration. -/
theorem reach_recording (hdesign : e.router.Designed base)
    (hprompt : ∀ c c₀, base c = some c₀ → ∀ s ∈ c₀.plan.steps, s.kind ≠ .delay) (hs : e.Scheduled)
    (hasc : e.Ascending) (hr : Loop.Reach step e ef) (hf : ef.failure = none) :
    ∃ future, ef.router.recording = e.router.recording ++ future ∧
      ∀ record ∈ future, e.slot ≤ record.publishNs ∧ record.publishNs < e.durationNs ∧
        ∃ c₀, base record.channel = some c₀ ∧ record.bytes.length = c₀.byteSize := by
  -- the Slots of the Run are not before its first one
  have hfirst : ∀ {a : Engine σ}, Loop.Reach step e a →
      a.durationNs = e.durationNs ∧ (a = e ∨ e.slot ∈ a.slots) := by
    intro a ha
    induction ha with
    | refl => exact ⟨rfl, .inl rfl⟩
    | tail _ hstep ih =>
      obtain ⟨_, _, rfl⟩ := step_eq_some hstep
      rw [runSlot_durationNs, runSlot_slots]
      refine ⟨ih.1, .inr ?_⟩
      rcases ih.2 with heq | hmem
      · simp [heq]
      · exact mem_append_left _ hmem
  induction hr with
  | refl => exact ⟨[], (append_nil _).symm, by simp⟩
  | @tail a b hreach hstep ih =>
    obtain ⟨hfail, hslot, rfl⟩ := step_eq_some hstep
    obtain ⟨future, hrec, hall⟩ := ih hfail
    obtain ⟨new, hnew, hall'⟩ :=
      runSlot_recording (reach_designed hdesign hreach) hprompt a.slot
    have hsa := reach_scheduled hs hreach
    have hafter := (reach_slots_pairwise hasc hs hreach).2 hfail
    obtain ⟨hduration, hstart⟩ := hfirst hreach
    have hle : e.slot ≤ a.slot := by
      rcases hstart with heq | hmem
      · rw [heq]
      · exact (hafter.lt_slot hsa hslot _ hmem).le
    refine ⟨future ++ new, ?_, ?_⟩
    · rw [hnew, hrec, append_assoc]
    · intro record hmem
      rcases mem_append.mp hmem with hmem | hmem
      · exact hall record hmem
      · obtain ⟨hnow, hsize⟩ := hall' record hmem
        rw [hnow, ← hduration]
        exact ⟨hle, hsa.slot_lt hslot, hsize⟩

theorem failure_none_of_reach (hr : Loop.Reach step e ef) (hf : ef.failure = none) :
    e.failure = none := by
  induction hr with
  | refl => exact hf
  | tail _ hstep ih => exact ih (step_eq_some hstep).1

/-- What a Run still records: the Messages of its next Slot, and later ones. -/
theorem recording_split (hdesign : e.router.Designed base)
    (hprompt : ∀ c c₀, base c = some c₀ → ∀ s ∈ c₀.plan.steps, s.kind ≠ .delay) (hs : e.Scheduled)
    (hasc : e.Ascending) (hslot : e.slot ≠ uint64Max) (hr : Loop.Reach step (e.runSlot e.slot) ef)
    (hf : ef.failure = none) :
    ∃ new later, (e.runSlot e.slot).router.recording = e.router.recording ++ new ∧
      ef.router.recording = (e.runSlot e.slot).router.recording ++ later ∧
      (∀ record ∈ new, record.publishNs = e.slot) ∧
      (∀ record ∈ later, e.slot < record.publishNs) ∧
      ∀ record ∈ new ++ later, record.publishNs < e.durationNs ∧
        ∃ c₀, base record.channel = some c₀ ∧ record.bytes.length = c₀.byteSize := by
  have hlive := failure_none_of_reach hr hf
  have hstep : e.step = some (e.runSlot e.slot) :=
    step_of_pending (failure_none_of_runSlot hlive) hslot
  have hreach : Loop.Reach step e (e.runSlot e.slot) := .tail .refl hstep
  obtain ⟨new, hnew, hall⟩ := runSlot_recording hdesign hprompt e.slot
  have hs₁ := (runSlot_scheduled hs : (e.runSlot e.slot).Scheduled)
  have hasc₁ := hasc.runSlot hs hslot hlive
  obtain ⟨later, hlater, hall'⟩ :=
    reach_recording (reach_designed hdesign hreach) hprompt hs₁ hasc₁ hr hf
  have hmem : e.slot ∈ (e.runSlot e.slot).slots := by simp [runSlot_slots]
  refine ⟨new, later, hnew, hlater, fun record hr => (hall record hr).1,
    fun record hr => ?_, fun record hr => ?_⟩
  · by_cases hmax : (e.runSlot e.slot).slot = uint64Max
    · have hle := (hall' record hr).1
      have := e.slot_le_max
      omega
    · exact (hasc₁.lt_slot hs₁ hmax _ hmem).trans_le (hall' record hr).1
  · rcases mem_append.mp hr with hr | hr
    · obtain ⟨hnow, hsize⟩ := hall record hr
      exact ⟨hnow ▸ hs.slot_lt hslot, hsize⟩
    · obtain ⟨_, hlt, hsize⟩ := hall' record hr
      rw [runSlot_durationNs] at hlt
      exact ⟨hlt, hsize⟩

/-! ## The state of a Run -/

/-- The state of a Run from Slot to Slot: what the Manifest declares is still
there. -/
structure Ongoing (m : Manifest σ) (e : Engine σ) : Prop where
  failure : e.failure = none
  scheduled : e.Scheduled
  indices : (e.tasks.map Task.registrationIndex).Pairwise (· < ·)
  duration : e.durationNs = m.durationNs
  contracts : e.contracts = m.contract
  limits : e.limits = m.limits
  processes : e.processes = m.participants.flatMap ParticipantSpec.processes
  designed : e.router.Designed m.channelState

/-- A Run without capacities and same-Slot feedthrough: every recorded Message
was taken or is pending. -/
structure Underway (m : Manifest σ) (e : Engine σ) : Prop extends Ongoing m e where
  routewise : ∀ t ∈ e.tasks, t.fn.Routewise
  opened : e.router.Open
  latency : ∀ o c, (e.router.routes o c).latencyNs = (m.route o c).latencyNs
  conserved : e.router.Conserved (Router.designedSubscribers m.channelState)

theorem setup_ongoing (hduration : m.durationNs ≤ uint64Max) (hsetup : setup m = some e) :
    Ongoing m e := by
  have hbase := setup_sameBase hsetup
  have hfilling := setup_filling hduration hsetup
  refine ⟨hfilling.failure_none, hfilling.scheduled, setup_numbered hsetup,
    hbase.durationNs, hbase.contracts, hbase.limits, (setup_registered hsetup).2.2, ?_⟩
  rw [hbase.router]
  intro c
  cases hc : m.channelState c with
  | none => exact .inl ⟨rfl, hc⟩
  | some st => exact .inr ⟨st, st, rfl, hc, .refl st⟩

theorem setup_underway (hloaded : m.Loaded) (hslots : m.SlotToSlot) (hsetup : setup m = some e) :
    Underway m e := by
  have hbase := setup_sameBase hsetup
  refine ⟨setup_ongoing hloaded.duration_le hsetup, fun t ht => ?_, ?_, fun o c => ?_, ?_⟩
  · obtain ⟨p, hp, hmem⟩ := exists_participant_of_task hsetup ht
    exact hslots.routewise p hp t.unindexed hmem
  · rw [hbase.router]
    exact hslots.router_open
  · rw [hbase.router]
    rfl
  · rw [hbase.router]
    intro o c
    have hpending : (create m).router.pendingContent o c = [] := by
      simp only [Router.pendingContent, create, Manifest.router, Manifest.route]
      split <;> rfl
    rw [hpending]
    split_ifs <;> rfl

theorem Ongoing.runSlot (h : Ongoing m e) {slot : Nat} (hslot : slot ≤ uint64Max)
    (hf : (e.runSlot slot).failure = none) : Ongoing m (e.runSlot slot) := by
  obtain ⟨_, hcontracts, hlimits, hprocesses, _, _⟩ :=
    foldl_execute_static (e.agenda slot) (e.openSlot slot)
  refine ⟨hf, runSlot_scheduled h.scheduled, ?_, ?_, hcontracts.trans h.contracts,
    hlimits.trans h.limits, hprocesses.trans h.processes, ?_⟩
  · rw [runSlot_indices h.scheduled hf]
    exact h.indices
  · rw [runSlot_durationNs, h.duration]
  · exact (runSlot_steps false hslot (by simp)).invariant
      (fun _ _ ha hstep => ha.step hstep) h.designed

theorem Underway.runSlot (hloaded : m.Loaded) (h : Underway m e) {slot : Nat}
    (hslot : slot ≤ uint64Max) (hf : (e.runSlot slot).failure = none) :
    Underway m (e.runSlot slot) := by
  have hnodup : ∀ c, (Router.designedSubscribers m.channelState c).Nodup := by
    intro c
    rw [Router.designedSubscribers, Manifest.channelState]
    cases m.channels.find? fun s => s.name == c with
    | none => exact nodup_nil
    | some s => exact Manifest.subscribers_nodup hloaded c
  -- the parts that concern the routing state are kept by every routing step
  have hrouter := (runSlot_steps false hslot (by simp)).invariant
    (I := fun x => x.Open ∧ x.Designed m.channelState ∧
      x.Conserved (Router.designedSubscribers m.channelState) ∧
      ∀ o c, (x.routes o c).latencyNs = (m.route o c).latencyNs)
    (fun a b ha hstep => ?_) ⟨h.opened, h.designed, h.conserved, h.latency⟩
  · refine ⟨h.toOngoing.runSlot hslot hf, ?_, hrouter.1, hrouter.2.2.2, hrouter.2.2.1⟩
    intro t' ht'
    rw [runSlot_tasks h.scheduled hf] at ht'
    obtain ⟨t, ht, rfl⟩ := mem_map.mp ht'
    split_ifs
    · rw [(t.advance_code e.durationNs).2]
      exact h.routewise t ht
    · exact h.routewise t ht
  · obtain ⟨hopen, hdesign, hconserved, hlatency⟩ := ha
    obtain ⟨hconserved', hopen'⟩ := hconserved.step hdesign hnodup hopen hstep
    exact ⟨hopen', hdesign.step hstep, hconserved', fun o c =>
      (hstep.latencyNs_eq hopen o c).trans (hlatency o c)⟩

end Engine

end SilFormal.Kernel
