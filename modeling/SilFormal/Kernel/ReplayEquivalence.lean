import SilFormal.Kernel.OrderIndependence
import SilFormal.Kernel.ReplaySchedule
import SilFormal.Kernel.WithReplay

/-!
# A Recording in the place of its publishers

A Run in which a Replay participant has taken the place of some participants
follows the recorded Run.  Between two Slots of the recorded Run the replaying
engine has the same Tasks of those who stay, in the same states, and its pass
over the Recording stands at what the recorded Run is still to publish.  It
opens the Slots in which one of those who stay is activated or a removed
participant publishes, and no others.
-/

namespace SilFormal.Kernel

open List

universe u

variable {σ : Type u}

open Manifest (stays)

namespace Manifest

/-- A Channel without a publisher. -/
def Unpublished (m : Manifest σ) (c : String) : Prop :=
  ∀ o, c ∉ (m.contract o).publishes

/-- A Manifest in which participants can be replaced by a Recording. -/
structure Replaceable (m : Manifest σ) (removed : String → Bool) (name : String) :
    Prop where
  loaded : m.Loaded
  slotToSlot : m.SlotToSlot
  onePublisher : m.onePublisherPerChannel = true
  live : ∀ p ∈ m.participants, p.isReplay = false
  prompt : ∀ c ∈ m.channels, ∀ s ∈ c.interceptorPlan.steps, s.kind ≠ .delay
  fresh : ∀ p ∈ m.retained removed, p.name ≠ name
  published : m.publishedBy removed ≠ []

namespace Replaceable

variable
    {m : Manifest σ} {removed : String → Bool} {name : String} {position : Nat}
    {recording : List RecordedMessage} {c : String}

theorem mem_publishedBy (h : m.Replaceable removed name) (hc : c ∈ m.publishedBy removed) :
    ∃ o, removed o = true ∧ c ∈ (m.contract o).publishes := by
  obtain ⟨p, hp, hmem⟩ := mem_flatMap.mp hc
  obtain ⟨hp, hremoved⟩ := mem_filter.mp hp
  refine ⟨p.name, hremoved, ?_⟩
  rw [contract_eq h.loaded hp]
  exact hmem

/-- Those who stay publish other Channels than those who were removed. -/
theorem not_mem_publishedBy (h : m.Replaceable removed name) {o : String}
    (ho : stays removed name o = true) (hc : c ∈ (m.contract o).publishes) :
    c ∉ m.publishedBy removed := by
  intro hmem
  obtain ⟨o', hremoved, hc'⟩ := h.mem_publishedBy hmem
  obtain rfl := publisher_unique h.onePublisher hc hc'
  rw [(stays_iff.mp ho).1] at hremoved
  cases hremoved

/-- A Channel that is not replayed is published by one who stays, or not at
all. -/
theorem publisher_stays (h : m.Replaceable removed name) (hc : c ∉ m.publishedBy removed) :
    m.Unpublished c ∨ ∃ o, stays removed name o = true ∧ c ∈ (m.contract o).publishes := by
  by_cases hfree : m.Unpublished c
  · exact .inl hfree
  · simp only [Unpublished, not_forall, not_not] at hfree
    obtain ⟨o, ho⟩ := hfree
    obtain ⟨p, hp, rfl, hpub⟩ := exists_publisher ho
    refine .inr ⟨p.name, stays_of_mem_retained h.fresh (mem_retained.mpr ⟨hp, ?_⟩), ho⟩
    by_contra hremoved
    refine hc (mem_flatMap.mpr ⟨p, mem_filter.mpr ⟨hp, ?_⟩, hpub⟩)
    simpa using hremoved

theorem unpublished_withReplay (h : m.Replaceable removed name) (hc : m.Unpublished c)
    (o : String) : c ∉ ((m.withReplay removed name position recording).contract o).publishes := by
  intro hmem
  rcases withReplay_publishes h.fresh hmem with ho | ⟨_, hreplayed⟩
  · rw [withReplay_contract ho] at hmem
    exact hc o hmem
  · obtain ⟨o', _, hpub⟩ := h.mem_publishedBy hreplayed
    exact hc o' hpub

theorem subscribers_iff (h : m.Replaceable removed name) {o : String}
    (ho : stays removed name o = true) (c : String) :
    o ∈ Router.designedSubscribers m.channelState c ↔ o ∈ Router.designedSubscribers
        (m.withReplay removed name position recording).channelState c := by
  rw [Router.designedSubscribers, Router.designedSubscribers, channelState, channelState,
    withReplay_find?_channel, withReplay_subscribers h.fresh]
  cases m.channels.find? fun s => s.name == c with
  | none => rfl
  | some s => simp [ho]

/-- No plan of the recorded Run delays. -/
theorem prompt_channelState (h : m.Replaceable removed name) (c : String) (c₀ : ChannelState)
    (hc : m.channelState c = some c₀) : ∀ s ∈ c₀.plan.steps, s.kind ≠ .delay := by
  obtain ⟨spec, hfind, rfl⟩ := Option.map_eq_some_iff.mp hc
  intro s hs
  obtain ⟨s₀, hs₀, rfl⟩ := mem_map.mp hs
  exact h.prompt spec (mem_of_find?_eq_some hfind) s₀ hs₀

end Replaceable

end Manifest

/-! ## The two engines between Slots -/

/-- The Replay participant as it is set up. -/
def Manifest.replayPlace (m : Manifest σ) (removed : String → Bool) (name : String) :
    Replayer where
  name := name
  priority := none
  registrationIndex := 0
  channels := m.publishedBy removed
  durationNs := m.durationNs
  reader := []

namespace Engine

/-- The replaying engine follows the recorded Run, which ends in `ef`. -/
structure Follows (m : Manifest σ) (removed : String → Bool) (name : String) (ef e e' : Engine σ) :
    Prop
    extends Shadows (stays removed name) (m.replayPlace removed name) ef e e' where
  states : ∀ o, stays removed name o = true → e.states o = e'.states o
  intake : ∀ o, stays removed name o = true → ∀ c, e.router.intake o c = e'.router.intake o c
  channels : ∀ c, c ∉ m.publishedBy removed →
    (e.router.channels c).map (ChannelState.restrict (stays removed name)) =
        (e'.router.channels c).map (ChannelState.restrict (stays removed name)) ∧
      e.router.recorded c = e'.router.recorded c
  recorded : ∀ c, e.router.recordedContent c = e'.router.recordedContent c

/-- The views that are compared: of those who stay, and of the Channels that
nobody publishes. -/
def Staying (removed : String → Bool) (name : String) : Option String → Prop
  | none => True
  | some o => stays removed name o = true

section Slot

variable
    {m : Manifest σ} {removed : String → Bool} {name : String} {position : Nat}
    {recording : List RecordedMessage} {ef e e' : Engine σ} {slot : Nat} {o : String}

theorem Follows.pendingContent (h : Follows m removed name ef e e')
    (hm : m.Replaceable removed name) (hu : Underway m e)
    (hu' : Underway (m.withReplay removed name position recording) e')
    (ho : stays removed name o = true) (c : String) :
    e.router.pendingContent o c = e'.router.pendingContent o c :=
  hu.conserved.pendingContent_eq hu'.conserved (hm.subscribers_iff ho c) (h.intake o ho c)
    (h.recorded c)

theorem Follows.latencyNs_eq (hu : Underway m e)
    (hu' : Underway (m.withReplay removed name position recording) e')
    (ho : stays removed name o = true) (c : String) :
    (e.router.routes o c).latencyNs = (e'.router.routes o c).latencyNs := by
  rw [hu.latency, hu'.latency, Manifest.withReplay_route ho]

theorem Follows.openSlot (h : Follows m removed name ef e e') (hm : m.Replaceable removed name)
    (hu : Underway m e) (hu' : Underway (m.withReplay removed name position recording) e')
    (slot : Nat) (i : Option String) (hi : Staying removed name i) :
    View (stays removed name) m.Unpublished i (e.openSlot slot) (e'.openSlot slot) := by
  have hchannel : ∀ c, c ∉ m.publishedBy removed →
      Router.SameChannel (stays removed name) c (e.openSlot slot).router
        (e'.openSlot slot).router := by
    intro c hc
    obtain ⟨hstate, hrecorded⟩ := h.channels c hc
    exact .opened hstate hrecorded
      (fun o ho => ⟨latencyNs_eq hu hu' ho c, h.pendingContent hm hu hu' ho c⟩) slot
  cases i with
  | none =>
    intro c hc
    refine hchannel c fun hmem => ?_
    obtain ⟨o, _, ho⟩ := hm.mem_publishedBy hmem
    exact hc o ho
  | some o =>
    have hcontract : e.contracts o = e'.contracts o := by
      rw [hu.contracts, hu'.contracts, Manifest.withReplay_contract hi]
    refine ⟨hcontract, hu.limits.trans hu'.limits.symm, h.states o hi, rfl,
      .opened (latencyNs_eq hu hu' hi) (h.pendingContent hm hu hu' hi) (h.intake o hi)
        slot, fun c hc => ?_⟩
    have hc' : c ∈ (m.contract o).publishes := hu.contracts ▸ hc
    exact hchannel c (hm.not_mem_publishedBy hi hc')

theorem Underway.valid (hm : m.Replaceable removed name) (hu : Underway m e)
    (hslot : slot ≤ uint64Max) : (e.openSlot slot).Valid m.Unpublished := by
  have hcontracts : (e.openSlot slot).contracts = m.contract := hu.contracts
  refine ⟨⟨hu.opened.capacity, hu.opened.latency, hslot⟩, ?_, ?_⟩
  · rw [hcontracts]
    exact fun _ _ _ ho ho' => Manifest.publisher_unique hm.onePublisher ho ho'
  · rw [hcontracts]
    exact fun c hc => hc

/-! ## The Replay participant in a Slot -/

/-- The engine after the Replay participant was served. -/
structure Served (m : Manifest σ) (removed : String → Bool) (name : String) (e e₁ : Engine σ)
    (due : List RecordedMessage) : Prop where
  failure : e₁.failure = none
  tasks : e₁.tasks = e.tasks
  valid : e₁.Valid m.Unpublished
  view : ∀ i, Staying removed name i → View (stays removed name) m.Unpublished i e e₁
  recorded : ∀ c, e₁.router.recordedContent c = e.router.recordedContent c ++
    (due.filter fun msg => msg.channel = c).map RecordedMessage.content
  replayed : ∀ c, c ∈ (e₁.contracts name).publishes ↔ c ∈ m.publishedBy removed

theorem replay_served (hm : m.Replaceable removed name)
    (hu' : Underway (m.withReplay removed name position recording) e') {r : Replayer}
    {future : List Record} (hr : (m.replayPlace removed name).Cursor future r)
    (hsized : ∀ record ∈ future, ∃ c₀, m.channelState record.channel = some c₀ ∧
      record.bytes.length = c₀.byteSize) (hslot : slot < m.durationNs) :
    Served m removed name (e'.openSlot slot) ((e'.openSlot slot).replay r)
      (r.dueAt slot) := by
  have hle : slot ≤ uint64Max := hslot.le.trans hm.loaded.duration_le
  have hopen : (e'.openSlot slot).router.Open :=
    ⟨hu'.opened.capacity, hu'.opened.latency, hle⟩
  have hcontracts : ((e'.openSlot slot).replay r).contracts =
      (m.withReplay removed name position recording).contract := hu'.contracts
  -- every publish of the pass succeeds
  have hfit : r.Fitting (m.withReplay removed name position recording).channelState
      r.reader := by
    refine ⟨fun c hc st hst => ?_, fun msg hmsg hsel => ?_⟩
    · rw [hr.channels_eq] at hc
      rw [hr.duration_eq]
      exact Manifest.withReplay_plain hc hst
    · have hmem : msg ∈ r.remaining := mem_filter.mpr ⟨hmsg, hsel⟩
      rw [hr.remaining_eq] at hmem
      obtain ⟨record, hrecord, rfl⟩ := mem_map.mp (mem_of_mem_filter hmem)
      obtain ⟨c₀, hc₀, hsize⟩ := hsized record hrecord
      obtain ⟨st, hst, hsame⟩ := Manifest.withReplay_byteSize hc₀
      exact ⟨st, hst, hsize.trans hsame.symm⟩
  obtain ⟨hok, hrecorded⟩ := Replayer.publishFrom_records hfit hopen hu'.designed
    (by rw [hr.duration_eq]; exact hslot)
  have hacts := r.publishFrom_acts false slot r.reader (e'.openSlot slot).router (by simp)
  obtain ⟨hopen', howners, hchannels⟩ :=
    Router.acts_frame (stays removed name) hacts hopen
  refine ⟨?_, rfl, ⟨hopen', ?_, ?_⟩, fun i hi => ?_, hrecorded, fun c => ?_⟩
  · exact Option.map_eq_none_iff.mpr hok
  · rw [hcontracts]
    exact fun _ _ _ ho ho' => Manifest.publisher_unique
      (Manifest.withReplay_onePublisher hm.onePublisher) ho ho'
  · rw [hcontracts]
    exact fun c hc o => hm.unpublished_withReplay hc o
  · have hother : ∀ c, c ∉ m.publishedBy removed →
        Router.SameChannel (stays removed name) c (e'.openSlot slot).router
          ((e'.openSlot slot).replay r).router := by
      intro c hc
      refine hchannels c fun hmem => hc ?_
      have hmem' : c ∈ r.channels := hmem
      rw [hr.channels_eq] at hmem'
      exact hmem'
    cases i with
    | none =>
      intro c hc
      refine hother c fun hmem => ?_
      obtain ⟨o, _, ho⟩ := hm.mem_publishedBy hmem
      exact hc o ho
    | some o =>
      have hne : o ≠ r.name := by
        rw [hr.name_eq]
        exact (Manifest.stays_iff.mp hi).2
      refine ⟨rfl, rfl, rfl, hacts.nowNs_eq.symm, howners o hne, fun c hc => ?_⟩
      have hc' : c ∈ (m.contract o).publishes := by
        rw [← Manifest.withReplay_contract hi, ← hu'.contracts]
        exact hc
      exact hother c (hm.not_mem_publishedBy hi hc')
  · rw [hcontracts, Manifest.withReplay_contract_name hm.fresh hm.loaded hm.published]

/-! ## The activations of a Slot -/

/-- The replaying engine activates the Tasks of those who stay, in the same
order. -/
theorem Follows.taskQueue (h : Follows m removed name ef e e') (hu : Underway m e)
    (hu' : Underway (m.withReplay removed name position recording) e') (slot : Nat) :
    (e'.taskQueue slot).map Task.bare =
      ((e.taskQueue slot).map Task.bare).filter fun t => stays removed name t.owner := by
  have hqueue := taskQueue_of_filter hu.indices hu'.indices h.tasks slot
  have hbare : ∀ l : List (Task σ), (l.map Task.unindexed).map Task.bare = l.map Task.bare := by
    intro l
    rw [map_map]
    rfl
  rw [← hbare (e'.taskQueue slot), ← hqueue, hbare, filter_map]
  rfl

theorem only_of_staying {i : Option String} (hi : Staying removed name i) (l : List (Task σ)) :
    Interleaving.only (fun t => some t.owner) i l = Interleaving.only (fun t => some t.owner) i
        (l.filter fun t => stays removed name t.owner) := by
  rw [Interleaving.only, Interleaving.only, filter_filter]
  refine filter_congr fun t _ => ?_
  cases i with
  | none => simp
  | some o =>
    have ho : stays removed name o = true := hi
    by_cases hto : t.owner = o
    · simp [hto, ho]
    · simp [hto]

theorem only_of_not_stays (ho : stays removed name o = false) (l : List (Task σ)) :
    Interleaving.only (fun t => some t.owner) (some o)
      (l.filter fun t => stays removed name t.owner) = [] := by
  rw [Interleaving.only, filter_filter, filter_eq_nil_iff]
  intro t _ hboth
  simp only [Option.some.injEq, Bool.and_eq_true, decide_eq_true_eq] at hboth
  obtain ⟨rfl, hstays⟩ := hboth
  rw [ho] at hstays
  cases hstays

theorem routewise_taskQueue {m : Manifest σ} {e : Engine σ} (hu : Underway m e) (slot : Nat) :
    ∀ t ∈ (e.taskQueue slot).map Task.bare, t.fn.Routewise := by
  intro t ht
  obtain ⟨t₀, ht₀, rfl⟩ := mem_map.mp ht
  exact hu.routewise t₀ (mem_taskQueue.mp ht₀).1

/-- After the Replay participant was served, the Slot does to those who stay
what it does to them in the recorded Run. -/
theorem Follows.activations (h : Follows m removed name ef e e') (hm : m.Replaceable removed name)
    (hu : Underway m e) (hu' : Underway (m.withReplay removed name position recording) e')
    (hreplayers : e.replayers = []) (hslot : slot ≤ uint64Max) {e₁ : Engine σ}
    {due : List RecordedMessage} (hserved : Served m removed name (e'.openSlot slot) e₁ due)
    (hok : (e.runSlot slot).failure = none) :
    (((e'.taskQueue slot).map Due.task).foldl execute e₁).failure = none ∧
      (∀ i, Staying removed name i → View (stays removed name) m.Unpublished i
        (e.runSlot slot) (((e'.taskQueue slot).map Due.task).foldl execute e₁)) ∧
      ∀ c ∈ m.publishedBy removed, Router.SameChannel (stays removed name) c e₁.router
        (((e'.taskQueue slot).map Due.task).foldl execute e₁).router := by
  have hsep := separate (σ := σ) (stays removed name) m.Unpublished
  -- the recorded Slot as a sequence of actions
  have hagenda : e.agenda slot = (e.taskQueue slot).map Due.task := by
    rw [agenda_of_unprioritised (by simp [hreplayers]), hreplayers]
    rfl
  obtain ⟨e₂, hrun, hbase⟩ : ∃ e₂, Interleaving.runAll perform
      ((e.taskQueue slot).map Task.bare) (e.openSlot slot) = some e₂ ∧
        SameBase (e.runSlot slot) e₂ := by
    have hcases := foldl_execute_runAll (l := e.taskQueue slot)
      (SameBase.refl (e.openSlot slot)) hu.failure
    rw [← hagenda] at hcases
    rcases hcases with ⟨_, hrun⟩ | ⟨hfail, _⟩
    · exact hrun
    · exact absurd hok hfail
  have hqueue := h.taskQueue hu hu' slot
  have hfair' := routewise_taskQueue hu' slot
  obtain ⟨e₂', hrun', hviews⟩ := hsep.runAll_of_only_eq_on (Staying removed name)
    (routewise_taskQueue hu slot) hfair'
    (fun i hi => by rw [hqueue]; exact only_of_staying hi _)
    (fun i hi => by
      cases i with
      | none => exact absurd trivial hi
      | some o =>
        rw [hqueue]
        exact only_of_not_stays (by simpa [Staying] using hi) _)
    (hu.valid hm hslot) hserved.valid
    (fun i hi => (h.openSlot hm hu hu' slot i hi).trans (hserved.view i hi)) hrun
  -- the replaying engine does the same actions
  obtain ⟨hok', hbase'⟩ : (((e'.taskQueue slot).map Due.task).foldl execute e₁).failure =
      none ∧ SameBase (((e'.taskQueue slot).map Due.task).foldl execute e₁) e₂' := by
    rcases foldl_execute_runAll (SameBase.refl e₁)
      hserved.failure with ⟨hok', e₃, hrun₃, hbase₃⟩ | ⟨_, hnone⟩
    · rw [hrun', Option.some.injEq] at hrun₃
      exact ⟨hok', hrun₃ ▸ hbase₃⟩
    · rw [hrun'] at hnone
      cases hnone
  refine ⟨hok', fun i hi => ?_, fun c hc => ?_⟩
  · exact ((View.of_sameBase hbase i).trans (hviews i hi)).trans
      (View.of_sameBase hbase' i).symm
  · have honly : Interleaving.only (fun t : Task σ => some t.owner) (some name)
        ((e'.taskQueue slot).map Task.bare) = [] := by
      rw [hqueue]
      exact only_of_not_stays (by simp [stays]) _
    have hframe := (hsep.runAll_frame hfair' honly hserved.valid hrun').trans
      (View.of_sameBase hbase' (some name)).symm
    exact hframe.2.2.2.publishing c ((hserved.replayed c).mpr hc)

/-! ## One iteration -/

/-- The due Messages of a replayed Channel are those the Slot records. -/
theorem due_content {new : List Record}
    (hduration : ∀ record ∈ new, record.publishNs < m.durationNs) {c : String}
    (hc : c ∈ m.publishedBy removed) :
    (((new.map Record.toMessage).filter (m.replayPlace removed name).selects).filter
        fun msg => msg.channel = c).map RecordedMessage.content =
      (new.filter fun record => record.channel = c).map fun record =>
        (record.publishNs, record.bytes) := by
  rw [filter_filter, filter_map, map_map]
  have hselected : (new.filter ((fun msg : RecordedMessage =>
      decide (msg.channel = c) && (m.replayPlace removed name).selects msg) ∘
        Record.toMessage)) = new.filter fun record => record.channel = c := by
    refine filter_congr fun record hrecord => ?_
    by_cases hchannel : record.toMessage.channel = c
    · have hselects : (m.replayPlace removed name).selects record.toMessage = true :=
        Replayer.selects_iff.mpr ⟨hchannel ▸ hc, hduration record hrecord⟩
      rw [Function.comp_apply, hselects, Bool.and_true]
      rfl
    · have hchannel' : ¬ record.channel = c := hchannel
      simp [hchannel, hchannel']
  rw [hselected]
  rfl

theorem Follows.runSlot (h : Follows m removed name ef e e') (hm : m.Replaceable removed name)
    (hu : Underway m e) (hu' : Underway (m.withReplay removed name position recording) e')
    (hreplayers : e.replayers = []) (hasc : e.Ascending) (hslot : e.slot ≠ uint64Max)
    (hreach : Loop.Reach step (e.runSlot e.slot) ef) (hf : ef.failure = none) :
    (e'.runSlot e.slot).failure = none ∧
      Follows m removed name ef (e.runSlot e.slot) (e'.runSlot e.slot) := by
  have hok := failure_none_of_reach hreach hf
  obtain ⟨r, future, hr, hfuture, hcursor⟩ := h.pass
  obtain ⟨new, later, hnew, hlater, hnow, hafter, hall⟩ := recording_split hu.designed
    hm.prompt_channelState hu.scheduled hasc hslot hreach hf
  -- the Recording still to come is what this Slot records and what comes later
  obtain rfl : future = new ++ later := by
    rw [hlater, hnew, append_assoc] at hfuture
    exact (append_cancel_left hfuture).symm
  obtain ⟨hdue, hcursor'⟩ := hcursor.split hnow hafter
  have hserved := replay_served hm hu' hcursor (fun record hmem => (hall record hmem).2)
    (hu.duration ▸ hu.scheduled.slot_lt hslot)
  obtain ⟨hok', hviews, hframe⟩ :=
    h.activations hm hu hu' hreplayers e.slot_le_max hserved hok
  have hrun : e'.runSlot e.slot = ((e'.taskQueue e.slot).map Due.task).foldl execute
      ((e'.openSlot e.slot).replay r) := by
    have hprio : ∀ r' ∈ e'.replayers, r'.priority = none := by
      rw [hr]
      intro r' hr'
      rw [mem_singleton.mp hr']
      exact hcursor.priority_eq
    have hexec : (e'.openSlot e.slot).execute (.replay r) = (e'.openSlot e.slot).replay r := by
      have hlive : (e'.openSlot e.slot).failure = none := hu'.failure
      simp [execute, hlive]
    rw [Engine.runSlot, agenda_of_unprioritised hprio, hr, map_singleton,
      singleton_append, foldl_cons, hexec]
  rw [← hrun] at hok' hviews hframe
  have hsame : ∀ c, c ∉ m.publishedBy removed → Router.SameChannel (stays removed name) c
      (e.runSlot e.slot).router (e'.runSlot e.slot).router := by
    intro c hc
    rcases hm.publisher_stays hc with hfree | ⟨o, ho, hpub⟩
    · exact hviews none trivial c hfree
    · have hcontracts : (e.runSlot e.slot).contracts = m.contract :=
        ((foldl_execute_static _ _).2.1).trans hu.contracts
      exact (hviews (some o) ho).2.2.2.publishing c (hcontracts ▸ hpub)
  refine ⟨hok', ⟨h.tasks_runSlot hu.scheduled hu'.scheduled
      (hu'.duration.trans hu.duration.symm) hok hok', ?_⟩,
    fun o ho => (hviews (some o) ho).2.2.1,
    fun o ho => (hviews (some o) ho).2.2.2.taking.intake,
    fun c hc => ⟨(hsame c hc).state, (hsame c hc).recorded⟩, ?_⟩
  · refine ⟨r.served e.slot, later, ?_, hlater, hcursor'⟩
    rw [runSlot_replayers hu'.scheduled hok', hr, map_singleton]
  · intro c
    by_cases hc : c ∈ m.publishedBy removed
    · have hduration : ∀ record ∈ new, record.publishNs < m.durationNs :=
        fun record hmem => hu.duration ▸ (hall record (mem_append_left _ hmem)).1
      have hcontent : (e'.runSlot e.slot).router.recordedContent c =
          ((e'.openSlot e.slot).replay r).router.recordedContent c := by
        rw [Router.recordedContent, Router.recordedContent, (hframe c hc).recorded]
      rw [Router.recordedContent_append hnew, hcontent, hserved.recorded c, hdue,
        due_content hduration hc, h.recorded c]
      rfl
    · rw [Router.recordedContent, Router.recordedContent, (hsame c hc).recorded]

/-! ## Whole Runs -/

/-- The simulation: a state of the recorded Run and one of the replaying
engine that follows it. -/
structure Tracks (m : Manifest σ) (removed : String → Bool) (name : String) (position : Nat)
    (recording : List RecordedMessage) (ef e e' : Engine σ) : Prop where
  underway : Underway m e
  underway' : Underway (m.withReplay removed name position recording) e'
  ascending : e.Ascending
  replayers : e.replayers = []
  reach : Loop.Reach step e ef
  follows : Follows m removed name ef e e'

/-- A Slot of the recorded Run is opened by the replaying engine too, or leaves
it where it is. -/
theorem Tracks.step (hm : m.Replaceable removed name)
    (h : Tracks m removed name position recording ef e e') (hhalt : Loop.Halted Engine.step ef)
    (hf : ef.failure = none) {a : Engine σ} (hstep : e.step = some a) :
    ∃ b, Loop.Reach Engine.step e' b ∧ Tracks m removed name position recording ef a b := by
  obtain ⟨hu, hu', hasc, hreplayers, hreach, hfollows⟩ := h
  obtain ⟨_, hslot, rfl⟩ := step_eq_some hstep
  have hreach₁ : Loop.Reach Engine.step (e.runSlot e.slot) ef :=
    Loop.Reach.to_halted (.tail .refl hstep) hreach hhalt
  have hlive := failure_none_of_reach hreach₁ hf
  have hu₁ := hu.runSlot hm.loaded e.slot_le_max hlive
  have hasc₁ := hasc.runSlot hu.scheduled hslot hlive
  have hreplayers₁ : (e.runSlot e.slot).replayers = [] := by
    rw [runSlot_replayers hu.scheduled hlive, hreplayers]
    rfl
  obtain ⟨hlive', hfollows₁⟩ :=
    hfollows.runSlot hm hu hu' hreplayers hasc hslot hreach₁ hf
  obtain ⟨future', hfuture', hall⟩ := reach_recording hu.designed hm.prompt_channelState
    hu.scheduled hasc hreach hf
  have hcoming : ∀ future, ef.router.recording = e.router.recording ++ future →
      ∀ record ∈ future, e.slot ≤ record.publishNs := by
    intro future hfuture
    obtain rfl : future = future' := append_cancel_left (hfuture ▸ hfuture')
    exact fun record hmem => (hall record hmem).1
  rcases hfollows.follow hu'.scheduled hu'.failure hslot hcoming with hstep' | hidle
  · exact ⟨_, .tail .refl hstep', hu₁, hu'.runSlot (Manifest.withReplay_loaded hm.fresh
      hm.loaded hm.published) e.slot_le_max hlive', hasc₁, hreplayers₁, hreach₁, hfollows₁⟩
  · rw [hidle] at hfollows₁
    exact ⟨e', .refl, hu₁, hu', hasc₁, hreplayers₁, hreach₁,
      ⟨hfollows₁.tasks, hfollows₁.pass⟩, hfollows₁.states, hfollows₁.intake,
      hfollows₁.channels, hfollows₁.recorded⟩

/-! ## The start -/

/-- The Tasks of those who stay, as the Manifests declare them. -/
theorem retained_tasks (hm : m.Replaceable removed name) (durationNs : Nat) :
    (m.participants.flatMap (ParticipantSpec.tasks durationNs)).filter
        (fun t => stays removed name t.owner) =
      (m.retained removed).flatMap (ParticipantSpec.tasks durationNs) := by
  have hlist : ∀ l : List (ParticipantSpec σ), l ⊆ m.participants →
      (l.flatMap (ParticipantSpec.tasks durationNs)).filter
          (fun t => stays removed name t.owner) =
        (l.filter fun p => !removed p.name).flatMap (ParticipantSpec.tasks durationNs) := by
    intro l
    induction l with
    | nil =>
      intro _
      rfl
    | cons p rest ih =>
      intro hsub
      obtain ⟨hp, hrest⟩ := cons_subset.mp hsub
      rw [flatMap_cons, filter_append, ih hrest]
      by_cases hremoved : removed p.name = true
      · have hnone : (p.tasks durationNs).filter (fun t => stays removed name t.owner) = [] := by
          refine filter_eq_nil_iff.mpr fun t ht => ?_
          rw [ParticipantSpec.owner_of_mem_tasks ht]
          simp [stays, hremoved]
        rw [hnone, filter_cons_of_neg (by simp [hremoved])]
        rfl
      · have hp' : p ∈ m.retained removed :=
          Manifest.mem_retained.mpr ⟨hp, by simpa using hremoved⟩
        have hall : (p.tasks durationNs).filter (fun t => stays removed name t.owner) =
            p.tasks durationNs := by
          refine filter_eq_self.mpr fun t ht => ?_
          rw [ParticipantSpec.owner_of_mem_tasks ht]
          exact Manifest.stays_of_mem_retained hm.fresh hp'
        rw [hall, filter_cons_of_pos (by simp [hremoved]), flatMap_cons]
  exact hlist m.participants (List.Subset.refl _)

/-- The pass at the start: the whole Recording is still to be replayed. -/
theorem setup_cursor (hm : m.Replaceable removed name)
    (hsetup' : setup (m.withReplay removed name position ef.router.messages) = some e') :
    ∃ r, e'.replayers = [r] ∧ (m.replayPlace removed name).Cursor ef.router.recording r := by
  have hreplayers := (setup_registered hsetup').2.1
  have hretained : (m.retained removed).flatMap (ParticipantSpec.replayers m.durationNs) = [] := by
    refine flatMap_eq_nil_iff.mpr fun p hp => ?_
    exact ParticipantSpec.replayers_of_not_isReplay
      (hm.live p (Manifest.mem_retained.mp hp).1) m.durationNs
  have hone : (m.withReplay removed name position ef.router.messages).participants.flatMap
      (ParticipantSpec.replayers m.durationNs) =
        (m.replaySpec removed name ef.router.messages).replayers m.durationNs := by
    have hperm : (m.withReplay removed name position ef.router.messages).participants.Perm
        (m.replaySpec removed name ef.router.messages :: m.retained removed) :=
      Manifest.withReplay_perm
    have hflat := hperm.flatMap_right (ParticipantSpec.replayers m.durationNs)
    rw [flatMap_cons, hretained] at hflat
    exact perm_singleton.mp hflat
  rw [show (m.withReplay removed name position ef.router.messages).durationNs =
    m.durationNs from rfl, hone] at hreplayers
  obtain ⟨r, hr, heq⟩ := map_eq_singleton_iff.mp hreplayers
  exact ⟨r, hr, Replayer.cursor_of_skipUnreplayed heq⟩

theorem setup_tracks (hm : m.Replaceable removed name) (hsetup : setup m = some e)
    (hsetup' : setup (m.withReplay removed name position ef.router.messages) = some e')
    (hreach : Loop.Reach step e ef) :
    Tracks m removed name position ef.router.messages ef e e' := by
  have hfilling := setup_filling hm.loaded.duration_le hsetup
  have hbase := setup_sameBase hsetup
  have hbase' := setup_sameBase hsetup'
  obtain ⟨htasks, hreplayers, _⟩ := setup_registered hsetup
  have hnone : e.replayers = [] := by
    have hflat : m.participants.flatMap (ParticipantSpec.replayers m.durationNs) = [] :=
      flatMap_eq_nil_iff.mpr fun p hp =>
        ParticipantSpec.replayers_of_not_isReplay (hm.live p hp) m.durationNs
    rw [hflat] at hreplayers
    exact map_eq_nil_iff.mp hreplayers
  refine ⟨setup_underway hm.loaded hm.slotToSlot hsetup,
    setup_underway (Manifest.withReplay_loaded hm.fresh hm.loaded hm.published)
      (Manifest.withReplay_slotToSlot hm.slotToSlot) hsetup',
    ⟨by simp [hfilling.slots_nil], by simp [hfilling.slots_nil],
      by simp [hfilling.slots_nil], by simp [TimeOrdered, hnone]⟩, hnone, hreach, ?_⟩
  refine ⟨⟨?_, ?_⟩, fun o _ => ?_, fun o _ c => ?_, fun c hc => ?_, fun c => ?_⟩
  · have hcomm : (e.tasks.filter fun t => stays removed name t.owner).map Task.unindexed =
        (e.tasks.map Task.unindexed).filter fun t => stays removed name t.owner := by
      rw [filter_map]
      rfl
    rw [hcomm, htasks, (setup_registered hsetup').1, Manifest.withReplay_flatMap _ rfl]
    exact retained_tasks hm m.durationNs
  · obtain ⟨r, hr, hcursor⟩ := setup_cursor hm hsetup'
    refine ⟨r, ef.router.recording, hr, ?_, hcursor⟩
    rw [hbase.router]
    rfl
  · rw [hbase.states, hbase'.states]
    rfl
  · rw [hbase.router, hbase'.router]
    rfl
  · rw [hbase.router, hbase'.router]
    exact ⟨Manifest.withReplay_channelState hm.fresh hc, rfl⟩
  · rw [hbase.router, hbase'.router]
    rfl

end Slot

/-- Replay equivalence.  Let the Run of a Manifest without Replay participants,
delays, capacities and same-Slot feedthrough complete.  With any participants
that publish a Channel replaced by one Replay participant that publishes their
Channels from the Recording of that Run, the Run completes too, every activation
of those who stay takes the same Messages from each route, and every Channel
carries the same Messages at the same times. -/
theorem replay_equivalence (m : Manifest σ) (e : Engine σ) (removed : String → Bool) (name : String)
    (position : Nat) (hloaded : m.Loaded) (hslots : m.SlotToSlot)
    (hlive : ∀ p ∈ m.participants, p.isReplay = false)
    (hprompt : ∀ c ∈ m.channels, ∀ s ∈ c.interceptorPlan.steps, s.kind ≠ .delay)
    (hname : ∀ p ∈ m.retained removed, p.name ≠ name) (hpublished : m.publishedBy removed ≠ [])
    (hsetup : setup m = some e) (hcomplete : e.Completes) :
    (m.withReplay removed name position e.run.router.messages).Loaded ∧
    ∃ e', setup (m.withReplay removed name position e.run.router.messages) = some e' ∧
      e'.Completes ∧
      (∀ p ∈ m.retained removed, ∀ c,
        e'.run.router.intake p.name c = e.run.router.intake p.name c) ∧
      ∀ c, e'.run.router.recordedContent c = e.run.router.recordedContent c := by
  have hm : m.Replaceable removed name :=
    ⟨hloaded, hslots, onePublisher_of_setup hsetup, hlive, hprompt, hname, hpublished⟩
  obtain ⟨hok, hshutdown⟩ := (completes_iff e).mp hcomplete
  have hsched := (setup_filling hloaded.duration_le hsetup).scheduled
  have hhalt := loop_halted hsched
  refine ⟨Manifest.withReplay_loaded hname hloaded hpublished, ?_⟩
  rw [run_router]
  obtain ⟨e', hsetup'⟩ : ∃ e', setup (m.withReplay removed name position
      e.loop.router.messages) = some e' :=
    Manifest.exists_setup_withReplay hloaded hsetup
  -- the recorded Run, followed to its end
  obtain ⟨b, hreach, htracks⟩ := e.loop_reach.simulates
    (fun _ _ _ hr hstep => hr.step hm hhalt hok hstep)
    (setup_tracks hm hsetup hsetup' e.loop_reach)
  have hsched' := (setup_filling (Manifest.withReplay_loaded hname hloaded hpublished).duration_le
    hsetup').scheduled
  obtain rfl : b = e'.loop :=
    hreach.eq_run_of_halted (htracks.follows.halted htracks.underway.scheduled
      htracks.underway'.scheduled hok htracks.underway'.failure hhalt) (loop_halted hsched')
  refine ⟨e', hsetup', (completes_iff e').mpr ⟨htracks.underway'.failure, ?_⟩, ?_, ?_⟩
  · intro p hp
    rw [htracks.underway'.processes, Manifest.withReplay_flatMap _ rfl] at hp
    obtain ⟨spec, hspec, hmem⟩ := mem_flatMap.mp hp
    have hp₁ : p.1 = spec.name := by
      simp only [ParticipantSpec.processes] at hmem
      split at hmem
      · rw [mem_singleton.mp hmem]
      · simp at hmem
    have hstays := Manifest.stays_of_mem_retained hname hspec
    rw [← hp₁] at hstays
    rw [← htracks.follows.states p.1 hstays]
    refine hshutdown p ?_
    rw [htracks.underway.processes]
    exact mem_flatMap.mpr ⟨spec, (Manifest.mem_retained.mp hspec).1, hmem⟩
  · intro p hp c
    rw [run_router]
    exact (htracks.follows.intake p.name
      (Manifest.stays_of_mem_retained hname hp) c).symm
  · intro c
    rw [run_router]
    exact (htracks.follows.recorded c).symm

/-- The display echoes a recorded sensor as it echoes the sensor itself. -/
theorem replay_equivalence_echo : ∃ e, setup (echoManifest 1) = some e ∧ e.Completes ∧
      ∃ e', setup ((echoManifest 1).withReplay (· == "sensor") "player" 1
        e.run.router.messages) = some e' ∧ e'.Completes ∧
      e'.run.router.intake "display" "speed" =
        [.activated 0, .activated 10, .took (0, [0]), .activated 20, .took (5, [5])] ∧
      e'.run.router.recordedContent "echo" = [(0, [0]), (10, [0]), (20, [5])] := by
  have hloaded : (echoManifest 1).Loaded :=
    ⟨by decide, by decide, by decide, by decide, by decide, by decide⟩
  refine ⟨_, rfl, by decide +kernel, ?_⟩
  obtain ⟨-, e', hsetup', hcomplete', hintake, hrecorded⟩ := replay_equivalence
    (echoManifest 1) _ (· == "sensor") "player" 1 hloaded (echoManifest_slotToSlot 1)
    (by decide) (by decide) (by decide) (by decide) rfl (by decide +kernel)
  refine ⟨e', hsetup', hcomplete', (hintake _ (mem_singleton_self _) _).trans ?_,
    (hrecorded "echo").trans ?_⟩
  · decide +kernel
  · decide +kernel

/-- The echo with a watch, which publishes no Channel. -/
def watchedManifest : Manifest Unit :=
  { echoManifest 1 with
    participants := (echoManifest 1).participants ++
      [⟨"watch", .native [⟨"speed", none, .fail⟩] [] []⟩] }

/-- A Replay participant in the place of the watch would replay no Channel, and
no such Manifest is loaded. -/
theorem replay_of_silent_not_loaded : watchedManifest.Loaded ∧ watchedManifest.SlotToSlot ∧
      (∀ p ∈ watchedManifest.participants, p.isReplay = false) ∧
      (∀ c ∈ watchedManifest.channels, c.interceptorPlan.steps = []) ∧
      "watch" ∈ watchedManifest.participants.map ParticipantSpec.name ∧
      (∃ e, setup watchedManifest = some e ∧ e.Completes) ∧
      ∀ name position recording,
        ¬ (watchedManifest.withReplay (· == "watch") name position recording).Loaded := by
  refine ⟨⟨by decide, by decide, by decide, by decide, by decide, by decide⟩, ⟨?_, ?_, ?_⟩,
    by decide, by decide, by decide, ⟨_, rfl, by decide +kernel⟩, ?_⟩
  · exact (echoManifest_slotToSlot 1).latency
  · simp [watchedManifest, echoManifest, ParticipantSpec.subscribes]
  · intro p hp
    rcases mem_append.mp hp with hp | hp
    · exact (echoManifest_slotToSlot 1).routewise p hp
    · rw [mem_singleton.mp hp]
      rintro t ⟨⟩
  · intro name position recording h
    exact h.replay_channels (watchedManifest.replaySpec (· == "watch") name recording)
      (Manifest.withReplay_perm.mem_iff.mpr (by simp)) rfl
      (show watchedManifest.publishedBy (· == "watch") = [] by decide)

end Engine

end SilFormal.Kernel
