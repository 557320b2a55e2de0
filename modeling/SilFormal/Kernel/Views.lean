import SilFormal.Kernel.Activation

/-!
# What a participant sees of the routing state

Without same-Slot feedthrough a Message published in a Slot is not visible in
it.  The queue of a route then has two parts that do not interfere inside a
Slot: the ready part, which its owner takes from, and the waiting part, which
the publisher of the Channel appends to.  `SameOwner` compares the ready parts
of one owner, `SameChannel` what the publisher of one Channel acts on.  Global
sequence numbers are left out: they number the publishes of all participants.

`keep` selects the subscribers a comparison is about.
-/

namespace SilFormal.Kernel

open List

/-- A Message without its place in the global publish order. -/
def PendingMessage.content (m : PendingMessage) : Nat × Bytes :=
  (m.publishNs, m.bytes)

/-- An event of a route as its owner takes part in it. -/
def intakeEvent : RouteEvent → Option (Fifo.Event (Nat × Bytes))
  | .activated ns => some (.activated ns)
  | .took m => some (.took m.content)
  | .accepted _ => none
  | .refused _ => none

/-- A Channel with the selected subscribers only. -/
def ChannelState.restrict (keep : String → Bool) (c : ChannelState) : ChannelState :=
  { c with subscribers := c.subscribers.filter keep }

theorem ChannelState.restrict_inj {keep : String → Bool} {c c' : ChannelState}
    (h : c.restrict keep = c'.restrict keep) :
    c.schema = c'.schema ∧ c.byteSize = c'.byteSize ∧ c.nextSeq = c'.nextSeq ∧
      c.plan = c'.plan ∧ c.subscribers.filter keep = c'.subscribers.filter keep := by
  simpa [restrict] using h

namespace Router

/-- The activations of an owner with what each of them took from one route. -/
def intake (r : Router) (owner channel : String) : List (Fifo.Event (Nat × Bytes)) :=
  (r.history owner channel).filterMap intakeEvent

/-- The contents of the ready part of a route. -/
def readyContent (r : Router) (owner channel : String) : List (Nat × Bytes) :=
  ((r.routes owner channel).ready r.nowNs).map PendingMessage.content

/-- The contents of the waiting part of a route. -/
def waitingContent (r : Router) (owner channel : String) : List (Nat × Bytes) :=
  ((r.routes owner channel).waiting r.nowNs).map PendingMessage.content

/-- Routes without capacity and without same-Slot feedthrough. -/
structure Open (r : Router) : Prop where
  capacity : ∀ o c, (r.routes o c).capacity = none
  latency : ∀ o c, (r.routes o c).latencyNs ≠ some 0
  now_le : r.nowNs ≤ uint64Max

/-- Two routing states are the same to an owner that takes. -/
structure SameOwner (owner : String) (r r' : Router) : Prop where
  latency : ∀ c, (r.routes owner c).latencyNs = (r'.routes owner c).latencyNs
  ready : ∀ c, r.readyContent owner c = r'.readyContent owner c
  intake : ∀ c, r.intake owner c = r'.intake owner c

/-- Two routing states are the same to the publisher of a Channel. -/
structure SameChannel (keep : String → Bool) (channel : String) (r r' : Router) : Prop where
  state : (r.channels channel).map (ChannelState.restrict keep) =
    (r'.channels channel).map (ChannelState.restrict keep)
  recorded : r.recorded channel = r'.recorded channel
  waiting : ∀ o, keep o = true → r.waitingContent o channel = r'.waitingContent o channel

section Equivalence

variable {keep : String → Bool} {x : String} {r r' r'' : Router}

theorem SameOwner.refl (owner : String) (r : Router) : SameOwner owner r r :=
  ⟨fun _ => rfl, fun _ => rfl, fun _ => rfl⟩

theorem SameOwner.symm (h : SameOwner x r r') : SameOwner x r' r :=
  ⟨fun c => (h.latency c).symm, fun c => (h.ready c).symm, fun c => (h.intake c).symm⟩

theorem SameOwner.trans (h : SameOwner x r r') (h' : SameOwner x r' r'') : SameOwner x r r'' :=
  ⟨fun c => (h.latency c).trans (h'.latency c), fun c => (h.ready c).trans (h'.ready c),
    fun c => (h.intake c).trans (h'.intake c)⟩

theorem SameChannel.refl (keep : String → Bool) (channel : String) (r : Router) :
    SameChannel keep channel r r :=
  ⟨rfl, rfl, fun _ _ => rfl⟩

theorem SameChannel.symm (h : SameChannel keep x r r') : SameChannel keep x r' r :=
  ⟨h.state.symm, h.recorded.symm, fun o ho => (h.waiting o ho).symm⟩

theorem SameChannel.trans (h : SameChannel keep x r r') (h' : SameChannel keep x r' r'') :
    SameChannel keep x r r'' :=
  ⟨h.state.trans h'.state, h.recorded.trans h'.recorded,
    fun o ho => (h.waiting o ho).trans (h'.waiting o ho)⟩

end Equivalence

/-! ## Appending behind what is ready -/

theorem takeWhile_append_of_forall_false {α : Type*} {p : α → Bool} (xs : List α) {ys : List α}
    (h : ∀ y ∈ ys, p y = false) :
    (xs ++ ys).takeWhile p = xs.takeWhile p ∧ (xs ++ ys).dropWhile p = xs.dropWhile p ++ ys := by
  induction xs with
  | nil =>
    cases ys with
    | nil => exact ⟨rfl, rfl⟩
    | cons y rest =>
      have hy := h y (by simp)
      simp [hy]
  | cons x rest ih =>
    by_cases hx : p x = true
    · simpa [hx] using ih
    · simp [hx]

/-- Messages that are not visible yet join the waiting part. -/
theorem append_pending {route : SubscriberRoute} {nowNs : Nat} {ms : List PendingMessage}
    (h : ∀ m ∈ ms, visible route.latencyNs nowNs m.publishNs = false) :
    ({ route with pending := route.pending ++ ms } : SubscriberRoute).ready nowNs =
        route.ready nowNs ∧
      ({ route with pending := route.pending ++ ms } : SubscriberRoute).waiting nowNs =
        route.waiting nowNs ++ ms :=
  takeWhile_append_of_forall_false route.pending h

/-- Without capacities the loop over the routes reaches all of them. -/
theorem pushAll_open {publisher channel : String} {m : PendingMessage} {subscribers : List String}
    {r r' : Router} {error : Option String}
    (h : pushAll publisher channel m subscribers r = (r', error))
    (hcap : ∀ o c, (r.routes o c).capacity = none) :
    error = none ∧ ∀ o, r'.routes o channel =
      { r.routes o channel with
        pending := (r.routes o channel).pending ++ List.replicate (subscribers.count o) m } := by
  induction subscribers generalizing r with
  | nil =>
    obtain ⟨rfl, rfl⟩ := Prod.mk.inj h
    exact ⟨rfl, fun o => by simp⟩
  | cons owner rest ih =>
    simp only [pushAll, SubscriberRoute.push_of_not_full
        (SubscriberRoute.full_of_capacity_none (hcap owner channel))] at h
    have hcap' : ∀ o c, (((r.setRoute owner channel
        { r.routes owner channel with
          pending := (r.routes owner channel).pending ++ [m] }).note
        (.enqueued owner channel m)).routes o c).capacity = none := by
      intro o c
      rw [note_routes, setRoute_routes]
      split_ifs
      · exact hcap owner channel
      · exact hcap o c
    obtain ⟨herror, hroutes⟩ := ih h hcap'
    refine ⟨herror, fun o => ?_⟩
    rw [hroutes o, note_routes, setRoute_routes]
    by_cases ho : o = owner
    · subst ho
      simp [replicate_succ]
    · have ho' : ¬ owner = o := fun hh => ho hh.symm
      simp [ho, ho']

/-- A delay never moves a Message before the instant of its publish. -/
theorem le_delayPass (nowNs : Nat) (steps : List InterceptorStep) {visibleNs : Nat}
    (h : visibleNs ≤ uint64Max) : visibleNs ≤ delayPass nowNs steps visibleNs := by
  induction steps generalizing visibleNs with
  | nil => exact le_rfl
  | cons step rest ih =>
    simp only [delayPass]
    split_ifs
    · cases hafter : virtualTimeAfter visibleNs step.parameter with
      | none => exact h.trans (ih le_rfl)
      | some t =>
        obtain ⟨rfl, ht⟩ := (virtualTimeAfter_eq_some_iff h).mp hafter
        exact (Nat.le_add_right _ _).trans (ih ht)
    · exact ih h

theorem le_visibleNs_of_apply {plan plan' : InterceptorPlan} {nowNs visibleNs : Nat}
    {data bytes : Bytes} (hnow : nowNs ≤ uint64Max)
    (h : plan.apply nowNs data = (plan', .verdict ⟨false, visibleNs⟩ bytes)) :
    nowNs ≤ visibleNs := by
  simp only [InterceptorPlan.apply] at h
  split_ifs at h with hdrop hlate
  · simp at h
  · simp at h
  · cases hover : overridePass nowNs plan.steps data with
    | none => simp [hover] at h
    | some bytes' =>
      simp only [hover, Prod.mk.injEq, PlanAnswer.verdict.injEq, Verdict.mk.injEq, true_and] at h
      rw [← h.2.1]
      exact le_delayPass nowNs plan.steps hnow

/-! ## What an action leaves alone -/

section Intake

variable {owner channel : String}

theorem intake_note (r : Router) (e : Event) :
    (r.note e).intake owner channel = r.intake owner channel ++
      ((Event.onRoute owner channel e).bind intakeEvent).toList := by
  rw [intake, history_note, filterMap_append]
  congr 1
  cases h : Event.onRoute owner channel e with
  | none => rfl
  | some event => cases h' : intakeEvent event <;> simp [h']

/-- Offers to routes are no part of an intake. -/
theorem pushAll_intake {publisher n : String} {m : PendingMessage} {subscribers : List String}
    {r r' : Router} {error : Option String}
    (h : pushAll publisher n m subscribers r = (r', error)) :
    r'.intake owner channel = r.intake owner channel := by
  obtain ⟨events, htrace, hall⟩ := pushAll_trace h
  simp only [intake, history, htrace, filterMap_append]
  rw [append_right_eq_self, filterMap_eq_nil_iff]
  intro event hevent
  obtain ⟨e, he, hon⟩ := mem_filterMap.mp hevent
  obtain ⟨o, rfl | rfl⟩ := hall e he
  · simp only [Event.onRoute] at hon
    split_ifs at hon
    injection hon with hon
    rw [← hon]
    rfl
  · simp only [Event.onRoute] at hon
    split_ifs at hon
    injection hon with hon
    rw [← hon]
    rfl

end Intake

/-- A Message published now waits in every route. -/
theorem Open.not_visible {r : Router} (h : r.Open) {visibleNs : Nat} (hle : r.nowNs ≤ visibleNs)
    (o c : String) : visible (r.routes o c).latencyNs r.nowNs visibleNs = false :=
  not_visible_of_le (h.latency o c) hle

namespace Published

variable
    {owner channel : String} {data : Bytes} {r r' : Router}
    {error : Option String}

/-- Without capacities and feedthrough, a publish appends to the waiting part
of the routes of its Channel, once for every time its owner is listed. -/
theorem routes_of_open (hopen : r.Open) (h : Published owner channel data r r' error)
    (o c : String) :
    ∃ ms : List PendingMessage, r'.routes o c =
        { r.routes o c with pending := (r.routes o c).pending ++ ms } ∧
      ∀ m ∈ ms, visible (r.routes o c).latencyNs r.nowNs m.publishNs = false := by
  by_cases hc : c = channel
  · subst hc
    cases h with
    | delivered c₀ plan visibleNs bytes _ _ _ _ happly hpush =>
      have hroutes := (pushAll_open hpush hopen.capacity).2 o
      refine ⟨_, hroutes, fun m hm => ?_⟩
      rw [eq_of_mem_replicate hm]
      exact hopen.not_visible (le_visibleNs_of_apply hopen.now_le happly) o c
    | _ => exact ⟨[], by rw [append_nil] <;> rfl, by simp⟩
  · refine ⟨[], ?_, by simp⟩
    rw [((h.other hc).2.2 o).1]
    simp

theorem keeps_open (hopen : r.Open) (h : Published owner channel data r r' error) : r'.Open := by
  refine ⟨fun o c => ?_, fun o c => ?_, ?_⟩
  · obtain ⟨ms, hroute, _⟩ := h.routes_of_open hopen o c
    rw [hroute]
    exact hopen.capacity o c
  · obtain ⟨ms, hroute, _⟩ := h.routes_of_open hopen o c
    rw [hroute]
    exact hopen.latency o c
  · rw [h.nowNs_eq]
    exact hopen.now_le

theorem intake_eq (h : Published owner channel data r r' error) (o c : String) :
    r'.intake o c = r.intake o c := by
  cases h with
  | unknown _ _ => rfl
  | wrongSize _ _ _ _ => rfl
  | outOfRange _ _ _ _ _ _ => rfl
  | suppressed _ _ _ _ _ _ _ =>
    rw [intake, stamp_history]
    rfl
  | delivered _ _ _ _ _ _ _ _ _ hpush =>
    rw [pushAll_intake hpush, intake, stamp_history]
    rfl

/-- No owner sees a publish of the same Slot. -/
theorem sameOwner (hopen : r.Open) (h : Published owner channel data r r' error) (o : String) :
    SameOwner o r r' := by
  refine ⟨fun c => ?_, fun c => ?_, fun c => (h.intake_eq o c).symm⟩
  · obtain ⟨ms, hroute, _⟩ := h.routes_of_open hopen o c
    rw [hroute]
  · obtain ⟨ms, hroute, hms⟩ := h.routes_of_open hopen o c
    rw [readyContent, readyContent, hroute, h.nowNs_eq, (append_pending hms).1]

theorem sameChannel_other (h : Published owner channel data r r' error) (keep : String → Bool)
    {c : String} (hne : c ≠ channel) : SameChannel keep c r r' := by
  obtain ⟨hchannel, hrecorded, hroutes⟩ := h.other hne
  refine ⟨by rw [hchannel], hrecorded.symm, fun o _ => ?_⟩
  rw [waitingContent, waitingContent, (hroutes o).1, h.nowNs_eq]

end Published

namespace Took

variable {owner channel : String} {m : PendingMessage} {r r' : Router}

theorem static (h : Took owner channel m r r') (o c : String) :
    (r'.routes o c).capacity = (r.routes o c).capacity ∧
      (r'.routes o c).latencyNs = (r.routes o c).latencyNs := by
  by_cases hoc : o = owner ∧ c = channel
  · obtain ⟨rfl, rfl⟩ := hoc
    rw [h.self.1]
    exact ⟨rfl, rfl⟩
  · rw [(h.other hoc).1]
    exact ⟨rfl, rfl⟩

theorem keeps_open (hopen : r.Open) (h : Took owner channel m r r') : r'.Open := by
  refine ⟨fun o c => ?_, fun o c => ?_, ?_⟩
  · rw [(h.static o c).1]
    exact hopen.capacity o c
  · rw [(h.static o c).2]
    exact hopen.latency o c
  · rw [h.frame.1]
    exact hopen.now_le

/-- A take leaves the waiting parts alone. -/
theorem sameChannel (h : Took owner channel m r r') (keep : String → Bool) (c : String) :
    SameChannel keep c r r' := by
  obtain ⟨hnow, _, hchannels, hrecording⟩ := h.frame
  refine ⟨by rw [hchannels], by rw [recorded, recorded, hrecording], fun o _ => ?_⟩
  rw [waitingContent, waitingContent, hnow]
  by_cases hoc : o = owner ∧ c = channel
  · obtain ⟨rfl, rfl⟩ := hoc
    obtain ⟨rest, hready⟩ := h.ready
    rw [h.self.1, SubscriberRoute.waiting_pop hready]
  · rw [(h.other hoc).1]

theorem sameOwner_other (h : Took owner channel m r r') {o : String} (hne : o ≠ owner) :
    SameOwner o r r' := by
  refine ⟨fun c => (h.static o c).2.symm, fun c => ?_, fun c => ?_⟩
  · rw [readyContent, readyContent, h.frame.1, (h.other fun hh => hne hh.1).1]
  · rw [intake, intake, (h.other fun hh => hne hh.1).2]

end Took

/-! ## What an action is determined by -/

section Determined

variable {keep : String → Bool} {owner channel : String} {r r' r₁ : Router}

theorem stamp_recorded (r : Router) (channel : String) (c : ChannelState) (plan : InterceptorPlan)
    (data : Bytes) (outcome : Option Record) (n : String) :
    (r.stamp channel c plan data outcome).recorded n =
      r.recorded n ++ outcome.toList.filter fun record => record.channel = n := by
  rw [recorded, stamp_recording, filter_append]
  rfl

theorem SameChannel.stamp (h : SameChannel keep channel r r') {c c' : ChannelState}
    (hc : c.restrict keep = c'.restrict keep) (plan : InterceptorPlan) (data : Bytes)
    (outcome : Option Record) :
    SameChannel keep channel (r.stamp channel c plan data outcome)
      (r'.stamp channel c' plan data outcome) := by
  refine ⟨?_, ?_, fun o ho => ?_⟩
  · rw [stamp_channels, stamp_channels, if_pos rfl, if_pos rfl]
    exact congrArg (fun st => some (advanceChannel st plan outcome.isSome)) hc
  · rw [stamp_recorded, stamp_recorded, h.recorded]
  · exact h.waiting o ho

theorem Open.stamp (h : r.Open) (channel : String) (c : ChannelState) (plan : InterceptorPlan)
    (data : Bytes) (outcome : Option Record) : (r.stamp channel c plan data outcome).Open :=
  ⟨h.capacity, h.latency, h.now_le⟩

/-- Offering the same content to the same selected routes. -/
theorem SameChannel.pushAll (h : SameChannel keep channel r r') (hopen : r.Open) (hopen' : r'.Open)
    (hnow : r.nowNs = r'.nowNs) {m m' : PendingMessage} (hm : m.content = m'.content)
    (hle : r.nowNs ≤ m.publishNs) {subscribers subscribers' : List String}
    (hsubs : subscribers.filter keep = subscribers'.filter keep) {error : Option String}
    (hpush : Router.pushAll owner channel m subscribers r = (r₁, error)) :
    ∃ r₁', Router.pushAll owner channel m' subscribers' r' = (r₁', error) ∧
      SameChannel keep channel r₁ r₁' := by
  rcases hpush' : Router.pushAll owner channel m' subscribers' r' with ⟨r₁', error'⟩
  obtain ⟨rfl, hroutes⟩ := pushAll_open hpush hopen.capacity
  obtain ⟨rfl, hroutes'⟩ := pushAll_open hpush' hopen'.capacity
  obtain ⟨hn, _, hch, hrec⟩ := pushAll_frame hpush
  obtain ⟨hn', _, hch', hrec'⟩ := pushAll_frame hpush'
  have hle' : r'.nowNs ≤ m'.publishNs := by
    have : m.publishNs = m'.publishNs := congrArg Prod.fst hm
    omega
  refine ⟨r₁', rfl, ?_, ?_, fun o ho => ?_⟩
  · rw [hch, hch', h.state]
  · rw [Router.recorded, Router.recorded, hrec, hrec']
    exact h.recorded
  · have hcount : subscribers.count o = subscribers'.count o := by
      rw [← count_filter ho, hsubs, count_filter ho]
    rw [waitingContent, waitingContent, hroutes o, hroutes' o, hn, hn',
      (append_pending fun x hx => ?_).2, (append_pending fun x hx => ?_).2,
      map_append, map_append, map_replicate, map_replicate, hm,
      hcount]
    · exact congrArg (· ++ _) (h.waiting o ho)
    · rw [eq_of_mem_replicate hx]
      exact hopen'.not_visible hle' o channel
    · rw [eq_of_mem_replicate hx]
      exact hopen.not_visible hle o channel

/-- What a publish does to its Channel depends on that Channel only. -/
theorem publish_determined (hopen : r.Open) (hopen' : r'.Open) (hnow : r.nowNs = r'.nowNs)
    (h : SameChannel keep channel r r') {data : Bytes} {error : Option String}
    (hpub : r.publish owner channel data = (r₁, error)) :
    ∃ r₁', r'.publish owner channel data = (r₁', error) ∧ SameChannel keep channel r₁ r₁' := by
  have hstate := h.state
  cases hc : r.channels channel with
  | none =>
    have hc' : r'.channels channel = none := by simpa [hc] using hstate.symm
    simp only [publish, hc] at hpub
    obtain ⟨rfl, rfl⟩ := Prod.mk.inj hpub
    exact ⟨r', by simp only [publish, hc'], h⟩
  | some c =>
    obtain ⟨c', hc', hcc⟩ : ∃ c', r'.channels channel = some c' ∧
        c'.restrict keep = c.restrict keep := by
      rw [hc] at hstate
      obtain ⟨c', hc', hcc⟩ := Option.map_eq_some_iff.mp hstate.symm
      exact ⟨c', hc', hcc⟩
    obtain ⟨hschema, hsize, hseq, hplan, hsubs⟩ := ChannelState.restrict_inj hcc
    simp only [publish, hc] at hpub
    simp only [publish, hc', hsize, hschema, hseq, hplan, ← hnow]
    by_cases hlen : data.length ≠ c.byteSize
    · rw [if_pos hlen] at hpub
      obtain ⟨rfl, rfl⟩ := Prod.mk.inj hpub
      exact ⟨r', by rw [if_pos hlen], h⟩
    · rw [if_neg hlen] at hpub ⊢
      rcases happly : c.plan.apply r.nowNs data with ⟨plan, answer⟩
      simp only [happly] at hpub
      cases answer with
      | outOfRange =>
        obtain ⟨rfl, rfl⟩ := Prod.mk.inj hpub
        refine ⟨_, rfl, ?_, h.recorded, h.waiting⟩
        rw [setChannel_channels, setChannel_channels, if_pos rfl, if_pos rfl]
        exact congrArg (fun st => some (advanceChannel st plan false)) hcc.symm
      | verdict verdict bytes =>
        obtain ⟨suppressed, visibleNs⟩ := verdict
        cases suppressed with
        | true =>
          obtain ⟨rfl, rfl⟩ := Prod.mk.inj hpub
          exact ⟨_, rfl, h.stamp hcc.symm plan data none⟩
        | false =>
          have hle := le_visibleNs_of_apply hopen.now_le happly
          have hcontent : (⟨visibleNs, r.globalSeq, bytes⟩ : PendingMessage).content =
                (⟨visibleNs, r'.globalSeq, bytes⟩ : PendingMessage).content := rfl
          exact (h.stamp hcc.symm plan data _).pushAll (hopen.stamp ..)
            (hopen'.stamp ..) hnow hcontent hle hsubs.symm hpub

/-- What a take gives back, and what it leaves, depends on the ready part of
the owner's route only. -/
theorem take_determined (h : SameOwner owner r r') (channel : String) :
    (r.take owner channel = none ∧ r'.take owner channel = none) ∨
      ∃ m m' r₁ r₁', r.take owner channel = some (m, r₁) ∧ r'.take owner channel = some (m', r₁') ∧
        m.content = m'.content ∧ SameOwner owner r₁ r₁' := by
  have hready := h.ready channel
  cases hr : (r.routes owner channel).ready r.nowNs with
  | nil =>
    have hr' : (r'.routes owner channel).ready r'.nowNs = [] := by
      simpa [readyContent, hr] using hready.symm
    exact .inl ⟨take_eq_none_iff_ready.mpr hr, take_eq_none_iff_ready.mpr hr'⟩
  | cons m rest =>
    obtain ⟨m', rest', hr'⟩ : ∃ m' rest',
        (r'.routes owner channel).ready r'.nowNs = m' :: rest' := by
      apply exists_cons_of_ne_nil
      intro hnil
      simp [readyContent, hr, hnil] at hready
    have hcontent : m.content = m'.content := by
      have := hready
      simp only [readyContent, hr, hr', map_cons, cons.injEq] at this
      exact this.1
    have htake := take_of_ready hr
    have htake' := take_of_ready hr'
    refine .inr ⟨m, m', _, _, htake, htake', hcontent, ?_⟩
    have htook := take_spec htake
    have htook' := take_spec htake'
    refine ⟨fun c => ?_, fun c => ?_, fun c => ?_⟩
    · rw [(htook.static owner c).2, (htook'.static owner c).2]
      exact h.latency c
    · have h1 := congrArg (map PendingMessage.content) (htook.ready_after c)
      have h2 := congrArg (map PendingMessage.content) (htook'.ready_after c)
      have h3 := h.ready c
      simp only [readyContent] at h3 ⊢
      rw [h1, h2] at h3
      by_cases hc : c = channel
      · subst hc
        simp only [if_true, map_cons, singleton_append, cons.injEq] at h3
        exact h3.2
      · simpa [hc] using h3
    · by_cases hc : c = channel
      · subst hc
        rw [intake, intake, htook.self.2, htook'.self.2, filterMap_append]
        have hold := h.intake c
        rw [intake, intake] at hold
        rw [hold]
        simp [intakeEvent, hcontent]
      · rw [intake, intake, (htook.other fun hh => hc hh.2).2, (htook'.other fun hh => hc hh.2).2]
        exact h.intake c

end Determined

end Router

end SilFormal.Kernel
