import SilFormal.Library.Fifo
import SilFormal.Kernel.Router

/-!
# What one routing operation does

Specification lemmas for `publish`, `take` and the merge loop.  Every later
proof uses these and never unfolds the operations: which parts of the routing
state an operation leaves alone, and what it does to one Channel and to one
route together with the history of that route.
-/

namespace SilFormal.Kernel

open List

/-- The part of the history that concerns one route: what was offered to it,
the activations of its owner, and what the owner took. -/
abbrev RouteEvent := Fifo.Event PendingMessage

/-- An event as the route of `owner` on `channel` sees it. -/
def Event.onRoute (owner channel : String) : Event → Option RouteEvent
  | .activation o ns => if o = owner then some (.activated ns) else none
  | .took o c m => if o = owner ∧ c = channel then some (.took m) else none
  | .published _ _ _ _ _ => none
  | .enqueued o c m => if o = owner ∧ c = channel then some (.accepted m) else none
  | .refused o c m => if o = owner ∧ c = channel then some (.refused m) else none

namespace Router

/-- The history of one route. -/
def history (r : Router) (owner channel : String) : List RouteEvent :=
  r.trace.filterMap (Event.onRoute owner channel)

/-- The Messages of one Channel in the Recording, in stored order. -/
def recorded (r : Router) (channel : String) : List Record :=
  r.recording.filter fun record => record.channel = channel

section Fields

variable (r : Router)

@[simp] theorem note_nowNs (e : Event) : (r.note e).nowNs = r.nowNs := rfl
@[simp] theorem note_routes (e : Event) : (r.note e).routes = r.routes := rfl
@[simp] theorem note_trace (e : Event) : (r.note e).trace = r.trace ++ [e] := rfl

@[simp] theorem setRoute_trace (o c : String) (q : SubscriberRoute) :
    (r.setRoute o c q).trace = r.trace := rfl
theorem setRoute_routes (o c : String) (q : SubscriberRoute) (o' c' : String) :
    (r.setRoute o c q).routes o' c' = if o' = o ∧ c' = c then q else r.routes o' c' := rfl

theorem setChannel_channels (n : String) (c : ChannelState) (n' : String) :
    (r.setChannel n c).channels n' = if n' = n then some c else r.channels n' := rfl

theorem history_note (e : Event) (o c : String) : (r.note e).history o c =
      r.history o c ++ (Event.onRoute o c e).toList := by
  unfold history
  cases h : Event.onRoute o c e <;> simp [h]

theorem history_of_trace {r' : Router} (h : r'.trace = r.trace) (o c : String) :
    r'.history o c = r.history o c := by
  unfold history
  rw [h]

end Fields

/-! ## Offering a Message to the routes of its Channel -/

/-- One route before and after a Message was offered to it. -/
structure Offered (m : PendingMessage) (q q' : SubscriberRoute) (h h' : List RouteEvent) :
    Prop where
  route : q' = (q.push m).2
  event : h' = h ++ [if q.full then .refused m else .accepted m]

/-- A route with room takes a Message. -/
def enqueue (r : Router) (owner channel : String) (m : PendingMessage) : Router :=
  (r.setRoute owner channel
    { r.routes owner channel with pending := (r.routes owner channel).pending ++ [m] }).note
    (.enqueued owner channel m)

theorem pushAll_cons_of_room {publisher channel owner : String} {m : PendingMessage}
    {rest : List String} {r : Router} (h : (r.routes owner channel).full = false) :
    pushAll publisher channel m (owner :: rest) r =
      pushAll publisher channel m rest (r.enqueue owner channel m) := by
  simp only [pushAll, SubscriberRoute.push_of_not_full h, enqueue]

/-- A full route refuses the Message, and the loop goes on or leaves. -/
theorem pushAll_cons_of_full (publisher : String) {channel owner : String} (m : PendingMessage)
    (rest : List String) {r : Router} (h : (r.routes owner channel).full = true) :
    pushAll publisher channel m (owner :: rest) r =
        pushAll publisher channel m rest (r.note (.refused owner channel m)) ∨
      ∃ text, pushAll publisher channel m (owner :: rest) r =
        (r.note (.refused owner channel m), some text) := by
  cases hpolicy : (r.routes owner channel).overflow with
  | dropNewest =>
    left
    simp [pushAll, SubscriberRoute.push, h, hpolicy]
  | fail =>
    right
    refine ⟨overflowText publisher channel owner (r.routes owner channel), ?_⟩
    simp only [pushAll, SubscriberRoute.push, h, hpolicy, if_true]

section PushAll

variable
    {publisher channel : String} {m : PendingMessage}
    {subscribers : List String} {r r' : Router} {error : Option String} {o : String}

/-- One route of the loop: it takes the Message, or it is full, and the loop goes
on or ends. -/
theorem pushAll_cons_cases {owner : String} {rest : List String}
    (h : pushAll publisher channel m (owner :: rest) r = (r', error)) :
    ((r.routes owner channel).full = false ∧
        pushAll publisher channel m rest (r.enqueue owner channel m) = (r', error)) ∨
      (r.routes owner channel).full = true ∧
        (pushAll publisher channel m rest (r.note (.refused owner channel m)) = (r', error) ∨
          r' = r.note (.refused owner channel m) ∧ error ≠ none) := by
  cases hfull : (r.routes owner channel).full with
  | false => exact .inl ⟨rfl, (pushAll_cons_of_room hfull).symm.trans h⟩
  | true =>
    rcases pushAll_cons_of_full publisher m rest hfull with hrest | ⟨text, hleft⟩
    · exact .inr ⟨rfl, .inl (hrest.symm.trans h)⟩
    · obtain ⟨rfl, rfl⟩ := Prod.mk.inj (hleft.symm.trans h)
      exact .inr ⟨rfl, .inr ⟨rfl, Option.some_ne_none text⟩⟩

theorem pushAll_frame (h : pushAll publisher channel m subscribers r = (r', error)) :
    r'.nowNs = r.nowNs ∧ r'.globalSeq = r.globalSeq ∧
      r'.channels = r.channels ∧ r'.recording = r.recording := by
  induction subscribers generalizing r with
  | nil =>
    obtain ⟨rfl, rfl⟩ := Prod.mk.inj h
    exact ⟨rfl, rfl, rfl, rfl⟩
  | cons owner rest ih =>
    rcases pushAll_cons_cases h with ⟨-, h⟩ | ⟨-, h | ⟨rfl, -⟩⟩
    · have hframe := ih h
      exact hframe
    · have hframe := ih h
      exact hframe
    · exact ⟨rfl, rfl, rfl, rfl⟩

/-- The trace only grows, by events about the routes of the Channel. -/
theorem pushAll_trace (h : pushAll publisher channel m subscribers r = (r', error)) :
    ∃ events, r'.trace = r.trace ++ events ∧ ∀ e ∈ events, ∃ o,
        e = .enqueued o channel m ∨ e = .refused o channel m := by
  induction subscribers generalizing r with
  | nil =>
    obtain ⟨rfl, rfl⟩ := Prod.mk.inj h
    exact ⟨[], by simp, by simp⟩
  | cons owner rest ih =>
    rcases pushAll_cons_cases h with ⟨-, h⟩ | ⟨-, h | ⟨rfl, -⟩⟩
    · obtain ⟨events, htrace, hall⟩ := ih h
      exact ⟨.enqueued owner channel m :: events, by simp [htrace, enqueue],
        forall_mem_cons.mpr ⟨⟨owner, .inl rfl⟩, hall⟩⟩
    · obtain ⟨events, htrace, hall⟩ := ih h
      exact ⟨.refused owner channel m :: events, by simp [htrace],
        forall_mem_cons.mpr ⟨⟨owner, .inr rfl⟩, hall⟩⟩
    · exact ⟨[.refused owner channel m], rfl, by simp⟩

/-- Serving one route does not concern another one. -/
theorem note_offer_other (r : Router) {owner c : String} (hne : ¬ (o = owner ∧ c = channel)) :
    (r.enqueue owner channel m).routes o c = r.routes o c ∧
      (r.enqueue owner channel m).history o c = r.history o c ∧
      (r.note (.refused owner channel m)).history o c = r.history o c := by
  have hne' : ¬ (owner = o ∧ channel = c) := fun hh => hne ⟨hh.1.symm, hh.2.symm⟩
  refine ⟨by simp [enqueue, setRoute_routes, hne], ?_, ?_⟩
  · rw [enqueue, history_note, history_of_trace r (by simp)]
    simp [Event.onRoute, hne']
  · rw [history_note]
    simp [Event.onRoute, hne']

/-- Routes of other Channels, and owners that are not served, see nothing. -/
theorem pushAll_other (h : pushAll publisher channel m subscribers r = (r', error)) {c : String}
    (hne : c ≠ channel ∨ o ∉ subscribers) :
    r'.routes o c = r.routes o c ∧ r'.history o c = r.history o c := by
  induction subscribers generalizing r with
  | nil =>
    obtain ⟨rfl, rfl⟩ := Prod.mk.inj h
    exact ⟨rfl, rfl⟩
  | cons owner rest ih =>
    have hhead : ¬ (o = owner ∧ c = channel) := by
      rintro ⟨rfl, rfl⟩
      rcases hne with hne | hne
      · exact hne rfl
      · exact hne (by simp)
    have hrest : c ≠ channel ∨ o ∉ rest :=
      hne.imp_right fun hmem hm => hmem (mem_cons_of_mem _ hm)
    obtain ⟨hr, hh, hh'⟩ := note_offer_other r hhead
    rcases pushAll_cons_cases h with ⟨-, h⟩ | ⟨-, h | ⟨rfl, -⟩⟩
    · obtain ⟨h1, h2⟩ := ih h hrest
      exact ⟨h1.trans hr, h2.trans hh⟩
    · obtain ⟨h1, h2⟩ := ih h hrest
      exact ⟨h1, h2.trans hh'⟩
    · exact ⟨rfl, hh'⟩

/-- A route of the Channel is either not reached by the loop or offered the
Message exactly once; without an overflow every route is reached. -/
theorem pushAll_offered (h : pushAll publisher channel m subscribers r = (r', error))
    (hnodup : subscribers.Nodup) (ho : o ∈ subscribers) :
    Offered m (r.routes o channel) (r'.routes o channel)
        (r.history o channel) (r'.history o channel) ∨
      (error ≠ none ∧ r'.routes o channel = r.routes o channel ∧
        r'.history o channel = r.history o channel) := by
  induction subscribers generalizing r with
  | nil => simp at ho
  | cons owner rest ih =>
    obtain ⟨hnot, hrest⟩ := nodup_cons.mp hnodup
    by_cases howner : o = owner
    · -- the loop stands on this route: later iterations do not reach it
      subst howner
      left
      have hrefused : (r.note (.refused o channel m)).history o channel =
          r.history o channel ++ [.refused m] := by
        rw [history_note]
        simp [Event.onRoute]
      rcases pushAll_cons_cases h with ⟨hfull, h⟩ | ⟨hfull, h | ⟨rfl, -⟩⟩
      · obtain ⟨h1, h2⟩ := pushAll_other h (.inr hnot)
        refine ⟨?_, ?_⟩
        · rw [h1]
          simp [enqueue, setRoute_routes, SubscriberRoute.push_of_not_full hfull]
        · rw [h2, enqueue, history_note, history_of_trace r (by simp)]
          simp [Event.onRoute, hfull]
      · obtain ⟨h1, h2⟩ := pushAll_other h (.inr hnot)
        exact ⟨h1.trans (SubscriberRoute.push_of_full hfull m).1.symm,
          by rw [h2, hrefused, if_pos hfull]⟩
      · exact ⟨(SubscriberRoute.push_of_full hfull m).1.symm, by rw [hrefused, if_pos hfull]⟩
    · have ho' : o ∈ rest := (mem_cons.mp ho).resolve_left howner
      obtain ⟨hr, hh, hh'⟩ := note_offer_other r
        fun hh => howner hh.1
      rcases pushAll_cons_cases h with ⟨-, h⟩ | ⟨-, h | ⟨rfl, herror⟩⟩
      · have := ih h hrest ho'
        rwa [hr, hh] at this
      · have := ih h hrest ho'
        rwa [hh'] at this
      · exact .inr ⟨herror, rfl, hh'⟩

end PushAll

/-! ## Publishing -/

section Stamp

variable
    (r : Router) (channel : String) (c : ChannelState)
    (plan : InterceptorPlan) (data : Bytes) (outcome : Option Record)

@[simp] theorem stamp_routes : (r.stamp channel c plan data outcome).routes = r.routes := rfl
@[simp] theorem stamp_recording :
    (r.stamp channel c plan data outcome).recording = r.recording ++ outcome.toList := rfl
@[simp] theorem stamp_trace : (r.stamp channel c plan data outcome).trace =
      r.trace ++ [.published channel r.nowNs data r.globalSeq outcome] := rfl
theorem stamp_channels (n : String) : (r.stamp channel c plan data outcome).channels n =
      if n = channel then some (advanceChannel c plan outcome.isSome)
      else r.channels n := rfl
@[simp] theorem stamp_history (o n : String) :
    (r.stamp channel c plan data outcome).history o n = r.history o n := by
  simp [history, Event.onRoute]

end Stamp

/-- Everything `publish` can do. -/
inductive Published (owner channel : String) (data : Bytes) (r : Router) :
    Router → Option String → Prop
  | unknown (text : String) : r.channels channel = none →
      Published owner channel data r r (some text)
  | wrongSize (c : ChannelState) (text : String) : r.channels channel = some c →
      data.length ≠ c.byteSize →
      Published owner channel data r r (some text)
  | outOfRange (c : ChannelState) (plan : InterceptorPlan) (text : String) :
      r.channels channel = some c →
      data.length = c.byteSize →
      c.plan.apply r.nowNs data = (plan, .outOfRange) →
      Published owner channel data r
        (r.setChannel channel (advanceChannel c plan false)) (some text)
  | suppressed
      (c : ChannelState) (plan : InterceptorPlan) (visibleNs : Nat)
      (bytes : Bytes) :
      r.channels channel = some c →
      data.length = c.byteSize →
      c.plan.apply r.nowNs data = (plan, .verdict ⟨true, visibleNs⟩ bytes) →
      Published owner channel data r (r.stamp channel c plan data none) none
  | delivered
      (c : ChannelState) (plan : InterceptorPlan) (visibleNs : Nat)
      (bytes : Bytes) (r' : Router) (error : Option String) :
      r.channels channel = some c →
      data.length = c.byteSize →
      c.plan.apply r.nowNs data = (plan, .verdict ⟨false, visibleNs⟩ bytes) →
      pushAll owner channel ⟨visibleNs, r.globalSeq, bytes⟩ c.subscribers
        (r.stamp channel c plan data
          (some ⟨channel, visibleNs, c.nextSeq, bytes⟩)) = (r', error) →
      Published owner channel data r r' error

theorem publish_spec {owner channel : String} {data : Bytes} {r r' : Router} {error : Option String}
    (h : r.publish owner channel data = (r', error)) : Published owner channel data r r' error := by
  unfold publish at h
  cases hc : r.channels channel with
  | none =>
    simp only [hc] at h
    obtain ⟨rfl, rfl⟩ := Prod.mk.inj h
    exact .unknown _ hc
  | some c =>
    simp only [hc] at h
    split_ifs at h with hsize
    · obtain ⟨rfl, rfl⟩ := Prod.mk.inj h
      exact .wrongSize c _ hc hsize
    · have hsize' : data.length = c.byteSize := not_not.mp hsize
      rcases happly : c.plan.apply r.nowNs data with ⟨plan, answer⟩
      rw [happly] at h
      cases answer with
      | outOfRange =>
        obtain ⟨rfl, rfl⟩ := Prod.mk.inj h
        exact .outOfRange c plan _ hc hsize' happly
      | verdict verdict bytes =>
        obtain ⟨suppressed, visibleNs⟩ := verdict
        cases suppressed with
        | true =>
          obtain ⟨rfl, rfl⟩ := Prod.mk.inj h
          exact .suppressed c plan visibleNs bytes hc hsize' happly
        | false => exact .delivered c plan visibleNs bytes _ _ hc hsize' happly h

section Verdicts

variable
    {channel : String} {data : Bytes} {r : Router} {c : ChannelState}
    {plan : InterceptorPlan} {visibleNs : Nat} {bytes : Bytes}

theorem publish_of_delivered (owner : String) (hc : r.channels channel = some c)
    (hsize : data.length = c.byteSize)
    (happly : c.plan.apply r.nowNs data = (plan, .verdict ⟨false, visibleNs⟩ bytes)) :
    r.publish owner channel data =
      pushAll owner channel ⟨visibleNs, r.globalSeq, bytes⟩ c.subscribers
        (r.stamp channel c plan data
          (some ⟨channel, visibleNs, c.nextSeq, bytes⟩)) := by
  simp [publish, hc, hsize, happly]

end Verdicts

namespace Published

variable
    {owner channel : String} {data : Bytes} {r r' : Router}
    {error : Option String}

theorem nowNs_eq (h : Published owner channel data r r' error) : r'.nowNs = r.nowNs := by
  cases h with
  | delivered c plan visibleNs bytes _ _ _ _ _ hpush => exact (pushAll_frame hpush).1
  | _ => rfl

/-- A publish concerns its own Channel only. -/
theorem other (h : Published owner channel data r r' error) {c : String} (hne : c ≠ channel) :
    r'.channels c = r.channels c ∧ r'.recorded c = r.recorded c ∧
      ∀ o, r'.routes o c = r.routes o c ∧ r'.history o c = r.history o c := by
  cases h with
  | unknown _ _ => exact ⟨rfl, rfl, fun _ => ⟨rfl, rfl⟩⟩
  | wrongSize _ _ _ _ => exact ⟨rfl, rfl, fun _ => ⟨rfl, rfl⟩⟩
  | outOfRange c₀ plan _ _ _ _ =>
    refine ⟨?_, rfl, fun _ => ⟨rfl, rfl⟩⟩
    simp [setChannel_channels, hne]
  | suppressed c₀ plan visibleNs bytes _ _ _ =>
    refine ⟨?_, ?_, fun _ => ⟨rfl, stamp_history _ _ _ _ _ _ _ _⟩⟩
    · simp [stamp_channels, hne]
    · simp [recorded]
  | delivered c₀ plan visibleNs bytes _ _ _ _ _ hpush =>
    obtain ⟨_, _, hchannels, hrec⟩ := pushAll_frame hpush
    refine ⟨?_, ?_, ?_⟩
    · rw [hchannels, stamp_channels, if_neg hne]
    · have hne' : ¬ channel = c := fun h => hne h.symm
      unfold recorded
      rw [hrec]
      simp [hne']
    · intro o
      obtain ⟨hroutes, hhistory⟩ := pushAll_other hpush (.inl hne)
      exact ⟨hroutes, hhistory.trans (stamp_history _ _ _ _ _ _ _ _)⟩

end Published

/-! ## Taking -/

/-- A take pops the front of a route that has something ready. -/
structure Took (owner channel : String) (m : PendingMessage) (r r' : Router) :
    Prop where
  ready : ∃ rest, (r.routes owner channel).ready r.nowNs = m :: rest
  eq : r' = (r.setRoute owner channel (r.routes owner channel).pop).note
    (.took owner channel m)

theorem take_spec {owner channel : String} {m : PendingMessage} {r r' : Router}
    (h : r.take owner channel = some (m, r')) : Took owner channel m r r' := by
  unfold take at h
  cases ht : (r.routes owner channel).take r.nowNs with
  | none => simp [ht] at h
  | some out =>
    obtain ⟨m', route⟩ := out
    simp only [ht] at h
    obtain ⟨rfl, rfl⟩ := h
    obtain ⟨rest, hready, rfl⟩ := SubscriberRoute.take_eq_some_iff.mp ht
    exact ⟨⟨rest, hready⟩, rfl⟩

theorem take_eq_none_iff_ready {owner channel : String} {r : Router} : r.take owner channel = none ↔
      (r.routes owner channel).ready r.nowNs = [] := by
  rw [← SubscriberRoute.take_eq_none_iff]
  unfold take
  cases h : (r.routes owner channel).take r.nowNs <;> simp

theorem take_of_ready {owner channel : String} {r : Router} {m : PendingMessage}
    {rest : List PendingMessage} (h : (r.routes owner channel).ready r.nowNs = m :: rest) :
    r.take owner channel = some (m, (r.setRoute owner channel (r.routes owner channel).pop).note
        (.took owner channel m)) := by
  have ht := SubscriberRoute.take_eq_some_iff.mpr ⟨rest, h, rfl⟩
  unfold take
  rw [ht]

namespace Took

variable {owner channel : String} {m : PendingMessage} {r r' : Router}

theorem frame (h : Took owner channel m r r') : r'.nowNs = r.nowNs ∧ r'.globalSeq = r.globalSeq ∧
      r'.channels = r.channels ∧ r'.recording = r.recording := by
  obtain ⟨_, rfl⟩ := h
  exact ⟨rfl, rfl, rfl, rfl⟩

/-- The route itself loses its front and remembers the take. -/
theorem self (h : Took owner channel m r r') :
    r'.routes owner channel = (r.routes owner channel).pop ∧
      r'.history owner channel = r.history owner channel ++ [.took m] := by
  obtain ⟨_, rfl⟩ := h
  refine ⟨by simp [setRoute_routes], ?_⟩
  rw [history_note, history_of_trace r (by simp)]
  simp [Event.onRoute]

theorem other (h : Took owner channel m r r') {o c : String} (hne : ¬ (o = owner ∧ c = channel)) :
    r'.routes o c = r.routes o c ∧ r'.history o c = r.history o c := by
  obtain ⟨_, rfl⟩ := h
  refine ⟨by simp [setRoute_routes, hne], ?_⟩
  have hne' : ¬ (owner = o ∧ channel = c) := fun hh => hne ⟨hh.1.symm, hh.2.symm⟩
  rw [history_note, history_of_trace r (by simp)]
  simp [Event.onRoute, hne']

end Took

/-! ## The merge loop -/

section Best

variable (owner : String) (r : Router) {b : Option String} {inputs : List String}

theorem better_of_not_visible {channel : String}
    (hv : (r.routes owner channel).visibleAt r.nowNs = false) : r.better owner b channel = b := by
  simp [better, hv]

/-- On a visible input the choice is that input or the one before it. -/
theorem better_of_visible {channel : String}
    (hv : (r.routes owner channel).visibleAt r.nowNs = true) :
    ∃ b', r.better owner b channel = some b' ∧ (b' = channel ∨ b = some b') := by
  cases b with
  | none => exact ⟨channel, by simp [better, hv], .inl rfl⟩
  | some b =>
    by_cases hlt : (r.routes owner channel).frontSeq.getD 0 < (r.routes owner b).frontSeq.getD 0
    · exact ⟨channel, by simp [better, hv, hlt], .inl rfl⟩
    · exact ⟨b, by simp [better, hlt], .inr rfl⟩

theorem best_fold_none (h : inputs.foldl (r.better owner) b = none) : b = none ∧
      ∀ c ∈ inputs, (r.routes owner c).visibleAt r.nowNs = false := by
  induction inputs generalizing b with
  | nil => exact ⟨h, by simp⟩
  | cons channel rest ih =>
    obtain ⟨hb, hrest⟩ := ih h
    cases hv : (r.routes owner channel).visibleAt r.nowNs with
    | true =>
      obtain ⟨b', hb', _⟩ := better_of_visible owner r hv
      rw [hb'] at hb
      cases hb
    | false =>
      rw [better_of_not_visible owner r hv] at hb
      refine ⟨hb, ?_⟩
      intro c hc
      rcases mem_cons.mp hc with rfl | hc
      · exact hv
      · exact hrest c hc

theorem best_fold_some {x : String}
    (hb : ∀ y, b = some y → (r.routes owner y).visibleAt r.nowNs = true)
    (h : inputs.foldl (r.better owner) b = some x) :
    (x ∈ inputs ∨ b = some x) ∧ (r.routes owner x).visibleAt r.nowNs = true := by
  induction inputs generalizing b with
  | nil => exact ⟨.inr h, hb x h⟩
  | cons channel rest ih =>
    rw [foldl_cons] at h
    cases hv : (r.routes owner channel).visibleAt r.nowNs with
    | true =>
      obtain ⟨b', hb', hor⟩ := better_of_visible owner r hv
      rw [hb'] at h
      have hvis : ∀ y, some b' = some y → (r.routes owner y).visibleAt r.nowNs = true := by
        intro y hy
        injection hy with hy
        subst hy
        rcases hor with rfl | hor
        · exact hv
        · exact hb _ hor
      obtain ⟨hmem, hx⟩ := ih hvis h
      refine ⟨?_, hx⟩
      rcases hmem with hmem | hmem
      · exact .inl (mem_cons_of_mem _ hmem)
      · injection hmem with hmem
        subst hmem
        rcases hor with rfl | hor
        · exact .inl (by simp)
        · exact .inr hor
    | false =>
      rw [better_of_not_visible owner r hv] at h
      obtain ⟨hmem, hx⟩ := ih hb h
      exact ⟨hmem.imp_left (mem_cons_of_mem _), hx⟩

theorem best_eq_none (h : r.best owner inputs = none) {c : String} (hc : c ∈ inputs) :
    (r.routes owner c).ready r.nowNs = [] := by
  have hv := (best_fold_none owner r h).2 c hc
  by_contra hne
  rw [(SubscriberRoute.visibleAt_iff_ready _ _).mpr hne] at hv
  cases hv

theorem best_eq_some {c : String} (h : r.best owner inputs = some c) :
    c ∈ inputs ∧ (r.routes owner c).ready r.nowNs ≠ [] := by
  obtain ⟨hmem, hv⟩ := best_fold_some owner r (by simp) h
  refine ⟨?_, (SubscriberRoute.visibleAt_iff_ready _ _).mp hv⟩
  rcases hmem with hmem | hmem
  · exact hmem
  · cases hmem

end Best

/-- The number of Messages the merge loop can still take. -/
def readyCount (owner : String) (inputs : List String) (r : Router) : Nat :=
  (inputs.map fun c => ((r.routes owner c).ready r.nowNs).length).sum

theorem readyCount_le_mergeFuel (owner : String) (inputs : List String) (r : Router) :
    r.readyCount owner inputs ≤ r.mergeFuel owner inputs := by
  apply sum_le_sum
  intro c _
  exact SubscriberRoute.ready_length_le_depth _ _

/-- The ready Messages of one route after a take by its owner. -/
theorem Took.ready_after {owner channel : String} {m : PendingMessage} {r r' : Router}
    (h : Took owner channel m r r') (c : String) :
    (r.routes owner c).ready r.nowNs = (if c = channel then [m] else []) ++
        (r'.routes owner c).ready r'.nowNs := by
  obtain ⟨rest, hready⟩ := h.ready
  rw [h.frame.1]
  by_cases hc : c = channel
  · subst hc
    rw [h.self.1, SubscriberRoute.ready_pop hready, if_pos rfl, hready]
    rfl
  · rw [(h.other fun hh => hc hh.2).1, if_neg hc]
    rfl

theorem Took.readyCount_lt {owner channel : String} {m : PendingMessage} {r r' : Router}
    (h : Took owner channel m r r') {inputs : List String} (hc : channel ∈ inputs) :
    r'.readyCount owner inputs < r.readyCount owner inputs := by
  apply sum_lt_sum
  · intro c _
    rw [h.ready_after c, length_append]
    omega
  · refine ⟨channel, hc, ?_⟩
    rw [h.ready_after channel]
    simp

/-- The effect of draining a set of inputs: every route gives back what is
ready on it, per Channel in queue order. -/
structure Drained (owner : String) (inputs : List String) (r : Router) (taken : List StepInput)
    (r' : Router) : Prop where
  route : ∀ c ∈ inputs, r'.routes owner c = (r.routes owner c).drained r.nowNs
  taken_eq : ∀ c ∈ inputs, taken.filter (fun i => i.channel = c) =
      ((r.routes owner c).ready r.nowNs).map fun m => ⟨c, m.publishNs, m.bytes⟩
  history : ∀ c ∈ inputs, r'.history owner c =
      r.history owner c ++ ((r.routes owner c).ready r.nowNs).map .took
  other : ∀ c, c ∉ inputs → taken.filter (fun i => i.channel = c) = [] ∧
      r'.routes owner c = r.routes owner c ∧ r'.history owner c = r.history owner c
  frame : r'.nowNs = r.nowNs ∧ r'.channels = r.channels

theorem merge_drained (owner : String) (inputs : List String) (fuel : Nat) (r : Router)
    (hfuel : r.readyCount owner inputs ≤ fuel) :
    Drained owner inputs r
      (merge owner inputs fuel r).1 (merge owner inputs fuel r).2 := by
  -- what holds when nothing is ready any more
  have hnil : ∀ r : Router, (∀ c ∈ inputs, (r.routes owner c).ready r.nowNs = []) →
      Drained owner inputs r [] r := by
    intro r hready
    refine ⟨fun c hc => ?_, fun c hc => ?_, fun c hc => ?_, fun c _ => ⟨rfl, rfl, rfl⟩, rfl, rfl⟩
    · rw [SubscriberRoute.drained_of_ready_nil (hready c hc)]
    · simp [hready c hc]
    · simp [hready c hc]
  induction fuel generalizing r with
  | zero =>
    apply hnil
    intro c hc
    have hle := single_le_sum (by simp) _
      (mem_map_of_mem (f := fun c => ((r.routes owner c).ready r.nowNs).length) hc)
    have hzero : ((r.routes owner c).ready r.nowNs).length = 0 := by
      have : ((r.routes owner c).ready r.nowNs).length ≤ r.readyCount owner inputs := hle
      omega
    exact length_eq_zero_iff.mp hzero
  | succ fuel ih =>
    unfold merge
    cases hbest : r.best owner inputs with
    | none => exact hnil r fun c hc => best_eq_none owner r hbest hc
    | some channel =>
      obtain ⟨hmem, hne⟩ := best_eq_some owner r hbest
      obtain ⟨m, rest, hready⟩ := exists_cons_of_ne_nil hne
      have htake := take_of_ready hready
      simp only [htake]
      generalize hr' : (r.setRoute owner channel (r.routes owner channel).pop).note
        (.took owner channel m) = r'
      rw [hr'] at htake
      have htook := take_spec htake
      have hlt := htook.readyCount_lt hmem
      obtain ⟨hroute, htaken, hhist, hother, hnow, hchannels⟩ := ih r' (by omega)
      refine ⟨fun c hc => ?_, fun c hc => ?_, fun c hc => ?_, fun c hc => ?_,
        hnow.trans htook.frame.1, hchannels.trans htook.frame.2.2.1⟩
      · rw [hroute c hc, htook.frame.1]
        by_cases hcc : c = channel
        · subst hcc
          rw [htook.self.1, SubscriberRoute.drained_pop hready]
        · rw [(htook.other fun hh => hcc hh.2).1]
      · rw [htook.ready_after c, map_append, ← htaken c hc]
        by_cases hcc : c = channel
        · subst hcc
          simp
        · have hcc' : ¬ channel = c := fun hh => hcc hh.symm
          simp [hcc, hcc']
      · rw [hhist c hc, htook.ready_after c, map_append]
        by_cases hcc : c = channel
        · subst hcc
          rw [htook.self.2]
          simp
        · rw [(htook.other fun hh => hcc hh.2).2]
          simp [hcc]
      · obtain ⟨h1, h2, h3⟩ := hother c hc
        have hcc : channel ≠ c := fun hh => hc (hh ▸ hmem)
        obtain ⟨h4, h5⟩ := htook.other fun hh => hcc hh.2.symm
        refine ⟨?_, h2.trans h4, h3.trans h5⟩
        rw [filter_cons_of_neg (by simpa using hcc)]
        exact h1

theorem takeInputs_drained (owner : String) (inputs : List String) (r : Router) :
    Drained owner inputs r
      (r.takeInputs owner inputs).1 (r.takeInputs owner inputs).2 :=
  merge_drained owner inputs _ r (readyCount_le_mergeFuel owner inputs r)

end Router

end SilFormal.Kernel
