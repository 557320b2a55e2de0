import SilFormal.Library.Keyed
import SilFormal.Kernel.SlotRun

/-!
# The publishes of a Channel

Projections of the history of a Run: the publishes on a Channel with what the
plan let through, and the Messages a route was offered.  In a Run in which no
publish fails every surviving Message is offered once, and in order, to every
route of its Channel.
-/

namespace SilFormal.Kernel

open List

universe u

/-- One publish of a Channel, with the Message the plan lets through. -/
structure Publish where
  ns : Nat
  data : Bytes
  globalSeq : Nat
  outcome : Option Record
deriving DecidableEq, Repr

namespace Publish

/-- What the plan was applied to. -/
def input (p : Publish) : Nat × Bytes := (p.ns, p.data)

/-- The surviving Message as the routes hold it. -/
def message (p : Publish) : Option PendingMessage :=
  p.outcome.map fun record => ⟨record.publishNs, p.globalSeq, record.bytes⟩

end Publish

/-- An event as a publish on `channel`. -/
def Event.publishOn (channel : String) : Event → Option Publish
  | .published c ns data globalSeq outcome =>
    if c = channel then some ⟨ns, data, globalSeq, outcome⟩ else none
  | _ => none

/-- The global sequence number a publish consumed. -/
def Event.publishSeq : Event → Option Nat
  | .published _ _ _ globalSeq _ => some globalSeq
  | _ => none

namespace Router

variable {error : Option String}

/-- The publishes on a Channel, in the order of the Run. -/
def publishes (r : Router) (channel : String) : List Publish :=
  r.trace.filterMap (Event.publishOn channel)

/-- The global sequence numbers of all publishes. -/
def publishSeqs (r : Router) : List Nat :=
  r.trace.filterMap Event.publishSeq

/-- The Messages offered to a route, in order. -/
def offers (r : Router) (owner channel : String) : List PendingMessage :=
  (r.history owner channel).filterMap Fifo.Event.offered

/-- The Messages of a Channel that survived its plan. -/
def survivors (r : Router) (channel : String) : List Record :=
  (r.publishes channel).filterMap Publish.outcome

/-! ## What the routing steps add to these -/

theorem publishes_note (r : Router) (e : Event) (c : String) :
    (r.note e).publishes c = r.publishes c ++ (Event.publishOn c e).toList := by
  unfold publishes
  cases h : Event.publishOn c e <;> simp [h]

theorem publishSeqs_note (r : Router) (e : Event) :
    (r.note e).publishSeqs = r.publishSeqs ++ e.publishSeq.toList := by
  unfold publishSeqs
  cases h : e.publishSeq <;> simp [h]

theorem pushAll_publishes {publisher channel : String} {m : PendingMessage}
    {subscribers : List String} {r r' : Router}
    (h : pushAll publisher channel m subscribers r = (r', error)) :
    (∀ c, r'.publishes c = r.publishes c) ∧ r'.publishSeqs = r.publishSeqs := by
  obtain ⟨events, htrace, hall⟩ := pushAll_trace h
  unfold publishes publishSeqs
  rw [htrace]
  constructor
  · intro c
    rw [filterMap_append, append_right_eq_self, filterMap_eq_nil_iff]
    intro e he
    obtain ⟨o, rfl | rfl⟩ := hall e he <;> rfl
  · rw [filterMap_append, append_right_eq_self, filterMap_eq_nil_iff]
    intro e he
    obtain ⟨o, rfl | rfl⟩ := hall e he <;> rfl

theorem stamp_publishes (r : Router) (channel : String) (c : ChannelState) (plan : InterceptorPlan)
    (data : Bytes) (outcome : Option Record) (n : String) :
    (r.stamp channel c plan data outcome).publishes n = r.publishes n ++
        if channel = n then [⟨r.nowNs, data, r.globalSeq, outcome⟩] else [] := by
  unfold stamp
  rw [publishes_note]
  congr 1
  by_cases hn : channel = n <;> simp [Event.publishOn, hn]

/-- A publish adds at most one entry, to its own Channel. -/
theorem Published.publishes_other {owner channel : String} {data : Bytes} {r r' : Router}
    (h : Published owner channel data r r' error) {n : String} (hne : n ≠ channel) :
    r'.publishes n = r.publishes n := by
  have hne' : ¬ channel = n := fun h => hne h.symm
  cases h with
  | suppressed c plan visibleNs bytes _ _ _ => rw [stamp_publishes, if_neg hne', append_nil]
  | delivered c plan visibleNs bytes _ _ _ _ _ hpush =>
    rw [(pushAll_publishes hpush).1, stamp_publishes, if_neg hne', append_nil]
  | _ => rfl

theorem offers_note (r : Router) (e : Event) (o c : String) :
    (r.note e).offers o c = r.offers o c ++
      ((Event.onRoute o c e).bind Fifo.Event.offered).toList := by
  unfold offers
  rw [history_note, filterMap_append]
  cases h : Event.onRoute o c e with
  | none => rfl
  | some event => cases h' : event.offered <;> simp [h']

/-- An offered Message is the last one of the offers. -/
theorem Offered.offers {m : PendingMessage} {q q' : SubscriberRoute} {h h' : List RouteEvent}
    (hoff : Offered m q q' h h') :
    h'.filterMap Fifo.Event.offered = h.filterMap Fifo.Event.offered ++ [m] := by
  rw [hoff.event, filterMap_append]
  split_ifs <;> rfl

/-! ## Surviving Messages reach every route -/

/-- The routes of the Channel are offered its survivors in order and at most
once each; without an error they are offered all of them. -/
structure OfferInv (ok : Bool) (channel : String) (subscribers : List String) (r : Router) :
    Prop where
  state : ∃ c, r.channels channel = some c ∧ c.subscribers = subscribers
  sublist : ∀ o ∈ subscribers,
    (r.offers o channel).Sublist ((r.publishes channel).filterMap Publish.message)
  offers : ok = true → ∀ o ∈ subscribers,
    r.offers o channel = (r.publishes channel).filterMap Publish.message

section OfferInv

variable
    {ok : Bool} {channel : String} {subscribers : List String}
    {r r' : Router}

/-- Only the Channel's subscribers, the offers and the publishes matter. -/
theorem OfferInv.of_same (h : OfferInv ok channel subscribers r)
    (hchannel : r'.channels channel = r.channels channel)
    (hoffers : ∀ o, r'.offers o channel = r.offers o channel)
    (hpublishes : (r'.publishes channel).filterMap Publish.message =
      (r.publishes channel).filterMap Publish.message) : OfferInv ok channel subscribers r' := by
  refine ⟨hchannel ▸ h.state, fun o ho => ?_, fun hok o ho => ?_⟩
  · rw [hoffers, hpublishes]
    exact h.sublist o ho
  · rw [hoffers, hpublishes]
    exact h.offers hok o ho

theorem OfferInv.published (hnodup : subscribers.Nodup) (h : OfferInv ok channel subscribers r)
    {owner : String} {data : Bytes} {error : Option String} (hok : ok = true → error = none)
    (hpub : Published owner channel data r r' error) : OfferInv ok channel subscribers r' := by
  obtain ⟨⟨c₀, hc₀, hsubs⟩, hsub, hoffers⟩ := h
  cases hpub with
  | unknown _ _ => exact ⟨⟨c₀, hc₀, hsubs⟩, hsub, hoffers⟩
  | wrongSize _ _ _ _ => exact ⟨⟨c₀, hc₀, hsubs⟩, hsub, hoffers⟩
  | outOfRange c plan _ hc _ _ =>
    rw [hc₀, Option.some.injEq] at hc
    subst hc
    refine ⟨⟨advanceChannel c₀ plan false, ?_, hsubs⟩, hsub, hoffers⟩
    rw [setChannel_channels, if_pos rfl]
  | suppressed c plan visibleNs bytes hc _ _ =>
    rw [hc₀, Option.some.injEq] at hc
    subst hc
    have hadd : ((r.stamp channel c₀ plan data none).publishes channel).filterMap
        Publish.message = (r.publishes channel).filterMap Publish.message := by
      rw [stamp_publishes, if_pos rfl, filterMap_append]
      exact append_nil _
    refine ⟨⟨advanceChannel c₀ plan false, by simp [stamp_channels], hsubs⟩,
      fun o ho => ?_, fun hok o ho => ?_⟩
    · rw [hadd]
      simpa [Router.offers] using hsub o ho
    · rw [hadd]
      simpa [Router.offers] using hoffers hok o ho
  | delivered c plan visibleNs bytes _ _ hc _ _ hpush =>
    rw [hc₀, Option.some.injEq] at hc
    subst hc
    obtain ⟨_, _, hchannels, _⟩ := pushAll_frame hpush
    have hadd : (r'.publishes channel).filterMap Publish.message =
        (r.publishes channel).filterMap Publish.message ++ [⟨visibleNs, r.globalSeq, bytes⟩] := by
      rw [(pushAll_publishes hpush).1, stamp_publishes, if_pos rfl, filterMap_append]
      rfl
    refine ⟨⟨advanceChannel c₀ plan true, ?_, hsubs⟩, fun o ho => ?_, fun hok' o ho => ?_⟩
    · rw [hchannels, stamp_channels, if_pos rfl]
      rfl
    · rw [hadd]
      rcases pushAll_offered hpush (hsubs ▸ hnodup) (hsubs ▸ ho) with
        hoffered | ⟨_, _, hhist⟩
      · have hnext := hoffered.offers
        rw [stamp_history] at hnext
        unfold Router.offers
        rw [hnext]
        exact (hsub o ho).append_right _
      · rw [stamp_history] at hhist
        unfold Router.offers
        rw [hhist]
        exact (hsub o ho).trans (sublist_append_left _ _)
    · rcases pushAll_offered hpush (hsubs ▸ hnodup) (hsubs ▸ ho) with hoffered | hfail
      · have hnext := hoffered.offers
        rw [stamp_history] at hnext
        rw [hadd, ← hoffers hok' o ho]
        exact hnext
      · exact absurd (hok hok') hfail.1

theorem OfferInv.step (hnodup : subscribers.Nodup) (h : OfferInv ok channel subscribers r)
    (hstep : Step ok r r') : OfferInv ok channel subscribers r' := by
  cases hstep with
  | tick _ _ => exact h.of_same rfl (fun _ => rfl) rfl
  | activation owner _ =>
    refine h.of_same rfl (fun o => ?_) ?_
    · rw [offers_note]
      by_cases hown : owner = o <;> simp [Event.onRoute, Fifo.Event.offered]
    · rw [publishes_note]
      simp [Event.publishOn]
  | act hact =>
    cases hact with
    | @take n msg _ _ _ htook =>
      obtain ⟨_, rfl⟩ := htook
      refine h.of_same rfl (fun o => ?_) ?_
      · have hnone : ∀ owner, ((Event.onRoute o channel (.took owner n msg)).bind
            Fifo.Event.offered).toList = [] := by
          intro owner
          unfold Event.onRoute
          dsimp only
          split_ifs <;> rfl
        rw [offers_note, hnone, append_nil]
        rfl
      · rw [publishes_note]
        exact congrArg _ (append_nil _)
    | @publish n data _ _ error _ hok hpub =>
      by_cases hn : channel = n
      · subst hn
        exact h.published hnodup hok hpub
      · obtain ⟨hchannel, _, hroutes⟩ := hpub.other hn
        refine h.of_same hchannel (fun o => ?_) (by rw [hpub.publishes_other hn])
        unfold Router.offers
        rw [(hroutes o).2]

end OfferInv

end Router

namespace Manifest

variable {σ : Type u} {m : Manifest σ}

theorem subscribers_nodup (h : m.Loaded) (channel : String) : (m.subscribers channel).Nodup :=
  h.participant_names.sublist (filter_sublist.map _)

theorem find?_channel (h : m.Loaded) {c : ChannelSpec} (hc : c ∈ m.channels) :
    m.channels.find? (fun c' => c'.name == c.name) = some c :=
  Keyed.find?_key h.channel_names hc

theorem channelState_eq (h : m.Loaded) {c : ChannelSpec} (hc : c ∈ m.channels) :
    m.channelState c.name = some
      ⟨c.schema, c.byteSize, 0, c.interceptorPlan.clone, m.subscribers c.name⟩ := by
  unfold channelState
  rw [find?_channel h hc]
  rfl

end Manifest

namespace Engine

variable {σ : Type u}

/-- In every Run the routes of a Channel are offered surviving Messages in
order and at most once, and all of them if no participant fails. -/
theorem run_offers {m : Manifest σ} {e : Engine σ} {c : ChannelSpec} (hloaded : m.Loaded)
    (hsetup : setup m = some e) (hc : c ∈ m.channels) :
    ∀ o ∈ m.subscribers c.name, (e.run.router.offers o c.name).Sublist
          ((e.run.router.publishes c.name).filterMap Publish.message) ∧
        (e.loop.failure = none → e.run.router.offers o c.name =
            (e.run.router.publishes c.name).filterMap Publish.message) := by
  have hinv : ∀ ok : Bool, (ok = true → e.loop.failure = none) →
      Router.OfferInv ok c.name (m.subscribers c.name) e.run.router := by
    intro ok hok
    rw [run_router]
    refine (reach_steps ok e.loop_reach hok).invariant
      (fun a b ha hstep => Router.OfferInv.step (Manifest.subscribers_nodup hloaded _)
        ha hstep) ?_
    rw [(setup_sameBase hsetup).router]
    exact ⟨⟨_, Manifest.channelState_eq hloaded hc, rfl⟩,
      fun _ _ => nil_sublist _, fun _ _ _ => rfl⟩
  intro o ho
  exact ⟨(hinv false (by simp)).sublist o ho, fun hf => (hinv true fun _ => hf).offers rfl o ho⟩

end Engine

end SilFormal.Kernel
