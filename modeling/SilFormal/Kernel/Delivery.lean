import SilFormal.Kernel.Publishes
import SilFormal.Kernel.Registration
import SilFormal.Kernel.SlotOrder

/-!
# Delivery over a whole Run

The route of a Process participant is a bounded queue that its owner drains at
each activation.  The Run is shown to be a run of such a queue, with the
delivery condition in unbounded naturals, so when and whether a Message is
taken follows from the theory of these queues.
-/

namespace SilFormal.Kernel

open List

universe u

variable {σ : Type u}

/-- The delivery condition of a Message at an activation, in unbounded
naturals. -/
def arrived (latencyNs : Option Nat) (nowNs : Nat) (m : PendingMessage) : Bool :=
  match latencyNs with
  | none => decide (m.publishNs < nowNs)
  | some latency => decide (m.publishNs + latency ≤ nowNs)

theorem arrived_mono (latencyNs : Option Nat) :
    ∀ s t m, s ≤ t → arrived latencyNs s m = true → arrived latencyNs t m = true := by
  intro s t m hle h
  cases latencyNs with
  | none =>
    simp only [arrived, decide_eq_true_eq] at h ⊢
    omega
  | some latency =>
    simp only [arrived, decide_eq_true_eq] at h ⊢
    omega

/-- On the 64-bit clock the kernel's test is the delivery condition. -/
theorem visible_eq_arrived {nowNs : Nat} (hnow : nowNs ≤ uint64Max) (latencyNs : Option Nat)
    (m : PendingMessage) : visible latencyNs nowNs m.publishNs = arrived latencyNs nowNs m := by
  rw [Bool.eq_iff_iff, visible_iff hnow]
  cases latencyNs <;> simp [arrived]

namespace SubscriberRoute

theorem full_eq (route : SubscriberRoute) :
    route.full = Fifo.full route.capacity route.pending := by
  cases h : route.capacity <;> simp [full, Fifo.full, h, depth]

theorem push_pending (route : SubscriberRoute) (m : PendingMessage) :
    (route.push m).2.pending = if Fifo.full route.capacity route.pending then route.pending
      else route.pending ++ [m] := by
  rw [← full_eq]
  cases hfull : route.full with
  | true =>
    rw [(push_of_full hfull m).1]
    rfl
  | false =>
    rw [push_of_not_full hfull]
    rfl

end SubscriberRoute

namespace Router

/-- The route of `owner` on `channel` has behaved as a drained queue. -/
structure RouteRun (owner channel : String) (latencyNs capacity : Option Nat) (r : Router) :
    Prop where
  latency_eq : (r.routes owner channel).latencyNs = latencyNs
  capacity_eq : (r.routes owner channel).capacity = capacity
  run : Fifo.Run (arrived latencyNs) capacity
    (r.routes owner channel).pending (r.history owner channel)
  times : ∀ s ∈ Fifo.activations (r.history owner channel), s ≤ r.nowNs
  now_le : r.nowNs ≤ uint64Max
  nodup : ∀ n c, r.channels n = some c → c.subscribers.Nodup

namespace RouteRun

variable
    {owner channel : String} {latencyNs capacity : Option Nat}
    {r r' : Router}

theorem of_same (h : RouteRun owner channel latencyNs capacity r)
    (hroute : r'.routes owner channel = r.routes owner channel)
    (hhist : r'.history owner channel = r.history owner channel) (hnow : r'.nowNs = r.nowNs)
    (hnodup : ∀ n c, r'.channels n = some c → c.subscribers.Nodup) :
    RouteRun owner channel latencyNs capacity r' := by
  refine ⟨?_, ?_, ?_, ?_, ?_, hnodup⟩
  · rw [hroute, h.latency_eq]
  · rw [hroute, h.capacity_eq]
  · rw [hroute, hhist]
    exact h.run
  · rw [hhist, hnow]
    exact h.times
  · rw [hnow]
    exact h.now_le

/-- An offer to the route is a step of the queue. -/
theorem of_offered (h : RouteRun owner channel latencyNs capacity r) {m : PendingMessage}
    (hoff : Offered m (r.routes owner channel) (r'.routes owner channel)
      (r.history owner channel) (r'.history owner channel)) (hnow : r'.nowNs = r.nowNs)
    (hnodup : ∀ n c, r'.channels n = some c → c.subscribers.Nodup) :
    RouteRun owner channel latencyNs capacity r' := by
  obtain ⟨hlat, hcap, _⟩ := (r.routes owner channel).push_static m
  refine ⟨?_, ?_, ?_, ?_, ?_, hnodup⟩
  · rw [hoff.route, hlat, h.latency_eq]
  · rw [hoff.route, hcap, h.capacity_eq]
  · rw [hoff.route, hoff.event, SubscriberRoute.push_pending, SubscriberRoute.full_eq,
      h.capacity_eq]
    exact h.run.offer m
  · rw [hoff.event, Fifo.activations_append, hnow]
    intro s hs
    rcases mem_append.mp hs with hs | hs
    · exact h.times s hs
    · split_ifs at hs <;> simp [Fifo.activations, Fifo.Event.activated?] at hs
  · rw [hnow]
    exact h.now_le

theorem published_nodup (hnodup : ∀ n c, r.channels n = some c → c.subscribers.Nodup)
    {publisher n : String} {data : Bytes} {error : Option String}
    (hpub : Published publisher n data r r' error) :
    ∀ n c, r'.channels n = some c → c.subscribers.Nodup := by
  intro k c hk
  by_cases hkn : k = n
  · subst hkn
    cases hpub with
    | unknown _ _ => exact hnodup k c hk
    | wrongSize _ _ _ _ => exact hnodup k c hk
    | outOfRange c₀ plan _ hc₀ _ _ =>
      rw [setChannel_channels, if_pos rfl, Option.some.injEq] at hk
      subst hk
      exact hnodup k c₀ hc₀
    | suppressed c₀ plan _ _ hc₀ _ _ =>
      rw [stamp_channels, if_pos rfl, Option.some.injEq] at hk
      subst hk
      exact hnodup k c₀ hc₀
    | delivered c₀ plan _ _ _ _ hc₀ _ _ hpush =>
      rw [(pushAll_frame hpush).2.2.1, stamp_channels, if_pos rfl, Option.some.injEq] at hk
      subst hk
      exact hnodup k c₀ hc₀
  · rw [(hpub.other hkn).1] at hk
    exact hnodup k c hk

theorem published (h : RouteRun owner channel latencyNs capacity r) {publisher n : String}
    {data : Bytes} {error : Option String} (hpub : Published publisher n data r r' error) :
    RouteRun owner channel latencyNs capacity r' := by
  have hnodup := published_nodup h.nodup hpub
  have hnow := hpub.nowNs_eq
  by_cases hn : channel = n
  · subst hn
    cases hpub with
    | unknown _ _ => exact h
    | wrongSize _ _ _ _ => exact h
    | outOfRange _ _ _ _ _ _ => exact h.of_same rfl rfl rfl hnodup
    | suppressed _ _ _ _ _ _ _ => exact h.of_same rfl (stamp_history _ _ _ _ _ _ _ _) rfl hnodup
    | delivered c₀ plan visibleNs bytes _ _ hc₀ _ _ hpush =>
      by_cases howner : owner ∈ c₀.subscribers
      · rcases pushAll_offered hpush (h.nodup _ _ hc₀) howner with hoff | ⟨_, h1, h2⟩
        · rw [stamp_history] at hoff
          exact h.of_offered hoff hnow hnodup
        · -- an earlier route stopped the loop
          rw [stamp_history] at h2
          exact h.of_same h1 h2 hnow hnodup
      · obtain ⟨h1, h2⟩ := pushAll_other hpush (.inr howner)
        rw [stamp_history] at h2
        exact h.of_same h1 h2 hnow hnodup
  · obtain ⟨_, _, hroutes⟩ := hpub.other hn
    exact h.of_same (hroutes owner).1 (hroutes owner).2 hnow hnodup

/-- Service calls that do not take from the route only offer Messages to it. -/
theorem acts (h : RouteRun owner channel latencyNs capacity r) {ok : Bool} {actor : String}
    {contract : Contract} (hnot : actor = owner → channel ∉ contract.subscribes)
    (hacts : Acts ok actor contract r r') : RouteRun owner channel latencyNs capacity r' := by
  refine hacts.invariant (fun a b ha hact => ?_) h
  cases hact with
  | @take n msg _ _ hmem htook =>
    have hne : ¬ (owner = actor ∧ channel = n) := by
      rintro ⟨rfl, rfl⟩
      exact hnot rfl hmem
    obtain ⟨h1, h2⟩ := htook.other hne
    obtain ⟨hnow, _, hchannels, _⟩ := htook.frame
    exact ha.of_same h1 h2 hnow (hchannels ▸ ha.nodup)
  | publish _ _ hpub => exact ha.published hpub

theorem note_other (h : RouteRun owner channel latencyNs capacity r) {actor : String}
    (hne : actor ≠ owner) :
    RouteRun owner channel latencyNs capacity (r.note (.activation actor r.nowNs)) := by
  refine h.of_same rfl ?_ rfl h.nodup
  rw [history_note]
  simp [Event.onRoute, hne]

/-- An activation of the owner drains the route. -/
theorem takeInputs (h : RouteRun owner channel latencyNs capacity r) {inputs : List String}
    (hmem : channel ∈ inputs) :
    RouteRun owner channel latencyNs capacity
      ((r.note (.activation owner r.nowNs)).takeInputs owner inputs).2 := by
  have hdrained := takeInputs_drained owner inputs (r.note (.activation owner r.nowNs))
  obtain ⟨hnow, hchannels⟩ := hdrained.frame
  have hroute := hdrained.route channel hmem
  have hhist : ((r.note (.activation owner r.nowNs)).takeInputs owner inputs).2.history
      owner channel = r.history owner channel ++
        .activated r.nowNs :: ((r.routes owner channel).ready r.nowNs).map .took := by
    rw [hdrained.history channel hmem, history_note]
    simp [Event.onRoute]
  have hvis : (fun m : PendingMessage =>
      visible (r.routes owner channel).latencyNs r.nowNs m.publishNs) =
        arrived latencyNs r.nowNs := by
    funext m
    rw [h.latency_eq, visible_eq_arrived h.now_le]
  have hready : (r.routes owner channel).ready r.nowNs =
      (r.routes owner channel).pending.takeWhile (arrived latencyNs r.nowNs) := by
    rw [← hvis]
    rfl
  have hwaiting : ((r.routes owner channel).drained r.nowNs).pending =
      (r.routes owner channel).pending.dropWhile (arrived latencyNs r.nowNs) := by
    rw [← hvis]
    rfl
  refine ⟨?_, ?_, ?_, ?_, ?_, ?_⟩
  · rw [hroute]
    exact h.latency_eq
  · rw [hroute]
    exact h.capacity_eq
  · rw [hroute, hhist, note_routes, note_nowNs, hwaiting, hready]
    exact h.run.activate h.times
  · rw [hhist, Fifo.activations_activate]
    intro s hs
    refine le_of_le_of_eq ?_ hnow.symm
    rcases mem_append.mp hs with hs | hs
    · exact h.times s hs
    · exact (mem_singleton.mp hs).le
  · exact le_of_eq_of_le hnow h.now_le
  · intro n c hc
    exact h.nodup n c ((congrFun hchannels n).symm.trans hc)

end RouteRun

end Router

/-! ## The whole Run -/

namespace Engine

/-- The engine as far as the route of `owner` on `channel` depends on it. -/
structure Serving (owner channel : String) (latencyNs capacity : Option Nat) (e : Engine σ) :
    Prop where
  subscribed : channel ∈ (e.contracts owner).subscribes
  process : ∀ t ∈ e.tasks, t.owner = owner → ∃ step, t.fn = .process step
  route : Router.RouteRun owner channel latencyNs capacity e.router

section Serving

variable
    {owner channel : String} {latencyNs capacity : Option Nat}
    {e : Engine σ}

theorem Serving.call (h : e.Serving owner channel latencyNs capacity) {t : Task σ}
    (hproc : t.owner = owner → ∃ step, t.fn = .process step) :
    Router.RouteRun owner channel latencyNs capacity (e.call t).1 := by
  by_cases howner : t.owner = owner
  · obtain ⟨step, hfn⟩ := hproc howner
    subst howner
    simp only [Engine.call, hfn]
    -- the route is drained first, and the answer only publishes
    exact (h.route.takeInputs h.subscribed).acts (fun _ => not_mem_nil)
      (settleStep_acts false _ _ _ _ _ _ _ [] (by simp))
  · exact (h.route.note_other howner).acts (fun heq => absurd heq howner)
      (e.call_acts false t (by simp))

theorem Serving.execute (h : e.Serving owner channel latencyNs capacity) {d : Due σ}
    (hproc : ∀ t, d = .task t → t.owner = owner → ∃ step, t.fn = .process step) :
    (e.execute d).Serving owner channel latencyNs capacity := by
  refine ⟨?_, ?_, ?_⟩
  · rw [execute_contracts]
    exact h.subscribed
  · intro t' ht' howner
    obtain ⟨t, ht, ho, hfn⟩ := exists_of_mem_execute_tasks ht'
    rw [hfn]
    exact h.process t ht (ho ▸ howner)
  · by_cases hf : e.failure.isSome = true
    · rw [execute_of_failed e d hf]
      exact h.route
    · cases d with
      | task t =>
        simp only [Engine.execute, if_neg hf]
        exact h.call (hproc t rfl)
      | replay r =>
        simp only [Engine.execute, if_neg hf]
        exact h.route.acts (fun _ => not_mem_nil)
          (r.publishFrom_acts false e.router.nowNs r.reader e.router (by simp))

theorem Serving.foldl {l : List (Due σ)} (h : e.Serving owner channel latencyNs capacity)
    (hproc : ∀ t, Due.task t ∈ l → t.owner = owner → ∃ step, t.fn = .process step) :
    (l.foldl Engine.execute e).Serving owner channel latencyNs capacity := by
  induction l generalizing e with
  | nil => exact h
  | cons d rest ih =>
    refine ih (h.execute fun t ht => hproc t (by simp [ht])) fun t ht => ?_
    exact hproc t (mem_cons_of_mem _ ht)

theorem Serving.runSlot (h : e.Serving owner channel latencyNs capacity)
    (hnow : e.router.nowNs ≤ e.slot) :
    (e.runSlot e.slot).Serving owner channel latencyNs capacity := by
  refine Serving.foldl ⟨h.subscribed, h.process, ?_⟩ fun t ht => ?_
  · exact ⟨h.route.latency_eq, h.route.capacity_eq, h.route.run,
      fun s hs => (h.route.times s hs).trans hnow, e.slot_le_max, h.route.nodup⟩
  · have hmem : t ∈ tasksOf (e.agenda e.slot) :=
      mem_filterMap.mpr ⟨.task t, ht, rfl⟩
    rw [(tasksOf_agenda e e.slot).mem_iff] at hmem
    exact h.process t (mem_of_mem_filter hmem)

theorem runSlot_nowNs (e : Engine σ) (slot : Nat) : (e.runSlot slot).router.nowNs = slot :=
  (foldl_execute_static (e.agenda slot) (e.openSlot slot)).2.2.2.2.2

theorem reach_serving {e' : Engine σ} (h : e.Serving owner channel latencyNs capacity)
    (hs : e.Scheduled) (hasc : e.Ascending)
    (hnow : e.router.nowNs = 0) (hr : Loop.Reach step e e') :
    e'.Serving owner channel latencyNs capacity ∧
      (e'.router.nowNs = 0 ∨ e'.router.nowNs ∈ e'.slots) := by
  induction hr with
  | refl => exact ⟨h, .inl hnow⟩
  | @tail e₁ _ hreach hstep ih =>
    obtain ⟨hfail, hslot, rfl⟩ := step_eq_some hstep
    obtain ⟨hserving, hclock⟩ := ih
    have hlt := ((reach_slots_pairwise hasc hs hreach).2 hfail).lt_slot
      (reach_scheduled hs hreach) hslot
    have hle : e₁.router.nowNs ≤ e₁.slot := by
      rcases hclock with hzero | hmem
      · omega
      · exact (hlt _ hmem).le
    refine ⟨hserving.runSlot hle, .inr ?_⟩
    rw [runSlot_nowNs, runSlot_slots]
    simp

end Serving

end Engine

theorem Manifest.route_eq {m : Manifest σ} (h : m.Loaded) {p : ParticipantSpec σ}
    (hp : p ∈ m.participants) {s : SubscriberRouteSpec} (hs : s ∈ p.subscribes) {c : ChannelSpec}
    (hc : c ∈ m.channels) (hname : s.channel = c.name) :
    m.route p.name c.name = ⟨c.latencyNs, s.capacity, s.overflow, []⟩ := by
  have hfind : p.subscribes.find? (fun s' => s'.channel == c.name) = some s :=
    hname ▸ Keyed.find?_key (h.subscribes_once p hp) hs
  simp only [route, find?_participant h hp, Option.bind_some, hfind, find?_channel h hc]

/-- Delivery on one route, as its history shows it.  The contents of the route
after a part of the history are the Messages it holds at that moment. -/
structure Router.Delivered (owner channel : String) (latencyNs capacity : Option Nat) (r : Router) :
    Prop where
  /-- An offered Message is accepted iff the route holds fewer than its
  capacity. -/
  accepted_iff : ∀ past event message,
    past ++ [event] <+: r.history owner channel → event.offered = some message →
      (event = .accepted message ↔ ∀ c, capacity = some c → (Fifo.contents past).length < c)
  depth_le : ∀ c, capacity = some c → ∀ past, past <+: r.history owner channel →
    (Fifo.contents past).length ≤ c
  /-- The `i`-th accepted Message is taken at the first activation after its
  acceptance at which it and all accepted before it have arrived. -/
  taken_iff : ∀ (i : Nat) (message : PendingMessage) (k : Nat),
    (Fifo.takenAt (r.history owner channel))[i]? = some (message, k) ↔
      ∃ a, (Fifo.acceptedAt (r.history owner channel))[i]? = some (message, a) ∧
        Fifo.FirstDue (arrived latencyNs) (r.history owner channel) i a k
  conservation : ∀ past, past <+: r.history owner channel →
    (Fifo.takenAt past).map Prod.fst ++ Fifo.contents past = (Fifo.acceptedAt past).map Prod.fst
  pending : (r.routes owner channel).pending = Fifo.contents (r.history owner channel)

theorem Router.RouteRun.delivered {owner channel : String} {latencyNs capacity : Option Nat}
    {r : Router} (h : RouteRun owner channel latencyNs capacity r) :
    Delivered owner channel latencyNs capacity r := by
  refine ⟨?_, ?_, ?_, h.run.conservation_prefix, h.run.contents_eq.symm⟩
  · intro past event message hpast hoffered
    rw [h.run.offer_eq past event message hpast hoffered]
    cases capacity with
    | none => simp [Fifo.full]
    | some c =>
      by_cases hlt : (Fifo.contents past).length < c
      · simp [Fifo.not_full_iff.mpr hlt, hlt]
      · simp [Fifo.full, hlt]
  · rintro c rfl
    exact h.run.length_le
  · intro i message k
    exact h.run.takenAt_eq_some_iff (arrived_mono latencyNs)

namespace Engine

/-- Delivery to a Process participant, in every Run whose Replay participants
replay in time order, and so in every Run without Replay participants.  The
statement about the routing state holds at every Slot boundary of the Run and
at its end, and within the Run through the parts of the history.  A route is
offered surviving publishes only, in order and at most once each, and all of
them unless a participant fails. -/
theorem delivery_exact (m : Manifest σ) (e : Engine σ) (hloaded : m.Loaded)
    (hsetup : setup m = some e) (hordered : e.TimeOrdered) (p : ParticipantSpec σ)
    (hp : p ∈ m.participants) {stepPeriodNs : Nat} {subscribes : List SubscriberRouteSpec}
    {publishes : List String} {priority : Int} {step : Nat → Nat → σ → List StepInput → StepReply σ}
    {shutdown : σ → Option String} (hprocess : p.impl =
      .process stepPeriodNs subscribes publishes priority step shutdown) (s : SubscriberRouteSpec)
    (hs : s ∈ subscribes) (c : ChannelSpec) (hc : c ∈ m.channels) (hname : s.channel = c.name) :
    (∀ e', Loop.Reach Engine.step e e' → e'.router.Delivered p.name c.name c.latencyNs s.capacity) ∧
      e.run.router.Delivered p.name c.name c.latencyNs s.capacity ∧
      (e.run.router.offers p.name c.name).Sublist
        ((e.run.router.publishes c.name).filterMap Publish.message) ∧
      (e.NoFailure → e.run.router.offers p.name c.name =
        (e.run.router.publishes c.name).filterMap Publish.message) := by
  have hsubs : p.subscribes = subscribes := by
    simp only [ParticipantSpec.subscribes, hprocess]
  obtain ⟨hsched, _, _, _, _, hslots, _⟩ := setup_filling hloaded.duration_le hsetup
  have hbase := setup_sameBase hsetup
  have hasc : e.Ascending :=
    ⟨by simp [hslots], by simp [hslots], by simp [hslots], hordered⟩
  have hserving : e.Serving p.name c.name c.latencyNs s.capacity := by
    refine ⟨?_, ?_, ?_⟩
    · rw [hbase.contracts]
      show c.name ∈ (m.contract p.name).subscribes
      rw [Manifest.contract_eq hloaded hp, hsubs]
      exact mem_map.mpr ⟨s, hs, hname⟩
    · intro t ht howner
      obtain ⟨p', hp', hmem⟩ := exists_participant_of_task hsetup ht
      have hname' : p'.name = p.name :=
        (ParticipantSpec.owner_of_mem_tasks hmem).symm.trans howner
      obtain rfl := inj_on_of_nodup_map hloaded.participant_names hp' hp hname'
      simp only [ParticipantSpec.tasks, hprocess, mem_singleton] at hmem
      exact ⟨step, (congrArg Task.fn hmem : t.unindexed.fn = _)⟩
    · have hroute := Manifest.route_eq hloaded hp (hsubs ▸ hs) hc hname
      rw [hbase.router]
      show Router.RouteRun _ _ _ _ m.router
      refine ⟨congrArg SubscriberRoute.latencyNs hroute,
        congrArg SubscriberRoute.capacity hroute, ?_, ?_, ?_, ?_⟩
      · have hpending : (m.router.routes p.name c.name).pending = [] :=
          congrArg SubscriberRoute.pending hroute
        rw [hpending]
        exact .start
      · intro t ht
        cases ht
      · exact Nat.zero_le _
      · intro n st hst
        obtain ⟨c', _, rfl⟩ := Option.map_eq_some_iff.mp hst
        exact Manifest.subscribers_nodup hloaded n
  have hnow : e.router.nowNs = 0 := by
    rw [hbase.router]
    rfl
  have hreach : ∀ e', Loop.Reach Engine.step e e' →
      e'.router.Delivered p.name c.name c.latencyNs s.capacity := fun e' hr =>
    (reach_serving hserving hsched hasc hnow hr).1.route.delivered
  have howner : p.name ∈ m.subscribers c.name := by
    refine mem_map_of_mem (mem_filter.mpr ⟨hp, ?_⟩)
    rw [hsubs, decide_eq_true_eq]
    exact mem_map.mpr ⟨s, hs, hname⟩
  obtain ⟨hsublist, hoffers⟩ := run_offers hloaded hsetup hc p.name howner
  refine ⟨hreach, ?_, hsublist, fun hno => hoffers (hno _ e.loop_reach)⟩
  rw [run_router]
  exact hreach _ e.loop_reach

/-- A sensor that publishes every 4 ns, and a display that steps every 10 ns
on a route of capacity 2 that drops the newest Message. -/
def meterManifest : Manifest Unit where
  durationNs := 30
  channels := [⟨"speed", "byte", 1, some 5, ⟨30, []⟩⟩]
  participants :=
    [⟨"display", .process 10 [⟨"speed", some 2, .dropNewest⟩] [] 0
        (fun _ _ _ _ => .stepDone () []) (fun _ => none)⟩,
      ⟨"sensor", .native [] ["speed"]
        [⟨"sample", 4, 0, 0, fun now _ => .publish "speed" [UInt8.ofNat now] fun _ => .ret ()⟩]⟩]
  initial := fun _ => ()
  limits := {}

theorem delivery_exact_meter :
    ∃ e, setup meterManifest = some e ∧ Fifo.takenAt (e.run.router.history "display" "speed") =
        [(⟨0, 0, [0]⟩, 1), (⟨4, 1, [4]⟩, 1), (⟨12, 3, [12]⟩, 2)] ∧
      e.run.router.Delivered "display" "speed" (some 5) (some 2) := by
  have hloaded : meterManifest.Loaded :=
    ⟨by decide, by decide, by decide, by decide, by decide, by decide⟩
  refine ⟨_, rfl, rfl, ?_⟩
  exact (delivery_exact meterManifest _ hloaded rfl (fun r hr => by cases hr)
    _ (mem_cons_self ..) rfl ⟨"speed", some 2, .dropNewest⟩ (by simp)
    ⟨"speed", "byte", 1, some 5, ⟨30, []⟩⟩ (by simp [meterManifest]) rfl).2.1

/-- A sensor that publishes twice in a Step, and two subscribers: the route of
the first has capacity 1 and fails the Run, the route of the second has
capacity 2. -/
def crowdedManifest : Manifest Unit where
  durationNs := 10
  channels := [⟨"speed", "byte", 1, none, ⟨10, []⟩⟩]
  participants :=
    [⟨"display", .process 10 [⟨"speed", some 1, .fail⟩] [] 0
        (fun _ _ _ _ => .stepDone () []) (fun _ => none)⟩,
      ⟨"logger", .process 10 [⟨"speed", some 2, .dropNewest⟩] [] 0
        (fun _ _ _ _ => .stepDone () []) (fun _ => none)⟩,
      ⟨"sensor", .process 10 [] ["speed"] 0
        (fun _ _ _ _ => .stepDone () [⟨"speed", [1], true⟩, ⟨"speed", [2], true⟩])
        (fun _ => none)⟩]
  initial := fun _ => ()
  limits := {}

/-- The overflow of the display's route ends the publish: the second Message
survives and is recorded, and the logger's route, which holds one Message of
two, does not get it. -/
theorem overflow_ends_publish : ∃ e, setup crowdedManifest = some e ∧
      e.run.router.survivors "speed" = [⟨"speed", 0, 0, [1]⟩, ⟨"speed", 0, 1, [2]⟩] ∧
      e.run.router.history "logger" "speed" = [.activated 0, .accepted ⟨0, 0, [1]⟩] ∧
      (e.run.router.routes "logger" "speed").depth = 1 ∧
      (e.run.router.routes "logger" "speed").capacity = some 2 ∧
      e.run.failure.isSome = true :=
  ⟨_, rfl, rfl, rfl, rfl, rfl, rfl⟩

end Engine

end SilFormal.Kernel
