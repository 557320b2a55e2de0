import SilFormal.Library.Interleaving
import SilFormal.Kernel.Determinism
import SilFormal.Kernel.Registration
import SilFormal.Kernel.SlotRun

/-!
# Activations with separate views

The activations of a Slot form a system of actions with separate views: the
view of a participant is its state, its routes and the Channels it publishes.
There is one more view, of the Channels that nobody publishes.  What a Slot
does to a view is therefore what the Tasks of that participant do to it.
-/

namespace SilFormal.Kernel

open List

universe u

variable {σ : Type u}

/-- A Task without what only orders it among others. -/
def Task.bare (t : Task σ) : Task σ :=
  { t with priority := 0, registrationIndex := 0 }

namespace Router

/-! ## From one Slot to the next -/

/-- The contents of a route. -/
def pendingContent (r : Router) (owner channel : String) : List (Nat × Bytes) :=
  (r.routes owner channel).pending.map PendingMessage.content

theorem ready_append_waiting_content (r : Router) (owner channel : String) :
    r.readyContent owner channel ++ r.waitingContent owner channel =
      r.pendingContent owner channel := by
  rw [readyContent, waitingContent, ← map_append, SubscriberRoute.ready_append_waiting]
  rfl

/-- At any instant the two parts of a route depend on its latency and its
contents. -/
theorem content_split (r : Router) (owner channel : String) : r.readyContent owner channel =
        (r.pendingContent owner channel).takeWhile (fun p =>
          visible (r.routes owner channel).latencyNs r.nowNs p.1) ∧
      r.waitingContent owner channel =
        (r.pendingContent owner channel).dropWhile (fun p =>
          visible (r.routes owner channel).latencyNs r.nowNs p.1) := by
  constructor
  · rw [pendingContent, takeWhile_map]
    rfl
  · rw [pendingContent, dropWhile_map]
    rfl

variable {keep : String → Bool} {owner channel : String} {r r' : Router}

theorem pendingContent_eq (howner : SameOwner owner r r')
    (hwaiting : r.waitingContent owner channel = r'.waitingContent owner channel) :
    r.pendingContent owner channel = r'.pendingContent owner channel := by
  rw [← ready_append_waiting_content, ← ready_append_waiting_content,
    howner.ready channel, hwaiting]

/-- Opening a Slot for an owner. -/
theorem SameOwner.opened
    (hlatency : ∀ c, (r.routes owner c).latencyNs = (r'.routes owner c).latencyNs)
    (hpending : ∀ c, r.pendingContent owner c = r'.pendingContent owner c)
    (hintake : ∀ c, r.intake owner c = r'.intake owner c) (slot : Nat) :
    SameOwner owner { r with nowNs := slot } { r' with nowNs := slot } := by
  refine ⟨hlatency, fun c => ?_, hintake⟩
  rw [(content_split { r with nowNs := slot } owner c).1,
    (content_split { r' with nowNs := slot } owner c).1]
  have hcontent : ({ r with nowNs := slot } : Router).pendingContent owner c =
      ({ r' with nowNs := slot } : Router).pendingContent owner c := hpending c
  rw [hcontent]
  exact congrArg (fun latency => takeWhile
    (fun p : Nat × Bytes => visible latency slot p.1) _) (hlatency c)

/-- Opening a Slot for the publisher of a Channel. -/
theorem SameChannel.opened (hstate : (r.channels channel).map (ChannelState.restrict keep) =
      (r'.channels channel).map (ChannelState.restrict keep))
    (hrecorded : r.recorded channel = r'.recorded channel) (hpending : ∀ o, keep o = true →
      (r.routes o channel).latencyNs = (r'.routes o channel).latencyNs ∧
        r.pendingContent o channel = r'.pendingContent o channel) (slot : Nat) :
    SameChannel keep channel { r with nowNs := slot } { r' with nowNs := slot } := by
  refine ⟨hstate, hrecorded, fun o ho => ?_⟩
  rw [(content_split { r with nowNs := slot } o channel).2,
    (content_split { r' with nowNs := slot } o channel).2]
  have hcontent : ({ r with nowNs := slot } : Router).pendingContent o channel =
      ({ r' with nowNs := slot } : Router).pendingContent o channel := (hpending o ho).2
  rw [hcontent]
  exact congrArg (fun latency => dropWhile
    (fun p : Nat × Bytes => visible latency slot p.1) _) (hpending o ho).1

end Router

namespace Engine

/-! ## The system of activations -/

variable {e : Engine σ} {t : Task σ}

/-- An activation as far as it concerns the routing state and the state of the
participant; nothing if the participant fails. -/
def perform (t : Task σ) (e : Engine σ) : Option (Engine σ) :=
  if (e.call t).2.1.isSome then none
  else
    some { e with
      router := (e.call t).1
      states := fun o =>
        if o = t.owner then (e.call t).2.2.getD (e.states o) else e.states o }

/-- The view of a participant, and the view of the Channels that are `free`. -/
def View (keep : String → Bool) (free : String → Prop) : Option String → Engine σ → Engine σ → Prop
  | some o, e, e' =>
    e.contracts o = e'.contracts o ∧ e.limits = e'.limits ∧ e.states o = e'.states o ∧
      Router.SameFor keep o (e.contracts o).publishes e.router e'.router
  | none, e, e' => ∀ c, free c → Router.SameChannel keep c e.router e'.router

/-- What the views rest on: every Channel has one publisher at most, and none
if it is free. -/
structure Valid (free : String → Prop) (e : Engine σ) : Prop where
  opened : e.router.Open
  one_publisher : ∀ o o' c, c ∈ (e.contracts o).publishes → c ∈ (e.contracts o').publishes → o = o'
  unpublished : ∀ c, free c → ∀ o, c ∉ (e.contracts o).publishes

variable {keep : String → Bool} {free : String → Prop}

theorem View.refl (keep : String → Bool) (free : String → Prop) (i : Option String) (e : Engine σ) :
    View keep free i e e := by
  cases i with
  | none => exact fun c _ => .refl keep c e.router
  | some o => exact ⟨rfl, rfl, rfl, rfl, .refl o e.router, fun c _ => .refl keep c e.router⟩

theorem View.symm {i : Option String} {e' : Engine σ} (h : View keep free i e e') :
    View keep free i e' e := by
  cases i with
  | none => exact fun c hc => (h c hc).symm
  | some o =>
    obtain ⟨hcontract, hlimits, hstate, hnow, howner, hchannels⟩ := h
    refine ⟨hcontract.symm, hlimits.symm, hstate.symm, hnow.symm, howner.symm, ?_⟩
    rw [← hcontract]
    exact fun c hc => (hchannels c hc).symm

theorem View.trans {i : Option String} {e₁ e₂ e₃ : Engine σ} (h : View keep free i e₁ e₂)
    (h' : View keep free i e₂ e₃) : View keep free i e₁ e₃ := by
  cases i with
  | none => exact fun c hc => (h c hc).trans (h' c hc)
  | some o =>
    obtain ⟨hcontract, hlimits, hstate, hnow, howner, hchannels⟩ := h
    obtain ⟨hcontract', hlimits', hstate', hnow', howner', hchannels'⟩ := h'
    refine ⟨hcontract.trans hcontract', hlimits.trans hlimits', hstate.trans hstate',
      hnow.trans hnow', howner.trans howner', fun c hc => ?_⟩
    exact (hchannels c hc).trans (hchannels' c (hcontract ▸ hc))

theorem perform_eq_some {e₁ : Engine σ} (h : perform t e = some e₁) : (e.call t).2.1 = none ∧
      e₁ = { e with
        router := (e.call t).1
        states := fun o =>
          if o = t.owner then (e.call t).2.2.getD (e.states o) else e.states o } := by
  simp only [perform] at h
  split_ifs at h with hfail
  injection h with h
  exact ⟨by simpa using hfail, h.symm⟩

theorem perform_of_success (h : (e.call t).2.1 = none) :
    perform t e = some { e with
      router := (e.call t).1
      states := fun o =>
        if o = t.owner then (e.call t).2.2.getD (e.states o) else e.states o } := by
  simp [perform, h]

theorem call_frame (keep : String → Bool) (hopen : e.router.Open) (t : Task σ) :
    (e.call t).1.Open ∧ (∀ o, o ≠ t.owner → Router.SameOwner o e.router (e.call t).1) ∧
      ∀ c, c ∉ (e.contracts t.owner).publishes →
        Router.SameChannel keep c e.router (e.call t).1 := by
  have hnoted : (e.router.note (.activation t.owner e.router.nowNs)).Open :=
    ⟨hopen.capacity, hopen.latency, hopen.now_le⟩
  obtain ⟨hopen', howners, hchannels⟩ :=
    Router.acts_frame keep (e.call_acts false t (by simp)) hnoted
  refine ⟨hopen', fun o ho => ?_, fun c hc => ?_⟩
  · obtain ⟨hlat, hready, hintake⟩ := howners o ho
    refine ⟨hlat, hready, fun c => ?_⟩
    rw [← hintake c, Router.intake_note]
    have hne : ¬ t.owner = o := fun heq => ho heq.symm
    simp [Event.onRoute, hne]
  · obtain ⟨hstate, hrecorded, hwaiting⟩ := hchannels c hc
    exact ⟨hstate, hrecorded, hwaiting⟩

theorem call_determined (ht : t.fn.Routewise) {e' : Engine σ} (hopen : e.router.Open)
    (hopen' : e'.router.Open) (hview : View keep free (some t.owner) e e') :
    Router.Agreeing keep t.owner (e.contracts t.owner).publishes
      (e.call t) (e'.call t) := by
  obtain ⟨hcontract, hlimits, hstate, hsame⟩ := hview
  have hnoted : (e.router.note (.activation t.owner e.router.nowNs)).Open :=
    ⟨hopen.capacity, hopen.latency, hopen.now_le⟩
  have hnoted' : (e'.router.note (.activation t.owner e'.router.nowNs)).Open :=
    ⟨hopen'.capacity, hopen'.latency, hopen'.now_le⟩
  simp only [call]
  rw [← hcontract, ← hlimits, ← hstate]
  cases hfn : t.fn with
  | native fn =>
    rw [show e'.router.nowNs = e.router.nowNs from hsame.now.symm]
    have hactivated := hsame.activated
    rw [← hsame.now] at hactivated hnoted'
    exact runNative_determined hactivated hnoted hnoted' _ none
  | process step =>
    rw [hfn] at ht
    exact runProcess_determined ht hsame.activated hnoted hnoted' _ _ _

/-- The activations of routewise Tasks have separate views. -/
theorem separate (keep : String → Bool) (free : String → Prop) :
    Interleaving.Separate (perform (σ := σ)) (fun t => some t.owner)
      (View keep free) (Valid free) (fun t => t.fn.Routewise) where
  refl := View.refl keep free
  symm := fun _ _ _ => View.symm
  trans := fun _ _ _ _ => View.trans
  keep := by
    intro t e e₁ hvalid hperform
    obtain ⟨_, rfl⟩ := perform_eq_some hperform
    exact ⟨(call_frame keep hvalid.opened t).1, hvalid.one_publisher, hvalid.unpublished⟩
  frame := by
    intro t e e₁ i hvalid hperform hne
    obtain ⟨_, rfl⟩ := perform_eq_some hperform
    obtain ⟨_, howners, hchannels⟩ := call_frame keep hvalid.opened t
    cases i with
    | none => exact fun c hc => hchannels c (hvalid.unpublished c hc t.owner)
    | some o =>
      have hne' : o ≠ t.owner := fun heq => hne (congrArg some heq.symm)
      refine ⟨rfl, rfl, (if_neg hne').symm, ?_, howners o hne', fun c hc => ?_⟩
      · exact ((e.call_acts false t (by simp)).nowNs_eq).symm
      · exact hchannels c fun hmem => hne' (hvalid.one_publisher o t.owner c hc hmem)
  determined := by
    intro t e e' e₁ ht hvalid hvalid' hview hperform
    obtain ⟨hsuccess, rfl⟩ := perform_eq_some hperform
    obtain ⟨hanswer, hsame, _, _⟩ :=
      call_determined ht hvalid.opened hvalid'.opened hview
    have hsuccess' : (e'.call t).2.1 = none := by rw [← hanswer, hsuccess]
    refine ⟨_, perform_of_success hsuccess', hview.1, hview.2.1, ?_, hsame⟩
    simp only [if_true, hanswer, hview.2.2.1]

end Engine

/-! ## Manifests whose participants communicate from Slot to Slot -/

/-- No Channel has same-Slot feedthrough, no route has a capacity, and every
participant depends on its state, the time and what it takes from each
route. -/
structure Manifest.SlotToSlot (m : Manifest σ) : Prop where
  latency : ∀ c ∈ m.channels, c.latencyNs ≠ some 0
  capacity : ∀ p ∈ m.participants, ∀ s ∈ p.subscribes, s.capacity = none
  routewise : ∀ p ∈ m.participants, ∀ t ∈ p.tasks m.durationNs, t.fn.Routewise

variable {m : Manifest σ}

/-- The specification behind a route that is not the default one. -/
theorem Manifest.route_cases (m : Manifest σ) (o c : String) :
    m.route o c = ⟨none, none, .fail, []⟩ ∨ ∃ p ∈ m.participants, ∃ s ∈ p.subscribes, m.route o c =
        ⟨(m.channels.find? fun c' => c'.name == c).bind ChannelSpec.latencyNs, s.capacity,
          s.overflow, []⟩ := by
  simp only [Manifest.route]
  cases hs : (m.participants.find? fun p => p.name == o).bind fun p =>
      p.subscribes.find? fun s => s.channel == c with
  | none => exact .inl rfl
  | some s =>
    obtain ⟨p, hp, hfind⟩ := Option.bind_eq_some_iff.mp hs
    exact .inr ⟨p, mem_of_find?_eq_some hp, s, mem_of_find?_eq_some hfind, rfl⟩

theorem Manifest.route_latency (h : ∀ c ∈ m.channels, c.latencyNs ≠ some 0) (o c : String) :
    (m.route o c).latencyNs ≠ some 0 := by
  rcases m.route_cases o c with hroute | ⟨p, _, s, _, hroute⟩
  · rw [hroute]
    exact fun hnone => by cases hnone
  · rw [hroute]
    intro hlatency
    obtain ⟨c', hc', hzero⟩ := Option.bind_eq_some_iff.mp hlatency
    exact h c' (mem_of_find?_eq_some hc') hzero

theorem Manifest.SlotToSlot.router_open (h : m.SlotToSlot) : m.router.Open := by
  refine ⟨fun o c => ?_, Manifest.route_latency h.latency, Nat.zero_le _⟩
  rcases m.route_cases o c with hroute | ⟨p, hp, s, hs, hroute⟩
  · exact congrArg SubscriberRoute.capacity hroute
  · exact (congrArg SubscriberRoute.capacity hroute).trans (h.capacity p hp s hs)

/-- The publisher of a Channel is a participant that declares it. -/
theorem Manifest.exists_publisher {o c : String} (h : c ∈ (m.contract o).publishes) :
    ∃ p ∈ m.participants, p.name = o ∧ c ∈ p.publishes := by
  simp only [Manifest.contract] at h
  cases hp : m.participants.find? fun p => p.name == o with
  | none => simp [hp] at h
  | some p =>
    simp only [hp] at h
    exact ⟨p, mem_of_find?_eq_some hp, by simpa using find?_some hp, h⟩

/-- The check of the constructor gives every Channel one publisher at most. -/
theorem Manifest.publisher_unique (h : m.onePublisherPerChannel = true) {o o' c : String}
    (ho : c ∈ (m.contract o).publishes) (ho' : c ∈ (m.contract o').publishes) : o = o' := by
  obtain ⟨p, hp, rfl, hc⟩ := exists_publisher ho
  obtain ⟨p', hp', rfl, hc'⟩ := exists_publisher ho'
  have hnodup : (m.participants.flatMap ParticipantSpec.publishes).Nodup :=
    of_decide_eq_true h
  by_contra hne
  have hpne : p ≠ p' := fun heq => hne (congrArg ParticipantSpec.name heq)
  have : Std.Symm (Function.onFun List.Disjoint (ParticipantSpec.publishes (σ := σ))) :=
    ⟨fun _ _ hd => List.Disjoint.symm hd⟩
  exact (nodup_flatMap.mp hnodup).2.forall hp hp' hpne hc hc'

theorem Engine.onePublisher_of_setup {e : Engine σ} (h : setup m = some e) :
    m.onePublisherPerChannel = true := by
  rw [setup] at h
  split_ifs at h with hone
  exact hone

end SilFormal.Kernel
