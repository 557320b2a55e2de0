import SilFormal.Kernel.Separation
import SilFormal.Kernel.Publishes

/-!
# Replacing participants by a Recording

`Manifest.withReplay` is a Manifest with some participants removed and one
Replay participant without a priority added, which replays the Channels the
removed ones publish.  The module relates what the two Manifests declare to
those who stay.
-/

namespace SilFormal.Kernel

open List

universe u

variable {σ : Type u}

theorem ParticipantSpec.replayers_of_not_isReplay {p : ParticipantSpec σ} (h : p.isReplay = false)
    (durationNs : Nat) : p.replayers durationNs = [] := by
  rw [isReplay] at h
  rw [replayers]
  cases himpl : p.impl with
  | replay channels priority recording => simp [himpl] at h
  | _ => rfl

namespace Manifest

/-- The participants that stay. -/
def retained (m : Manifest σ) (removed : String → Bool) : List (ParticipantSpec σ) :=
  m.participants.filter fun p => !removed p.name

/-- The Channels that the removed participants publish. -/
def publishedBy (m : Manifest σ) (removed : String → Bool) : List String :=
  (m.participants.filter fun p => removed p.name).flatMap ParticipantSpec.publishes

/-- The Replay participant in the place of the removed ones. -/
def replaySpec (m : Manifest σ) (removed : String → Bool) (name : String)
    (recording : List RecordedMessage) : ParticipantSpec σ :=
  ⟨name, .replay (m.publishedBy removed) none recording⟩

/-- The Manifest in which a Replay participant, at some position in the name
order, publishes from a Recording what the removed participants published.
Its Channels carry no interceptors. -/
def withReplay (m : Manifest σ) (removed : String → Bool) (name : String) (position : Nat)
    (recording : List RecordedMessage) :
    Manifest σ where
  durationNs := m.durationNs
  channels := m.channels.map fun c =>
    if c.name ∈ m.publishedBy removed then
      { c with interceptorPlan := ⟨m.durationNs, []⟩ }
    else c
  participants := (m.retained removed).take position ++
    m.replaySpec removed name recording :: (m.retained removed).drop position
  initial := m.initial
  limits := m.limits

/-- Whether a name is that of a participant that stays. -/
def stays (removed : String → Bool) (name owner : String) : Bool :=
  !removed owner && owner != name

theorem stays_iff {removed : String → Bool} {name owner : String} :
    stays removed name owner = true ↔ removed owner = false ∧ owner ≠ name := by
  simp [stays]

section Participants

variable
    {m : Manifest σ} {removed : String → Bool} {name : String} {position : Nat}
    {recording : List RecordedMessage} {p : ParticipantSpec σ} {owner : String}

theorem mem_retained : p ∈ m.retained removed ↔ p ∈ m.participants ∧ removed p.name = false := by
  simp [retained]

theorem withReplay_perm : (m.withReplay removed name position recording).participants.Perm
      (m.replaySpec removed name recording :: m.retained removed) := by
  refine perm_middle.trans (.cons _ ?_)
  rw [take_append_drop]

theorem withReplay_flatMap {β : Type*} (f : ParticipantSpec σ → List β)
    (hreplay : f (m.replaySpec removed name recording) = []) :
    (m.withReplay removed name position recording).participants.flatMap f =
      (m.retained removed).flatMap f := by
  rw [withReplay, flatMap_append, flatMap_cons, hreplay, nil_append,
    ← flatMap_append, take_append_drop]

theorem withReplay_find? (h : stays removed name owner = true) :
    (m.withReplay removed name position recording).participants.find?
        (fun p => p.name == owner) =
      m.participants.find? fun p => p.name == owner := by
  obtain ⟨hremoved, hne⟩ := stays_iff.mp h
  have hskip : ((m.replaySpec removed name recording).name == owner) = false := by
    simpa [replaySpec] using fun heq => hne heq.symm
  have hfind : (m.withReplay removed name position recording).participants.find?
      (fun p => p.name == owner) = (m.retained removed).find? fun p => p.name == owner := by
    conv_rhs => rw [← take_append_drop position (m.retained removed)]
    rw [withReplay, find?_append, find?_append, find?_cons, hskip]
  rw [hfind, retained, find?_filter]
  congr 1
  funext p
  by_cases hp : p.name = owner
  · simp [hp, hremoved]
  · simp [hp]

theorem withReplay_contract (h : stays removed name owner = true) :
    (m.withReplay removed name position recording).contract owner = m.contract owner := by
  rw [contract, contract, withReplay_find? h]

theorem withReplay_onePublisher (h : m.onePublisherPerChannel = true) :
    (m.withReplay removed name position recording).onePublisherPerChannel = true := by
  refine decide_eq_true ?_
  have hnodup : (m.participants.flatMap ParticipantSpec.publishes).Nodup :=
    of_decide_eq_true h
  have hsplit : ((m.participants.filter fun p => removed p.name) ++
      m.retained removed).Perm m.participants :=
    filter_append_perm _ _
  rw [(withReplay_perm.flatMap_right _).nodup_iff]
  rw [← (hsplit.flatMap_right _).nodup_iff, flatMap_append] at hnodup
  exact hnodup

variable (hname : ∀ p ∈ m.retained removed, p.name ≠ name)

include hname

theorem stays_of_mem_retained (hp : p ∈ m.retained removed) : stays removed name p.name = true :=
  stays_iff.mpr ⟨(mem_retained.mp hp).2, hname p hp⟩

/-- Whoever publishes a Channel in the new Manifest is one who stays, or the
Replay participant. -/
theorem withReplay_publishes {c : String}
    (h : c ∈ ((m.withReplay removed name position recording).contract owner).publishes) :
    stays removed name owner = true ∨ (owner = name ∧ c ∈ m.publishedBy removed) := by
  obtain ⟨p, hp, rfl, hc⟩ := exists_publisher h
  rcases mem_cons.mp (withReplay_perm.mem_iff.mp hp) with rfl | hp
  · exact .inr ⟨rfl, hc⟩
  · exact .inl (stays_of_mem_retained hname hp)

theorem withReplay_subscribers (c : String) :
    (m.withReplay removed name position recording).subscribers c =
      (m.subscribers c).filter (stays removed name) := by
  have hreplay : ∀ P : ParticipantSpec σ → Bool, P (m.replaySpec removed name recording) = false →
      (m.withReplay removed name position recording).participants.filter P =
        (m.retained removed).filter P := by
    intro P hP
    conv_rhs => rw [← take_append_drop position (m.retained removed)]
    rw [withReplay, filter_append, filter_append, filter_cons_of_neg (by simp [hP])]
  rw [subscribers, subscribers, hreplay _ (by simp [replaySpec,
    ParticipantSpec.subscribes]), filter_map, retained, filter_filter,
    filter_filter]
  congr 1
  refine filter_congr fun p hp => ?_
  rw [Bool.and_comm]
  by_cases hremoved : removed p.name = true
  · simp [hremoved, stays]
  · have hne := hname p (mem_retained.mpr ⟨hp, by simpa using hremoved⟩)
    simp [hremoved, stays, hne]

theorem withReplay_loaded (h : m.Loaded) (hpublished : m.publishedBy removed ≠ []) :
    (m.withReplay removed name position recording).Loaded := by
  have hnames : ∀ (l : List ChannelSpec), (l.map fun c => if c.name ∈ m.publishedBy removed then
        { c with interceptorPlan := (⟨m.durationNs, []⟩ : InterceptorPlan) } else c).map
          ChannelSpec.name = l.map ChannelSpec.name := by
    intro l
    rw [map_map]
    refine map_congr_left fun c _ => ?_
    simp only [Function.comp_apply]
    split_ifs <;> rfl
  refine ⟨h.duration_le, ?_, ?_, ?_, ?_, ?_⟩
  · rw [(withReplay_perm.map _).nodup_iff, map_cons, nodup_cons]
    refine ⟨fun hmem => ?_, h.participant_names.sublist (filter_sublist.map _)⟩
    obtain ⟨p, hp, heq⟩ := mem_map.mp hmem
    exact hname p hp heq
  · rw [withReplay, hnames]
    exact h.channel_names
  · intro p hp
    rcases mem_cons.mp (withReplay_perm.mem_iff.mp hp) with rfl | hp
    · simp [replaySpec, ParticipantSpec.subscribes]
    · exact h.subscribes_once p (mem_retained.mp hp).1
  · intro c hc
    obtain ⟨c₀, hc₀, rfl⟩ := mem_map.mp hc
    split_ifs
    · rfl
    · exact h.plan_duration c₀ hc₀
  · intro p hp hreplay
    rcases mem_cons.mp (withReplay_perm.mem_iff.mp hp) with rfl | hp
    · exact hpublished
    · exact h.replay_channels p (mem_retained.mp hp).1 hreplay

theorem withReplay_contract_name (h : m.Loaded) (hpublished : m.publishedBy removed ≠ []) :
    (m.withReplay removed name position recording).contract name = ⟨[], m.publishedBy removed⟩ := by
  have hmem : m.replaySpec removed name recording ∈
      (m.withReplay removed name position recording).participants :=
    withReplay_perm.mem_iff.mpr (by simp)
  exact contract_eq (withReplay_loaded hname h hpublished) hmem

end Participants

section Channels

variable
    {m : Manifest σ} {removed : String → Bool} {name : String} {position : Nat}
    {recording : List RecordedMessage} {c : String}

theorem withReplay_find?_channel (c : String) :
    (m.withReplay removed name position recording).channels.find?
        (fun s => s.name == c) =
      (m.channels.find? fun s => s.name == c).map fun s =>
        if c ∈ m.publishedBy removed then
          { s with interceptorPlan := ⟨m.durationNs, []⟩ }
        else s := by
  have hname : ((fun s : ChannelSpec => s.name == c) ∘ fun s : ChannelSpec =>
      if s.name ∈ m.publishedBy removed then
        { s with interceptorPlan := (⟨m.durationNs, []⟩ : InterceptorPlan) }
      else s) = fun s => s.name == c := by
    funext s
    simp only [Function.comp_apply]
    split_ifs <;> rfl
  rw [withReplay, find?_map, hname]
  cases hfind : m.channels.find? fun s => s.name == c with
  | none => rfl
  | some s =>
    have heq : s.name = c := by simpa using find?_some hfind
    simp only [Option.map_some, heq]

/-- Those who stay have the routes they had. -/
theorem withReplay_route {owner : String} (h : stays removed name owner = true) (c : String) :
    (m.withReplay removed name position recording).route owner c = m.route owner c := by
  have hlatency : ((m.withReplay removed name position recording).channels.find?
      fun s => s.name == c).bind ChannelSpec.latencyNs =
        (m.channels.find? fun s => s.name == c).bind ChannelSpec.latencyNs := by
    rw [withReplay_find?_channel]
    cases m.channels.find? fun s => s.name == c with
    | none => rfl
    | some s =>
      split_ifs <;> rfl
  rw [route, route, withReplay_find? h, hlatency]

/-- A replayed Channel has no interceptors. -/
theorem withReplay_plain (hc : c ∈ m.publishedBy removed) {st : ChannelState}
    (h : (m.withReplay removed name position recording).channelState c = some st) :
    st.plan.steps = [] ∧ st.plan.durationNs = m.durationNs := by
  rw [channelState, withReplay_find?_channel, Option.map_map] at h
  obtain ⟨s, _, rfl⟩ := Option.map_eq_some_iff.mp h
  simp only [if_pos hc]
  exact ⟨rfl, rfl⟩

theorem withReplay_byteSize {st : ChannelState} (h : m.channelState c = some st) :
    ∃ st', (m.withReplay removed name position recording).channelState c = some st' ∧
      st'.byteSize = st.byteSize := by
  obtain ⟨s, hs, rfl⟩ := Option.map_eq_some_iff.mp h
  rw [channelState, withReplay_find?_channel, hs]
  refine ⟨_, rfl, ?_⟩
  split_ifs <;> rfl

/-- Other Channels are what they were to those who stay. -/
theorem withReplay_channelState (hname : ∀ p ∈ m.retained removed, p.name ≠ name)
    (hc : c ∉ m.publishedBy removed) :
    (m.channelState c).map (ChannelState.restrict (stays removed name)) =
      ((m.withReplay removed name position recording).channelState c).map
        (ChannelState.restrict (stays removed name)) := by
  rw [channelState, channelState, withReplay_find?_channel,
    withReplay_subscribers hname, Option.map_map, Option.map_map, Option.map_map]
  congr 1
  funext s
  simp only [Function.comp_apply, if_neg hc, ChannelState.restrict, filter_filter, Bool.and_self]

theorem withReplay_slotToSlot (h : m.SlotToSlot) :
    (m.withReplay removed name position recording).SlotToSlot := by
  refine ⟨?_, ?_, ?_⟩
  · intro c hc
    obtain ⟨c₀, hc₀, rfl⟩ := mem_map.mp hc
    split_ifs
    · exact h.latency c₀ hc₀
    · exact h.latency c₀ hc₀
  · intro p hp
    rcases mem_cons.mp (withReplay_perm.mem_iff.mp hp) with rfl | hp
    · simp [replaySpec, ParticipantSpec.subscribes]
    · exact h.capacity p (mem_retained.mp hp).1
  · intro p hp
    rcases mem_cons.mp (withReplay_perm.mem_iff.mp hp) with rfl | hp
    · simp [replaySpec, ParticipantSpec.tasks]
    · exact h.routewise p (mem_retained.mp hp).1

theorem exists_setup_withReplay {e : Engine σ} (hloaded : m.Loaded) (h : Engine.setup m = some e) :
    ∃ e', Engine.setup (m.withReplay removed name position recording) = some e' := by
  refine Engine.exists_setup (withReplay_onePublisher (Engine.onePublisher_of_setup h))
    fun p hp t ht => ?_
  rcases mem_cons.mp (withReplay_perm.mem_iff.mp hp) with rfl | hp
  · simp [replaySpec, ParticipantSpec.tasks] at ht
  · exact Engine.periodNs_ne_zero_of_setup hloaded.duration_le h (mem_retained.mp hp).1 ht

end Channels

end Manifest

end SilFormal.Kernel
