import SilFormal.Kernel.ActivationTimes

/-!
# The order of Slot times

Replay participants look at the current stored Message only, and Recordings
are replayed as stored.  Virtual time therefore increases from Slot to Slot
when the replayed Messages are stored in time order, and in a Run without a
failure only then.
-/

namespace SilFormal.Kernel

open List

universe u

variable {σ : Type u}

/-- The Messages a participant replays are stored in time order. -/
def Replayer.TimeOrdered (r : Replayer) : Prop :=
  (r.reader.filter r.selects).Pairwise fun a b => a.publishNs ≤ b.publishNs

namespace Engine

variable {e : Engine σ} {r : Replayer}

/-- Every Replay participant replays in time order. -/
def TimeOrdered (e : Engine σ) : Prop :=
  ∀ r ∈ e.replayers, r.TimeOrdered

/-- Everything pending lies after the Slots opened so far. -/
structure Ascending (e : Engine σ) : Prop where
  slots : e.slots.Pairwise (· < ·)
  tasks_after : ∀ s ∈ e.slots, ∀ t ∈ e.tasks, t.done = false → s < t.nextNs
  replays_after : ∀ s ∈ e.slots, ∀ r ∈ e.replayers, ∀ msg ∈ r.reader,
    r.selects msg = true → s < msg.publishNs
  ordered : e.TimeOrdered

theorem Ascending.lt_slot (h : e.Ascending) (hs : e.Scheduled) (hslot : e.slot ≠ uint64Max) :
    ∀ s ∈ e.slots, s < e.slot := by
  intro s hmem
  rcases e.slot_attained with hmax | ⟨t, ht, hdone, hnext⟩ | ⟨r, hr, hnext⟩
  · exact absurd hmax hslot
  · rw [← hnext]
    exact h.tasks_after s hmem t ht hdone
  · cases hreader : r.reader with
    | nil =>
      refine absurd ?_ hslot
      rw [← hnext]
      simp [Replayer.nextPublishNs, hreader]
    | cons msg rest =>
      have hsel := hs.current r hr msg (by simp [hreader])
      have hlt := h.replays_after s hmem r hr msg (by simp [hreader]) hsel
      rw [← hnext]
      simpa [Replayer.nextPublishNs, hreader] using hlt

theorem Ascending.slots_append (h : e.Ascending) (hs : e.Scheduled) (hslot : e.slot ≠ uint64Max) :
    (e.slots ++ [e.slot]).Pairwise (· < ·) := by
  rw [pairwise_append]
  refine ⟨h.slots, pairwise_singleton _ _, ?_⟩
  intro a ha b hb
  rw [mem_singleton.mp hb]
  exact h.lt_slot hs hslot a ha

/-- What a served pass has left lies after the Slot. -/
theorem served_after {slot : Nat} (hord : r.TimeOrdered) (hle : slot ≤ r.nextPublishNs)
    (hcurrent : ∀ msg ∈ r.reader.head?, r.selects msg = true) :
    ∀ msg ∈ (r.served slot).reader, r.selects msg = true → slot < msg.publishNs := by
  -- no selected Message lies before the Slot
  have hge : ∀ msg ∈ r.reader, r.selects msg = true → slot ≤ msg.publishNs := by
    intro msg hmsg hsel
    cases hreader : r.reader with
    | nil =>
      rw [hreader] at hmsg
      cases hmsg
    | cons first rest =>
      have hfirst := hcurrent first (by simp [hreader])
      have hnext : r.nextPublishNs = first.publishNs := by
        simp [Replayer.nextPublishNs, hreader]
      rw [hnext] at hle
      rw [hreader] at hmsg
      rcases mem_cons.mp hmsg with rfl | hrest
      · exact hle
      · have hpair := hord
        unfold Replayer.TimeOrdered at hpair
        rw [hreader, filter_cons_of_pos hfirst, pairwise_cons] at hpair
        exact hle.trans (hpair.1 msg (mem_filter.mpr ⟨hrest, hsel⟩))
  intro msg hmsg hsel
  have hsub := dropWhile_sublist (r.passes slot) (l := r.reader)
  cases hdrop : r.reader.dropWhile (r.passes slot) with
  | nil => simp [Replayer.served, hdrop] at hmsg
  | cons first rest =>
    -- the first Message left is selected and not of this Slot
    have hstop := head_dropWhile_eq_false (p := r.passes slot) (l := r.reader)
      (x := first) (by simp [hdrop])
    simp only [Replayer.passes, Bool.or_eq_false_iff, Bool.not_eq_false',
      beq_eq_false_iff_ne] at hstop
    obtain ⟨hfsel, hfne⟩ := hstop
    have hfge := hge first (hsub.subset (by simp [hdrop])) hfsel
    have hsorted : (first :: rest).filter r.selects |>.Pairwise
        fun a b => a.publishNs ≤ b.publishNs := by
      rw [← hdrop]
      exact List.Pairwise.sublist (hsub.filter _) hord
    rw [filter_cons_of_pos hfsel, pairwise_cons] at hsorted
    have hmem : msg ∈ first :: rest := by
      simpa [Replayer.served, hdrop] using hmsg
    rcases mem_cons.mp hmem with rfl | hrest
    · omega
    · have := hsorted.1 msg (mem_filter.mpr ⟨hrest, hsel⟩)
      omega

theorem Ascending.runSlot (h : e.Ascending) (hs : e.Scheduled) (hslot : e.slot ≠ uint64Max)
    (hf : (e.runSlot e.slot).failure = none) : (e.runSlot e.slot).Ascending := by
  have hlt := h.lt_slot hs hslot
  constructor
  · rw [runSlot_slots]
    exact h.slots_append hs hslot
  · intro s hmem t' ht' hdone
    rw [runSlot_slots, mem_append, mem_singleton] at hmem
    have hle : s ≤ e.slot := by
      rcases hmem with hmem | rfl
      · exact (hlt s hmem).le
      · exact le_rfl
    rw [runSlot_tasks hs hf] at ht'
    obtain ⟨t, ht, rfl⟩ := mem_map.mp ht'
    split_ifs at hdone ⊢ with hdue
    · have hperiod := hs.period_pos t ht
      rcases Task.advance_cases hs.duration_le t with ⟨hd, _⟩ | ⟨_, hn, _⟩
      · rw [hd] at hdone
        cases hdone
      · omega
    · have hge := slot_le_nextNs ht hdone
      have hne : t.nextNs ≠ e.slot := fun heq => hdue ⟨hdone, heq⟩
      omega
  · intro s hmem r' hr' msg hmsg hsel
    rw [runSlot_slots, mem_append, mem_singleton] at hmem
    rw [runSlot_replayers hs hf] at hr'
    obtain ⟨r, hr, rfl⟩ := mem_map.mp hr'
    have hafter := served_after (h.ordered r hr) (slot_le_nextPublishNs hr)
      (hs.current r hr) msg hmsg hsel
    rcases hmem with hmem | rfl
    · exact (hlt s hmem).trans hafter
    · exact hafter
  · intro r' hr'
    rw [runSlot_replayers hs hf] at hr'
    obtain ⟨r, hr, rfl⟩ := mem_map.mp hr'
    exact List.Pairwise.sublist ((dropWhile_sublist _).filter _) (h.ordered r hr)

/-- Replays in time order never turn virtual time back. -/
theorem reach_slots_pairwise {e' : Engine σ} (h : e.Ascending) (hs : e.Scheduled)
    (hr : Loop.Reach step e e') :
    e'.slots.Pairwise (· < ·) ∧ (e'.failure = none → e'.Ascending) := by
  induction hr with
  | refl => exact ⟨h.slots, fun _ => h⟩
  | tail hreach hstep ih =>
    obtain ⟨hfail, hslot, rfl⟩ := step_eq_some hstep
    have hasc := ih.2 hfail
    have hsch := reach_scheduled hs hreach
    refine ⟨?_, hasc.runSlot hsch hslot⟩
    rw [runSlot_slots]
    exact hasc.slots_append hsch hslot

/-! ## The converse -/

/-- A pass over a Recording so far: what it has moved beyond was replayed in
Slots of its own time, so it was in time order if the Slots were. -/
structure Replayed (slots : List Nat) (r₀ r : Replayer) : Prop where
  channels : r.channels = r₀.channels
  duration : r.durationNs = r₀.durationNs
  split : ∃ gone, r₀.reader = gone ++ r.reader ∧
    (∀ msg ∈ gone, r₀.selects msg = true → msg.publishNs ∈ slots) ∧
    (slots.Pairwise (· < ·) →
      (gone.filter r₀.selects).Pairwise fun a b => a.publishNs ≤ b.publishNs)

theorem Replayed.selects_eq {slots : List Nat} {r₀ : Replayer} (h : Replayed slots r₀ r) :
    r.selects = r₀.selects := by
  funext msg
  unfold Replayer.selects
  rw [h.channels, h.duration]

theorem Replayed.served {slots : List Nat} {r₀ : Replayer} (h : Replayed slots r₀ r) (slot : Nat) :
    Replayed (slots ++ [slot]) r₀ (r.served slot) := by
  obtain ⟨gone, hsplit, hmem, hsorted⟩ := h.split
  have hnow : ∀ msg ∈ r.reader.takeWhile (r.passes slot),
      r₀.selects msg = true → msg.publishNs = slot := by
    intro msg hmsg hsel
    have hpass := mem_takeWhile_imp hmsg
    rw [← h.selects_eq] at hsel
    simpa [Replayer.passes, hsel] using hpass
  refine ⟨h.channels, h.duration, gone ++ r.reader.takeWhile (r.passes slot), ?_, ?_, ?_⟩
  · rw [hsplit, append_assoc]
    exact congrArg _ takeWhile_append_dropWhile.symm
  · intro msg hmsg hsel
    rcases mem_append.mp hmsg with hold | hnew
    · exact mem_append_left _ (hmem msg hold hsel)
    · rw [hnow msg hnew hsel]
      simp
  · intro hpair
    rw [pairwise_append] at hpair
    rw [filter_append, pairwise_append]
    refine ⟨hsorted hpair.1, ?_, ?_⟩
    · apply pairwise_of_forall_mem_list
      intro a ha b hb
      obtain ⟨ha, hasel⟩ := mem_filter.mp ha
      obtain ⟨hb, hbsel⟩ := mem_filter.mp hb
      rw [hnow a ha hasel, hnow b hb hbsel]
    · intro a ha b hb
      obtain ⟨ha, hasel⟩ := mem_filter.mp ha
      obtain ⟨hb, hbsel⟩ := mem_filter.mp hb
      rw [hnow b hb hbsel]
      exact (hpair.2.2 _ (hmem a ha hasel) slot (by simp)).le

theorem reach_replayed {e' : Engine σ} (hs : e.Scheduled) (hr : Loop.Reach step e e')
    (hf : e'.failure = none) : ∀ r₀ ∈ e.replayers, ∃ r ∈ e'.replayers, Replayed e'.slots r₀ r := by
  induction hr with
  | refl =>
    intro r₀ hr₀
    exact ⟨r₀, hr₀, rfl, rfl, [], rfl, by simp, by simp⟩
  | tail hreach hstep ih =>
    obtain ⟨hfail, _, rfl⟩ := step_eq_some hstep
    have hsch := reach_scheduled hs hreach
    intro r₀ hr₀
    obtain ⟨r, hr, hrep⟩ := ih hfail r₀ hr₀
    rw [runSlot_replayers hsch hf, runSlot_slots]
    exact ⟨_, mem_map_of_mem hr, hrep.served _⟩

@[simp] theorem shutdown_slots (e : Engine σ) : e.shutdown.slots = e.slots := by
  unfold shutdown
  split_ifs
  · rfl
  · split <;> rfl

/-- Slot times are strictly increasing in every Run whose Replay participants
replay Messages stored in time order, and a Run without a failure has strictly
increasing Slot times only then. -/
theorem slot_times_increase (m : Manifest σ) (e : Engine σ) (hduration : m.durationNs ≤ uint64Max)
    (hsetup : setup m = some e) :
    (e.TimeOrdered → e.run.slots.Pairwise (· < ·)) ∧
      (e.NoFailure → e.run.slots.Pairwise (· < ·) → e.TimeOrdered) := by
  obtain ⟨hs, _, _, _, _, hslots, _⟩ := setup_filling hduration hsetup
  have hrun : e.run.slots = e.loop.slots := shutdown_slots e.loop
  rw [hrun]
  constructor
  · intro hord
    have hasc : e.Ascending :=
      ⟨by simp [hslots], by simp [hslots], by simp [hslots], hord⟩
    exact (reach_slots_pairwise hasc hs e.loop_reach).1
  · intro hno hpair r₀ hr₀
    have hf := hno e.loop e.loop_reach
    obtain ⟨r, hr, hrep⟩ := reach_replayed hs e.loop_reach hf r₀ hr₀
    obtain ⟨gone, hsplit, _, hsorted⟩ := hrep.split
    have hdone := (reach_scheduled hs e.loop_reach).all_done
      (step_eq_none (loop_halted hs) hf)
    rw [hdone.2 r hr, append_nil] at hsplit
    unfold Replayer.TimeOrdered
    rw [hsplit]
    exact hsorted hpair

/-- A publisher whose Channel delays what is published before 5 ns by 15 ns. -/
def delayedManifest : Manifest Unit where
  durationNs := 30
  channels :=
    [⟨"speed", "byte", 1, none, ⟨30, [⟨.delay, 0, 5, true, 15, 0, 0, []⟩]⟩⟩]
  participants :=
    [⟨"sensor", .native [] ["speed"]
      [⟨"sample", 10, 0, 0, fun now _ => .publish "speed" [UInt8.ofNat now] fun _ => .ret ()⟩]⟩]
  initial := fun _ => ()
  limits := {}

/-- A Replay participant in the publisher's place. -/
def replayManifest (recording : List RecordedMessage) : Manifest Unit where
  durationNs := 30
  channels := [⟨"speed", "byte", 1, none, ⟨30, []⟩⟩]
  participants := [⟨"sensor", .replay ["speed"] none recording⟩]
  initial := fun _ => ()
  limits := {}

theorem slot_times_increase_replay :
    ∃ e, setup (replayManifest [⟨10, "speed", [10]⟩, ⟨15, "speed", [0]⟩]) = some e ∧
      e.TimeOrdered ∧ e.run.slots = [10, 15] ∧
      e.run.slots.Pairwise (· < ·) := by
  have hduration : (replayManifest [⟨10, "speed", [10]⟩,
      ⟨15, "speed", [0]⟩]).durationNs ≤ uint64Max := by decide
  refine ⟨_, rfl, ?_⟩
  have hordered : Engine.TimeOrdered
      ((create (replayManifest [⟨10, "speed", [10]⟩, ⟨15, "speed", [0]⟩])).addReplayer
        "sensor" none ["speed"] [⟨10, "speed", [10]⟩, ⟨15, "speed", [0]⟩]) := by
    intro r hr
    rw [show r = _ from mem_singleton.mp hr]
    unfold Replayer.TimeOrdered
    decide
  exact ⟨hordered, rfl, (slot_times_increase _ _ hduration rfl).1 hordered⟩

/-- The Recording of the delayed publisher is stored in publish order, which
is not time order, and its replay opens a Slot at 10 ns after one at 15 ns. -/
theorem replay_turns_back : ∃ e₁ e₂, setup delayedManifest = some e₁ ∧ e₁.Completes ∧
      setup (replayManifest e₁.run.router.messages) = some e₂ ∧ e₂.Completes ∧
      e₂.run.slots = [15, 10, 20] ∧ ¬ e₂.run.slots.Pairwise (· < ·) := by
  refine ⟨_, _, rfl, rfl, rfl, rfl, ?_⟩
  have hslots : ∀ l : List Nat, l = [15, 10, 20] → l = [15, 10, 20] ∧ ¬ l.Pairwise (· < ·) := by
    rintro l rfl
    exact ⟨rfl, by decide⟩
  exact hslots _ rfl

end Engine

end SilFormal.Kernel
