import SilFormal.Kernel.Registration
import SilFormal.Kernel.SlotRun

/-!
# Exact activation times

In a Run without a failure every Task is activated at the instants
`offset + k * period` below the duration, once each and in increasing order,
with the sums taken in unbounded naturals.  The invariant of the loop is that
the activations a Task has had, followed by those still pending, are the ones
it started with.
-/

namespace SilFormal.Kernel

open List

universe u

variable {σ : Type u} {start period bound : Nat}

/-- The instants `start + k * period` below `bound`, in increasing order. -/
def progression (start period bound : Nat) : List Nat :=
  (List.range ((bound - start + (period - 1)) / period)).map
    fun k => start + k * period

theorem lt_progression_length_iff {k : Nat} (hperiod : 0 < period) :
    k < (bound - start + (period - 1)) / period ↔ start + k * period < bound := by
  rw [← Nat.succ_le_iff, Nat.le_div_iff_mul_le hperiod, Nat.succ_mul]
  omega

theorem mem_progression_iff {x : Nat} (hperiod : 0 < period) : x ∈ progression start period bound ↔
      ∃ k, x = start + k * period ∧ x < bound := by
  unfold progression
  simp only [mem_map, mem_range]
  constructor
  · rintro ⟨k, hk, rfl⟩
    exact ⟨k, rfl, (lt_progression_length_iff hperiod).mp hk⟩
  · rintro ⟨k, rfl, hlt⟩
    exact ⟨k, (lt_progression_length_iff hperiod).mpr hlt, rfl⟩

theorem progression_pairwise (start bound : Nat) (hperiod : 0 < period) :
    (progression start period bound).Pairwise (· < ·) := by
  unfold progression
  rw [pairwise_map]
  refine pairwise_lt_range.imp ?_
  intro a b hab
  have := Nat.mul_lt_mul_of_pos_right hab hperiod
  omega

theorem progression_of_le (h : bound ≤ start) : progression start period bound = [] := by
  unfold progression
  have hzero : (bound - start + (period - 1)) / period = 0 := by
    rw [Nat.sub_eq_zero_of_le h]
    rcases Nat.eq_zero_or_pos period with rfl | hp
    · rfl
    · exact Nat.div_eq_of_lt (by omega)
  rw [hzero]
  rfl

/-- One activation takes the first instant off the progression. -/
theorem progression_cons (hperiod : 0 < period) (h : start < bound) :
    progression start period bound = start :: progression (start + period) period bound := by
  have hlen : (bound - start + (period - 1)) / period =
      (bound - (start + period) + (period - 1)) / period + 1 := by
    by_cases hle : start + period ≤ bound
    · rw [← Nat.add_div_right _ hperiod]
      congr 1
      omega
    · have hzero : (bound - (start + period) + (period - 1)) / period = 0 :=
        Nat.div_eq_of_lt (by omega)
      rw [hzero]
      exact Nat.div_eq_of_lt_le (by omega) (by omega)
  unfold progression
  rw [hlen, range_succ_eq_map, map_cons, map_map, zero_mul]
  congr 1
  apply map_congr_left
  intro k _
  simp only [Function.comp_apply, Nat.succ_mul]
  omega

/-- The Tasks that a participant declares: the owner, the name, the offset and the
period. -/
def ParticipantSpec.declared (p : ParticipantSpec σ) : List (String × String × Nat × Nat) :=
  match p.impl with
  | .native _ _ tasks => tasks.map fun t => (p.name, t.name, t.offsetNs, t.periodNs)
  | .process stepPeriodNs _ _ _ _ _ => [(p.name, "step", 0, stepPeriodNs)]
  | .replay _ _ _ => []

namespace Task

/-- The activations a Task still has before it. -/
def pendingTimes (durationNs : Nat) (t : Task σ) : List Nat :=
  if t.done then [] else progression t.nextNs t.periodNs durationNs

/-- An activation takes place at the first pending instant. -/
theorem pendingTimes_advance {durationNs : Nat} (hdur : durationNs ≤ uint64Max) {t : Task σ}
    (hperiod : 0 < t.periodNs) (hdone : t.done = false) (hlt : t.nextNs < durationNs) :
    t.pendingTimes durationNs = t.nextNs :: (t.advance durationNs).pendingTimes durationNs := by
  unfold pendingTimes
  rw [hdone, if_neg Bool.false_ne_true, progression_cons hperiod hlt]
  rcases advance_cases hdur t with ⟨hd, hge⟩ | ⟨hd, hn, _⟩
  · rw [hd, if_pos rfl, progression_of_le hge]
  · rw [hd, hdone, if_neg Bool.false_ne_true, hn, advance_periodNs]

end Task

namespace Engine

variable {e : Engine σ}

/-- Past and pending activations of every Task. -/
def itinerary (e : Engine σ) : List (Nat × List Nat) :=
  e.tasks.map fun t =>
    (t.registrationIndex, e.activationTimes t.registrationIndex ++ t.pendingTimes e.durationNs)

/-- An iteration without a failure moves activations from pending to past. -/
theorem runSlot_itinerary (h : e.Scheduled) {slot : Nat} (hf : (e.runSlot slot).failure = none) :
    (e.runSlot slot).itinerary = e.itinerary := by
  unfold itinerary
  rw [runSlot_tasks h hf, map_map]
  apply map_congr_left
  intro t ht
  have hindex : (if t.done = false ∧ t.nextNs = slot then t.advance e.durationNs
      else t).registrationIndex = t.registrationIndex := by
    split_ifs
    · exact Task.advance_registrationIndex _ _
    · rfl
  simp only [Function.comp_apply]
  rw [hindex, runSlot_activationTimes h hf ht, runSlot_durationNs]
  split_ifs with hdue
  · rw [Task.pendingTimes_advance h.duration_le (h.period_pos t ht) hdue.1
      (h.next_lt t ht hdue.1), hdue.2]
    simp
  · simp

/-- No participant fails in the Run. -/
def NoFailure (e : Engine σ) : Prop :=
  ∀ e', Loop.Reach step e e' → e'.failure = none

/-- A failure ends the Run, so the end of the Run shows whether there was
one. -/
theorem noFailure_of_loop (h : e.Scheduled) (hf : e.loop.failure = none) : e.NoFailure := by
  intro e' hr
  by_contra hne
  have hhalt : Loop.Halted step e' := by
    unfold Loop.Halted step
    rw [if_pos (Option.isSome_iff_ne_none.mpr hne)]
  rw [hr.eq_run_of_halted hhalt (loop_halted h)] at hne
  exact hne hf

theorem reach_itinerary {e' : Engine σ} (h : e.Scheduled) (hr : Loop.Reach step e e')
    (hf : e'.failure = none) : e'.itinerary = e.itinerary := by
  induction hr with
  | refl => rfl
  | tail hreach hstep ih =>
    obtain ⟨hfail, _, rfl⟩ := step_eq_some hstep
    rw [runSlot_itinerary (reach_scheduled h hreach) hf, ih hfail]

/-- At the end of a Run without a failure nothing is pending, so the past
activations of a Task are all of them. -/
theorem loop_activationTimes (h : e.Scheduled) (hactivations : e.activations = [])
    (hf : e.loop.failure = none) {t : Task σ} (ht : t ∈ e.tasks) :
    e.loop.activationTimes t.registrationIndex = t.pendingTimes e.durationNs := by
  have hlast := reach_scheduled h e.loop_reach
  have hdone := (hlast.all_done (step_eq_none (loop_halted h) hf)).1
  have hitin := reach_itinerary h e.loop_reach hf
  have hmem : (t.registrationIndex, t.pendingTimes e.durationNs) ∈ e.loop.itinerary := by
    rw [hitin]
    refine mem_map.mpr ⟨t, ht, ?_⟩
    simp [activationTimes, hactivations]
  obtain ⟨t', ht', heq⟩ := mem_map.mp hmem
  obtain ⟨hidx, htimes⟩ := Prod.mk.inj heq
  rw [← htimes, ← hidx]
  simp [Task.pendingTimes, hdone t' ht']

@[simp] theorem shutdown_activations (e : Engine σ) : e.shutdown.activations = e.activations := by
  unfold shutdown
  split_ifs
  · rfl
  · split <;> rfl

theorem run_activationTimes (e : Engine σ) (index : Nat) :
    e.run.activationTimes index = e.loop.activationTimes index := by
  unfold activationTimes run
  rw [shutdown_activations]

/-- The Tasks of the engine are those that the Manifest declares. -/
theorem setup_declared {m : Manifest σ} (h : setup m = some e) :
    (e.tasks.map fun t => (t.owner, t.name, t.nextNs, t.periodNs)) =
      m.participants.flatMap ParticipantSpec.declared := by
  have hunindexed : (e.tasks.map fun t => (t.owner, t.name, t.nextNs, t.periodNs)) =
      (e.tasks.map Task.unindexed).map fun t => (t.owner, t.name, t.nextNs, t.periodNs) := by
    rw [map_map]
    rfl
  rw [hunindexed, (setup_registered h).1, map_flatMap]
  refine flatMap_congr fun p _ => ?_
  rw [ParticipantSpec.tasks, ParticipantSpec.declared]
  cases p.impl <;> simp

/-- The run loop always terminates, and no pending activation or replay time
is ever the sentinel.  When no participant fails, the loop ends because
nothing is pending, and each Task that the Manifest declares is activated at
exactly the instants `offset + k * period` below the duration, once each and in
increasing order. -/
theorem activation_times_exact (m : Manifest σ) (e : Engine σ)
    (hduration : m.durationNs ≤ uint64Max) (hsetup : setup m = some e) :
    Loop.Halted step e.loop ∧ (e.tasks.map fun t => (t.owner, t.name, t.nextNs, t.periodNs)) =
        m.participants.flatMap ParticipantSpec.declared ∧
      (∀ e', Loop.Reach step e e' → (∀ t ∈ e'.tasks, t.done = false → t.nextNs ≠ uint64Max) ∧
        ∀ r ∈ e'.replayers, ∀ msg ∈ r.reader.head?, msg.publishNs ≠ uint64Max) ∧
      (e.NoFailure → e.loop.slot = uint64Max ∧ ∀ t ∈ e.tasks,
          (e.run.activationTimes t.registrationIndex).Pairwise (· < ·) ∧
          ∀ x, x ∈ e.run.activationTimes t.registrationIndex ↔
            ∃ k, x = t.nextNs + k * t.periodNs ∧ x < m.durationNs) := by
  obtain ⟨hs, hdone, _, _, _, _, hact⟩ := setup_filling hduration hsetup
  refine ⟨loop_halted hs, setup_declared hsetup, ?_, ?_⟩
  · intro e' hr
    have hs' := reach_scheduled hs hr
    exact ⟨fun t ht hdone => (hs'.nextNs_lt ht hdone).ne,
      fun r hr msg hmsg => (hs'.publishNs_lt hr hmsg).ne⟩
  · intro hno
    have hf := hno e.loop e.loop_reach
    refine ⟨step_eq_none (loop_halted hs) hf, ?_⟩
    intro t ht
    have hperiod := hs.period_pos t ht
    have htimes : e.run.activationTimes t.registrationIndex =
        progression t.nextNs t.periodNs e.durationNs := by
      rw [run_activationTimes, loop_activationTimes hs hact hf ht]
      unfold Task.pendingTimes
      split_ifs with hd
      · exact (progression_of_le (hdone t ht hd)).symm
      · rfl
    rw [htimes, (setup_sameBase hsetup).durationNs]
    exact ⟨progression_pairwise _ _ hperiod, fun x => mem_progression_iff hperiod⟩

/-- A Task with an offset next to a Replay participant whose Recording is not
in time order and reaches beyond the duration. -/
def tickerManifest : Manifest Unit where
  durationNs := 8
  channels :=
    [⟨"out", "byte", 1, none, ⟨8, []⟩⟩, ⟨"replayed", "byte", 1, none, ⟨8, []⟩⟩]
  participants :=
    [⟨"player", .replay ["replayed"] none
        [⟨5, "replayed", [1]⟩, ⟨2, "replayed", [2]⟩, ⟨9, "replayed", [3]⟩]⟩,
      ⟨"ticker", .native [⟨"replayed", none, .fail⟩] ["out"]
        [⟨"tick", 3, 1, 0, fun now _ => .publish "out" [UInt8.ofNat now] fun _ => .ret ()⟩]⟩]
  initial := fun _ => ()
  limits := {}

theorem activation_times_exact_ticker :
    ∃ e, setup tickerManifest = some e ∧ e.NoFailure ∧ Loop.Halted step e.loop ∧
      (e.tasks.map fun t => (t.owner, t.name, t.nextNs, t.periodNs)) = [("ticker", "tick", 1, 3)] ∧
      ∀ t ∈ e.tasks, ∀ x, x ∈ e.run.activationTimes t.registrationIndex ↔
        ∃ k, x = t.nextNs + k * t.periodNs ∧ x < 8 := by
  have hduration : tickerManifest.durationNs ≤ uint64Max := by decide
  refine ⟨_, rfl, ?_⟩
  have hexact := activation_times_exact tickerManifest _ hduration rfl
  have hno := noFailure_of_loop (setup_filling hduration rfl).scheduled rfl
  exact ⟨hno, hexact.1, hexact.2.1, fun t ht => ((hexact.2.2.2 hno).2 t ht).2⟩

end Engine

end SilFormal.Kernel
