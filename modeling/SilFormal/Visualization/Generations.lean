import SilFormal.Visualization.Playback

/-!
# Work of the current generation

Each seek, subscription change and disconnect starts a new generation.  Work in
flight that has the generation of the state still fits it: a job is the one that
would be taken now, and a read starts where playback stands.  So what `pump`
applies was read for the state it is applied to.
-/

namespace SilFormal.Visualization

variable {C : Type} [DecidableEq C]

namespace State

variable {s t : State C}

/-- The part of the state that work in flight depends on. -/
def view (s : State C) :=
  (s.generation, s.subscription, s.unreconstructed, s.staged, s.resetPending, s.seekAfter,
    s.after, s.work)

/-- The part of the state that playback leaves alone as it moves. -/
def frame (s : State C) :=
  (s.generation, s.subscription, s.unreconstructed, s.staged, s.resetPending, s.seekAfter,
    s.work, s.seeks, s.started)

/-- The staged Backfill and the work in flight fit the state, unless a newer
generation supersedes them. -/
structure Current (s : State C) : Prop where
  nodup : s.subscription.Nodup
  subset : s.unreconstructed ⊆ s.subscription.toFinset
  reset : s.resetPending = true → s.unreconstructed = s.subscription.toFinset
  staged : ∀ st, s.staged = some st → st.job = s.nextJob ∧ s.pending = true
  work_le : ∀ w, s.work = some w → w.generation ≤ s.generation
  job : ∀ j, s.work = some (.job j) → j.generation = s.generation → j = s.nextJob ∧ s.pending = true
  read : ∀ r, s.work = some (.read r) → r.generation = s.generation →
    r.after = s.after ∧ r.channels = s.subscription ∧ s.pending = false

theorem Current.of_view (h : s.Current) (e : t.view = s.view) : t.Current := by
  cases s
  cases t
  obtain ⟨rfl, rfl, rfl, rfl, rfl, rfl, rfl, rfl⟩ := e
  exact { h with }

/-- A new generation supersedes the work in flight. -/
theorem Current.superseded (h : s.Current) (hgeneration : s.generation < t.generation)
    (hwork : t.work = s.work) (hstaged : t.staged = none) (hnodup : t.subscription.Nodup)
    (hsubset : t.unreconstructed ⊆ t.subscription.toFinset)
    (hreset : t.resetPending = true → t.unreconstructed = t.subscription.toFinset) : t.Current := by
  have hlt : ∀ w, t.work = some w → w.generation < t.generation := fun w hw =>
    (h.work_le w (hwork ▸ hw)).trans_lt hgeneration
  refine ⟨hnodup, hsubset, hreset, ?_, fun w hw => (hlt w hw).le, ?_, ?_⟩
  · intro st hst
    rw [hstaged] at hst
    exact absurd hst (by simp)
  · intro j hj hg
    exact absurd hg (hlt _ hj).ne
  · intro r hr hg
    exact absurd hg (hlt _ hr).ne

/-- A read in flight is not of the next generation. -/
theorem Current.read_ne (h : s.Current) {r : Read C} (hr : s.work = some (.read r)) :
    r.generation ≠ s.generation + 1 :=
  (Nat.lt_succ_of_le (h.work_le _ hr)).ne

theorem Current.startSeek (h : s.Current) (after : Position) (requestId : Option String) :
    (s.startSeek after requestId).Current :=
  h.superseded (Nat.lt_succ_self _) rfl rfl h.nodup (Finset.Subset.refl _) fun _ => rfl

theorem Current.disconnect (h : s.Current) : s.disconnect.Current :=
  h.superseded (Nat.lt_succ_self _) rfl rfl List.nodup_nil (Finset.empty_subset _) fun _ => rfl

/-- Without work in flight or staged Backfill, playback may move. -/
theorem Current.of_frame (h : s.Current) (hstaged : s.staged = none) (hwork : s.work = none)
    (e : t.frame = s.frame) : t.Current := by
  simp only [frame, Prod.mk.injEq] at e
  obtain ⟨-, hsub, hun, hst, hr, -, hw, -, -⟩ := e
  rw [hstaged] at hst
  rw [hwork] at hw
  refine ⟨hsub ▸ h.nodup, by rw [hun, hsub]; exact h.subset,
    by rw [hr, hun, hsub]; exact h.reset, ?_, ?_, ?_, ?_⟩
  · simp [hst]
  · simp [hw]
  · simp [hw]
  · simp [hw]

theorem Current.idle (h : s.Current) : (s.busyWith none).Current := by
  refine ⟨h.nodup, h.subset, h.reset, h.staged, ?_, ?_, ?_⟩
  · simp [busyWith]
  · simp [busyWith]
  · simp [busyWith]

/-- Nothing is staged while nothing is pending. -/
theorem Current.not_staged (h : s.Current) (hpending : s.pending = false) : s.staged = none := by
  cases hst : s.staged with
  | none => rfl
  | some st => exact absurd (h.staged st hst).2 (by simp [hpending])

/-- While a Reset is pending every Channel waits. -/
theorem Current.waiting_reset (h : s.Current) (hreset : s.resetPending = true) :
    s.waiting = s.subscription.toFinset := by
  rw [waiting, ← h.reset hreset]
  split
  · rfl
  · rename_i st hst
    have hjob : st.job.reset = true := by rw [(h.staged st hst).1]; exact hreset
    rw [if_pos hjob]

end State

namespace Playback

variable {s : State C} {job : Job C}

open State

variable (p : Playback C)

theorem view_setRate (rate : Option ℚ) (s : State C) : (p.setRate rate s).view = s.view := by
  obtain ⟨anchor, q, e⟩ := p.setRate_eq rate s
  rw [e]
  rfl

omit [DecidableEq C] in
theorem view_setPlaying (playing : Option Bool) (s : State C) :
    (p.setPlaying playing s).view = s.view := by
  obtain ⟨playing', stallTarget, ended, anchor, e⟩ := p.setPlaying_eq playing s
  rw [e]
  rfl

theorem view_stall (target : Nat) (s : State C) : (p.stall target s).view = s.view := by
  rw [stall]
  split_ifs <;> rfl

theorem current_seek (h : s.Current) (r : Request) : (p.seek r s).Current := by
  rcases p.seek_cases r s with e | ⟨after, requestId, e⟩
  · rw [e]
    exact h
  · rw [e]
    exact h.startSeek after requestId

theorem current_apply (h : s.Current) (r : Request) : (p.apply r s).Current := by
  have hnote : (s.noteStart (starts r)).Current := h.of_view rfl
  have hrate := hnote.of_view (p.view_setRate r.rate _)
  have hplaying := (p.current_seek hrate r).of_view (p.view_setPlaying r.playing _)
  exact hplaying.of_view rfl

theorem current_resubscribe (h : s.Current) {wanted : List C} (hwanted : wanted.Nodup) :
    (resubscribe wanted s).Current := by
  refine h.superseded (Nat.lt_succ_self _) rfl rfl hwanted ?_ ?_
  · exact Finset.union_subset Finset.inter_subset_right Finset.sdiff_subset
  · intro hreset
    show s.waiting ∩ wanted.toFinset ∪ wanted.toFinset \ s.subscription.toFinset = _
    rw [h.waiting_reset hreset, Finset.inter_comm, Finset.union_comm, Finset.sdiff_union_inter]
    rfl

theorem current_welcome (h : s.Current) : (welcome s).Current := by
  rw [welcome]
  split_ifs
  · exact (h.startSeek s.jobAfter none).of_view rfl
  · exact h

/-- A commit ends the pending state. -/
theorem current_commitStaged (h : s.Current) (hjob : job = s.nextJob) (hwork : s.work = none)
    (queued : Finset C) : (p.commitStaged job queued s).Current := by
  refine ⟨h.nodup, Finset.empty_subset _, ?_, ?_, ?_, ?_, ?_⟩
  · -- The job's Reset is the pending one.
    intro hreset
    have : (s.resetPending && !job.reset) = true := hreset
    rw [hjob] at this
    simp [nextJob] at this
  · intro st hst
    cases hst
  · intro w hw
    cases hwork.symm.trans hw
  · intro j hj
    cases hwork.symm.trans hj
  · intro r hr
    cases hwork.symm.trans hr

theorem current_fillStaged (h : s.Current) (hjob : job = s.nextJob) (hpending : s.pending = true)
    (hwork : s.work = none) (items : List (Item C)) (queued : Finset C) :
    (p.fillStaged job items queued s).Current := by
  induction items generalizing queued s with
  | nil => exact p.current_commitStaged h hjob hwork queued
  | cons item items ih =>
    rw [fillStaged]
    split
    · refine ⟨h.nodup, h.subset, h.reset, ?_, h.work_le, h.job, h.read⟩
      intro st hst
      obtain rfl := Option.some.inj hst
      exact ⟨hjob, hpending⟩
    · rename_i n _
      exact ih (s := (s.note [item.channel] job.after).enqueue n) (h.of_view rfl) hjob
        hpending hwork _

theorem current_commit (h : s.Current) (hjob : job = s.nextJob) (hpending : s.pending = true)
    (hwork : s.work = none) (items : List (Item C)) : (p.commit job items s).Current := by
  rw [commit]
  split_ifs
  · exact h
  · exact p.current_fillStaged (s := s.enqueue _) (h.of_view rfl) hjob hpending hwork items ∅
  · exact p.current_fillStaged h hjob hpending hwork items ∅

theorem frame_stall (target : Nat) (s : State C) : (p.stall target s).frame = s.frame := by
  rw [stall]
  split_ifs <;> rfl

omit [DecidableEq C] in
theorem frame_moveTo (items : List (Item C)) (s : State C) : (moveTo items s).frame = s.frame := by
  rw [moveTo]
  split <;> rfl

theorem frame_reach (target : Nat) (s : State C) : (p.reach target s).frame = s.frame := by
  rw [reach]
  split_ifs <;> rfl

theorem frame_finish (target : Nat) (items : List (Item C)) (complete : Bool) (s : State C) :
    (p.finish target items complete s).frame = s.frame := by
  rw [finish]
  split_ifs
  · rw [frame_reach, frame_moveTo]
  · exact frame_moveTo items s

/-- Playback moves and leaves what commands replace. -/
theorem frame_advance {r : Read C} (hplays : Plays s) (hgeneration : r.generation = s.generation)
    (items : List (Item C)) (complete : Bool) : (p.advance r items complete s).frame = s.frame := by
  rcases advance_cases hplays hgeneration items complete with
    ⟨-, e⟩ | ⟨m, reason, -, ⟨-, e⟩ | ⟨-, e⟩⟩
  · rw [e, deliver_eq]
    exact p.frame_finish _ _ _ _
  · rw [e]
    exact p.frame_finish _ _ _ _
  · rw [e]
    exact p.frame_stall _ _

variable {p} in
theorem current_effect {t : State C} {a : Action C} (h : s.Current) (he : p.Effect s a t) :
    t.Current := by
  cases he with
  | kept => exact h
  | configure r => exact (p.current_apply h r).of_view rfl
  | subscribe _ wanted _ _ hnodup => exact current_welcome (current_resubscribe h hnodup)
  | disconnect => exact h.disconnect
  | close => exact h.of_view rfl
  | drain => exact h.of_view rfl
  | fill st hwork hstaged =>
    obtain ⟨hjob, hpending⟩ := h.staged st hstaged
    exact p.current_fillStaged h hjob hpending hwork st.items st.queued
  | takeJob hpending =>
    refine ⟨h.nodup, h.subset, h.reset, h.staged, ?_, ?_, ?_⟩
    · rintro w ⟨⟩
      exact le_rfl
    · rintro j ⟨⟩ -
      exact ⟨rfl, hpending⟩
    · rintro r ⟨⟩
  | rest => exact h.of_view rfl
  | stall => exact h.of_view (p.view_stall _ _)
  | takeRead hplays =>
    refine ⟨h.nodup, h.subset, h.reset, h.staged, ?_, ?_, ?_⟩
    · rintro w ⟨⟩
      exact le_rfl
    · rintro j ⟨⟩
    · rintro r ⟨⟩ -
      exact ⟨rfl, rfl, hplays.2.1⟩
  | idle => exact h.idle
  | commit j hwork hg =>
    obtain ⟨hjob, hpending⟩ := h.job j hwork hg
    exact p.current_commit h.idle hjob hpending rfl _
  | advance r _ hg hplays =>
    exact h.idle.of_frame (h.not_staged hplays.2.1) rfl
      (p.frame_advance (s := s.busyWith none) hplays hg _ _)
  | fail => exact h.idle.of_view rfl

theorem current_step (h : s.Current) (a : Nat × Action C) : (p.step s a).Current :=
  current_effect (s := { s with clock := s.clock + a.1 }) (h.of_view rfl) (p.perform_effect _ a.2)

theorem current_initial (clock : Int) : (p.initial clock).Current := by
  refine ⟨List.nodup_nil, Finset.empty_subset _, ?_, ?_, ?_, ?_, ?_⟩
  · rintro ⟨⟩
  · rintro st ⟨⟩
  · rintro w ⟨⟩
  · rintro j ⟨⟩
  · rintro r ⟨⟩

/-- In every run, work in flight is superseded or still what the session wants. -/
theorem run_current (clock : Int) (actions : List (Nat × Action C)) :
    (p.run (p.initial clock) actions).Current := by
  have hrun : ∀ s : State C, s.Current → (p.run s actions).Current := by
    induction actions with
    | nil => exact fun _ h => h
    | cons a actions ih =>
      exact fun s h => ih _ (p.current_step h a)
  exact hrun _ (p.current_initial clock)

end Playback

end SilFormal.Visualization
