import SilFormal.Visualization.ExactlyOnce

/-!
# Time spent buffering

The playhead is derived from an anchor, and whatever ends a phase of buffering
has to move it: a commit does, a page that reaches a held target does, and a
change of the subscription does for a held target.  It does not when it takes
away the last Channel that waits for its reconstruction.  The time of that wait
is then played.  In a run without such a change the cursor is not ahead of the
time that was reported as playing.
-/

namespace SilFormal.Visualization

variable {C : Type} [DecidableEq C]

theorem Source.time_le_of_mem_read (src : Source C) {r : Read C} {i : Item C}
    (hi : i ∈ (src.read r).1) : i.key.time ≤ r.target := by
  by_cases h : r.after.time ≤ r.target
  · exact Position.time_mono (src.mem_read h hi).2
  · rw [Source.read, if_pos (.inr (.inl (not_le.1 h)))] at hi
    cases hi

/-- The cursor that the last committed seek set, and the clock time since then
during which the reported status was playing. -/
structure Meter where
  base : Nat
  played : Nat

/-- What may be played by now. -/
def Meter.due (m : Meter) (rate : ℚ) : ℚ := m.base + rate * m.played

namespace Playback

open State

variable (p : Playback C) {s t : State C} {rate due : ℚ} {job : Job C}

/-- The meter after one more action. -/
def measure (s : State C) (m : Meter) (a : Nat × Action C) : Meter :=
  if (p.step s a).seeks = s.seeks then
    { m with played := if status s = .playing then m.played + a.1 else m.played }
  else ⟨(p.step s a).cursor, 0⟩

/-- The meter after a run. -/
def measureRun : State C → Meter → List (Nat × Action C) → Meter
  | _, m, [] => m
  | s, m, a :: actions => measureRun (p.step s a) (p.measure s m a) actions

/-- The cursor is ahead of the last committed seek by no more than was played. -/
def WithinPlayed (rate : ℚ) (clock : Int) (actions : List (Nat × Action C)) : Prop :=
  let m := p.measureRun (p.initial clock) ⟨p.startNs, 0⟩ actions
  ((p.run (p.initial clock) actions).cursor : ℚ) - m.base ≤ rate * m.played

/-- A `configure` that acts keeps the rate, and a subscription that acts leaves a
Channel waiting when a playing session waits for one. -/
def Undisturbed (rate : ℚ) (s : State C) : Action C → Prop
  | .configure r => p.accepts s r = true → r.rate.getD s.rate = rate
  | .setSubscription names =>
    p.subscribes s names = true → s.playing = true → s.pending = true → s.resetPending = false →
      ∃ c ∈ p.source.channels, c ∈ names ∧ (c ∈ s.waiting ∨ c ∉ s.subscription)
  | _ => True

instance (rate : ℚ) (s : State C) : (a : Action C) → Decidable (p.Undisturbed rate s a)
  | .configure _ | .setSubscription _ => inferInstanceAs (Decidable (_ → _))
  | .disconnect | .close | .drain _ | .pumpBegin | .pumpEnd | .pumpFail _ => .isTrue trivial

/-- Every action of a run is undisturbed. -/
def AllUndisturbed (rate : ℚ) : State C → List (Nat × Action C) → Prop
  | _, [] => True
  | s, a :: actions => p.Undisturbed rate s a.2 ∧ AllUndisturbed rate (p.step s a) actions

instance decidableAllUndisturbed (rate : ℚ) (s : State C) :
    (actions : List (Nat × Action C)) → Decidable (p.AllUndisturbed rate s actions)
  | [] => .isTrue trivial
  | a :: actions =>
    have := decidableAllUndisturbed rate (p.step s a) actions
    inferInstanceAs (Decidable (p.Undisturbed rate s a.2 ∧ _))

/-- The cursor, what is held or read, and the playhead are within what is due. -/
structure Metered (rate due : ℚ) (s : State C) : Prop where
  cursor_le : (s.cursor : ℚ) ≤ due
  rate_nonneg : 0 ≤ s.rate
  rate_eq : s.playing = true → s.rate = rate
  stall_le : ∀ t ∈ s.stallTarget, (t : ℚ) ≤ due
  stall_reset : s.resetPending = true → s.stallTarget = none
  read_le : ∀ r, s.work = some (.read r) → r.generation = s.generation → (r.target : ℚ) ≤ due
  running : s.running = true →
    s.anchor.1 ≤ s.clock ∧ s.anchor.2 + rate * (s.clock - s.anchor.1 : ℤ) ≤ due
  opened : s.playing = true → s.closed = false ∧ s.fault = none

variable {p}

theorem Metered.status_eq_playing_iff (h : Metered rate due s) :
    status s = .playing ↔ s.running = true := by
  rw [status, State.running]
  cases hplaying : s.playing with
  | false => split_ifs <;> simp_all
  | true =>
    obtain ⟨hclosed, hfault⟩ := h.opened hplaying
    rw [hclosed, hfault]
    cases s.pending <;> cases s.ended <;> cases s.stalled <;> simp

/-- The playhead of a running session is within what is due. -/
theorem Metered.target_le (h : Metered rate due s) (hplays : Plays s) : (p.target s : ℚ) ≤ due := by
  rw [target]
  cases hstall : s.stallTarget with
  | some t => exact h.stall_le t hstall
  | none =>
    have hrun : s.running = true := by
      simp [State.running, stalled, hstall, hplays.1, hplays.2.1, hplays.2.2]
    obtain ⟨hclock, hdue⟩ := h.running hrun
    have helapsed : ((s.clock - s.anchor.1).toNat : ℤ) = s.clock - s.anchor.1 :=
      Int.toNat_of_nonneg (by omega)
    have hproduct : 0 ≤ ((s.clock - s.anchor.1).toNat : ℚ) * s.rate :=
      mul_nonneg (Nat.cast_nonneg _) h.rate_nonneg
    have hfloor : ((⌊((s.clock - s.anchor.1).toNat : ℚ) * s.rate⌋.toNat : ℕ) : ℚ) ≤
        ((s.clock - s.anchor.1).toNat : ℚ) * s.rate := by
      rw [← Int.cast_natCast, Int.toNat_of_nonneg (Int.floor_nonneg.2 hproduct)]
      exact Int.floor_le _
    have hhead : (p.playhead s s.clock : ℚ) ≤
        s.anchor.2 + ⌊((s.clock - s.anchor.1).toNat : ℚ) * s.rate⌋.toNat := by
      rw [← Nat.cast_add]
      exact Nat.cast_le.2 (min_le_right _ _)
    rw [h.rate_eq hplays.1] at hfloor hhead
    rw [← helapsed, mul_comm] at hdue
    exact hhead.trans ((add_le_add_right hfloor _).trans hdue)

/-! ### Time and commands -/

theorem Metered.tick (h : Metered rate due s) (elapsed : Nat) :
    Metered rate (due + if s.running = true then rate * elapsed else 0)
      { s with clock := s.clock + elapsed } := by
  by_cases hrun : s.running = true
  · have hplaying : s.playing = true := by
      simp only [State.running, Bool.and_eq_true] at hrun
      exact hrun.1.1.1
    have hmore : 0 ≤ rate * (elapsed : ℚ) :=
      mul_nonneg (h.rate_eq hplaying ▸ h.rate_nonneg) (Nat.cast_nonneg _)
    obtain ⟨hclock, hdue⟩ := h.running hrun
    rw [if_pos hrun]
    exact {
      cursor_le := by linarith [h.cursor_le]
      rate_nonneg := h.rate_nonneg
      rate_eq := h.rate_eq
      stall_le := fun t ht => by linarith [h.stall_le t ht]
      stall_reset := h.stall_reset
      read_le := fun r hr hg => by linarith [h.read_le r hr hg]
      opened := h.opened
      running := fun _ => by
        refine ⟨show s.anchor.1 ≤ s.clock + elapsed by omega, ?_⟩
        push_cast at hdue ⊢
        linarith }
  · rw [if_neg hrun, add_zero]
    exact { h with running := fun hr => absurd hr hrun }

/-- A session at the rate that may be played. -/
def Playable (rate : ℚ) (s : State C) : Prop := s.rate = rate ∧ s.closed = false ∧ s.fault = none

theorem Metered.setRate (h : Metered rate due s) {q : Option ℚ} (hnonneg : ∀ x ∈ q, 0 ≤ x)
    (hq : q.getD s.rate = rate) (hopen : s.closed = false ∧ s.fault = none) :
    Metered rate due (p.setRate q s) ∧ Playable rate (p.setRate q s) := by
  cases q with
  | none => exact ⟨h, hq, hopen⟩
  | some x =>
    obtain rfl : x = rate := hq
    rw [Playback.setRate]
    split_ifs with hsame hrun
    · exact ⟨h, hsame.symm, hopen⟩
    · -- A session that plays has the rate already.
      simp only [State.running, Bool.and_eq_true] at hrun
      exact absurd (h.rate_eq hrun.1.1.1).symm hsame
    · exact ⟨{ h with rate_nonneg := hnonneg x rfl, rate_eq := fun _ => rfl }, rfl, hopen⟩

theorem Metered.startSeek (h : Metered rate due s) (hc : s.Current) (after : Position)
    (requestId : Option String) : Metered rate due (s.startSeek after requestId) :=
  { h with
    stall_le := by rintro t ⟨⟩
    stall_reset := fun _ => rfl
    read_le := fun r hr hg => absurd hg (hc.read_ne hr)
    running := by simp [State.running, pending, State.startSeek] }

theorem Metered.pause (h : Metered rate due s) :
    Metered rate due { s with playing := false, stallTarget := none } :=
  { h with
    rate_eq := by rintro ⟨⟩
    stall_le := by rintro t ⟨⟩
    stall_reset := fun _ => rfl
    running := by rintro ⟨⟩
    opened := by rintro ⟨⟩ }

theorem Metered.setPlaying (h : Metered rate due s) (hs : Playable rate s)
    (playing : Option Bool) : Metered rate due (p.setPlaying playing s) := by
  rcases playing with _ | _ | _
  · exact h
  · exact h.pause
  · rw [Playback.setPlaying]
    split_ifs
    · exact { h with running := by simp [State.running] }
    · exact h
    · exact { h with
        rate_eq := fun _ => hs.1
        running := fun _ => ⟨le_rfl, by simpa using h.cursor_le⟩
        opened := fun _ => hs.2 }

omit [DecidableEq C] in
theorem accepts_open {r : Request} (h : p.accepts s r = true) :
    s.closed = false ∧ s.fault = none := by
  simp only [accepts, Bool.and_eq_true] at h
  have hopen := Option.isNone_iff_eq_none.1 h.1.1.1
  rw [checkOpen] at hopen
  split_ifs at hopen with hclosed
  exact ⟨by simpa using hclosed, by simpa using hopen⟩

theorem Metered.configure (h : Metered rate due s) (hc : s.Current) {r : Request}
    (haccepts : p.accepts s r = true) (hrate : r.rate.getD s.rate = rate) :
    Metered rate due (p.remember r (p.apply r s)) := by
  have hnote : Metered rate due (s.noteStart (starts r)) := { h with }
  obtain ⟨hset, hs⟩ := hnote.setRate
    (fun x hx => rate_nonneg_of_check (accepts_check haccepts) hx) hrate (accepts_open haccepts)
  have hcset : (p.setRate r.rate (s.noteStart (starts r))).Current :=
    hc.of_view (p.view_setRate r.rate _)
  have hseek : Metered rate due (p.seek r (p.setRate r.rate (s.noteStart (starts r)))) ∧
      Playable rate (p.seek r (p.setRate r.rate (s.noteStart (starts r)))) := by
    rcases p.seek_cases r (p.setRate r.rate (s.noteStart (starts r))) with e | ⟨after, id, e⟩
    · rw [e]
      exact ⟨hset, hs⟩
    · rw [e]
      exact ⟨hset.startSeek hcset after id, hs⟩
  have hplaying : Metered rate due (p.setPlaying r.playing _) :=
    hseek.1.setPlaying hseek.2 r.playing
  exact { hplaying with }

theorem Metered.resubscribe (h : Metered rate due s) (hc : s.Current) {wanted : List C}
    (hwaits : s.playing = true → s.pending = true → s.resetPending = false →
      ∃ c ∈ wanted, c ∈ s.waiting ∨ c ∉ s.subscription) :
    Metered rate due (resubscribe wanted s) := by
  refine { h with
    stall_le := by rintro t ⟨⟩
    stall_reset := fun _ => rfl
    read_le := fun r hr hg => absurd hg (hc.read_ne hr)
    running := fun hrun => ?_ }
  by_cases hstalled : s.stalled = true
  · rw [show (Playback.resubscribe wanted s).anchor = (s.clock, s.cursor) from if_pos hstalled]
    have hclock : (Playback.resubscribe wanted s).clock = s.clock := rfl
    exact ⟨le_rfl, by simpa [hclock] using h.cursor_le⟩
  · rw [show (Playback.resubscribe wanted s).anchor = s.anchor from if_neg hstalled]
    simp only [State.running, Bool.and_eq_true, Bool.not_eq_true'] at hrun
    obtain ⟨⟨⟨hplaying, hready⟩, -⟩, hended⟩ := hrun
    rw [pending, Bool.or_eq_false_iff] at hready
    have hpending : s.pending = false := by
      by_contra hpending
      obtain ⟨c, hc, hwaiting⟩ := hwaits hplaying (by simpa using hpending) hready.1
      have hmem : c ∈ (Playback.resubscribe wanted s).unreconstructed := by
        simp only [Playback.resubscribe, State.drop, Finset.mem_union,
          Finset.mem_inter, Finset.mem_sdiff, List.mem_toFinset]
        tauto
      simp [Finset.eq_empty_iff_forall_notMem.1 (by simpa using hready.2) c] at hmem
    refine h.running ?_
    simp only [State.running, Bool.and_eq_true, Bool.not_eq_true']
    exact ⟨⟨⟨hplaying, hpending⟩, by simpa using hstalled⟩, hended⟩

theorem Metered.welcome (h : Metered rate due s) (hc : s.Current) :
    Metered rate due (welcome s) := by
  rw [Playback.welcome]
  split_ifs
  · exact { h.startSeek hc s.jobAfter none with }
  · exact h

theorem Metered.disconnect (h : Metered rate due s) (hc : s.Current) :
    Metered rate due s.disconnect :=
  { h.pause with read_le := fun _ hr hg => absurd hg (hc.read_ne hr) }

/-! ### The pump -/

/-- What is due after a step: a committed seek starts anew at its cursor. -/
def dueAfter (due : ℚ) (s t : State C) : ℚ := if t.seeks = s.seeks then due else t.cursor

theorem Metered.unmoved (h : Metered rate due t) (hseeks : t.seeks = s.seeks) :
    Metered rate (dueAfter due s t) t := by
  rw [dueAfter, if_pos hseeks]
  exact h

theorem Metered.commitStaged (h : Metered rate due s) (hjob : job.reset = s.resetPending)
    (hwork : s.work = none) (queued : Finset C) :
    Metered rate (dueAfter due s (p.commitStaged job queued s)) (p.commitStaged job queued s) := by
  have hcursor : ((p.commitStaged job queued s).cursor : ℚ) ≤
      dueAfter due s (p.commitStaged job queued s) := by
    rw [dueAfter]
    split_ifs with hseeks
    · cases hreset : job.reset with
      | true => simp [Playback.commitStaged, enqueue, settle, hreset] at hseeks
      | false => simpa [Playback.commitStaged, enqueue, settle, hreset] using h.cursor_le
    · exact le_rfl
  refine { h with
    cursor_le := hcursor
    stall_le := fun t ht => ?_
    stall_reset := fun hr => by
      simp [Playback.commitStaged, enqueue, settle, hjob] at hr
    read_le := fun r hr => by cases hwork.symm.trans hr
    running := fun hrun => ?_ }
  · cases hreset : job.reset with
    | true =>
      rw [show (p.commitStaged job queued s).stallTarget = s.stallTarget from rfl,
        h.stall_reset (hjob ▸ hreset)] at ht
      cases ht
    | false =>
      rw [dueAfter, if_pos (by simp [Playback.commitStaged, enqueue, settle, hreset])]
      exact h.stall_le t ht
  · simp only [State.running, Bool.and_eq_true] at hrun
    rw [show (p.commitStaged job queued s).anchor =
      (s.clock, (p.commitStaged job queued s).cursor) from if_pos hrun.1.1.1]
    exact ⟨le_rfl, by simpa [Playback.commitStaged, enqueue, settle, note] using hcursor⟩

theorem Metered.fillStaged (h : Metered rate due s) (hjob : job.reset = s.resetPending)
    (hwork : s.work = none) (items : List (Item C)) (queued : Finset C) :
    Metered rate (dueAfter due s (p.fillStaged job items queued s))
      (p.fillStaged job items queued s) := by
  induction items generalizing queued s with
  | nil => exact h.commitStaged hjob hwork queued
  | cons item items ih =>
    rw [Playback.fillStaged]
    split
    · exact Metered.unmoved { h with } rfl
    · rename_i n _
      exact ih (s := (s.note [item.channel] job.after).enqueue n) { h with } hjob hwork _

theorem Metered.commit (h : Metered rate due s) (hjob : job.reset = s.resetPending)
    (hwork : s.work = none) (items : List (Item C)) :
    Metered rate (dueAfter due s (p.commit job items s)) (p.commit job items s) := by
  rw [Playback.commit]
  split_ifs
  · exact h.unmoved rfl
  · exact Metered.fillStaged (s := s.enqueue _) { h with } hjob hwork items ∅
  · exact h.fillStaged hjob hwork items ∅

theorem Metered.stall (h : Metered rate due s) (hplays : Plays s) {x : Nat} (hx : (x : ℚ) ≤ due) :
    Metered rate due (p.stall x s) := by
  have hreset := (Bool.or_eq_false_iff.1 hplays.2.1).1
  rw [Playback.stall]
  split_ifs
  · exact h
  · exact { h with
      stall_le := by rintro t ⟨⟩; exact hx
      stall_reset := fun hr => by cases hreset.symm.trans hr
      running := by simp [State.running, stalled, enqueue] }

theorem Metered.finish (h : Metered rate due s) {x : Nat} (hx : (x : ℚ) ≤ due)
    {items : List (Item C)} (hitems : ∀ i ∈ items, i.key.time ≤ x) (complete : Bool) :
    Metered rate due (p.finish x items complete s) := by
  have hmove : Metered rate due (moveTo items s) := by
    rw [moveTo]
    cases hlast : items.getLast? with
    | none => exact h
    | some i =>
      have hi := hitems i (List.mem_of_getLast? hlast)
      exact { h with cursor_le := (Nat.cast_le.2 hi).trans hx }
  rw [Playback.finish]
  split_ifs
  · rw [reach]
    split_ifs
    · exact { hmove.pause with
        cursor_le := hx
        running := by simp [State.running, enqueue] }
    · exact { hmove with
        cursor_le := hx
        stall_le := by rintro t ⟨⟩
        stall_reset := fun _ => rfl
        running := fun _ => ⟨le_rfl, by simpa [enqueue] using hx⟩ }
    · exact { hmove with cursor_le := hx }
  · exact { hmove with }

theorem Metered.advance (h : Metered rate due s) {r : Read C} (hplays : Plays s)
    (hgeneration : r.generation = s.generation) (hr : (r.target : ℚ) ≤ due) :
    Metered rate due (p.advance r (p.source.read r).1 (p.source.read r).2 s) := by
  have hitems : ∀ i ∈ (p.source.read r).1, i.key.time ≤ r.target := fun _ hi =>
    p.source.time_le_of_mem_read hi
  rcases advance_cases hplays hgeneration (p.source.read r).1 (p.source.read r).2 with
    ⟨-, e⟩ | ⟨m, reason, -, ⟨-, e⟩ | ⟨-, e⟩⟩
  · have hdelivered : Metered rate due (deliver r.generation (p.source.read r).1 s) := by
      rw [deliver_eq]
      exact { h with }
    exact e ▸ hdelivered.finish hr hitems _
  · rw [e]
    exact Metered.finish (s := s.enqueue _) { h with } hr hitems _
  · exact e ▸ h.stall hplays hr

theorem Metered.idle (h : Metered rate due s) : Metered rate due (s.busyWith none) :=
  { h with read_le := by rintro r ⟨⟩ }

/-! ### Runs -/

theorem Metered.effect (h : Metered rate due s) (hc : s.Current) {a : Action C}
    (ha : p.Undisturbed rate s a) (he : p.Effect s a t) : Metered rate (dueAfter due s t) t := by
  cases he with
  | kept => exact h.unmoved rfl
  | configure r haccepts =>
    exact (h.configure hc haccepts (ha haccepts)).unmoved (p.configure_keeps r s).2
  | subscribe names wanted hsubscribes hwanted hnodup =>
    refine Metered.unmoved ?_ (subscribe_keeps wanted s).2
    refine (h.resubscribe hc fun hplaying hpending hreset => ?_).welcome
      (current_resubscribe hc hnodup)
    obtain ⟨c, hsource, hname, hwaits⟩ := ha hsubscribes hplaying hpending hreset
    exact ⟨c, by simp [hwanted, hsource, hname], hwaits⟩
  | disconnect => exact (h.disconnect hc).unmoved rfl
  | close =>
    refine Metered.unmoved { h with rate_eq := ?_, running := ?_, opened := ?_ } rfl
    · rintro ⟨⟩
    · rintro ⟨⟩
    · rintro ⟨⟩
  | drain => exact Metered.unmoved { h with } rfl
  | fill st hwork hstaged =>
    exact h.fillStaged (congrArg Job.reset (hc.staged st hstaged).1) hwork st.items st.queued
  | takeJob => exact Metered.unmoved { h with read_le := by rintro r ⟨⟩ } rfl
  | rest => exact Metered.unmoved { h with } rfl
  | stall _ _ hplays =>
    have hseeks := congrArg (fun x => x.2.2.2.2.2.2.2.1) (p.frame_stall (p.target s) s.quiet)
    exact (Metered.stall (s := s.quiet) { h with } hplays (h.target_le hplays)).unmoved hseeks
  | takeRead hplays =>
    refine Metered.unmoved { h with read_le := ?_ } rfl
    rintro r ⟨⟩ -
    exact h.target_le hplays
  | idle => exact h.idle.unmoved rfl
  | commit j hwork hg => exact h.idle.commit (congrArg Job.reset (hc.job j hwork hg).1) rfl _
  | advance r hwork hg hplays =>
    have hframe := p.frame_advance (s := s.busyWith none) hplays hg (p.source.read r).1
      (p.source.read r).2
    exact (h.idle.advance hplays hg (h.read_le r hwork hg)).unmoved
      (congrArg (fun x => x.2.2.2.2.2.2.2.1) hframe)
  | fail => exact Metered.unmoved { h.idle.pause with opened := by rintro ⟨⟩ } rfl

theorem Metered.step {m : Meter} (h : Metered rate (m.due rate) s) (hc : s.Current)
    {a : Nat × Action C} (ha : p.Undisturbed rate s a.2) :
    Metered rate ((p.measure s m a).due rate) (p.step s a) := by
  have hnext := (h.tick a.1).effect (hc.of_view rfl) ha (p.perform_effect _ a.2)
  have hdue : (p.measure s m a).due rate =
      dueAfter (m.due rate + if s.running = true then rate * a.1 else 0)
        { s with clock := s.clock + a.1 } (p.step s a) := by
    rw [measure, dueAfter]
    split_ifs with hseeks hstatus hrun hrun
    · simp only [Meter.due]
      push_cast
      ring
    · exact absurd (h.status_eq_playing_iff.1 hstatus) hrun
    · exact absurd (h.status_eq_playing_iff.2 hrun) hstatus
    · exact (add_zero _).symm
    · simp [Meter.due]
  exact hdue ▸ hnext

theorem Metered.run {m : Meter} (h : Metered rate (m.due rate) s) (hc : s.Current)
    {actions : List (Nat × Action C)} (hactions : p.AllUndisturbed rate s actions) :
    Metered rate ((p.measureRun s m actions).due rate) (p.run s actions) := by
  induction actions generalizing s m with
  | nil => exact h
  | cons a actions ih =>
    exact ih (h.step hc hactions.1) (p.current_step hc a) hactions.2

/-- In a run of undisturbed actions the time that is spent buffering is not played. -/
theorem buffering_not_played (p : Playback C) (rate : ℚ) (clock : Int)
    (actions : List (Nat × Action C)) (hactions : p.AllUndisturbed rate (p.initial clock) actions) :
    p.WithinPlayed rate clock actions := by
  have hinitial : Metered rate (Meter.due ⟨p.startNs, 0⟩ rate) (p.initial clock) := by
    refine ⟨by simp [Meter.due, initial], by norm_num [initial], ?_, ?_, fun _ => rfl, ?_, ?_, ?_⟩
    · rintro ⟨⟩
    · rintro t ⟨⟩
    · rintro r ⟨⟩
    · rintro ⟨⟩
    · rintro ⟨⟩
  have hcursor := (hinitial.run (p.current_initial clock) hactions).cursor_le
  exact sub_le_iff_le_add'.2 hcursor

/-- A queue of one Message. -/
def narrow : Playback Bool := { sample with limits := ⟨1, 16, by decide, by decide⟩ }

/-- Play, and wait 30 ns for an added Channel; play 20 ns, and wait 40 ns until
the queue is drained. -/
def bufferingRun : List (Nat × Action Bool) :=
  [(0, .setSubscription [false]), (0, .pumpBegin), (0, .pumpEnd), (0, playingRequest "a" true),
    (0, .setSubscription [false, true]), (30, .pumpBegin), (0, .pumpEnd), (20, .pumpBegin),
    (0, .pumpEnd), (0, .pumpBegin), (40, .drain none), (0, .pumpBegin), (0, .pumpEnd)]

/-- The run takes 90 ns, and plays the 20 ns between its two waits. -/
theorem buffering_not_played_pages : (narrow.run (narrow.initial 0) bufferingRun).cursor = 20 ∧
      (narrow.measureRun (narrow.initial 0) ⟨narrow.startNs, 0⟩ bufferingRun).played = 20 ∧
      narrow.WithinPlayed 1 0 bufferingRun :=
  ⟨by decide +kernel, by decide +kernel,
    buffering_not_played narrow 1 0 bufferingRun (by decide +kernel)⟩

/-- Play, add a Channel, and remove it after 50 ns: the session was buffering all
the time, and the next page moves the cursor to 50 ns. -/
def waitingRun : List (Nat × Action Bool) :=
  [(0, .setSubscription [false]), (0, .pumpBegin), (0, .pumpEnd), (0, playingRequest "a" true),
    (0, .setSubscription [false, true]), (50, .setSubscription [false]), (0, .pumpBegin),
    (0, .pumpEnd)]

theorem waiting_is_played : (sample.run (sample.initial 0) waitingRun).cursor = 50 ∧
      (sample.measureRun (sample.initial 0) ⟨sample.startNs, 0⟩ waitingRun).played = 0 ∧
      ¬ sample.WithinPlayed 1 0 waitingRun := by
  refine ⟨by decide +kernel, by decide +kernel, ?_⟩
  rw [WithinPlayed]
  decide +kernel

end Playback

end SilFormal.Visualization
