import SilFormal.Visualization.Generations

/-!
# The pace of playback

The playhead runs ahead of the cursor: a playing session has not delivered past
it, and a read in flight aims at most at it.  Two commands break this.  Play
anchors the playhead at the cursor, so a read that was taken before a Pause and
is applied after the Play moves the cursor past the playhead.  A lower rate
takes effect without a new anchor while an added Channel waits for its
reconstruction, so the playhead falls back.  Under commands that do neither,
the cursor stays at or before the playhead in every run.
-/

namespace SilFormal.Visualization

variable {C : Type}

namespace State

/-- A read of the current generation is in flight. -/
def reading (s : State C) : Bool :=
  match s.work with
  | some (.read r) => r.generation == s.generation
  | _ => false

end State

namespace Playback

variable {s : State C} {x : Nat} {r : Request} {job : Job C}

open State

variable (p : Playback C)

/-- The cursor and the read in flight are at or before the playhead. -/
structure Paced (s : State C) : Prop where
  cursor_le : s.cursor ≤ p.endNs
  after_time : s.after.time = s.cursor
  seek_le : s.seekAfter.time ≤ p.endNs
  rate_nonneg : 0 ≤ s.rate
  range : s.playing = true → p.source.bounds.isSome = true
  not_ended : s.playing = true → s.ended = false
  stall : ∀ t, s.stallTarget = some t → s.cursor ≤ t ∧ t ≤ p.endNs
  stall_reset : s.resetPending = true → s.stallTarget = none
  pace : s.playing = true → s.resetPending = false → s.cursor ≤ p.target s
  read : ∀ r, s.work = some (.read r) → r.generation = s.generation →
    s.cursor ≤ r.target ∧ r.target ≤ p.endNs ∧ (s.playing = true → r.target ≤ p.target s)

variable {p}

/-! ### The playhead -/

theorem playhead_le (s : State C) (now : Int) : p.playhead s now ≤ p.endNs :=
  min_le_left _ _

/-- The playhead does not run back with the clock or with a higher rate. -/
theorem playhead_mono {now later : Int} {rate : ℚ} (hnow : now ≤ later) (hnonneg : 0 ≤ s.rate)
    (hrate : s.rate ≤ rate) : p.playhead s now ≤ p.playhead { s with rate := rate } later := by
  have helapsed : ((now - s.anchor.1).toNat : ℚ) ≤ ((later - s.anchor.1).toNat : ℚ) :=
    Nat.cast_le.2 (Int.toNat_le_toNat (by omega))
  have hproduct := mul_le_mul helapsed hrate hnonneg (Nat.cast_nonneg _)
  exact min_le_min_left _ (Nat.add_le_add_left (Int.toNat_le_toNat (Int.floor_mono hproduct)) _)

theorem playhead_anchor (hx : x ≤ p.endNs) (h : s.anchor = (s.clock, x)) :
    p.playhead s s.clock = x := by
  simp [playhead, h, hx]

theorem Paced.target_le (h : p.Paced s) : p.target s ≤ p.endNs := by
  rw [target]
  cases hstall : s.stallTarget with
  | none => exact playhead_le s _
  | some t => exact (h.stall t hstall).2

/-- At an anchor at the cursor, the playhead is not behind it. -/
theorem cursor_le_target (hle : s.cursor ≤ p.endNs)
    (hstall : ∀ t, s.stallTarget = some t → s.cursor ≤ t ∧ t ≤ p.endNs)
    (hanchor : s.anchor = (s.clock, s.cursor)) : s.cursor ≤ p.target s := by
  rw [target, playhead_anchor hle hanchor]
  cases ht : s.stallTarget with
  | none => exact le_rfl
  | some x => exact (hstall x ht).1

theorem startNs_le_endNs : p.startNs ≤ p.endNs := by
  rw [startNs, endNs, Source.bounds]
  cases hrows : p.source.rows with
  | nil => rfl
  | cons first rows =>
    have hsorted := p.source.sorted
    rw [hrows] at hsorted
    cases hlast : (first :: rows).getLast? with
    | none => simp at hlast
    | some last =>
      have hle := Position.time_mono (hsorted.le_getLast hlast List.mem_cons_self)
      simpa using hle

variable (p) in
theorem paced_initial (clock : Int) : p.Paced (p.initial clock) := by
  refine ⟨startNs_le_endNs, rfl, startNs_le_endNs, by norm_num [initial], ?_, ?_, ?_, fun _ => rfl,
    ?_, ?_⟩
  · rintro ⟨⟩
  · rintro ⟨⟩
  · rintro t ⟨⟩
  · rintro ⟨⟩
  · rintro r ⟨⟩

theorem Paced.jobAfter_le (h : p.Paced s) : s.jobAfter.time ≤ p.endNs := by
  rw [jobAfter]
  split_ifs
  · exact h.seek_le
  · exact h.after_time ▸ h.cursor_le

theorem ne_of_not_reading (h : s.reading = false) {r : Read C} (hr : s.work = some (.read r)) :
    r.generation ≠ s.generation := by
  rw [reading, hr] at h
  simpa using h

theorem Paced.pause (h : p.Paced s) : p.Paced { s with playing := false, stallTarget := none } :=
  { h with
    range := by rintro ⟨⟩
    not_ended := by rintro ⟨⟩
    stall := by rintro t ⟨⟩
    stall_reset := fun _ => rfl
    pace := by rintro ⟨⟩
    read := fun r hr hg => ⟨(h.read r hr hg).1, (h.read r hr hg).2.1, by rintro ⟨⟩⟩ }

theorem Paced.setPlaying (h : p.Paced s) {playing : Option Bool}
    (hended : playing = some true → p.source.bounds.isSome = true → s.ended = false)
    (hread : playing = some true → p.source.bounds.isSome = true → s.playing = false →
      s.reading = false) : p.Paced (p.setPlaying playing s) := by
  rcases playing with _ | _ | _
  · exact h
  · exact h.pause
  · rw [Playback.setPlaying]
    split_ifs with hnone hplaying
    · refine { h with not_ended := fun hp => ?_ }
      have hsome := h.range hp
      rw [Option.isNone_iff_eq_none] at hnone
      rw [hnone] at hsome
      cases hsome
    · exact h
    · have hsome : p.source.bounds.isSome = true := by
        simpa [Option.isSome_iff_ne_none] using hnone
      have hidle := hread rfl hsome (by simpa using hplaying)
      exact { h with
        range := fun _ => hsome
        not_ended := fun _ => hended rfl hsome
        pace := fun _ _ => cursor_le_target h.cursor_le h.stall rfl
        read := fun r hr hg => absurd hg (ne_of_not_reading hidle hr) }

/-- The position may move up to the target. -/
theorem Paced.move (h : p.Paced s) (hwork : s.work = none) (after : Position)
    (hle : after.time ≤ p.target s) : p.Paced { s with after := after, cursor := after.time } := by
  refine { h with
    cursor_le := hle.trans h.target_le
    after_time := rfl
    stall := fun t ht => ?_
    pace := fun _ _ => hle
    read := fun r hr => by cases hwork.symm.trans hr }
  have htarget : p.target s = t := by rw [target, show s.stallTarget = some t from ht]; rfl
  exact ⟨htarget ▸ hle, (h.stall t ht).2⟩

theorem Paced.idle (h : p.Paced s) : p.Paced (s.busyWith none) :=
  { h with read := by rintro r ⟨⟩ }

/-! ### Steady actions -/

theorem accepts_check (h : p.accepts s r = true) : p.checkConfigure r = none := by
  rw [accepts, Bool.and_eq_true] at h
  exact Option.isNone_iff_eq_none.1 h.2

theorem position_le_of_check (h : p.checkConfigure r = none) {x : Int}
    (hx : r.positionNs = some x) : x.toNat ≤ p.endNs := by
  rw [checkConfigure, Option.or_eq_none_iff, hx] at h
  have hposition := h.1
  cases hbounds : p.source.bounds with
  | none => simp [hbounds] at hposition
  | some bounds =>
    simp only [Option.bind_some, hbounds, ite_eq_left_iff, reduceCtorEq, imp_false] at hposition
    simp only [endNs, hbounds, Option.map_some, Option.getD_some]
    omega

theorem rate_nonneg_of_check (h : p.checkConfigure r = none) {q : ℚ} (hq : q ∈ r.rate) : 0 ≤ q := by
  rw [checkConfigure, Option.or_eq_none_iff, Option.mem_def.1 hq] at h
  have hrate := h.2
  simp only [Option.bind_some, ite_eq_left_iff, reduceCtorEq, imp_false, not_not] at hrate
  exact le_trans (by norm_num [minRate]) hrate.1

variable (p) [DecidableEq C]

/-- An action that leaves the playhead where it is or ahead: a command does not
start a paused session while a read of it is in flight, nor lower the rate of a
playing session while an added Channel waits for its reconstruction. -/
def Steady (s : State C) : Action C → Prop
  | .configure r => p.accepts s r = true →
      (r.playing = some true → r.positionNs = none → s.playing = false → s.ended = false →
        s.reading = false) ∧
      ∀ rate ∈ r.rate, rate < s.rate → s.playing = true → s.pending = true → s.resetPending = true
  | _ => True

instance (s : State C) : (a : Action C) → Decidable (p.Steady s a)
  | .configure _ => inferInstanceAs (Decidable (_ → _))
  | .setSubscription _ | .disconnect | .close | .drain _ | .pumpBegin | .pumpEnd | .pumpFail _ =>
    .isTrue trivial

variable {p}

/-- Time, the anchor and the rate may change if the playhead stays or runs ahead. -/
theorem Paced.retime (h : p.Paced s) (hc : s.Current) (clock : Int) (anchor : Int × Nat) (rate : ℚ)
    (hrate : 0 ≤ rate) (htarget : s.playing = true → s.resetPending = false →
      p.target s ≤ p.target { s with clock := clock, anchor := anchor, rate := rate }) :
    p.Paced { s with clock := clock, anchor := anchor, rate := rate } := by
  refine { h with
    rate_nonneg := hrate
    pace := fun hp hr => (h.pace hp hr).trans (htarget hp hr)
    read := fun r hr hg => ?_ }
  obtain ⟨hcur, hend, hpace⟩ := h.read r hr hg
  refine ⟨hcur, hend, fun hp => (hpace hp).trans (htarget hp ?_)⟩
  have hpending := (hc.read r hr hg).2.2
  rw [pending, Bool.or_eq_false_iff] at hpending
  exact hpending.1

theorem Paced.tick (h : p.Paced s) (hc : s.Current) (elapsed : Nat) :
    p.Paced { s with clock := s.clock + elapsed } := by
  refine h.retime hc (s.clock + elapsed) s.anchor s.rate h.rate_nonneg fun _ _ => ?_
  have hclock : s.clock ≤ s.clock + elapsed := by omega
  rw [target]
  cases s.stallTarget with
  | none => exact playhead_mono hclock h.rate_nonneg le_rfl
  | some t => exact le_rfl

theorem Paced.setRate (h : p.Paced s) (hc : s.Current) {rate : Option ℚ}
    (hnonneg : ∀ q ∈ rate, 0 ≤ q)
    (hsteady : ∀ q ∈ rate, q < s.rate → s.playing = true → s.pending = true →
      s.resetPending = true) : p.Paced (p.setRate rate s) := by
  cases rate with
  | none => exact h
  | some q =>
    rw [Playback.setRate]
    split_ifs with hsame hrunning
    · exact h
    · -- The new anchor is the playhead.
      refine h.retime hc s.clock _ q (hnonneg q rfl) fun _ _ => ?_
      have hstall : s.stallTarget = none := by
        simp only [running, stalled, Bool.and_eq_true] at hrunning
        simpa using hrunning.1.2
      rw [target, hstall]
      exact (playhead_anchor (playhead_le s _) rfl).ge
    · refine h.retime hc s.clock s.anchor q (hnonneg q rfl) fun hp hr => ?_
      rw [target]
      cases hstall : s.stallTarget with
      | some t => exact le_rfl
      | none =>
        -- A playing session that does not run waits for a reconstruction.
        have hpending : s.pending = true := by
          simpa [running, stalled, hstall, hp, h.not_ended hp] using hrunning
        have hrate : s.rate ≤ q := not_lt.1 fun hlt => by
          rw [hsteady q rfl hlt hp hpending] at hr
          cases hr
        exact playhead_mono le_rfl h.rate_nonneg hrate

theorem Paced.startSeek (h : p.Paced s) (hc : s.Current) (after : Position)
    (requestId : Option String) (hafter : after.time ≤ p.endNs) :
    p.Paced (s.startSeek after requestId) := by
  exact { h with
    seek_le := hafter
    not_ended := fun _ => rfl
    stall := by rintro t ⟨⟩
    stall_reset := fun _ => rfl
    pace := by rintro - ⟨⟩
    read := fun r hr hg => absurd hg (hc.read_ne hr) }

/-! ### Commands -/

theorem startSeek_not_reading (hc : s.Current) (after : Position) (requestId : Option String) :
    (s.startSeek after requestId).reading = false := by
  rw [reading]
  split
  · rename_i r hr
    have hle : r.generation ≤ s.generation := hc.work_le _ hr
    simpa [State.startSeek] using (Nat.lt_succ_of_le hle).ne
  · rfl

/-- The seek of an accepted command leads into the source, or there is none. -/
theorem Paced.seek (h : p.Paced s) (hc : s.Current) (hcheck : p.checkConfigure r = none) :
    p.Paced (p.seek r s) := by
  rw [Playback.seek]
  cases hx : r.positionNs with
  | some x => exact h.startSeek hc _ _ (position_le_of_check hcheck hx)
  | none =>
    split_ifs
    · exact h.startSeek hc _ _ startNs_le_endNs
    · exact h

/-- A command that plays leaves a session that is not at its end. -/
theorem seek_not_ended (hplaying : r.playing = some true) (hsome : p.source.bounds.isSome = true) :
    (p.seek r s).ended = false := by
  rw [Playback.seek]
  cases r.positionNs with
  | some x => rfl
  | none =>
    simp only [hplaying, hsome]
    split_ifs with hended
    · rfl
    · simpa using hended

/-- A steady command that plays a paused session leaves no read of it in flight. -/
theorem seek_not_reading (hc : s.Current) (hplaying : r.playing = some true)
    (hsome : p.source.bounds.isSome = true)
    (hsteady : r.positionNs = none → s.ended = false → s.reading = false) :
    (p.seek r s).reading = false := by
  rw [Playback.seek]
  cases hx : r.positionNs with
  | some x => exact startSeek_not_reading hc _ _
  | none =>
    simp only [hplaying, hsome]
    split_ifs with hended
    · exact startSeek_not_reading hc _ _
    · exact hsteady hx (by simpa using hended)

theorem seek_playing (r : Request) (s : State C) : (p.seek r s).playing = s.playing := by
  rcases p.seek_cases r s with e | ⟨after, requestId, e⟩
  · rw [e]
  · rw [e]
    rfl

theorem Paced.configure (h : p.Paced s) (hc : s.Current) (haccepts : p.accepts s r = true)
    (hsteady : p.Steady s (.configure r)) : p.Paced (p.remember r (p.apply r s)) := by
  have hcheck := accepts_check haccepts
  obtain ⟨hplay, hlower⟩ := hsteady haccepts
  have hnote : p.Paced (s.noteStart (starts r)) := { h with }
  have hcnote : (s.noteStart (starts r)).Current := hc.of_view rfl
  obtain ⟨anchor, q, e⟩ := p.setRate_eq r.rate (s.noteStart (starts r))
  have hrate := hnote.setRate hcnote (fun q hq => rate_nonneg_of_check hcheck hq) hlower
  have hcrate := hcnote.of_view (p.view_setRate r.rate _)
  have hall := (hrate.seek hcrate hcheck).setPlaying
    (fun hp hsome => seek_not_ended hp hsome) (fun hp hsome hpaused => by
      rw [seek_playing, e] at hpaused
      refine seek_not_reading hcrate hp hsome fun hx hnot => ?_
      rw [e] at hnot ⊢
      exact hplay hp hx hpaused hnot)
  exact { hall with }

theorem Paced.resubscribe (h : p.Paced s) (hc : s.Current) (wanted : List C) :
    p.Paced (resubscribe wanted s) := by
  refine { h with
    stall := by rintro t ⟨⟩
    stall_reset := fun _ => rfl
    pace := fun hp hr => ?_
    read := fun r hr hg => absurd hg (hc.read_ne hr) }
  by_cases hstalled : s.stalled = true
  · exact cursor_le_target h.cursor_le (by rintro t ⟨⟩) (if_pos hstalled)
  · have hstall : s.stallTarget = none := by simpa [stalled] using hstalled
    have htarget : p.target s = p.playhead s s.clock := by rw [target, hstall]; rfl
    have hanchor : (Playback.resubscribe wanted s).anchor = s.anchor := if_neg hstalled
    have hle := h.pace hp hr
    rw [htarget, playhead, ← hanchor] at hle
    exact hle

theorem Paced.welcome (h : p.Paced s) (hc : s.Current) : p.Paced (welcome s) := by
  rw [Playback.welcome]
  split_ifs
  · exact { h.startSeek hc s.jobAfter none h.jobAfter_le with }
  · exact h

theorem Paced.disconnect (h : p.Paced s) (hc : s.Current) : p.Paced s.disconnect :=
  { h with
    range := by rintro ⟨⟩
    not_ended := by rintro ⟨⟩
    stall := by rintro t ⟨⟩
    stall_reset := fun _ => rfl
    pace := by rintro ⟨⟩
    read := fun r hr hg => absurd hg (hc.read_ne hr) }

theorem Paced.stop (h : p.Paced s) : p.Paced (p.stop s) :=
  { h with
    range := by rintro ⟨⟩
    not_ended := by rintro ⟨⟩
    pace := by rintro ⟨⟩
    read := fun r hr hg => ⟨(h.read r hr hg).1, (h.read r hr hg).2.1, by rintro ⟨⟩⟩ }

/-! ### The pump -/

theorem Paced.settle (h : p.Paced s) (hjob : job = s.nextJob) (hwork : s.work = none)
    (queued : Finset C) : p.Paced (settle job queued s) := by
  have hreset : job.reset = s.resetPending := by rw [hjob]; rfl
  have hafter : job.after = s.jobAfter := by rw [hjob]; rfl
  have hcursor : (Playback.settle job queued s).cursor ≤ p.endNs := by
    simp only [Playback.settle]
    split_ifs
    · exact hafter ▸ h.jobAfter_le
    · exact h.cursor_le
  have hstall : ∀ t, (Playback.settle job queued s).stallTarget = some t →
      (Playback.settle job queued s).cursor ≤ t ∧ t ≤ p.endNs := by
    intro t ht
    cases hr : job.reset with
    | true =>
      -- A pending Reset ended the buffering.
      rw [show (Playback.settle job queued s).stallTarget = s.stallTarget from rfl,
        h.stall_reset (hreset ▸ hr)] at ht
      cases ht
    | false => simpa [Playback.settle, hr] using h.stall t ht
  refine { h with
    cursor_le := hcursor
    after_time := ?_
    stall := hstall
    stall_reset := fun hr => by simp [Playback.settle, hreset] at hr
    pace := fun hp _ => cursor_le_target hcursor hstall (if_pos hp)
    read := fun r hr => by cases hwork.symm.trans hr }
  simp only [Playback.settle]
  split_ifs
  · rfl
  · exact h.after_time

theorem Paced.fillStaged (h : p.Paced s) (hjob : job = s.nextJob) (hwork : s.work = none)
    (items : List (Item C)) (queued : Finset C) : p.Paced (p.fillStaged job items queued s) := by
  induction items generalizing queued s with
  | nil => exact { h.settle hjob hwork queued with }
  | cons item items ih =>
    rw [Playback.fillStaged]
    split
    · exact { h with }
    · rename_i n _
      exact ih (s := (s.note [item.channel] job.after).enqueue n) { h with } hjob hwork _

theorem Paced.commit (h : p.Paced s) (hjob : job = s.nextJob) (hwork : s.work = none)
    (items : List (Item C)) : p.Paced (p.commit job items s) := by
  rw [Playback.commit]
  split_ifs
  · exact h
  · exact Paced.fillStaged (s := s.enqueue _) { h with } hjob hwork items ∅
  · exact h.fillStaged hjob hwork items ∅

theorem resetPending_of_plays (hplays : Plays s) : s.resetPending = false := by
  have hpending := hplays.2.1
  rw [pending, Bool.or_eq_false_iff] at hpending
  exact hpending.1

/-- Buffering holds a target that is not behind the cursor. -/
theorem Paced.stalling (h : p.Paced s) (hplays : Plays s) (hwork : s.work = none)
    (hcursor : s.cursor ≤ x) (hx : x ≤ p.endNs) : p.Paced (p.stall x s) := by
  rw [Playback.stall]
  split_ifs
  · exact h
  · exact { h with
      stall := by rintro t ⟨⟩; exact ⟨hcursor, hx⟩
      stall_reset := fun hr => by cases (resetPending_of_plays hplays).symm.trans hr
      pace := fun _ _ => hcursor
      read := fun r hr => by cases hwork.symm.trans hr }

theorem Paced.reach (h : p.Paced s) (hwork : s.work = none) (hle : x ≤ p.target s) :
    p.Paced (p.reach x s) := by
  have hmove := h.move hwork (.mk x afterInstant) hle
  rw [Playback.reach]
  split_ifs
  · exact { hmove with
      range := by rintro ⟨⟩
      not_ended := by rintro ⟨⟩
      stall := by rintro t ⟨⟩
      stall_reset := fun _ => rfl
      pace := by rintro ⟨⟩
      read := fun r hr => by cases hwork.symm.trans hr }
  · exact { hmove with
      stall := by rintro t ⟨⟩
      stall_reset := fun _ => rfl
      pace := fun _ _ => cursor_le_target hmove.cursor_le (by rintro t ⟨⟩) rfl
      read := fun r hr => by cases hwork.symm.trans hr }
  · exact hmove

/-- A page up to the target keeps the pace. -/
theorem Paced.finish (h : p.Paced s) (hwork : s.work = none) (hx : x ≤ p.target s)
    {items : List (Item C)} (hitems : ∀ i ∈ items, i.key.time ≤ x) (complete : Bool) :
    p.Paced (p.finish x items complete s) := by
  have hmove : p.Paced (moveTo items s) ∧ (moveTo items s).work = none ∧
      p.target (moveTo items s) = p.target s := by
    rw [moveTo]
    cases hlast : items.getLast? with
    | none => exact ⟨h, hwork, rfl⟩
    | some i =>
      have hi := (hitems i (List.mem_of_getLast? hlast)).trans hx
      exact ⟨h.move hwork i.key hi, hwork, rfl⟩
  obtain ⟨hpaced, hidle, htarget⟩ := hmove
  rw [Playback.finish]
  split_ifs
  · exact hpaced.reach hidle (htarget ▸ hx)
  · exact { hpaced with }

theorem Paced.advance (h : p.Paced s) (hwork : s.work = none) {r : Read C} (hplays : Plays s)
    (hgeneration : r.generation = s.generation) (hcursor : s.cursor ≤ r.target)
    (hend : r.target ≤ p.endNs) (hpace : r.target ≤ p.target s) {items : List (Item C)}
    (hitems : ∀ i ∈ items, i.key.time ≤ r.target) (complete : Bool) :
    p.Paced (p.advance r items complete s) := by
  rcases advance_cases hplays hgeneration items complete with
    ⟨-, e⟩ | ⟨m, reason, -, ⟨-, e⟩ | ⟨-, e⟩⟩
  · have hdelivered : p.Paced (deliver r.generation items s) :=
      by rw [deliver_eq]; exact { h with }
    rw [e]
    rw [deliver_eq] at hdelivered ⊢
    exact hdelivered.finish hwork hpace hitems complete
  · rw [e]
    exact Paced.finish (s := s.enqueue _) { h with } hwork hpace hitems complete
  · exact e ▸ h.stalling hplays hwork hcursor hend

/-! ### Runs -/

theorem Paced.pace_of_plays (h : p.Paced s) (hplays : Plays s) : s.cursor ≤ p.target s :=
  h.pace hplays.1 (resetPending_of_plays hplays)

/-- A read in flight does not start behind its target. -/
theorem Paced.read_time (h : p.Paced s) (hc : s.Current) {r : Read C}
    (hwork : s.work = some (.read r)) (hg : r.generation = s.generation) :
    r.after.time ≤ r.target := by
  rw [(hc.read r hwork hg).1, h.after_time]
  exact (h.read r hwork hg).1

theorem Paced.effect (h : p.Paced s) (hc : s.Current) {a : Action C} (hsteady : p.Steady s a)
    (he : p.Effect s a t) : p.Paced t := by
  cases he with
  | kept => exact h
  | configure r haccepts => exact h.configure hc haccepts hsteady
  | subscribe _ wanted _ _ hnodup =>
    exact (h.resubscribe hc wanted).welcome (current_resubscribe hc hnodup)
  | disconnect => exact h.disconnect hc
  | close => exact Paced.stop { h with }
  | drain => exact { h with }
  | fill st hwork hstaged => exact h.fillStaged (hc.staged st hstaged).1 hwork st.items st.queued
  | takeJob => exact { h with read := by rintro r ⟨⟩ }
  | rest => exact { h with }
  | stall hwork _ hplays =>
    exact Paced.stalling { h with } hplays hwork (h.pace_of_plays hplays) h.target_le
  | takeRead hplays =>
    refine { h with read := ?_ }
    rintro r ⟨⟩ -
    exact ⟨h.pace_of_plays hplays, h.target_le, fun _ => le_rfl⟩
  | idle => exact h.idle
  | commit j hwork hg => exact h.idle.commit (hc.job j hwork hg).1 rfl _
  | advance r hwork hg hplays =>
    obtain ⟨hcursor, hend, hpace⟩ := h.read r hwork hg
    have hitems : ∀ i ∈ (p.source.read r).1, i.key.time ≤ r.target := fun i hi =>
      Position.time_mono (p.source.mem_read (h.read_time hc hwork hg) hi).2
    exact h.idle.advance rfl hplays hg hcursor hend (hpace hplays.1) hitems _
  | fail => exact { h.idle.pause with }

end Playback

end SilFormal.Visualization
