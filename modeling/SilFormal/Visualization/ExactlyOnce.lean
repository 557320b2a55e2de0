import SilFormal.Visualization.Delivery

/-!
# Playback delivers every crossed Message exactly once

In every run of steady actions, each subscribed Channel is accounted for while
nothing is pending, and neither the position nor the cursor moves back between
two committed seeks.  A Pause and a Play while a read is in flight deliver a
Message twice.
-/

namespace SilFormal.Visualization.Playback

open State

variable {C : Type} {p : Playback C} {s t : State C}

/-! ### The position does not move back -/

/-- No seek is committed and the position does not move back, or one is. -/
def Forward (s t : State C) : Prop :=
  s.seeks ≤ t.seeks ∧ (t.seeks = s.seeks → s.after ≤ t.after)

theorem Forward.of_eq (hafter : t.after = s.after) (hseeks : t.seeks = s.seeks) : Forward s t :=
  ⟨hseeks.ge, fun _ => hafter.ge⟩

theorem Forward.trans {u : State C} (h : Forward s t) (h' : Forward t u) : Forward s u := by
  refine ⟨h.1.trans h'.1, fun e => ?_⟩
  have hs := h.1
  have ht := h'.1
  exact (h.2 (by omega)).trans (h'.2 (by omega))

theorem Forward.rebase {s' : State C} (h : Forward s' t) (hafter : s'.after = s.after)
    (hseeks : s'.seeks = s.seeks) : Forward s t :=
  (Forward.of_eq hafter hseeks).trans h

variable [DecidableEq C]

theorem forward_stall (x : Nat) (s : State C) : Forward s (p.stall x s) := by
  rw [stall]
  split_ifs <;> exact Forward.of_eq rfl rfl

/-- A reconstruction that is not a seek leaves the position. -/
theorem forward_fillStaged (job : Job C) (items : List (Item C)) (queued : Finset C) (s : State C) :
    Forward s (p.fillStaged job items queued s) := by
  induction items generalizing queued s with
  | nil =>
    cases hreset : job.reset with
    | true =>
      have hseeks : (p.fillStaged job [] queued s).seeks = s.seeks + 1 := if_pos hreset
      exact ⟨by omega, fun e => by omega⟩
    | false =>
      have hnot : ¬ job.reset = true := by simp [hreset]
      exact Forward.of_eq (if_neg hnot) (if_neg hnot)
  | cons item items ih =>
    rw [fillStaged]
    split
    · exact Forward.of_eq rfl rfl
    · exact (ih _ _).rebase rfl rfl

theorem forward_commit (job : Job C) (items : List (Item C)) (s : State C) :
    Forward s (p.commit job items s) := by
  rw [commit]
  split_ifs
  · exact Forward.of_eq rfl rfl
  · exact (forward_fillStaged job items ∅ _).rebase rfl rfl
  · exact forward_fillStaged job items ∅ s

theorem forward_advance (hplays : Plays s) {r : Read C} (hgeneration : r.generation = s.generation)
    (hafter : r.after = s.after) (htime : r.after.time ≤ r.target)
    (hindex : s.after.index ≤ afterInstant) :
    Forward s (p.advance r (p.source.read r).1 (p.source.read r).2 s) := by
  rcases p.advance_account hplays hgeneration with e | ⟨t, e, hframe, ht, -⟩
  · rw [e]
    exact forward_stall r.target s
  · have hle := (p.between_reached htime (hafter ▸ hindex)).1
    have hkept := (p.frame_finish r.target (p.source.read r).1 (p.source.read r).2 t).trans hframe
    simp only [State.frame, Prod.mk.injEq] at hkept
    rw [e]
    refine ⟨hkept.2.2.2.2.2.2.2.1.ge, fun _ => ?_⟩
    rw [after_finish, ht, ← hafter]
    exact hle

/-! ### Runs -/

variable (p) in
/-- The work fits the state, the cursor keeps the pace, and what was enqueued is
what playback crossed. -/
structure Sound (s : State C) : Prop where
  current : s.Current
  paced : p.Paced s
  delivered : p.Delivered s

theorem sound_initial (clock : Int) : p.Sound (p.initial clock) := by
  refine ⟨p.current_initial clock, p.paced_initial clock, ⟨?_, ?_, ?_, ?_⟩, ?_⟩
  · rintro c ⟨⟩
  · exact fun _ => ⟨rfl, rfl, rfl⟩
  · exact show beforeInstant ≤ afterInstant by decide
  · exact show beforeInstant ≤ afterInstant by decide
  · rintro st ⟨⟩

theorem Sound.tick (h : p.Sound s) (elapsed : Nat) :
    p.Sound { s with clock := s.clock + elapsed } :=
  ⟨h.current.of_view rfl, h.paced.tick h.current elapsed,
    h.delivered.of_view rfl rfl fun hfresh => ⟨hfresh, id⟩⟩

theorem Sound.effect {a : Action C} (h : p.Sound s) (hsteady : p.Steady s a) (he : p.Effect s a t) :
    p.Sound t :=
  ⟨current_effect h.current he, h.paced.effect h.current hsteady he,
    h.delivered.effect h.current h.paced he⟩

theorem forward_effect {a : Action C} (h : p.Sound s) (he : p.Effect s a t) : Forward s t := by
  cases he with
  | configure r => exact Forward.of_eq (p.configure_keeps r s).1 (p.configure_keeps r s).2
  | subscribe _ wanted =>
    exact Forward.of_eq (subscribe_keeps wanted s).1 (subscribe_keeps wanted s).2
  | fill => exact forward_fillStaged _ _ _ _
  | stall => exact (forward_stall _ s.quiet).rebase rfl rfl
  | commit => exact (forward_commit _ _ (s.busyWith none)).rebase rfl rfl
  | advance r hwork hg hplays =>
    have hmove := forward_advance (p := p) (s := s.busyWith none) hplays hg
      (h.current.read r hwork hg).1 (h.paced.read_time h.current hwork hg) h.delivered.after_index
    exact hmove.rebase rfl rfl
  | _ => exact Forward.of_eq rfl rfl

/-- A steady action keeps the invariants and does not move back. -/
theorem Sound.step (h : p.Sound s) (a : Nat × Action C) (hsteady : p.Steady s a.2) :
    p.Sound (p.step s a) ∧ Forward s (p.step s a) := by
  have htick := h.tick a.1
  have heffect := p.perform_effect { s with clock := s.clock + a.1 } a.2
  exact ⟨htick.effect hsteady heffect, (forward_effect htick heffect).rebase rfl rfl⟩

variable (p) in
/-- Every action of a run is steady. -/
def AllSteady : State C → List (Nat × Action C) → Prop
  | _, [] => True
  | s, a :: actions => p.Steady s a.2 ∧ AllSteady (p.step s a) actions

instance decidableAllSteady (s : State C) :
    (actions : List (Nat × Action C)) → Decidable (p.AllSteady s actions)
  | [] => .isTrue trivial
  | a :: actions =>
    have := decidableAllSteady (p.step s a) actions
    inferInstanceAs (Decidable (p.Steady s a.2 ∧ p.AllSteady (p.step s a) actions))

theorem Sound.run (h : p.Sound s) {actions : List (Nat × Action C)}
    (hsteady : p.AllSteady s actions) :
    p.Sound (p.run s actions) ∧ Forward s (p.run s actions) := by
  induction actions generalizing s with
  | nil => exact ⟨h, Forward.of_eq rfl rfl⟩
  | cons a actions ih =>
    obtain ⟨hnext, hforward⟩ := h.step a hsteady.1
    obtain ⟨hsound, hrest⟩ := ih hnext hsteady.2
    exact ⟨hsound, hforward.trans hrest⟩

theorem run_append (s : State C) (before later : List (Nat × Action C)) :
    p.run s (before ++ later) = p.run (p.run s before) later :=
  List.foldl_append

theorem allSteady_append {before later : List (Nat × Action C)} : p.AllSteady s (before ++ later) ↔
      p.AllSteady s before ∧ p.AllSteady (p.run s before) later := by
  induction before generalizing s with
  | nil => simp [AllSteady, run]
  | cons a before ih => simp only [List.cons_append, AllSteady, ih, and_assoc]; rfl

variable (p) in
/-- What a run delivers.  While nothing is pending, each subscribed Channel was
sent exactly what playback crossed since its last reconstruction; and since an
earlier state without a committed seek between, neither the position nor the
cursor moved back. -/
def DeliversOnce (clock : Int) (actions : List (Nat × Action C)) : Prop :=
  ((p.run (p.initial clock) actions).pending = false →
    ∀ c ∈ (p.run (p.initial clock) actions).subscription,
      p.Accounted (p.run (p.initial clock) actions).history
        (p.run (p.initial clock) actions).after c) ∧
  ∀ before later, actions = before ++ later →
    (p.run (p.initial clock) before).seeks = (p.run (p.initial clock) actions).seeks →
    (p.run (p.initial clock) before).after ≤ (p.run (p.initial clock) actions).after ∧
    (p.run (p.initial clock) before).cursor ≤ (p.run (p.initial clock) actions).cursor

/-- In a run of steady actions playback delivers every crossed Message exactly
once and does not move back. -/
theorem run_delivers_once (p : Playback C) (clock : Int) (actions : List (Nat × Action C))
    (hsteady : p.AllSteady (p.initial clock) actions) : p.DeliversOnce clock actions := by
  have hsound := (sound_initial clock).run hsteady
  refine ⟨fun hpending c hmem => hsound.1.delivered.exact c hmem ?_, ?_⟩
  · rw [pending, Bool.or_eq_false_iff] at hpending
    have hnone : (p.run (p.initial clock) actions).unreconstructed = ∅ := by
      simpa using hpending.2
    rw [hnone]
    exact Finset.notMem_empty c
  · rintro before later rfl hseeks
    obtain ⟨hbefore, hlater⟩ := allSteady_append.1 hsteady
    have hfirst := ((sound_initial clock).run hbefore).1
    have hafter := (hfirst.run hlater).2
    rw [run_append] at hseeks ⊢
    have hle := hafter.2 hseeks.symm
    refine ⟨hle, ?_⟩
    have htime := Position.time_mono hle
    rwa [hfirst.paced.after_time, (hfirst.run hlater).1.paced.after_time] at htime

/-- Two Channels, and a Message of one at 0, 10 and 100 ns. -/
def sample : Playback Bool where
  source :=
    { channels := [false, true]
      rows := [⟨0, false, 0, []⟩, ⟨1, false, 10, []⟩, ⟨2, false, 100, []⟩]
      maxMessageBytes := 8
      distinct := by decide
      declared := by decide
      sorted := by unfold Timeline.Sorted; decide
      indexed := by decide }
  limits := {}

/-- `configure` with a playing state. -/
def playingRequest (requestId : String) (playing : Bool) : Action Bool :=
  .configure ⟨requestId, none, some playing, none⟩

/-- Subscribe, play, and take a read at 50 ns. -/
def openingRun : List (Nat × Action Bool) :=
  [(0, .setSubscription [false]), (0, .pumpBegin), (0, .pumpEnd), (0, playingRequest "a" true),
    (50, .pumpBegin)]

/-- Apply the read, and read and apply a page some time later. -/
def nextPage (elapsed : Nat) : List (Nat × Action Bool) :=
  [(0, .pumpEnd), (elapsed, .pumpBegin), (0, .pumpEnd)]

/-- The rate is doubled while the read is in flight, and after two pages the
session is closed. -/
def doubledRun : List (Nat × Action Bool) :=
  openingRun ++ [(0, .configure ⟨"b", none, none, some 2⟩)] ++ nextPage 10 ++ [(0, .close)]

/-- A page up to 50 ns is delivered, and the next up to 70 ns. -/
theorem run_delivers_once_pages :
    (sample.run (sample.initial 0) doubledRun).after = .mk 70 afterInstant ∧
      sample.DeliversOnce 0 doubledRun :=
  ⟨by decide +kernel, run_delivers_once sample 0 _ (by decide +kernel)⟩

/-- A Pause and a Play while the read is in flight, and two more pages. -/
def restartedRun : List (Nat × Action Bool) :=
  openingRun ++ [(0, playingRequest "b" false), (0, playingRequest "c" true)] ++ nextPage 5 ++
    nextPage 20

/-- The page in flight moves the cursor to 50 ns, the next one back to 5 ns, and
the last one delivers the Message at 10 ns again. -/
theorem run_delivers_twice :
    (account false (sample.run (sample.initial 0) restartedRun).history).map
        (fun r => r.delivered.map SourceMessage.publicationTimeNs) = some [0, 10, 10] ∧
      ¬ sample.DeliversOnce 0 restartedRun := by
  have hdelivered : (account false (sample.run (sample.initial 0) restartedRun).history).map
      (fun r => r.delivered.map SourceMessage.publicationTimeNs) = some [0, 10, 10] := by
    decide +kernel
  have hsource : (Timeline.between SourceMessage.key (sample.source.messagesOf false)
      sample.first (sample.run (sample.initial 0) restartedRun).after).map
        SourceMessage.publicationTimeNs = [0, 10] := by
    decide +kernel
  refine ⟨hdelivered, fun h => ?_⟩
  obtain ⟨r, hr, hexact⟩ := h.1 (by decide +kernel) false (by decide +kernel)
  have hfresh : (account false (sample.run (sample.initial 0) restartedRun).history).map
      Reconstruction.fresh = some true := by
    decide +kernel
  rw [hr, Option.map_some, Option.some.injEq] at hdelivered hfresh
  rw [hexact.delivered, hexact.fresh hfresh, hsource] at hdelivered
  cases hdelivered

-- A lower rate while an added Channel waits, and the Channel removed again: the
-- cursor falls back from 50 ns to 25 ns.
example : (sample.run (sample.initial 0) (openingRun ++ [(0, .pumpEnd)])).cursor = 50 ∧
    (sample.run (sample.initial 0) (openingRun ++ [(0, .pumpEnd),
      (0, .setSubscription [false, true]), (0, .configure ⟨"b", none, none, some (1 / 2)⟩),
      (0, .setSubscription [false])] ++ nextPage 0)).cursor = 25 := by
  decide +kernel

end SilFormal.Visualization.Playback
