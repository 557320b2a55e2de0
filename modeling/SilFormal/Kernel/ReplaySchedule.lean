import SilFormal.Kernel.ReplayPass

/-!
# The Slots of an engine that replays a Run

An engine with some of the Tasks of a recorded Run, and with a Replay
participant whose pass stands at what that Run is still to record, has nothing
to do before the recorded Run has.  A Slot of the recorded Run is its next Slot
too, or is one in which it would do nothing.
-/

namespace SilFormal.Kernel

open List

universe u

variable {σ : Type u}

/-- The pass of a Replay participant, set up as `place`, stands at what is
still to be recorded. -/
structure Replayer.Cursor (place : Replayer) (future : List Record) (r : Replayer) :
    Prop where
  name_eq : r.name = place.name
  priority_eq : r.priority = place.priority
  channels_eq : r.channels = place.channels
  duration_eq : r.durationNs = place.durationNs
  remaining_eq : r.remaining = (future.map Record.toMessage).filter place.selects

namespace Replayer.Cursor

variable {place r : Replayer} {future new later : List Record} {slot : Nat}

/-- What the pass publishes in a Slot, and where it stands afterwards. -/
theorem split (h : Cursor place (new ++ later) r) (hnew : ∀ record ∈ new, record.publishNs = slot)
    (hlater : ∀ record ∈ later, slot < record.publishNs) :
    r.dueAt slot = (new.map Record.toMessage).filter place.selects ∧
      Cursor place later (r.served slot) := by
  have hremaining : r.remaining = (new.map Record.toMessage).filter place.selects ++
      (later.map Record.toMessage).filter place.selects := by
    rw [h.remaining_eq, map_append, filter_append]
  have hfront : ∀ msg ∈ (new.map Record.toMessage).filter place.selects,
      (msg.publishNs == slot) = true := by
    intro msg hmsg
    obtain ⟨record, hrecord, rfl⟩ := mem_map.mp (mem_of_mem_filter hmsg)
    simpa [Record.toMessage] using hnew record hrecord
  have hback : ∀ msg ∈ (later.map Record.toMessage).filter place.selects,
      (msg.publishNs == slot) = false := by
    intro msg hmsg
    obtain ⟨record, hrecord, rfl⟩ := mem_map.mp (mem_of_mem_filter hmsg)
    have := hlater record hrecord
    simp only [Record.toMessage, beq_eq_false_iff_ne]
    omega
  obtain ⟨htake, hdrop⟩ := Router.takeWhile_append_of_forall_false
    ((new.map Record.toMessage).filter place.selects) hback
  constructor
  · rw [dueAt, hremaining, htake, takeWhile_eq_self_iff]
    exact hfront
  · refine ⟨h.name_eq, h.priority_eq, h.channels_eq, h.duration_eq, ?_⟩
    rw [served_remaining, hremaining, hdrop, dropWhile_eq_nil_iff.mpr hfront]
    rfl

theorem le_nextPublishNs (h : Cursor place future r)
    (hcurrent : ∀ msg ∈ r.reader.head?, r.selects msg = true)
    (hfuture : ∀ record ∈ future, slot ≤ record.publishNs) (hslot : slot ≤ uint64Max) :
    slot ≤ r.nextPublishNs := by
  rw [nextPublishNs_eq hcurrent]
  cases hhead : r.remaining.head? with
  | none => exact hslot
  | some msg =>
    have hmem := mem_of_mem_head? hhead
    rw [h.remaining_eq] at hmem
    obtain ⟨record, hrecord, rfl⟩ := mem_map.mp (mem_of_mem_filter hmem)
    exact hfuture record hrecord

/-- Nothing left to record is nothing left to replay. -/
theorem nextPublishNs_of_nil (h : Cursor place [] r)
    (hcurrent : ∀ msg ∈ r.reader.head?, r.selects msg = true) : r.nextPublishNs = uint64Max := by
  rw [nextPublishNs_eq hcurrent, h.remaining_eq]
  rfl

end Replayer.Cursor

/-- The pass at the start: the whole Recording is still to be replayed. -/
theorem Replayer.cursor_of_skipUnreplayed {place r : Replayer} {recording : List Record}
    (h : r.unindexed = ({ place with
      registrationIndex := 0
      reader := recording.map Record.toMessage } : Replayer).skipUnreplayed) :
    place.Cursor recording r := by
  have hname := congrArg Replayer.name h
  have hpriority := congrArg Replayer.priority h
  have hchannels := congrArg Replayer.channels h
  have hduration := congrArg Replayer.durationNs h
  have hremaining := congrArg Replayer.remaining h
  rw [skipUnreplayed_remaining] at hremaining
  exact ⟨hname, hpriority, hchannels, hduration, hremaining⟩

namespace Engine

/-! ## Slots with nothing to do -/

theorem agenda_of_idle {e : Engine σ} {r : Replayer} {slot : Nat} (hr : e.replayers = [r])
    (hqueue : e.taskQueue slot = []) : e.agenda slot = [.replay r] := by
  have hdue : e.dueTasks slot = [] := by
    rw [taskQueue] at hqueue
    exact (hqueue ▸ perm_insertionSort Task.before (e.dueTasks slot)).symm.eq_nil
  rw [dueTasks] at hdue
  cases hpriority : r.priority with
  | none => simp [agenda, dueAt, hr, hdue, hpriority]
  | some priority => simp [agenda, dueAt, hr, hdue, hpriority]

theorem runSlot_idle {e : Engine σ} {r : Replayer} {slot : Nat} (hr : e.replayers = [r])
    (hf : e.failure = none) (hqueue : e.taskQueue slot = [])
    (hcurrent : ∀ msg ∈ r.reader.head?, r.selects msg = true) (hnext : r.nextPublishNs ≠ slot) :
    e.runSlot slot = e.openSlot slot := by
  have hpass : r.publishFrom slot r.reader (e.openSlot slot).router =
      (r.reader, (e.openSlot slot).router, none) := by
    cases hreader : r.reader with
    | nil => rfl
    | cons msg rest =>
      have hsel := hcurrent msg (by simp [hreader])
      have hne : msg.publishNs ≠ slot := by
        simpa [Replayer.nextPublishNs, hreader] using hnext
      rw [Replayer.publishFrom, if_pos hsel, if_neg hne]
  have hlive : (e.openSlot slot).failure = none := hf
  rw [Engine.runSlot, agenda_of_idle hr hqueue, foldl_cons, execute]
  simp only [replay, Replayer.publishDue]
  rw [show (e.openSlot slot).router.nowNs = slot from rfl, hpass]
  simp [openSlot, hr, hf]

/-! ## The schedule of the replaying engine -/

/-- The replaying engine `e'` has the Tasks of the owners that are kept, and
its pass stands at what the recorded Run, now in `e`, records until its end in
`ef`. -/
structure Shadows (keep : String → Bool) (place : Replayer) (ef e e' : Engine σ) : Prop where
  tasks : (e.tasks.filter fun t => keep t.owner).map Task.unindexed = e'.tasks.map Task.unindexed
  pass : ∃ r future, e'.replayers = [r] ∧
    ef.router.recording = e.router.recording ++ future ∧ place.Cursor future r

section Shadows

variable
    {keep : String → Bool} {place : Replayer} {ef e e' : Engine σ} {slot : Nat}

/-- The pending Tasks of the replaying engine are pending in the recorded
Run. -/
theorem Shadows.exists_task (h : Shadows keep place ef e e') {t' : Task σ} (ht' : t' ∈ e'.tasks) :
    ∃ t ∈ e.tasks, t.done = t'.done ∧ t.nextNs = t'.nextNs := by
  have hmem : t'.unindexed ∈ e'.tasks.map Task.unindexed := mem_map_of_mem ht'
  rw [← h.tasks] at hmem
  obtain ⟨t, ht, heq⟩ := mem_map.mp hmem
  simp only [Task.unindexed, Task.mk.injEq] at heq
  exact ⟨t, mem_of_mem_filter ht, heq.2.2.2.2.2.2.2, heq.2.2.2.1⟩

theorem unindexed_advance (durationNs : Nat) (t : Task σ) :
    (t.advance durationNs).unindexed = t.unindexed.advance durationNs := by
  simp only [Task.advance, Task.unindexed]
  split
  · rfl
  · split_ifs <;> rfl

/-- The Tasks of the owners that are kept advance alike. -/
theorem Shadows.tasks_runSlot (h : Shadows keep place ef e e') (hs : e.Scheduled)
    (hs' : e'.Scheduled) (hduration : e'.durationNs = e.durationNs)
    (hok : (e.runSlot slot).failure = none) (hok' : (e'.runSlot slot).failure = none) :
    ((e.runSlot slot).tasks.filter fun t => keep t.owner).map Task.unindexed =
      (e'.runSlot slot).tasks.map Task.unindexed := by
  have hcommute : ∀ t : Task σ,
      (if t.done = false ∧ t.nextNs = slot then t.advance e.durationNs else t).unindexed =
        if t.unindexed.done = false ∧ t.unindexed.nextNs = slot then
          t.unindexed.advance e.durationNs else t.unindexed := by
    intro t
    rw [show t.unindexed.done = t.done from rfl, show t.unindexed.nextNs = t.nextNs from rfl]
    split_ifs
    · exact unindexed_advance e.durationNs t
    · rfl
  have hmap : ∀ l : List (Task σ), (l.map fun t => if t.done = false ∧ t.nextNs = slot then
        t.advance e.durationNs else t).map Task.unindexed =
        (l.map Task.unindexed).map fun t =>
          if t.done = false ∧ t.nextNs = slot then t.advance e.durationNs else t := by
    intro l
    rw [map_map, map_map]
    exact map_congr_left fun t _ => hcommute t
  have howner : ((fun t : Task σ => keep t.owner) ∘ fun t : Task σ =>
      if t.done = false ∧ t.nextNs = slot then t.advance e.durationNs else t) =
        fun t => keep t.owner := by
    funext t
    simp only [Function.comp_apply]
    split_ifs
    · rw [(t.advance_code e.durationNs).1]
    · rfl
  rw [runSlot_tasks hs hok, runSlot_tasks hs' hok', hduration, filter_map, howner,
    hmap, hmap, h.tasks]

/-- The replaying engine has nothing to do before the recorded Run has. -/
theorem Shadows.slot_le (h : Shadows keep place ef e e') (hs' : e'.Scheduled) {r : Replayer}
    {future : List Record} (hr : e'.replayers = [r]) (hcursor : place.Cursor future r)
    (hfuture : ∀ record ∈ future, e.slot ≤ record.publishNs) : e.slot ≤ e'.slot := by
  rcases e'.slot_attained with hmax | ⟨t', ht', hdone, hnext⟩ | ⟨r', hr', hnext⟩
  · rw [hmax]
    exact e.slot_le_max
  · obtain ⟨t, ht, htdone, htnext⟩ := h.exists_task ht'
    rw [← hnext, ← htnext]
    exact slot_le_nextNs ht (htdone.trans hdone)
  · rw [hr, mem_singleton] at hr'
    subst hr'
    rw [← hnext]
    exact hcursor.le_nextPublishNs (hs'.current r' (by simp [hr])) hfuture e.slot_le_max

theorem Shadows.follow (h : Shadows keep place ef e e') (hs' : e'.Scheduled)
    (hf : e'.failure = none) (hslot : e.slot ≠ uint64Max)
    (hfuture : ∀ future, ef.router.recording = e.router.recording ++ future →
      ∀ record ∈ future, e.slot ≤ record.publishNs) :
    e'.step = some (e'.runSlot e.slot) ∨ e'.runSlot e.slot = e'.openSlot e.slot := by
  obtain ⟨r, future, hr, hrec, hcursor⟩ := h.pass
  by_cases heq : e'.slot = e.slot
  · left
    rw [← heq]
    exact step_of_pending hf (heq ▸ hslot)
  · right
    have hle := h.slot_le hs' hr hcursor (hfuture future hrec)
    refine runSlot_idle hr hf ?_ (hs'.current r (by simp [hr])) fun hnext => ?_
    · rw [eq_nil_iff_forall_not_mem]
      intro t ht
      obtain ⟨hmem, hdone, hnext⟩ := mem_taskQueue.mp ht
      have := slot_le_nextNs hmem hdone
      omega
    · have : e'.slot ≤ r.nextPublishNs := slot_le_nextPublishNs (by simp [hr])
      omega

theorem Shadows.halted (h : Shadows keep place ef ef e') (hs : ef.Scheduled) (hs' : e'.Scheduled)
    (hf : ef.failure = none) (hf' : e'.failure = none) (hhalt : Loop.Halted Engine.step ef) :
    Loop.Halted Engine.step e' := by
  have hdone := (hs.all_done (step_eq_none hhalt hf)).1
  obtain ⟨r, future, hr, hfuture, hcursor⟩ := h.pass
  obtain rfl : future = [] := by simpa using hfuture
  have hslot : e'.slot = uint64Max := by
    rcases e'.slot_attained with hmax | ⟨t', ht', hpending, _⟩ | ⟨r', hr', hnext⟩
    · exact hmax
    · obtain ⟨t, ht, htdone, _⟩ := h.exists_task ht'
      rw [← htdone, hdone t ht] at hpending
      cases hpending
    · rw [hr, mem_singleton] at hr'
      subst hr'
      rw [← hnext]
      exact hcursor.nextPublishNs_of_nil (hs'.current r' (by simp [hr]))
  rw [Loop.Halted, Engine.step, hf', if_neg (by simp), if_pos hslot]

end Shadows

end Engine

end SilFormal.Kernel
