import SilFormal.Library.Keyed
import SilFormal.Kernel.Registration
import SilFormal.Kernel.SlotRun

/-!
# The order of the Tasks of a Slot

Tasks are numbered in the order in which they are registered and the engine
keeps them in that order, so sorting by priority and registration index is
sorting by priority, stably.  Removing Tasks therefore leaves the others in
their order, under whatever registration indices they have.  A Replay
participant with a priority of its own divides the Tasks of a Slot into those
before and those behind it.
-/

namespace SilFormal.Kernel

open List

universe u

variable {σ : Type u}

namespace Task

/-- The order of the run loop on Tasks. -/
def before (a b : Task σ) : Prop :=
  Due.before (.task a) (.task b)

instance : DecidableRel (before (σ := σ)) := fun a b =>
  inferInstanceAs (Decidable (Due.before (.task a) (.task b)))

/-- The order by priority only. -/
def notAfter (a b : Task σ) : Prop :=
  a.priority ≤ b.priority

instance : DecidableRel (notAfter (σ := σ)) := fun a b =>
  inferInstanceAs (Decidable (a.priority ≤ b.priority))

theorem before_iff {a b : Task σ} : a.before b ↔ a.priority < b.priority ∨
      (a.priority = b.priority ∧ a.registrationIndex ≤ b.registrationIndex) :=
  Iff.rfl

instance : IsTrans (Task σ) before where
  trans a b c hab hbc := by
    rw [before_iff] at *
    omega

instance : Std.Total (before (σ := σ)) where
  total a b := by
    simp only [before_iff]
    omega

/-- The registration index does not matter to Tasks in registration order. -/
theorem before_iff_notAfter {a b : Task σ} (h : a.registrationIndex < b.registrationIndex) :
    a.before b ↔ a.unindexed.notAfter b.unindexed := by
  simp only [before_iff, notAfter, unindexed]
  omega

end Task

namespace Engine

variable {e : Engine σ}

/-- The Tasks that are due in a Slot. -/
def dueTasks (e : Engine σ) (slot : Nat) : List (Task σ) :=
  e.tasks.filter fun t => !t.done && t.nextNs == slot

/-- The Tasks of a Slot in the order in which they are activated. -/
def taskQueue (e : Engine σ) (slot : Nat) : List (Task σ) :=
  (e.dueTasks slot).insertionSort Task.before

theorem mem_taskQueue {slot : Nat} {t : Task σ} :
    t ∈ e.taskQueue slot ↔ t ∈ e.tasks ∧ t.done = false ∧ t.nextNs = slot := by
  rw [taskQueue, (perm_insertionSort _ _).mem_iff, dueTasks]
  simp

/-- Replay participants without a priority come before all Tasks. -/
theorem agenda_of_unprioritised (h : ∀ r ∈ e.replayers, r.priority = none) (slot : Nat) :
    e.agenda slot = e.replayers.map .replay ++ (e.taskQueue slot).map .task := by
  have hnone : (e.replayers.filter fun r => r.priority.isNone) = e.replayers :=
    filter_eq_self.mpr fun r hr => by simp [h r hr]
  have hsome : (e.replayers.filter fun r => r.priority.isSome) = [] :=
    filter_eq_nil_iff.mpr fun r hr => by simp [h r hr]
  have hdue : e.dueAt slot = (e.dueTasks slot).map .task := by
    rw [dueAt, hsome, map_nil, append_nil]
    rfl
  rw [agenda, hnone, hdue]
  congr 1
  refine (Keyed.map_insertionSort_of_pairwise ?_).symm
  exact pairwise_of_forall fun _ _ => Iff.rfl

/-- The queue of a Slot, without the numbers of its Tasks. -/
theorem taskQueue_unindexed (h : (e.tasks.map Task.registrationIndex).Pairwise (· < ·))
    (slot : Nat) :
    (e.taskQueue slot).map Task.unindexed =
      ((e.tasks.map Task.unindexed).filter fun t =>
        !t.done && t.nextNs == slot).insertionSort Task.notAfter := by
  have hpairwise : (e.dueTasks slot).Pairwise fun a b =>
      a.before b ↔ a.unindexed.notAfter b.unindexed := by
    have hdue : (e.dueTasks slot).Pairwise fun a b => a.registrationIndex < b.registrationIndex :=
      (pairwise_map.mp h).sublist filter_sublist
    exact hdue.imp fun hab => Task.before_iff_notAfter hab
  rw [taskQueue, Keyed.map_insertionSort_of_pairwise hpairwise, filter_map]
  rfl

/-- An engine with some of the Tasks of another one activates them in the same
order. -/
theorem taskQueue_of_filter {e' : Engine σ} {p : Task σ → Bool}
    (h : (e.tasks.map Task.registrationIndex).Pairwise (· < ·))
    (h' : (e'.tasks.map Task.registrationIndex).Pairwise (· < ·))
    (htasks : (e.tasks.filter p).map Task.unindexed = e'.tasks.map Task.unindexed) (slot : Nat) :
    ((e.taskQueue slot).filter p).map Task.unindexed = (e'.taskQueue slot).map Task.unindexed := by
  -- the queue of an engine that has only these Tasks
  have hfilter : (e.taskQueue slot).filter p =
      ({ e with tasks := e.tasks.filter p } : Engine σ).taskQueue slot := by
    rw [taskQueue, Keyed.filter_insertionSort, taskQueue, dueTasks, dueTasks, filter_comm]
  have hsub : ((e.tasks.filter p).map Task.registrationIndex).Pairwise (· < ·) :=
    h.sublist (filter_sublist.map _)
  rw [hfilter, taskQueue_unindexed hsub, taskQueue_unindexed h', ← htasks]

theorem runSlot_indices (h : e.Scheduled) {slot : Nat} (hf : (e.runSlot slot).failure = none) :
    (e.runSlot slot).tasks.map Task.registrationIndex = e.tasks.map Task.registrationIndex := by
  rw [runSlot_tasks h hf, map_map]
  apply map_congr_left
  intro t _
  simp only [Function.comp_apply]
  split_ifs
  · exact Task.advance_registrationIndex _ _
  · rfl

end Engine

end SilFormal.Kernel
