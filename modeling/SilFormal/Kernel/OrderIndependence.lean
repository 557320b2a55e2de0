import SilFormal.Kernel.Separation
import SilFormal.Kernel.SlotOrder

/-!
# Order inside a Slot

Two engines with the same Tasks under different priorities and registration
indices sort the due Tasks of a Slot differently.  Without capacities and
same-Slot feedthrough this makes no difference to a Run that does not fail,
and a Run that fails does so in the same Slot under every order.
-/

namespace SilFormal.Kernel

open List

universe u

variable {σ : Type u}

/-! ## A Slot as a sequence of activations -/

namespace Engine

variable {slot : Nat}

theorem call_sameBase {e e' : Engine σ} (h : SameBase e e') (t : Task σ) :
    e'.call t.bare = e.call t := by
  simp only [call, h.router, h.contracts, h.limits, h.states, Task.bare]

/-- The activations of a Slot, run by the loop and as actions. -/
theorem foldl_execute_runAll {l : List (Task σ)} {e e₁ : Engine σ} (hbase : SameBase e e₁)
    (hf : e.failure = none) :
    (((l.map Due.task).foldl execute e).failure = none ∧
        ∃ e₂, Interleaving.runAll perform (l.map Task.bare) e₁ = some e₂ ∧
          SameBase ((l.map Due.task).foldl execute e) e₂) ∨
      (((l.map Due.task).foldl execute e).failure ≠ none ∧
        Interleaving.runAll perform (l.map Task.bare) e₁ = none) := by
  induction l generalizing e e₁ with
  | nil => exact .inl ⟨hf, e₁, rfl, hbase⟩
  | cons t rest ih =>
    have hexec : e.execute (.task t) = e.activate t := by simp [execute, hf]
    have hcall := call_sameBase hbase t
    simp only [map_cons, foldl_cons, hexec, Interleaving.runAll]
    cases hout : (e.call t).2.1 with
    | none =>
      have hperform := perform_of_success (hcall ▸ hout : (e₁.call t.bare).2.1 = none)
      rw [hperform]
      refine ih ⟨hbase.durationNs, hbase.contracts, hbase.limits, ?_, ?_⟩ hout
      · exact congrArg Prod.fst hcall
      · funext o
        rw [hcall, hbase.states]
        rfl
    | some error =>
      have hfailed : (e.activate t).failure.isSome = true := by
        simp [activate, hout]
      have hperform : perform t.bare e₁ = none := by simp [perform, hcall, hout]
      rw [hperform, foldl_execute_of_failed _ _ hfailed]
      exact .inr ⟨Option.isSome_iff_ne_none.mp hfailed, rfl⟩

/-- Without Replay participants the agenda of a Slot consists of Tasks. -/
theorem agenda_eq_tasks {e : Engine σ} (h : e.replayers = []) (slot : Nat) :
    e.agenda slot = (tasksOf (e.agenda slot)).map .task := by
  have hall : ∀ l : List (Due σ), (∀ d ∈ l, ∃ t, d = .task t) → l = (tasksOf l).map .task := by
    intro l
    induction l with
    | nil =>
      intro _
      rfl
    | cons d rest ih =>
      intro hl
      obtain ⟨t, rfl⟩ := hl d (by simp)
      have hrest := ih fun d hd => hl d (mem_cons_of_mem _ hd)
      conv_lhs => rw [hrest]
      rfl
  apply hall
  intro d hd
  simp only [agenda, h, filter_nil, map_nil, nil_append] at hd
  rw [(perm_insertionSort Due.before _).mem_iff] at hd
  simp only [dueAt, h, filter_nil, map_nil, append_nil] at hd
  obtain ⟨t, _, rfl⟩ := mem_map.mp hd
  exact ⟨t, rfl⟩

/-! ## Two engines with the same Tasks -/

/-- A Channel without a publisher. -/
def Unpublished (e : Engine σ) (c : String) : Prop :=
  ∀ o, c ∉ (e.contracts o).publishes

/-- An engine whose participants own one Task each, depend on their routes
only, and communicate from Slot to Slot. -/
structure Independent (e : Engine σ) : Prop where
  scheduled : e.Scheduled
  valid : e.Valid e.Unpublished
  owners : (e.tasks.map Task.owner).Nodup
  routewise : ∀ t ∈ e.tasks, t.fn.Routewise
  replayers : e.replayers = []

/-- Two engines in the same state, with the same Tasks in some order. -/
structure Alike (e e' : Engine σ) : Prop where
  duration : e.durationNs = e'.durationNs
  contracts : e.contracts = e'.contracts
  tasks : (e.tasks.map Task.bare).Perm (e'.tasks.map Task.bare)
  processes : e.processes.Perm e'.processes
  view : ∀ i, View (fun _ => true) e.Unpublished i e e'
  slots : e.slots = e'.slots

variable {e e' : Engine σ}

theorem Alike.symm (h : e.Alike e') : e'.Alike e := by
  refine ⟨h.duration.symm, h.contracts.symm, h.tasks.symm, h.processes.symm,
    fun i => ?_, h.slots.symm⟩
  have hfree : e'.Unpublished = e.Unpublished := by
    funext c
    simp only [Unpublished, h.contracts]
  rw [hfree]
  exact (h.view i).symm

theorem Alike.pendingContent (h : e.Alike e') (o c : String) :
    e.router.pendingContent o c = e'.router.pendingContent o c := by
  have howner := (h.view (some o)).2.2.2.taking
  refine Router.pendingContent_eq howner ?_
  by_cases hfree : e.Unpublished c
  · exact (h.view none c hfree).waiting o rfl
  · simp only [Unpublished, not_forall, not_not] at hfree
    obtain ⟨p, hp⟩ := hfree
    exact ((h.view (some p)).2.2.2.publishing c hp).waiting o rfl

theorem Alike.openSlot (h : e.Alike e') (slot : Nat) (i : Option String) :
    View (fun _ => true) e.Unpublished i (e.openSlot slot) (e'.openSlot slot) := by
  have hlatency : ∀ o c, (e.router.routes o c).latencyNs =
      (e'.router.routes o c).latencyNs := fun o c =>
    (h.view (some o)).2.2.2.taking.latency c
  cases i with
  | none =>
    exact fun c hc => .opened (h.view none c hc).state (h.view none c hc).recorded
      (fun o _ => ⟨hlatency o c, h.pendingContent o c⟩) slot
  | some o =>
    obtain ⟨hcontract, hlimits, hstate, hsame⟩ := h.view (some o)
    refine ⟨hcontract, hlimits, hstate, rfl,
      .opened hsame.taking.latency (h.pendingContent o) hsame.taking.intake slot,
      fun c hc => ?_⟩
    have hchannel := hsame.publishing c hc
    exact .opened hchannel.state hchannel.recorded
      (fun o _ => ⟨hlatency o c, h.pendingContent o c⟩) slot

theorem slot_eq_of_perm (h : (e.tasks.map Task.bare).Perm (e'.tasks.map Task.bare))
    (hr : e.replayers = []) (hr' : e'.replayers = []) : e.slot = e'.slot := by
  have hpending : ∀ l : List (Task σ), (l.filter fun t => !t.done).map Task.nextNs =
        ((l.map Task.bare).filter fun t => !t.done).map Task.nextNs := by
    intro l
    rw [filter_map, map_map]
    rfl
  simp only [slot, hr, hr']
  rw [hpending e.tasks, hpending e'.tasks]
  exact ((h.filter _).map _).foldl_eq uint64Max

theorem due_perm (h : (e.tasks.map Task.bare).Perm (e'.tasks.map Task.bare)) (slot : Nat) :
    ((tasksOf (e.agenda slot)).map Task.bare).Perm
      ((tasksOf (e'.agenda slot)).map Task.bare) := by
  have hdue : ∀ l : List (Task σ), (l.filter fun t => !t.done && t.nextNs == slot).map Task.bare =
        (l.map Task.bare).filter fun t => !t.done && t.nextNs == slot := by
    intro l
    rw [filter_map]
    rfl
  refine ((e.tasksOf_agenda slot).map _).trans (List.Perm.trans ?_
    ((e'.tasksOf_agenda slot).map _).symm)
  rw [hdue, hdue]
  exact h.filter _

theorem View.of_sameBase {keep : String → Bool} {free : String → Prop} (h : SameBase e e')
    (i : Option String) : View keep free i e e' := by
  have hview := View.refl keep free i e
  cases i with
  | none =>
    rw [View, h.router]
    exact hview
  | some o =>
    rw [View, h.router, h.contracts, h.limits, h.states]
    exact hview

/-! ## One Slot -/

theorem Independent.openSlot_valid (h : e.Independent) (hslot : slot ≤ uint64Max) :
    (e.openSlot slot).Valid e.Unpublished :=
  ⟨⟨h.valid.opened.capacity, h.valid.opened.latency, hslot⟩, h.valid.one_publisher,
    h.valid.unpublished⟩

theorem Independent.agenda_routewise (h : e.Independent) (slot : Nat) :
    ∀ t ∈ (tasksOf (e.agenda slot)).map Task.bare, t.fn.Routewise := by
  intro t ht
  obtain ⟨t₀, ht₀, rfl⟩ := mem_map.mp ht
  rw [(e.tasksOf_agenda slot).mem_iff] at ht₀
  exact h.routewise t₀ (mem_of_mem_filter ht₀)

theorem Independent.agenda_owners (h : e.Independent) (slot : Nat) :
    (((tasksOf (e.agenda slot)).map Task.bare).map
      fun t => some t.owner).Nodup := by
  rw [map_map]
  have hperm := (e.tasksOf_agenda slot).map Task.owner
  have hnodup : ((tasksOf (e.agenda slot)).map Task.owner).Nodup :=
    hperm.nodup_iff.mpr (h.owners.sublist (filter_sublist.map _))
  have hmap := hnodup.map (Option.some_injective String)
  rw [map_map] at hmap
  exact hmap

/-- The work of a Slot without Replay participants, as actions. -/
theorem Independent.runSlot_cases (h : e.Independent) (hf : e.failure = none) (slot : Nat) :
    ((e.runSlot slot).failure = none ∧
        ∃ e₂, Interleaving.runAll perform ((tasksOf (e.agenda slot)).map Task.bare)
            (e.openSlot slot) = some e₂ ∧ SameBase (e.runSlot slot) e₂) ∨
      ((e.runSlot slot).failure ≠ none ∧
        Interleaving.runAll perform ((tasksOf (e.agenda slot)).map Task.bare)
          (e.openSlot slot) = none) := by
  rw [agenda_eq_tasks h.replayers slot]
  have hcases := foldl_execute_runAll (l := tasksOf (e.agenda slot))
    (SameBase.refl (e.openSlot slot)) hf
  rwa [← agenda_eq_tasks h.replayers slot] at hcases ⊢

theorem bare_advance (durationNs : Nat) (t : Task σ) :
    (t.advance durationNs).bare = t.bare.advance durationNs := by
  simp only [Task.advance, Task.bare]
  split
  · rfl
  · split_ifs <;> rfl

/-- The Tasks after a Slot, without what orders them. -/
theorem runSlot_tasks_bare (h : e.Scheduled) (hf : (e.runSlot slot).failure = none) :
    (e.runSlot slot).tasks.map Task.bare =
      (e.tasks.map Task.bare).map fun t =>
        if t.done = false ∧ t.nextNs = slot then t.advance e.durationNs else t := by
  rw [runSlot_tasks h hf, map_map, map_map]
  apply map_congr_left
  intro t _
  simp only [Function.comp_apply]
  rw [show t.bare.done = t.done from rfl, show t.bare.nextNs = t.nextNs from rfl]
  split_ifs
  · exact bare_advance e.durationNs t
  · rfl

theorem Independent.runSlot (h : e.Independent) (hf : e.failure = none) (hslot : slot ≤ uint64Max)
    (hf' : (e.runSlot slot).failure = none) : (e.runSlot slot).Independent := by
  rcases h.runSlot_cases hf slot with ⟨_, e₂, hrun, hbase⟩ | ⟨hfail, _⟩
  · have hvalid := (separate (fun _ => true) e.Unpublished).runAll_valid
      (h.openSlot_valid hslot) hrun
    have hcontracts : (e.runSlot slot).contracts = e.contracts :=
      (foldl_execute_static (e.agenda slot) (e.openSlot slot)).2.1
    have hfree : (e.runSlot slot).Unpublished = e.Unpublished := by
      funext c
      simp only [Unpublished, hcontracts]
    have hcode : ∀ t' ∈ (e.runSlot slot).tasks, ∃ t ∈ e.tasks,
        t'.owner = t.owner ∧ t'.fn = t.fn := by
      intro t' ht'
      rw [runSlot_tasks h.scheduled hf'] at ht'
      obtain ⟨t, ht, rfl⟩ := mem_map.mp ht'
      refine ⟨t, ht, ?_⟩
      split_ifs
      · exact t.advance_code e.durationNs
      · exact ⟨rfl, rfl⟩
    refine ⟨runSlot_scheduled h.scheduled, ?_, ?_, ?_, ?_⟩
    · rw [hfree]
      refine ⟨hbase.router ▸ hvalid.opened, ?_, ?_⟩
      · rw [hcontracts]
        exact h.valid.one_publisher
      · rw [hcontracts]
        exact h.valid.unpublished
    · rw [runSlot_tasks h.scheduled hf', map_map]
      convert h.owners using 2
      funext t
      simp only [Function.comp_apply]
      split_ifs
      · exact (t.advance_code e.durationNs).1
      · rfl
    · intro t' ht'
      obtain ⟨t, ht, _, hfn⟩ := hcode t' ht'
      rw [hfn]
      exact h.routewise t ht
    · rw [runSlot_replayers h.scheduled hf', h.replayers]
      rfl
  · exact absurd hf' hfail

theorem Alike.runSlot (halike : e.Alike e') (h : e.Independent) (h' : e'.Independent)
    (hf : e.failure = none) (hf' : e'.failure = none) (hslot : slot ≤ uint64Max)
    (hok : (e.runSlot slot).failure = none) :
    (e'.runSlot slot).failure = none ∧ (e.runSlot slot).Alike (e'.runSlot slot) := by
  have hfree : e'.Unpublished = e.Unpublished := by
    funext c
    simp only [Unpublished, halike.contracts]
  obtain ⟨_, e₂, hrun, hbase⟩ := (h.runSlot_cases hf slot).resolve_right fun hfail => hfail.1 hok
  have hperm := due_perm halike.tasks slot
  have honly := Interleaving.only_eq_of_perm hperm (h.agenda_owners slot)
  obtain ⟨e₂', hrun', hview⟩ := (separate (fun _ => true) e.Unpublished).runAll_of_only_eq
    (h.agenda_routewise slot) (h'.agenda_routewise slot) honly
    (h.openSlot_valid hslot) (hfree ▸ h'.openSlot_valid hslot) (halike.openSlot slot) hrun
  obtain ⟨hok', e₃, hrun₃, hbase'⟩ := (h'.runSlot_cases hf' slot).resolve_right
    fun hfail => by
      rw [hfail.2] at hrun'
      cases hrun'
  obtain rfl : e₃ = e₂' := Option.some.inj (hrun₃.symm.trans hrun')
  have hstatic := foldl_execute_static (e.agenda slot) (e.openSlot slot)
  have hstatic' := foldl_execute_static (e'.agenda slot) (e'.openSlot slot)
  have hcontracts : (e.runSlot slot).contracts = e.contracts := hstatic.2.1
  have hcontracts' : (e'.runSlot slot).contracts = e'.contracts := hstatic'.2.1
  refine ⟨hok', ?_, ?_, ?_, ?_, fun i => ?_, ?_⟩
  · rw [runSlot_durationNs, runSlot_durationNs, halike.duration]
  · rw [hcontracts, hcontracts', halike.contracts]
  · rw [runSlot_tasks_bare h.scheduled hok, runSlot_tasks_bare h'.scheduled hok', halike.duration]
    exact halike.tasks.map _
  · have hprocesses : (e.runSlot slot).processes = e.processes := hstatic.2.2.2.1
    have hprocesses' : (e'.runSlot slot).processes = e'.processes := hstatic'.2.2.2.1
    rw [hprocesses, hprocesses']
    exact halike.processes
  · have hfree' : (e.runSlot slot).Unpublished = e.Unpublished := by
      funext c
      simp only [Unpublished, hcontracts]
    rw [hfree']
    exact ((View.of_sameBase hbase i).trans (hview i)).trans
      (View.of_sameBase hbase' i).symm
  · rw [runSlot_slots, runSlot_slots, halike.slots]

/-! ## Whole Runs -/

/-- The two Runs after the same number of Slots: in the same state, or both
failed in the Slot they opened last. -/
structure InStep (e₀ e₀' e e' : Engine σ) : Prop where
  left : Loop.Reach step e₀ e
  right : Loop.Reach step e₀' e'
  related : (e.failure = none ∧ e'.failure = none ∧ e.Independent ∧ e'.Independent ∧ e.Alike e') ∨
      (e.failure ≠ none ∧ e'.failure ≠ none ∧ e.slots = e'.slots ∧
        ∃ b b', Loop.Reach step e₀ b ∧ Loop.Reach step e₀' b' ∧
          b.step = some e ∧ b'.step = some e' ∧ b.Alike b')

theorem ended_or_runSlot (hf : e.failure = none) (hf' : e'.failure = none)
    (hslot : e.slot = e'.slot) :
    (e.step = none ∧ e'.step = none) ∨
      (e.step = some (e.runSlot e.slot) ∧ e'.step = some (e'.runSlot e.slot)) := by
  by_cases hmax : e.slot = uint64Max
  · left
    constructor
    · simp [Engine.step, hmax]
    · simp [Engine.step, ← hslot, hmax]
  · right
    have hstep' := step_of_pending hf' (hslot ▸ hmax)
    rw [← hslot] at hstep'
    exact ⟨step_of_pending hf hmax, hstep'⟩

theorem InStep.step {e₀ e₀' e e' : Engine σ} (h : InStep e₀ e₀' e e') :
    (e.step = none ∧ e'.step = none) ∨
      ∃ a a', e.step = some a ∧ e'.step = some a' ∧ InStep e₀ e₀' a a' := by
  obtain ⟨hleft, hright, ⟨hf, hf', hi, hi', halike⟩ | ⟨hf, hf', _⟩⟩ := h
  · have hsloteq := slot_eq_of_perm halike.tasks hi.replayers hi'.replayers
    refine (ended_or_runSlot hf hf' hsloteq).imp_right ?_
    rintro ⟨hstep, hstep'⟩
    have hle := e.slot_le_max
    refine ⟨_, _, hstep, hstep', .tail hleft hstep, .tail hright hstep', ?_⟩
    by_cases hok : (e.runSlot e.slot).failure = none
    · obtain ⟨hok', hnext⟩ := halike.runSlot hi hi' hf hf' hle hok
      exact .inl ⟨hok, hok', hi.runSlot hf hle hok, hi'.runSlot hf' hle hok', hnext⟩
    · -- the other order fails too, or it would show that this one does not
      have hok' : (e'.runSlot e.slot).failure ≠ none := fun h =>
        hok (halike.symm.runSlot hi' hi hf' hf hle h).1
      refine .inr ⟨hok, hok', ?_, e, e', hleft, hright, hstep, hstep', halike⟩
      rw [runSlot_slots, runSlot_slots, halike.slots]
  · exact .inl ⟨step_of_failure hf, step_of_failure hf'⟩

theorem loop_inStep (hf : e.failure = none) (hf' : e'.failure = none) (h : e.Independent)
    (h' : e'.Independent) (halike : e.Alike e') : InStep e e' e.loop e'.loop := by
  have hstart : InStep e e' e e' :=
    ⟨.refl, .refl, .inl ⟨hf, hf', h, h', halike⟩⟩
  exact Loop.run_lockstep_halted (fun _ _ hr => hr.step) hstart
    (loop_halted h.scheduled) (loop_halted h'.scheduled)

/-- A Run completes when no participant fails in the loop and every child
process ends well. -/
theorem completes_iff (e : Engine σ) : e.Completes ↔ e.loop.failure = none ∧
      ∀ p ∈ e.loop.processes, p.2 (e.loop.states p.1) = none := by
  simp only [Completes, run, shutdown]
  cases hf : e.loop.failure with
  | some error => simp [hf]
  | none =>
    simp only [Option.isSome_none, Bool.false_eq_true, if_false, true_and]
    split
    · next hnone =>
        simpa [hf] using hnone
    · next owner text hsome =>
        obtain ⟨p, hp, htext⟩ := exists_of_findSome?_eq_some hsome
        refine iff_of_false (by simp) fun hall => ?_
        simp [hall p hp] at htext

/-- The same engine with other priorities and registration indices. -/
structure Reassigned (e e' : Engine σ) : Prop where
  base : SameBase e e'
  tasks : (e.tasks.map Task.bare).Perm (e'.tasks.map Task.bare)
  indices : (e'.tasks.map Task.registrationIndex).Nodup
  replayers : e'.replayers = e.replayers
  processes : e'.processes = e.processes
  failure : e'.failure = e.failure
  slots : e'.slots = e.slots

theorem Reassigned.alike (h : Reassigned e e') : e.Alike e' :=
  ⟨h.base.durationNs.symm, h.base.contracts.symm, h.tasks, h.processes ▸ .refl _,
    fun i => View.of_sameBase h.base i, h.slots.symm⟩

/-- The Tasks of a reassigned engine, up to their order. -/
theorem Reassigned.exists_task (h : Reassigned e e') {t' : Task σ} (ht' : t' ∈ e'.tasks) :
    ∃ t ∈ e.tasks, t.periodNs = t'.periodNs ∧ t.nextNs = t'.nextNs ∧
      t.fn = t'.fn ∧ t.done = t'.done := by
  have hmem : t'.bare ∈ e.tasks.map Task.bare :=
    h.tasks.mem_iff.mpr (mem_map_of_mem ht')
  obtain ⟨t, ht, hbare⟩ := mem_map.mp hmem
  simp only [Task.bare, Task.mk.injEq] at hbare
  obtain ⟨_, _, hperiod, hnext, _, _, hfn, hdone⟩ := hbare
  exact ⟨t, ht, hperiod, hnext, hfn, hdone⟩

theorem Reassigned.independent (h : Reassigned e e') (hi : e.Independent) : e'.Independent := by
  have hfield : ∀ {β : Type} (f : Task σ → β), (∀ t : Task σ, f t.bare = f t) →
      (e.tasks.map f).Perm (e'.tasks.map f) := by
    intro β f hf
    have hmap := h.tasks.map f
    simpa [Function.comp_def, hf] using hmap
  refine ⟨⟨?_, ?_, ?_, ?_, ?_, h.indices, ?_⟩, ⟨?_, ?_, ?_⟩, ?_, ?_, ?_⟩
  · rw [h.base.durationNs]
    exact hi.scheduled.duration_le
  · intro t' ht'
    obtain ⟨t, ht, hperiod, _⟩ := h.exists_task ht'
    exact hperiod ▸ hi.scheduled.period_pos t ht
  · intro t' ht' hdone
    obtain ⟨t, ht, _, hnext, _, hdone'⟩ := h.exists_task ht'
    rw [← hnext, h.base.durationNs]
    exact hi.scheduled.next_lt t ht (hdone'.trans hdone)
  · rw [h.replayers, h.base.durationNs]
    exact hi.scheduled.replay_duration
  · rw [h.replayers]
    exact hi.scheduled.current
  · rw [h.replayers]
    exact hi.scheduled.replay_index
  · rw [h.base.router]
    exact hi.valid.opened
  · rw [h.base.contracts]
    exact hi.valid.one_publisher
  · intro c hc
    exact hc
  · exact (hfield Task.owner fun _ => rfl).nodup_iff.mp hi.owners
  · intro t' ht'
    obtain ⟨t, ht, _, _, hfn, _⟩ := h.exists_task ht'
    exact hfn ▸ hi.routewise t ht
  · rw [h.replayers, hi.replayers]

/-- The engine of a Manifest whose participants own one Task each, up to its
routes. -/
theorem setup_single {m : Manifest σ} (hloaded : m.Loaded)
    (hroutewise : ∀ p ∈ m.participants, ∀ t ∈ p.tasks m.durationNs, t.fn.Routewise)
    (hone : ∀ p ∈ m.participants, (p.tasks m.durationNs).length = 1) (hsetup : setup m = some e) :
    (∀ o o' c, c ∈ (e.contracts o).publishes → c ∈ (e.contracts o').publishes → o = o') ∧
      (e.tasks.map Task.owner).Nodup ∧ (∀ t ∈ e.tasks, t.fn.Routewise) ∧
      e.replayers = [] := by
  have hbase := setup_sameBase hsetup
  obtain ⟨htasks, hreplayers, _⟩ := setup_registered hsetup
  have hcontracts : e.contracts = m.contract := hbase.contracts
  refine ⟨?_, ?_, ?_, ?_⟩
  · rw [hcontracts]
    intro o o' c
    exact Manifest.publisher_unique (onePublisher_of_setup hsetup)
  · have howners : e.tasks.map Task.owner = m.participants.map ParticipantSpec.name := by
      have hmap : (e.tasks.map Task.unindexed).map Task.owner = e.tasks.map Task.owner := by
        rw [map_map]
        rfl
      rw [← hmap, htasks, map_flatMap, map_eq_flatMap]
      refine flatMap_congr fun p hp => ?_
      obtain ⟨t, ht⟩ := length_eq_one_iff.mp (hone p hp)
      rw [ht]
      exact congrArg (fun o => [o])
        (ParticipantSpec.owner_of_mem_tasks (ht ▸ mem_singleton_self t))
    rw [howners]
    exact hloaded.participant_names
  · intro t ht
    obtain ⟨p, hp, hmem⟩ := exists_participant_of_task hsetup ht
    exact hroutewise p hp t.unindexed hmem
  · have hnone : m.participants.flatMap (ParticipantSpec.replayers m.durationNs) = [] := by
      rw [flatMap_eq_nil_iff]
      intro p hp
      have hlen := hone p hp
      cases himpl : p.impl with
      | replay channels priority recording => simp [ParticipantSpec.tasks, himpl] at hlen
      | _ => simp [ParticipantSpec.replayers, himpl]
    rw [hnone] at hreplayers
    exact map_eq_nil_iff.mp hreplayers

/-- The engine of a Manifest whose participants own one Task each. -/
theorem setup_independent {m : Manifest σ} (hloaded : m.Loaded) (hslots : m.SlotToSlot)
    (hone : ∀ p ∈ m.participants, (p.tasks m.durationNs).length = 1) (hsetup : setup m = some e) :
    e.Independent := by
  obtain ⟨hsched, _⟩ := setup_filling hloaded.duration_le hsetup
  obtain ⟨hpublisher, howners, hroutewise, hreplayers⟩ :=
    setup_single hloaded hslots.routewise hone hsetup
  refine ⟨hsched, ⟨?_, hpublisher, fun c hc => hc⟩, howners, hroutewise, hreplayers⟩
  rw [(setup_sameBase hsetup).router]
  exact hslots.router_open

end Engine

/-- Two Runs in which every activation took the same from every route, and
every Channel carried the same Messages. -/
structure Router.SameObservations (r r' : Router) : Prop where
  intake : ∀ o c, r.intake o c = r'.intake o c
  recorded : ∀ c, r.recorded c = r'.recorded c

namespace Engine

variable {e e' : Engine σ}

theorem Alike.sameObservations (h : e.Alike e') : e.router.SameObservations e'.router := by
  refine ⟨fun o c => (h.view (some o)).2.2.2.taking.intake c, fun c => ?_⟩
  by_cases hfree : e.Unpublished c
  · exact (h.view none c hfree).recorded
  · simp only [Unpublished, not_forall, not_not] at hfree
    obtain ⟨p, hp⟩ := hfree
    exact ((h.view (some p)).2.2.2.publishing c hp).recorded

/-- Child processes that end in the same states end equally well. -/
theorem completes_of_same_ends (hstates : ∀ o, e.loop.states o = e'.loop.states o)
    (hprocesses : e.loop.processes.Perm e'.loop.processes) (hok : e'.loop.failure = none)
    (hcomplete : e.Completes) : e'.Completes := by
  obtain ⟨_, hall⟩ := (completes_iff e).mp hcomplete
  refine (completes_iff e').mpr ⟨hok, fun p hp => ?_⟩
  rw [← hstates]
  exact hall p (hprocesses.mem_iff.mpr hp)

theorem Alike.completes (h : e.loop.Alike e'.loop) (hok : e'.loop.failure = none)
    (hcomplete : e.Completes) : e'.Completes :=
  completes_of_same_ends (fun o => (h.view (some o)).2.2.1) h.processes hok hcomplete

/-- Order independence inside Slots, for every two assignments of priorities
and registration indices to the same Tasks: either both Runs complete or
neither does.  If no participant fails in the loop, all observations are the
same.  If one fails, both Runs opened the same Slots, and up to the last one
all observations are the same. -/
theorem order_independence (m : Manifest σ) (e e' : Engine σ) (hloaded : m.Loaded)
    (hslots : m.SlotToSlot) (hone : ∀ p ∈ m.participants, (p.tasks m.durationNs).length = 1)
    (hsetup : setup m = some e) (hreassigned : Reassigned e e') :
    (e.Completes ↔ e'.Completes) ∧ (e.loop.failure = none →
        e'.loop.failure = none ∧ e.run.router.SameObservations e'.run.router) ∧
      (e.loop.failure ≠ none → e'.loop.failure ≠ none ∧ e.run.slots = e'.run.slots ∧
        ∃ b b', Loop.Reach step e b ∧ Loop.Reach step e' b' ∧
          b.step = some e.loop ∧ b'.step = some e'.loop ∧
          b.router.SameObservations b'.router) := by
  have hfilling := setup_filling hloaded.duration_le hsetup
  have hf : e.failure = none := hfilling.failure_none
  have hi := setup_independent hloaded hslots hone hsetup
  have hsync := loop_inStep hf (hreassigned.failure.trans hf) hi
    (hreassigned.independent hi) hreassigned.alike
  rw [run_router, run_router]
  rcases hsync.related with ⟨hok, hok', _, _, halike⟩ |
    ⟨hfail, hfail', hsame, b, b', hb, hb', hstep, hstep', halike⟩
  · refine ⟨⟨halike.completes hok', halike.symm.completes hok⟩,
      fun _ => ⟨hok', halike.sameObservations⟩, fun hne => absurd hok hne⟩
  · refine ⟨?_, fun h => absurd h hfail, fun _ => ⟨hfail', ?_, b, b', hb, hb', hstep,
      hstep', halike.sameObservations⟩⟩
    · refine iff_of_false (fun h => ?_) fun h => ?_
      · exact hfail ((completes_iff e).mp h).1
      · exact hfail' ((completes_iff e').mp h).1
    · exact (shutdown_slots e.loop).trans (hsame.trans (shutdown_slots e'.loop).symm)

/-- A display that echoes its next input, or the time without one, and a sensor
whose payload has `size` bytes on a Channel of one byte. -/
def echoManifest (size : Nat) : Manifest Unit where
  durationNs := 25
  channels :=
    [⟨"echo", "byte", 1, none, ⟨25, []⟩⟩, ⟨"speed", "byte", 1, some 5, ⟨25, []⟩⟩]
  participants :=
    [⟨"display", .native [⟨"speed", none, .fail⟩] ["echo"]
        [⟨"show", 10, 0, 0, fun now _ => .take "speed" fun reply =>
          match reply with
          | .message bytes => .publish "echo" bytes fun _ => .ret ()
          | _ => .publish "echo" [UInt8.ofNat now] fun _ => .ret ()⟩]⟩,
      ⟨"sensor", .native [] ["speed"]
        [⟨"sample", 5, 0, 0, fun now _ =>
          .publish "speed" (List.replicate size (UInt8.ofNat now)) fun _ => .ret ()⟩]⟩]
  initial := fun _ => ()
  limits := {}

theorem echoManifest_slotToSlot (size : Nat) : (echoManifest size).SlotToSlot := by
  refine ⟨by simp [echoManifest], by simp [echoManifest, ParticipantSpec.subscribes], ?_⟩
  intro p hp t ht
  simp only [echoManifest, mem_cons, not_mem_nil, or_false] at hp
  rcases hp with rfl | rfl
  · rw [show t = _ from mem_singleton.mp ht]
    trivial
  · rw [show t = _ from mem_singleton.mp ht]
    trivial

/-- The engine with the Tasks in the other order. -/
def swapTasks (e : Engine σ) : Engine σ :=
  { e with tasks := e.tasks.reverse.mapIdx fun i t =>
      { t with priority := i, registrationIndex := i } }

theorem order_independence_echo :
    ∃ e, setup (echoManifest 1) = some e ∧ Reassigned e e.swapTasks ∧ e.run.router.recorded "echo" =
        [⟨"echo", 0, 0, [0]⟩, ⟨"echo", 10, 1, [0]⟩, ⟨"echo", 20, 2, [5]⟩] ∧
      e.run.router.SameObservations e.swapTasks.run.router := by
  have hloaded : (echoManifest 1).Loaded :=
    ⟨by decide, by decide, by decide, by decide, by decide, by decide⟩
  have hone : ∀ p ∈ (echoManifest 1).participants,
      (p.tasks (echoManifest 1).durationNs).length = 1 := by decide
  refine ⟨_, rfl, ?_⟩
  have hreassigned : ∀ e, setup (echoManifest 1) = some e → Reassigned e e.swapTasks := by
    rintro e he
    injection he with he
    subst he
    exact ⟨⟨rfl, rfl, rfl, rfl, rfl⟩, .swap _ _ _, by decide, rfl, rfl, rfl, rfl⟩
  have hsame := (order_independence (echoManifest 1) _ _ hloaded
    (echoManifest_slotToSlot 1) hone rfl (hreassigned _ rfl)).2.1 (by decide +kernel)
  exact ⟨hreassigned _ rfl, by decide +kernel, hsame.2⟩

/-- With a payload of the wrong size both Runs fail in the first Slot, after
the display's activation in one order and before it in the other. -/
theorem failing_order_shows : ∃ e, setup (echoManifest 2) = some e ∧ (echoManifest 2).SlotToSlot ∧
      (∀ p ∈ (echoManifest 2).participants, (p.tasks (echoManifest 2).durationNs).length = 1) ∧
      Reassigned e e.swapTasks ∧
      e.run.router.intake "display" "speed" = [.activated 0] ∧
      e.swapTasks.run.router.intake "display" "speed" = [] ∧
      e.run.router.recorded "echo" = [⟨"echo", 0, 0, [0]⟩] ∧
      e.swapTasks.run.router.recorded "echo" = [] := by
  refine ⟨_, rfl, echoManifest_slotToSlot 2, by decide, ?_, by decide +kernel,
    by decide +kernel, by decide +kernel, by decide +kernel⟩
  exact ⟨⟨rfl, rfl, rfl, rfl, rfl⟩, .swap _ _ _, by decide, rfl, rfl, rfl, rfl⟩

end Engine

end SilFormal.Kernel
