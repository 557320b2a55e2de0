import SilFormal.Kernel.Schedule

/-!
# One iteration of the run loop

What serving the agenda of a Slot does to Tasks, Replay participants and the
activation history, first for one entry, then for the whole list, and from
that the termination of the loop.  A failure ends the loop, so the exact
statements are about iterations without one.
-/

namespace SilFormal.Kernel

open List

universe u

variable {σ : Type u}

namespace Engine

/-! ## One entry of the agenda -/

/-- What serving an entry does to a Task. -/
def serveTask (durationNs : Nat) (d : Due σ) (t : Task σ) : Task σ :=
  match d with
  | .task t' =>
    if t.registrationIndex = t'.registrationIndex then
      t.advance durationNs
    else t
  | .replay _ => t

/-- What serving an entry without an error does to a Replay participant. -/
def serveReplayer (nowNs : Nat) (d : Due σ) (r : Replayer) : Replayer :=
  match d with
  | .task _ => r
  | .replay r' =>
    if r.registrationIndex = r'.registrationIndex then r'.served nowNs
    else r

/-- The activations an entry adds to the history. -/
def activationOf (nowNs : Nat) : Due σ → List (Nat × Nat)
  | .task t => [(t.registrationIndex, nowNs)]
  | .replay _ => []

section Execute

variable (e : Engine σ) (d : Due σ)

theorem execute_of_failed (h : e.failure.isSome = true) : e.execute d = e := by
  simp [execute, h]

@[simp] theorem execute_durationNs : (e.execute d).durationNs = e.durationNs := by
  unfold execute
  split_ifs
  · rfl
  · cases d <;> rfl

@[simp] theorem execute_contracts : (e.execute d).contracts = e.contracts := by
  unfold execute
  split_ifs
  · rfl
  · cases d <;> rfl

@[simp] theorem execute_limits : (e.execute d).limits = e.limits := by
  unfold execute
  split_ifs
  · rfl
  · cases d <;> rfl

@[simp] theorem execute_processes : (e.execute d).processes = e.processes := by
  unfold execute
  split_ifs
  · rfl
  · cases d <;> rfl

@[simp] theorem execute_slots : (e.execute d).slots = e.slots := by
  unfold execute
  split_ifs
  · rfl
  · cases d <;> rfl

@[simp] theorem execute_nowNs : (e.execute d).router.nowNs = e.router.nowNs := by
  unfold execute
  split_ifs
  · rfl
  · cases d with
    | task t => exact e.activate_nowNs t
    | replay r => exact e.replay_nowNs r

variable {e d}

theorem failure_none_of_execute (h : (e.execute d).failure = none) : e.failure = none := by
  cases hf : e.failure with
  | none => rfl
  | some error =>
    rw [execute_of_failed e d (by simp [hf]), hf] at h
    cases h

theorem exists_of_mem_execute_tasks {t' : Task σ} (h : t' ∈ (e.execute d).tasks) :
    ∃ t ∈ e.tasks, t'.owner = t.owner ∧ t'.fn = t.fn := by
  by_cases hf : e.failure.isSome = true
  · rw [execute_of_failed e d hf] at h
    exact ⟨t', h, rfl, rfl⟩
  · simp only [execute, if_neg hf] at h
    cases d with
    | replay r => exact ⟨t', h, rfl, rfl⟩
    | task t₀ =>
      by_cases hout : (e.call t₀).2.1.isSome = true
      · have hmem : t' ∈ e.tasks := by simpa [activate, hout] using h
        exact ⟨t', hmem, rfl, rfl⟩
      · simp only [activate, if_neg hout] at h
        obtain ⟨t, ht, rfl⟩ := mem_map.mp h
        refine ⟨t, ht, ?_⟩
        split_ifs
        · exact t.advance_code e.durationNs
        · exact ⟨rfl, rfl⟩

theorem execute_tasks (h : (e.execute d).failure = none) :
    (e.execute d).tasks = e.tasks.map (serveTask e.durationNs d) := by
  have hf := failure_none_of_execute h
  unfold execute at h ⊢
  simp only [hf] at h ⊢
  cases d with
  | task t =>
    have hcall : (e.call t).2.1 = none := h
    simp only [activate, hcall]
    rfl
  | replay r => exact (map_id e.tasks).symm

theorem execute_replayers (h : (e.execute d).failure = none) : (e.execute d).replayers =
      e.replayers.map (serveReplayer e.router.nowNs d) := by
  have hf := failure_none_of_execute h
  unfold execute at h ⊢
  simp only [hf] at h ⊢
  cases d with
  | task t => exact (map_id e.replayers).symm
  | replay r =>
    have hdue : (r.publishDue e.router).2.2 = none := by
      have hmap : (r.publishDue e.router).2.2.map
          (fun text => (⟨text, none, none⟩ : RunError)) = none := h
      exact Option.map_eq_none_iff.mp hmap
    simp only [replay, Replayer.publishDue_of_success hdue]
    rfl

theorem execute_activations (hf : e.failure = none) : (e.execute d).activations =
      e.activations ++ activationOf e.router.nowNs d := by
  unfold execute
  simp only [hf]
  cases d with
  | task t => rfl
  | replay r => exact (append_nil _).symm

end Execute

theorem execute_scheduled {e : Engine σ} {d : Due σ} (h : e.Scheduled)
    (hd : ∀ r, d = .replay r → r.durationNs = e.durationNs) : (e.execute d).Scheduled := by
  unfold execute
  split_ifs
  · exact h
  · obtain ⟨hdur, hper, hnext, hrdur, hcur, htidx, hridx⟩ := h
    cases d with
    | task t =>
      unfold activate
      by_cases hfail : (e.call t).2.1.isSome = true
      · simp only [hfail]
        exact ⟨hdur, hper, hnext, hrdur, hcur, htidx, hridx⟩
      · simp only [hfail, Bool.false_eq_true, if_false]
        refine ⟨hdur, ?_, ?_, hrdur, hcur, ?_, hridx⟩
        · intro t1 ht1
          obtain ⟨t0, ht0, rfl⟩ := mem_map.mp ht1
          split_ifs
          · rw [Task.advance_periodNs]
            exact hper t0 ht0
          · exact hper t0 ht0
        · intro t1 ht1 hdone
          obtain ⟨t0, ht0, rfl⟩ := mem_map.mp ht1
          split_ifs at hdone ⊢ with hidx
          · rcases Task.advance_cases hdur t0 with ⟨hd', _⟩ | ⟨_, hn, hlt⟩
            · rw [hd'] at hdone
              cases hdone
            · rw [hn]
              exact hlt
          · exact hnext t0 ht0 hdone
        · rw [map_map]
          convert htidx using 2
          funext t0
          simp only [Function.comp_apply]
          split_ifs
          · exact Task.advance_registrationIndex _ _
          · rfl
    | replay r =>
      refine ⟨hdur, hper, hnext, ?_, ?_, htidx, ?_⟩
      · intro r1 hr1
        obtain ⟨r0, hr0, rfl⟩ := mem_map.mp hr1
        split_ifs
        · exact hd r rfl
        · exact hrdur r0 hr0
      · intro r1 hr1 m hm
        obtain ⟨r0, hr0, rfl⟩ := mem_map.mp hr1
        split_ifs at hm ⊢
        · exact r.publishFrom_head e.router.nowNs r.reader e.router m hm
        · exact hcur r0 hr0 m hm
      · unfold replay
        rw [map_map]
        convert hridx using 2
        funext r0
        simp only [Function.comp_apply]
        split_ifs with hidx
        · exact hidx.symm
        · rfl

/-! ## A whole Slot -/

/-- Tasks and Replay participants of an agenda. -/
def tasksOf (l : List (Due σ)) : List (Task σ) :=
  l.filterMap fun
    | .task t => some t
    | .replay _ => none

def replaysOf (l : List (Due σ)) : List Replayer :=
  l.filterMap fun
    | .task _ => none
    | .replay r => some r

section Fold

variable (l : List (Due σ)) (e : Engine σ)

theorem foldl_execute_of_failed (h : e.failure.isSome = true) : l.foldl execute e = e := by
  induction l with
  | nil => rfl
  | cons d rest ih =>
    rw [foldl_cons, execute_of_failed e d h]
    exact ih

theorem foldl_execute_static :
    (l.foldl execute e).durationNs = e.durationNs ∧ (l.foldl execute e).contracts = e.contracts ∧
      (l.foldl execute e).limits = e.limits ∧
      (l.foldl execute e).processes = e.processes ∧
      (l.foldl execute e).slots = e.slots ∧
      (l.foldl execute e).router.nowNs = e.router.nowNs := by
  induction l generalizing e with
  | nil => exact ⟨rfl, rfl, rfl, rfl, rfl, rfl⟩
  | cons d rest ih =>
    simpa using ih (e.execute d)

variable {l e}

theorem failure_none_of_foldl (h : (l.foldl execute e).failure = none) : e.failure = none := by
  cases hf : e.failure with
  | none => rfl
  | some error =>
    rw [foldl_execute_of_failed l e (by simp [hf]), hf] at h
    cases h

theorem foldl_execute_tasks (h : (l.foldl execute e).failure = none) : (l.foldl execute e).tasks =
      e.tasks.map fun t => l.foldl (fun t d => serveTask e.durationNs d t) t := by
  induction l generalizing e with
  | nil => exact (map_id e.tasks).symm
  | cons d rest ih =>
    rw [foldl_cons] at h ⊢
    rw [ih h, execute_tasks (failure_none_of_foldl h), execute_durationNs, map_map]
    rfl

theorem foldl_execute_replayers (h : (l.foldl execute e).failure = none) :
    (l.foldl execute e).replayers =
      e.replayers.map fun r => l.foldl (fun r d => serveReplayer e.router.nowNs d r) r := by
  induction l generalizing e with
  | nil => exact (map_id e.replayers).symm
  | cons d rest ih =>
    rw [foldl_cons] at h ⊢
    rw [ih h, execute_replayers (failure_none_of_foldl h), execute_nowNs, map_map]
    rfl

theorem foldl_execute_activations (h : (l.foldl execute e).failure = none) :
    (l.foldl execute e).activations = e.activations ++
        (tasksOf l).map fun t => (t.registrationIndex, e.router.nowNs) := by
  induction l generalizing e with
  | nil => exact (append_nil _).symm
  | cons d rest ih =>
    rw [foldl_cons] at h ⊢
    have hf := failure_none_of_execute (failure_none_of_foldl h)
    rw [ih h, execute_activations hf, execute_nowNs, append_assoc]
    cases d with
    | task t => rfl
    | replay r => rfl

theorem foldl_execute_scheduled (h : e.Scheduled)
    (hl : ∀ r ∈ replaysOf l, r.durationNs = e.durationNs) : (l.foldl execute e).Scheduled := by
  induction l generalizing e with
  | nil => exact h
  | cons d rest ih =>
    apply ih
    · apply execute_scheduled h
      rintro r rfl
      exact hl r (by simp [replaysOf])
    · intro r hr
      rw [execute_durationNs]
      apply hl
      cases d with
      | task t => exact hr
      | replay r' => exact mem_cons_of_mem _ hr

/-- A Task is served once when its entry is in the agenda, and else never. -/
theorem foldl_serveTask (durationNs : Nat) (hnodup : ((tasksOf l).map Task.registrationIndex).Nodup)
    (t : Task σ) :
    l.foldl (fun t d => serveTask durationNs d t) t =
      if t.registrationIndex ∈ (tasksOf l).map Task.registrationIndex then
        t.advance durationNs
      else t := by
  induction l generalizing t with
  | nil => rfl
  | cons d rest ih =>
    rw [foldl_cons]
    cases d with
    | replay r => exact ih hnodup t
    | task t' =>
      have hcons : tasksOf (Due.task t' :: rest) = t' :: tasksOf rest := rfl
      rw [hcons, map_cons] at hnodup ⊢
      obtain ⟨hnot, hrest⟩ := nodup_cons.mp hnodup
      rw [ih hrest]
      by_cases hidx : t.registrationIndex = t'.registrationIndex
      · have hserve : serveTask durationNs (.task t') t = t.advance durationNs := by
          simp [serveTask, hidx]
        rw [hserve, Task.advance_registrationIndex, hidx, if_neg hnot, if_pos mem_cons_self]
      · have hserve : serveTask durationNs (.task t') t = t := by
          simp [serveTask, hidx]
        rw [hserve]
        simp only [mem_cons, hidx, false_or]

/-- A Replay participant in the agenda is served once. -/
theorem foldl_serveReplayer (nowNs : Nat)
    (hnodup : ((replaysOf l).map Replayer.registrationIndex).Nodup) {r : Replayer}
    (hr : r ∈ replaysOf l) : l.foldl (fun r d => serveReplayer nowNs d r) r = r.served nowNs := by
  -- an entry of another participant changes nothing
  have hskip : ∀ (l : List (Due σ)) (r : Replayer),
      r.registrationIndex ∉ (replaysOf l).map Replayer.registrationIndex →
      l.foldl (fun r d => serveReplayer nowNs d r) r = r := by
    intro l
    induction l with
    | nil =>
      intro r _
      rfl
    | cons d rest ih =>
      intro r hnot
      rw [foldl_cons]
      cases d with
      | task t => exact ih r hnot
      | replay r' =>
        have hcons : replaysOf (Due.replay r' :: rest : List (Due σ)) = r' :: replaysOf rest := rfl
        rw [hcons, map_cons, mem_cons, not_or] at hnot
        have hserve : serveReplayer nowNs (.replay r' : Due σ) r = r := by
          simp [serveReplayer, hnot.1]
        rw [hserve]
        exact ih r hnot.2
  induction l generalizing r with
  | nil => cases hr
  | cons d rest ih =>
    rw [foldl_cons]
    cases d with
    | task t => exact ih hnodup hr
    | replay r' =>
      have hcons : replaysOf (Due.replay r' :: rest : List (Due σ)) = r' :: replaysOf rest := rfl
      obtain ⟨hnot, hrest⟩ := nodup_cons.mp hnodup
      rcases mem_cons.mp hr with rfl | hr
      · have hserve : serveReplayer nowNs (.replay r : Due σ) r = r.served nowNs := by
          simp [serveReplayer]
        rw [hserve]
        exact hskip rest _ hnot
      · have hne : r.registrationIndex ≠ r'.registrationIndex := by
          intro heq
          exact hnot (heq ▸ mem_map_of_mem hr)
        have hserve : serveReplayer nowNs (.replay r' : Due σ) r = r := by
          simp [serveReplayer, hne]
        rw [hserve]
        exact ih hrest hr

end Fold

section Agenda

variable (e : Engine σ) (slot : Nat)

theorem tasksOf_agenda : (tasksOf (e.agenda slot)).Perm
      (e.tasks.filter fun t => !t.done && t.nextNs == slot) := by
  have hperm : (tasksOf ((e.dueAt slot).insertionSort Due.before)).Perm
      (tasksOf (e.dueAt slot)) :=
    (perm_insertionSort Due.before _).filterMap _
  have hunprio : tasksOf ((e.replayers.filter fun r => r.priority.isNone).map
      (Due.replay (σ := σ))) = [] := by
    simp [tasksOf]
  have hdue : tasksOf (e.dueAt slot) = e.tasks.filter fun t => !t.done && t.nextNs == slot := by
    unfold dueAt tasksOf
    simp
  rw [hdue] at hperm
  unfold agenda
  unfold tasksOf at hperm hunprio ⊢
  rw [filterMap_append, hunprio]
  exact hperm

theorem replaysOf_agenda : (replaysOf (e.agenda slot)).Perm e.replayers := by
  have hperm : (replaysOf ((e.dueAt slot).insertionSort Due.before)).Perm
      (replaysOf (e.dueAt slot)) :=
    (perm_insertionSort Due.before _).filterMap _
  have hunprio : replaysOf ((e.replayers.filter fun r => r.priority.isNone).map
      (Due.replay (σ := σ))) = e.replayers.filter fun r => r.priority.isNone := by
    simp [replaysOf]
  have hdue : replaysOf (e.dueAt slot) = e.replayers.filter fun r => !r.priority.isNone := by
    unfold dueAt replaysOf
    simp
  rw [hdue] at hperm
  have hsplit : replaysOf (e.agenda slot) = (e.replayers.filter fun r => r.priority.isNone) ++
        replaysOf ((e.dueAt slot).insertionSort Due.before) := by
    rw [← hunprio]
    exact filterMap_append
  rw [hsplit]
  exact (hperm.append_left _).trans (filter_append_perm _ _)

variable {e slot}

theorem Scheduled.openSlot (h : e.Scheduled) : (e.openSlot slot).Scheduled :=
  ⟨h.duration_le, h.period_pos, h.next_lt, h.replay_duration, h.current,
    h.task_index, h.replay_index⟩

theorem failure_none_of_runSlot (h : (e.runSlot slot).failure = none) : e.failure = none :=
  failure_none_of_foldl (l := e.agenda slot) (e := e.openSlot slot) h

theorem runSlot_scheduled (h : e.Scheduled) : (e.runSlot slot).Scheduled := by
  apply foldl_execute_scheduled h.openSlot
  intro r hr
  exact h.replay_duration r ((e.replaysOf_agenda slot).mem_iff.mp hr)

theorem runSlot_durationNs : (e.runSlot slot).durationNs = e.durationNs :=
  (foldl_execute_static (e.agenda slot) (e.openSlot slot)).1

theorem runSlot_slots : (e.runSlot slot).slots = e.slots ++ [slot] :=
  (foldl_execute_static (e.agenda slot) (e.openSlot slot)).2.2.2.2.1

theorem agenda_task_nodup (h : e.Scheduled) :
    ((tasksOf (e.agenda slot)).map Task.registrationIndex).Nodup := by
  rw [((e.tasksOf_agenda slot).map _).nodup_iff]
  exact h.task_index.sublist (filter_sublist.map _)

theorem mem_agenda_index_iff (h : e.Scheduled) {t : Task σ} (ht : t ∈ e.tasks) :
    t.registrationIndex ∈ (tasksOf (e.agenda slot)).map Task.registrationIndex ↔
      t.done = false ∧ t.nextNs = slot := by
  rw [((e.tasksOf_agenda slot).map _).mem_iff]
  constructor
  · intro hmem
    obtain ⟨t', ht', hidx⟩ := mem_map.mp hmem
    obtain ⟨htask, hdue⟩ := mem_filter.mp ht'
    have heq : t' = t := inj_on_of_nodup_map h.task_index htask ht hidx
    subst heq
    simpa using hdue
  · intro hdue
    exact mem_map_of_mem (mem_filter.mpr ⟨ht, by simpa using hdue⟩)

theorem runSlot_tasks (h : e.Scheduled) (hf : (e.runSlot slot).failure = none) :
    (e.runSlot slot).tasks = e.tasks.map fun t =>
      if t.done = false ∧ t.nextNs = slot then t.advance e.durationNs else t := by
  unfold runSlot at hf ⊢
  rw [foldl_execute_tasks hf]
  apply map_congr_left
  intro t ht
  rw [foldl_serveTask _ (agenda_task_nodup h)]
  simp only [mem_agenda_index_iff h ht]
  rfl

theorem runSlot_replayers (h : e.Scheduled) (hf : (e.runSlot slot).failure = none) :
    (e.runSlot slot).replayers = e.replayers.map (Replayer.served slot) := by
  unfold runSlot at hf ⊢
  rw [foldl_execute_replayers hf]
  apply map_congr_left
  intro r hr
  apply foldl_serveReplayer
  · rw [((e.replaysOf_agenda slot).map _).nodup_iff]
    exact h.replay_index
  · exact (e.replaysOf_agenda slot).mem_iff.mpr hr

/-- The activation times of one Task, in the order of the Run. -/
def activationTimes (e : Engine σ) (index : Nat) : List Nat :=
  (e.activations.filter fun a => a.1 == index).map Prod.snd

theorem runSlot_activationTimes (h : e.Scheduled) (hf : (e.runSlot slot).failure = none)
    {t : Task σ} (ht : t ∈ e.tasks) :
    (e.runSlot slot).activationTimes t.registrationIndex = e.activationTimes t.registrationIndex ++
        if t.done = false ∧ t.nextNs = slot then [slot] else [] := by
  have hact : (e.runSlot slot).activations =
      e.activations ++ ((tasksOf (e.agenda slot)).map Task.registrationIndex).map
        fun i => (i, slot) := by
    unfold runSlot at hf ⊢
    rw [foldl_execute_activations hf, map_map]
    rfl
  -- registration indices are distinct, so the index occurs at most once
  have hcount : (((tasksOf (e.agenda slot)).map Task.registrationIndex).filter
      fun i => i == t.registrationIndex) =
        if t.done = false ∧ t.nextNs = slot then [t.registrationIndex] else [] := by
    rw [filter_beq, (agenda_task_nodup h).count]
    simp only [mem_agenda_index_iff h ht]
    split_ifs <;> rfl
  unfold activationTimes
  rw [hact, filter_append, map_append, filter_map]
  have hcomp : ((fun a : Nat × Nat => a.1 == t.registrationIndex) ∘
      fun i => (i, slot)) = fun i => i == t.registrationIndex := rfl
  rw [hcomp, hcount]
  split_ifs <;> rfl

end Agenda

/-! ## The run loop -/

/-- Everything an iteration can do. -/
theorem step_eq_some {e e' : Engine σ} (h : e.step = some e') :
    e.failure = none ∧ e.slot ≠ uint64Max ∧ e' = e.runSlot e.slot := by
  unfold step at h
  split_ifs at h with hf hs
  injection h with h
  refine ⟨?_, hs, h.symm⟩
  cases hfail : e.failure with
  | none => rfl
  | some error => simp [hfail] at hf

theorem step_eq_none {e : Engine σ} (h : e.step = none) (hf : e.failure = none) :
    e.slot = uint64Max := by
  unfold step at h
  simp only [hf, Option.isSome_none, Bool.false_eq_true, if_false] at h
  split_ifs at h with hs
  exact hs

theorem step_of_failure {e : Engine σ} (h : e.failure ≠ none) : e.step = none := by
  rw [step, if_pos (Option.isSome_iff_ne_none.mpr h)]

theorem step_of_pending {e : Engine σ} (hf : e.failure = none) (hslot : e.slot ≠ uint64Max) :
    e.step = some (e.runSlot e.slot) := by
  simp [step, hf, hslot]

theorem reach_scheduled {e e' : Engine σ} (h : e.Scheduled) (hr : Loop.Reach step e e') :
    e'.Scheduled := by
  refine hr.invariant ?_ h
  intro a b ha hstep
  obtain ⟨_, _, rfl⟩ := step_eq_some hstep
  exact runSlot_scheduled ha

/-- A pending activation is never the sentinel. -/
theorem Scheduled.nextNs_lt {e : Engine σ} (h : e.Scheduled) {t : Task σ} (ht : t ∈ e.tasks)
    (hdone : t.done = false) : t.nextNs < uint64Max :=
  (h.next_lt t ht hdone).trans_le h.duration_le

/-- A pending replay time is never the sentinel. -/
theorem Scheduled.publishNs_lt {e : Engine σ} (h : e.Scheduled) {r : Replayer}
    (hr : r ∈ e.replayers) {m : RecordedMessage} (hm : m ∈ r.reader.head?) :
    m.publishNs < uint64Max := by
  have hlt := (Replayer.selects_iff.mp (h.current r hr m hm)).2
  rw [h.replay_duration r hr] at hlt
  exact hlt.trans_le h.duration_le

theorem Scheduled.slot_lt {e : Engine σ} (h : e.Scheduled) (hslot : e.slot ≠ uint64Max) :
    e.slot < e.durationNs := by
  rcases e.slot_attained with hmax | ⟨t, ht, hdone, hnext⟩ | ⟨r, hr, hnext⟩
  · exact absurd hmax hslot
  · rw [← hnext]
    exact h.next_lt t ht hdone
  · cases hreader : r.reader with
    | nil =>
      refine absurd ?_ hslot
      rw [← hnext]
      simp [Replayer.nextPublishNs, hreader]
    | cons m rest =>
      have hselected := h.current r hr m (by simp [hreader])
      have hlt := (Replayer.selects_iff.mp hselected).2
      rw [h.replay_duration r hr] at hlt
      rw [← hnext]
      simpa [Replayer.nextPublishNs, hreader] using hlt

/-- When the loop leaves without a failure, nothing is pending. -/
theorem Scheduled.all_done {e : Engine σ} (h : e.Scheduled) (hslot : e.slot = uint64Max) :
    (∀ t ∈ e.tasks, t.done = true) ∧ ∀ r ∈ e.replayers, r.reader = [] := by
  constructor
  · intro t ht
    by_contra hdone
    have hdone' : t.done = false := by simpa using hdone
    have hle := slot_le_nextNs ht hdone'
    have hlt := h.nextNs_lt ht hdone'
    omega
  · intro r hr
    by_contra hne
    obtain ⟨m, rest, hreader⟩ := exists_cons_of_ne_nil hne
    have hle := slot_le_nextPublishNs hr
    have hnext : r.nextPublishNs = m.publishNs := by
      simp [Replayer.nextPublishNs, hreader]
    have hlt := h.publishNs_lt hr (m := m) (by simp [hreader])
    omega

/-! ## Termination -/

theorem taskMeasure_advance_lt {durationNs : Nat} (hdur : durationNs ≤ uint64Max) {t : Task σ}
    (hperiod : 0 < t.periodNs) (hdone : t.done = false) (hlt : t.nextNs < durationNs) :
    taskMeasure durationNs (t.advance durationNs) < taskMeasure durationNs t := by
  unfold taskMeasure
  rcases Task.advance_cases hdur t with ⟨hd, _⟩ | ⟨hd, hn, _⟩
  · simp only [hd, hdone, if_true, Bool.false_eq_true, if_false]
    omega
  · simp only [hd, hdone, Bool.false_eq_true, if_false]
    omega

theorem served_length_le (nowNs : Nat) (r : Replayer) :
    (r.served nowNs).reader.length ≤ r.reader.length :=
  (dropWhile_sublist _).length_le

theorem served_length_lt {nowNs : Nat} {r : Replayer} (hne : r.reader ≠ [])
    (h : r.nextPublishNs = nowNs) : (r.served nowNs).reader.length < r.reader.length := by
  obtain ⟨m, rest, hreader⟩ := exists_cons_of_ne_nil hne
  have hnow : m.publishNs = nowNs := by
    simpa [Replayer.nextPublishNs, hreader] using h
  have hpass : r.passes nowNs m = true := by simp [Replayer.passes, hnow]
  have hle := (dropWhile_sublist (r.passes nowNs) (l := rest)).length_le
  simp only [Replayer.served, hreader, dropWhile_cons, hpass, if_true, length_cons]
  omega

theorem step_measure_lt {e e' : Engine σ} (h : e.Scheduled) (hstep : e.step = some e') :
    e'.measure < e.measure := by
  obtain ⟨hfail, hslot, rfl⟩ := step_eq_some hstep
  unfold measure
  rw [hfail]
  cases hf : (e.runSlot e.slot).failure with
  | some error => simp
  | none =>
    simp only [Option.isSome_none, Bool.false_eq_true, if_false]
    rw [runSlot_tasks h hf, runSlot_replayers h hf, runSlot_durationNs, map_map, map_map]
    have htask_le : ∀ t ∈ e.tasks, taskMeasure e.durationNs
        (if t.done = false ∧ t.nextNs = e.slot then t.advance e.durationNs else t) ≤
          taskMeasure e.durationNs t := by
      intro t ht
      split_ifs with hdue
      · exact (taskMeasure_advance_lt h.duration_le (h.period_pos t ht) hdue.1
          (h.next_lt t ht hdue.1)).le
      · exact le_rfl
    have htasks := sum_le_sum htask_le
    have hreplays := sum_le_sum
      (fun r (_ : r ∈ e.replayers) => served_length_le e.slot r)
    -- the selected instant is pending somewhere, and that work is used up
    rcases e.slot_attained with hs | ⟨t, ht, hdone, hnext⟩ | ⟨r, hr, hnext⟩
    · exact absurd hs hslot
    · have hlt := sum_lt_sum _ _ htask_le ⟨t, ht, by
        rw [if_pos ⟨hdone, hnext⟩]
        exact taskMeasure_advance_lt h.duration_le (h.period_pos t ht) hdone
          (h.next_lt t ht hdone)⟩
      simp only [Function.comp_def] at *
      omega
    · have hne : r.reader ≠ [] := by
        intro hnil
        apply hslot
        rw [← hnext]
        simp [Replayer.nextPublishNs, hnil]
      have hlt := sum_lt_sum _ _
        (fun r (_ : r ∈ e.replayers) => served_length_le e.slot r)
        ⟨r, hr, served_length_lt hne hnext⟩
      simp only [Function.comp_def] at *
      omega

theorem loop_halted {e : Engine σ} (h : e.Scheduled) : Loop.Halted step e.loop := by
  refine Loop.run_halts measure ?_ ?_ e.measure e h le_rfl
  · intro a b ha hstep
    obtain ⟨_, _, rfl⟩ := step_eq_some hstep
    exact runSlot_scheduled ha
  · intro a b ha hstep
    exact step_measure_lt ha hstep

theorem loop_reach (e : Engine σ) : Loop.Reach step e e.loop :=
  Loop.run_reach e.measure e

/-! ## A Run as a sequence of routing steps -/

theorem slot_le_max (e : Engine σ) : e.slot ≤ uint64Max :=
  (foldl_min_le _ _).trans (foldl_min_le _ _)

theorem execute_steps (ok : Bool) {e : Engine σ} {d : Due σ}
    (hok : ok = true → (e.execute d).failure = none) :
    Router.Steps ok e.router (e.execute d).router := by
  by_cases hf : e.failure.isSome = true
  · rw [execute_of_failed e d hf]
  · cases d with
    | task t =>
      have hexec : e.execute (.task t) = e.activate t := by simp [execute, hf]
      rw [hexec] at hok ⊢
      exact .head (.activation t.owner e.router) (e.call_acts ok t hok).steps
    | replay r =>
      have hexec : e.execute (.replay r) = e.replay r := by simp [execute, hf]
      rw [hexec] at hok ⊢
      refine (r.publishFrom_acts ok e.router.nowNs r.reader e.router ?_).steps
      intro h
      exact Option.map_eq_none_iff.mp (hok h)

theorem foldl_execute_steps (ok : Bool) {l : List (Due σ)} {e : Engine σ}
    (hok : ok = true → (l.foldl execute e).failure = none) :
    Router.Steps ok e.router (l.foldl execute e).router := by
  induction l generalizing e with
  | nil => exact .refl
  | cons d rest ih =>
    exact (execute_steps ok fun h => failure_none_of_foldl (hok h)).trans (ih hok)

theorem foldl_execute_invariant {I : Router → Prop}
    (hnote : ∀ r owner, I r → I (r.note (.activation owner r.nowNs)))
    (hact : ∀ r r' owner contract, I r → Router.Act false owner contract r r' → I r')
    {l : List (Due σ)} {e : Engine σ} (h : I e.router) : I (l.foldl execute e).router := by
  induction l generalizing e with
  | nil => exact h
  | cons d rest ih =>
    apply ih
    by_cases hf : e.failure.isSome = true
    · rw [execute_of_failed e d hf]
      exact h
    · have hacts : ∀ {owner contract r r'}, Router.Acts false owner contract r r' →
          I r → I r' := fun ha hr =>
        ha.invariant (fun a b hi hab => hact a b _ _ hi hab) hr
      cases d with
      | task t =>
        have hexec : e.execute (.task t) = e.activate t := by simp [execute, hf]
        rw [hexec]
        exact hacts (e.call_acts false t (by simp)) (hnote _ _ h)
      | replay r =>
        have hexec : e.execute (.replay r) = e.replay r := by simp [execute, hf]
        rw [hexec]
        exact hacts (r.publishFrom_acts false e.router.nowNs r.reader e.router
          (by simp)) h

theorem runSlot_steps (ok : Bool) {e : Engine σ} {slot : Nat} (hslot : slot ≤ uint64Max)
    (hok : ok = true → (e.runSlot slot).failure = none) :
    Router.Steps ok e.router (e.runSlot slot).router :=
  .head (.tick e.router hslot) (foldl_execute_steps ok hok)

/-- The routing state of every visited state is reached by routing steps, and
by steps without an error as long as no participant has failed. -/
theorem reach_steps (ok : Bool) {e e' : Engine σ} (hr : Loop.Reach step e e')
    (hok : ok = true → e'.failure = none) : Router.Steps ok e.router e'.router := by
  induction hr with
  | refl => exact .refl
  | tail _ hstep ih =>
    obtain ⟨hfail, _, rfl⟩ := step_eq_some hstep
    exact (ih fun _ => hfail).trans (runSlot_steps ok (slot_le_max _) hok)

@[simp] theorem shutdown_router (e : Engine σ) : e.shutdown.router = e.router := by
  unfold shutdown
  split_ifs
  · rfl
  · split <;> rfl

theorem run_router (e : Engine σ) : e.run.router = e.loop.router :=
  shutdown_router e.loop

end Engine

end SilFormal.Kernel
