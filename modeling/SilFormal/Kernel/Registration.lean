import SilFormal.Library.Keyed
import SilFormal.Kernel.Schedule

/-!
# What `setup` registers

The Tasks, Replay participants and child processes of the engine after
`setup`, read off the participants of the Manifest.  Registration indices are
left out: they only number the registrations.
-/

namespace SilFormal.Kernel

open List

universe u

variable {σ : Type u} {p : ParticipantSpec σ}

/-- A Task without its registration index. -/
def Task.unindexed (t : Task σ) : Task σ :=
  { t with registrationIndex := 0 }

/-- A Replay participant without its registration index. -/
def Replayer.unindexed (r : Replayer) : Replayer :=
  { r with registrationIndex := 0 }

namespace ParticipantSpec

/-- The Tasks of a participant. -/
def tasks (durationNs : Nat) (p : ParticipantSpec σ) : List (Task σ) :=
  match p.impl with
  | .native _ _ tasks =>
    tasks.map fun t => ⟨p.name, t.name, t.periodNs, t.offsetNs, t.priority, 0, .native t.fn,
        decide (t.offsetNs ≥ durationNs)⟩
  | .process stepPeriodNs _ _ priority step _ =>
    [⟨p.name, "step", stepPeriodNs, 0, priority, 0, .process step, decide (0 ≥ durationNs)⟩]
  | .replay _ _ _ => []

/-- The pass of a Replay participant over its Recording. -/
def replayers (durationNs : Nat) (p : ParticipantSpec σ) : List Replayer :=
  match p.impl with
  | .replay channels priority recording =>
    [({ name := p.name
        priority := priority
        registrationIndex := 0
        channels := channels
        durationNs := durationNs
        reader := recording } : Replayer).skipUnreplayed]
  | _ => []

/-- The child process of a participant, with its shutdown. -/
def processes (p : ParticipantSpec σ) : List (String × (σ → Option String)) :=
  match p.impl with
  | .process _ _ _ _ _ shutdown => [(p.name, shutdown)]
  | _ => []

end ParticipantSpec

namespace Engine

variable {e e' : Engine σ}

/-- An engine has registered what a list of participants declares, on top of
what was there before. -/
structure Registered (ps : List (ParticipantSpec σ)) (e e' : Engine σ) : Prop where
  duration : e'.durationNs = e.durationNs
  tasks : e'.tasks.map Task.unindexed = e.tasks.map Task.unindexed ++
    ps.flatMap (ParticipantSpec.tasks e.durationNs)
  replayers : e'.replayers.map Replayer.unindexed = e.replayers.map Replayer.unindexed ++
      ps.flatMap (ParticipantSpec.replayers e.durationNs)
  processes : e'.processes = e.processes ++ ps.flatMap ParticipantSpec.processes

theorem addTask_tasks {owner name : String} {periodNs offsetNs : Nat} {priority : Int}
    {fn : TaskFn σ} (h : e.addTask owner name periodNs offsetNs priority fn = some e') :
    e'.durationNs = e.durationNs ∧ e'.tasks.map Task.unindexed = e.tasks.map Task.unindexed ++
        [⟨owner, name, periodNs, offsetNs, priority, 0, fn, decide (offsetNs ≥ e.durationNs)⟩] ∧
      e'.replayers = e.replayers ∧ e'.processes = e.processes := by
  unfold addTask at h
  split_ifs at h
  injection h with h
  subst h
  refine ⟨rfl, ?_, rfl, rfl⟩
  rw [map_append]
  rfl

theorem registerTasks_tasks {owner : String} {tasks : List (TaskSpec σ)}
    (h : registerTasks owner tasks e = some e') :
    e'.durationNs = e.durationNs ∧ e'.tasks.map Task.unindexed = e.tasks.map Task.unindexed ++
        tasks.map (fun t => ⟨owner, t.name, t.periodNs, t.offsetNs, t.priority, 0,
          .native t.fn, decide (t.offsetNs ≥ e.durationNs)⟩) ∧
      e'.replayers = e.replayers ∧ e'.processes = e.processes := by
  induction tasks generalizing e with
  | nil =>
    injection h with h
    subst h
    exact ⟨rfl, (append_nil _).symm, rfl, rfl⟩
  | cons t rest ih =>
    unfold registerTasks at h
    cases hadd : e.addTask owner t.name t.periodNs t.offsetNs t.priority
        (.native t.fn) with
    | none => simp [hadd] at h
    | some e1 =>
      simp only [hadd] at h
      obtain ⟨hd, ht, hr, hp⟩ := addTask_tasks hadd
      obtain ⟨hd', ht', hr', hp'⟩ := ih h
      refine ⟨hd'.trans hd, ?_, hr'.trans hr, hp'.trans hp⟩
      rw [ht', ht, hd, append_assoc]
      rfl

theorem addParticipant_registered {p : ParticipantSpec σ} (h : addParticipant p e = some e') :
    Registered [p] e e' := by
  unfold addParticipant at h
  cases himpl : p.impl with
  | native subscribes publishes tasks =>
    simp only [himpl] at h
    obtain ⟨hd, ht, hr, hp⟩ := registerTasks_tasks h
    refine ⟨hd, ?_, ?_, ?_⟩
    · simp [ht, ParticipantSpec.tasks, himpl]
    · simp [hr, ParticipantSpec.replayers, himpl]
    · simp [hp, ParticipantSpec.processes, himpl]
  | process stepPeriodNs subscribes publishes priority step shutdown =>
    simp only [himpl] at h
    cases htask : e.addTask p.name "step" stepPeriodNs 0 priority (.process step) with
    | none => simp [htask] at h
    | some e1 =>
      simp only [htask, Option.some.injEq] at h
      subst h
      obtain ⟨hd, ht, hr, hp⟩ := addTask_tasks htask
      refine ⟨hd, ?_, ?_, ?_⟩
      · simp [ht, ParticipantSpec.tasks, himpl]
      · simp [hr, ParticipantSpec.replayers, himpl]
      · simp [hp, ParticipantSpec.processes, himpl]
  | replay channels priority recording =>
    simp only [himpl, Option.some.injEq] at h
    subst h
    refine ⟨rfl, ?_, ?_, ?_⟩
    · simp [addReplayer, ParticipantSpec.tasks, himpl]
    · simp only [addReplayer, map_append, ParticipantSpec.replayers, himpl, flatMap_singleton]
      rfl
    · simp [addReplayer, ParticipantSpec.processes, himpl]

theorem addParticipants_registered {ps : List (ParticipantSpec σ)}
    (h : addParticipants ps e = some e') : Registered ps e e' := by
  induction ps generalizing e with
  | nil =>
    injection h with h
    subst h
    exact ⟨rfl, (append_nil _).symm, (append_nil _).symm, (append_nil _).symm⟩
  | cons p rest ih =>
    unfold addParticipants at h
    cases hp : addParticipant p e with
    | none => simp [hp] at h
    | some e1 =>
      simp only [hp] at h
      obtain ⟨hd, ht, hr, hpr⟩ := addParticipant_registered hp
      obtain ⟨hd', ht', hr', hpr'⟩ := ih h
      refine ⟨hd'.trans hd, ?_, ?_, ?_⟩
      · rw [ht', ht, hd]
        simp
      · rw [hr', hr, hd]
        simp
      · rw [hpr', hpr]
        simp

/-- The engine after `setup` in terms of the Manifest. -/
theorem setup_registered {m : Manifest σ} (h : setup m = some e) :
    e.tasks.map Task.unindexed = m.participants.flatMap (ParticipantSpec.tasks m.durationNs) ∧
      e.replayers.map Replayer.unindexed =
        m.participants.flatMap (ParticipantSpec.replayers m.durationNs) ∧
      e.processes = m.participants.flatMap ParticipantSpec.processes := by
  unfold setup at h
  split_ifs at h
  obtain ⟨_, ht, hr, hp⟩ := addParticipants_registered h
  exact ⟨ht, hr, hp⟩

end Engine

/-- A Task belongs to the participant that registers it. -/
theorem ParticipantSpec.owner_of_mem_tasks {durationNs : Nat} {t : Task σ}
    (h : t ∈ p.tasks durationNs) : t.owner = p.name := by
  cases himpl : p.impl with
  | native subscribes publishes specs =>
    simp only [tasks, himpl, mem_map] at h
    obtain ⟨_, _, rfl⟩ := h
    rfl
  | process stepPeriodNs subscribes publishes priority step shutdown =>
    simp only [tasks, himpl, mem_singleton] at h
    rw [h]
  | replay channels priority recording => simp [tasks, himpl] at h

theorem Manifest.find?_participant {m : Manifest σ} (h : m.Loaded) (hp : p ∈ m.participants) :
    m.participants.find? (fun p' => p'.name == p.name) = some p :=
  Keyed.find?_key h.participant_names hp

theorem Manifest.contract_eq {m : Manifest σ} (h : m.Loaded) (hp : p ∈ m.participants) :
    m.contract p.name = ⟨p.subscribes.map SubscriberRouteSpec.channel, p.publishes⟩ := by
  simp only [contract, find?_participant h hp]

namespace Engine

variable {m : Manifest σ}

/-- The participant behind a Task. -/
theorem exists_participant_of_task {e : Engine σ} (h : setup m = some e) {t : Task σ}
    (ht : t ∈ e.tasks) : ∃ p ∈ m.participants, t.unindexed ∈ p.tasks m.durationNs := by
  have hmem : t.unindexed ∈ e.tasks.map Task.unindexed := mem_map_of_mem ht
  rw [(setup_registered h).1] at hmem
  exact mem_flatMap.mp hmem

theorem exists_registerTasks {owner : String} {tasks : List (TaskSpec σ)}
    (h : ∀ t ∈ tasks, t.periodNs ≠ 0) (e : Engine σ) :
    ∃ e', registerTasks owner tasks e = some e' := by
  induction tasks generalizing e with
  | nil => exact ⟨e, rfl⟩
  | cons t rest ih =>
    have ht := h t (by simp)
    simp only [registerTasks, addTask, if_neg ht]
    exact ih (fun t' ht' => h t' (mem_cons_of_mem _ ht')) _

/-- Registration fails at a Task without a period only. -/
theorem exists_addParticipants {ps : List (ParticipantSpec σ)} {durationNs : Nat}
    (h : ∀ p ∈ ps, ∀ t ∈ p.tasks durationNs, t.periodNs ≠ 0) (e : Engine σ) :
    ∃ e', addParticipants ps e = some e' := by
  induction ps generalizing e with
  | nil => exact ⟨e, rfl⟩
  | cons p rest ih =>
    have hp := h p (by simp)
    obtain ⟨e₁, he₁⟩ : ∃ e₁, addParticipant p e = some e₁ := by
      rw [addParticipant]
      cases himpl : p.impl with
      | native subscribes publishes tasks =>
        refine exists_registerTasks (fun t ht => ?_) e
        refine hp ⟨p.name, t.name, t.periodNs, t.offsetNs, t.priority, 0,
          .native t.fn, decide (t.offsetNs ≥ durationNs)⟩ ?_
        simp only [ParticipantSpec.tasks, himpl]
        exact mem_map_of_mem ht
      | process stepPeriodNs subscribes publishes priority step shutdown =>
        have hperiod : stepPeriodNs ≠ 0 := by
          refine hp ⟨p.name, "step", stepPeriodNs, 0, priority, 0, .process step,
            decide (0 ≥ durationNs)⟩ ?_
          simp only [ParticipantSpec.tasks, himpl, mem_singleton]
        simp only [addTask, if_neg hperiod]
        exact ⟨_, rfl⟩
      | replay channels priority recording => exact ⟨_, rfl⟩
    simp only [addParticipants, he₁]
    exact ih (fun p' hp' => h p' (mem_cons_of_mem _ hp')) e₁

theorem exists_setup (hone : m.onePublisherPerChannel = true)
    (h : ∀ p ∈ m.participants, ∀ t ∈ p.tasks m.durationNs, t.periodNs ≠ 0) :
    ∃ e, setup m = some e := by
  rw [setup, if_pos hone]
  exact exists_addParticipants h _

theorem periodNs_ne_zero_of_setup {e : Engine σ} (hduration : m.durationNs ≤ uint64Max)
    (h : setup m = some e) {p : ParticipantSpec σ} (hp : p ∈ m.participants) {t : Task σ}
    (ht : t ∈ p.tasks m.durationNs) : t.periodNs ≠ 0 := by
  have hmem : t ∈ e.tasks.map Task.unindexed := by
    rw [(setup_registered h).1]
    exact mem_flatMap.mpr ⟨p, hp, ht⟩
  obtain ⟨t', ht', rfl⟩ := mem_map.mp hmem
  exact ((setup_filling hduration h).scheduled.period_pos t' ht').ne'

end Engine

end SilFormal.Kernel
