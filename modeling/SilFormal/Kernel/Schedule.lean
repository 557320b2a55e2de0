import SilFormal.Kernel.Setup

/-!
# The scheduling invariant

`Scheduled` holds after `setup` and is kept by the run loop.  It says that
whatever is pending lies below the duration, so that neither an activation nor
a replay time is ever the sentinel of the slot selection.
-/

namespace SilFormal.Kernel

open List

universe u

variable {σ : Type u}

/-! ## Slot selection -/

theorem foldl_min_le (l : List Nat) (a : Nat) : l.foldl min a ≤ a := by
  induction l generalizing a with
  | nil => exact le_rfl
  | cons x rest ih => exact (ih _).trans (min_le_left a x)

theorem foldl_min_le_of_mem {l : List Nat} (a : Nat) {x : Nat} (hx : x ∈ l) :
    l.foldl min a ≤ x := by
  induction l generalizing a with
  | nil => cases hx
  | cons y rest ih =>
    rcases mem_cons.mp hx with rfl | hx
    · exact (foldl_min_le rest _).trans (min_le_right a x)
    · exact ih _ hx

theorem foldl_min_attained (l : List Nat) (a : Nat) : l.foldl min a = a ∨ l.foldl min a ∈ l := by
  induction l generalizing a with
  | nil => exact .inl rfl
  | cons x rest ih =>
    rw [foldl_cons]
    rcases ih (min a x) with h | h
    · rw [h]
      rcases min_choice a x with hm | hm
      · exact .inl hm
      · rw [hm]
        exact .inr (by simp)
    · exact .inr (mem_cons_of_mem _ h)

namespace Engine

theorem slot_le_nextNs {e : Engine σ} {t : Task σ} (ht : t ∈ e.tasks) (hdone : t.done = false) :
    e.slot ≤ t.nextNs := by
  refine (foldl_min_le _ _).trans (foldl_min_le_of_mem _ ?_)
  exact mem_map_of_mem (mem_filter.mpr ⟨ht, by simp [hdone]⟩)

theorem slot_le_nextPublishNs {e : Engine σ} {r : Replayer} (hr : r ∈ e.replayers) :
    e.slot ≤ r.nextPublishNs :=
  foldl_min_le_of_mem _ (mem_map_of_mem hr)

/-- The selected Slot is the sentinel or a pending instant. -/
theorem slot_attained (e : Engine σ) :
    e.slot = uint64Max ∨ (∃ t ∈ e.tasks, t.done = false ∧ t.nextNs = e.slot) ∨
      (∃ r ∈ e.replayers, r.nextPublishNs = e.slot) := by
  unfold slot
  rcases foldl_min_attained (e.replayers.map Replayer.nextPublishNs)
      (((e.tasks.filter fun t => !t.done).map Task.nextNs).foldl min uint64Max)
    with h | h
  · rw [h]
    rcases foldl_min_attained
        ((e.tasks.filter fun t => !t.done).map Task.nextNs) uint64Max with h' | h'
    · exact .inl h'
    · right; left
      obtain ⟨t, ht, heq⟩ := mem_map.mp h'
      obtain ⟨htask, hdone⟩ := mem_filter.mp ht
      exact ⟨t, htask, by simpa using hdone, heq⟩
  · right; right
    obtain ⟨r, hr, heq⟩ := mem_map.mp h
    exact ⟨r, hr, heq⟩

end Engine

/-! ## One pass of a Replay participant -/

theorem head_dropWhile_eq_false {α : Type u} {p : α → Bool} {l : List α} {x : α}
    (h : x ∈ (l.dropWhile p).head?) : p x = false := by
  have hhead := head?_dropWhile_not p l
  rw [Option.mem_def.mp h] at hhead
  exact hhead

namespace Replayer

theorem selects_iff {r : Replayer} {m : RecordedMessage} :
    r.selects m = true ↔ m.channel ∈ r.channels ∧ m.publishNs < r.durationNs := by
  unfold selects
  simp

/-- Messages a Slot moves the pass beyond. -/
def passes (r : Replayer) (nowNs : Nat) (m : RecordedMessage) : Bool :=
  !r.selects m || m.publishNs == nowNs

/-- The participant after a Slot in which all its publishes succeeded. -/
def served (nowNs : Nat) (r : Replayer) : Replayer :=
  { r with reader := r.reader.dropWhile (r.passes nowNs) }

@[simp] theorem skipUnreplayed_selects (r : Replayer) (m : RecordedMessage) :
    r.skipUnreplayed.selects m = r.selects m := rfl

theorem publishFrom_reader (r : Replayer) (nowNs : Nat) (messages : List RecordedMessage)
    (router : Router) (h : (r.publishFrom nowNs messages router).2.2 = none) :
    (r.publishFrom nowNs messages router).1 = messages.dropWhile (r.passes nowNs) := by
  induction messages generalizing router with
  | nil => rfl
  | cons m rest ih =>
    unfold publishFrom at h ⊢
    rw [dropWhile_cons]
    by_cases hsel : r.selects m = true
    · by_cases hnow : m.publishNs = nowNs
      · have hpass : r.passes nowNs m = true := by simp [passes, hnow]
        rw [if_pos hsel, if_pos hnow] at h
        rw [if_pos hsel, if_pos hnow, if_pos hpass]
        rcases hpub : router.publish r.name m.channel m.bytes with ⟨router', error⟩
        rw [hpub] at h
        cases error with
        | none => exact ih router' h
        | some text => cases h
      · have hpass : ¬ r.passes nowNs m = true := by simp [passes, hnow, hsel]
        rw [if_pos hsel, if_neg hnow, if_neg hpass]
    · have hpass : r.passes nowNs m = true := by simp [passes, hsel]
      rw [if_neg hsel] at h
      rw [if_neg hsel, if_pos hpass]
      exact ih router h

/-- The pass always stands on a replayed Message, also after an error. -/
theorem publishFrom_head (r : Replayer) (nowNs : Nat) (messages : List RecordedMessage)
    (router : Router) :
    ∀ m ∈ (r.publishFrom nowNs messages router).1.head?, r.selects m = true := by
  induction messages generalizing router with
  | nil => simp [publishFrom]
  | cons m rest ih =>
    unfold publishFrom
    by_cases hsel : r.selects m = true
    · rw [if_pos hsel]
      by_cases hnow : m.publishNs = nowNs
      · rw [if_pos hnow]
        rcases hpub : router.publish r.name m.channel m.bytes with ⟨router', error⟩
        cases error with
        | none => exact ih router'
        | some text => simpa using hsel
      · rw [if_neg hnow]
        simpa using hsel
    · rw [if_neg hsel]
      exact ih router

theorem publishDue_of_success {r : Replayer} {router : Router}
    (h : (r.publishDue router).2.2 = none) : (r.publishDue router).1 = r.served router.nowNs := by
  unfold publishDue at h ⊢
  simp only at h ⊢
  rw [publishFrom_reader r router.nowNs r.reader router h]
  rfl

end Replayer

/-! ## The invariant -/

/-- Everything pending lies below the duration. -/
structure Engine.Scheduled (e : Engine σ) : Prop where
  duration_le : e.durationNs ≤ uint64Max
  period_pos : ∀ t ∈ e.tasks, 0 < t.periodNs
  next_lt : ∀ t ∈ e.tasks, t.done = false → t.nextNs < e.durationNs
  replay_duration : ∀ r ∈ e.replayers, r.durationNs = e.durationNs
  current : ∀ r ∈ e.replayers, ∀ m ∈ r.reader.head?, r.selects m = true
  task_index : (e.tasks.map Task.registrationIndex).Nodup
  replay_index : (e.replayers.map Replayer.registrationIndex).Nodup

namespace Task

theorem advance_registrationIndex (durationNs : Nat) (t : Task σ) :
    (t.advance durationNs).registrationIndex = t.registrationIndex := by
  unfold advance
  split
  · rfl
  · split_ifs <;> rfl

theorem advance_periodNs (durationNs : Nat) (t : Task σ) :
    (t.advance durationNs).periodNs = t.periodNs := by
  unfold advance
  split
  · rfl
  · split_ifs <;> rfl

theorem advance_code (durationNs : Nat) (t : Task σ) :
    (t.advance durationNs).owner = t.owner ∧ (t.advance durationNs).fn = t.fn := by
  unfold advance
  split
  · exact ⟨rfl, rfl⟩
  · split_ifs <;> exact ⟨rfl, rfl⟩

/-- After an activation the Task is either done, which happens exactly when
the next instant does not lie below the duration, or waits for that instant. -/
theorem advance_cases {durationNs : Nat} (hdur : durationNs ≤ uint64Max) (t : Task σ) :
    ((t.advance durationNs).done = true ∧ durationNs ≤ t.nextNs + t.periodNs) ∨
      ((t.advance durationNs).done = t.done ∧
        (t.advance durationNs).nextNs = t.nextNs + t.periodNs ∧
        t.nextNs + t.periodNs < durationNs) := by
  unfold advance
  cases h : virtualTimeAfter t.nextNs t.periodNs with
  | none =>
    left
    refine ⟨rfl, ?_⟩
    unfold virtualTimeAfter at h
    split_ifs at h
    omega
  | some nextNs =>
    have hnext := le_of_virtualTimeAfter h
    by_cases hge : nextNs ≥ durationNs
    · left
      simp only [if_pos hge, true_and]
      omega
    · right
      simp only [if_neg hge, true_and]
      omega

end Task

namespace Engine

/-! ## Setup establishes the invariant -/

variable {m : Manifest σ} {e : Engine σ}

/-- Induction over the registrations of `setup`. -/
theorem setup_induction {P : Engine σ → Prop}
    (htask : ∀ {e e' : Engine σ} {owner name : String} {periodNs offsetNs : Nat}
      {priority : Int} {fn : TaskFn σ}, P e →
      e.addTask owner name periodNs offsetNs priority fn = some e' → P e')
    (hreplay : ∀ {e : Engine σ} (name : String) (priority : Option Int)
      (channels : List String) (recording : List RecordedMessage), P e →
      P (e.addReplayer name priority channels recording))
    (hprocess : ∀ (e : Engine σ) (processes : List (String × (σ → Option String))),
      P e → P { e with processes := processes }) (h : setup m = some e) (hcreate : P (create m)) :
    P e := by
  have hregister : ∀ (owner : String) (tasks : List (TaskSpec σ)) (e e' : Engine σ),
      P e → registerTasks owner tasks e = some e' → P e' := by
    intro owner tasks
    induction tasks with
    | nil =>
      intro e e' he hreg
      injection hreg with hreg
      exact hreg ▸ he
    | cons t rest ih =>
      intro e e' he hreg
      simp only [registerTasks] at hreg
      cases hadd : e.addTask owner t.name t.periodNs t.offsetNs t.priority
          (.native t.fn) with
      | none => simp [hadd] at hreg
      | some e₁ =>
        simp only [hadd] at hreg
        exact ih e₁ e' (htask he hadd) hreg
  have hparticipant : ∀ (p : ParticipantSpec σ) (e e' : Engine σ),
      P e → addParticipant p e = some e' → P e' := by
    intro p e e' he hadd
    simp only [addParticipant] at hadd
    cases himpl : p.impl with
    | native subscribes publishes tasks =>
      simp only [himpl] at hadd
      exact hregister _ _ _ _ he hadd
    | process stepPeriodNs subscribes publishes priority step shutdown =>
      simp only [himpl] at hadd
      cases htask' : e.addTask p.name "step" stepPeriodNs 0 priority (.process step) with
      | none => simp [htask'] at hadd
      | some e₁ =>
        simp only [htask', Option.some.injEq] at hadd
        exact hadd ▸ hprocess _ _ (htask he htask')
    | replay channels priority recording =>
      simp only [himpl, Option.some.injEq] at hadd
      exact hadd ▸ hreplay _ _ _ _ he
  have hall : ∀ (ps : List (ParticipantSpec σ)) (e e' : Engine σ),
      P e → addParticipants ps e = some e' → P e' := by
    intro ps
    induction ps with
    | nil =>
      intro e e' he hadd
      injection hadd with hadd
      exact hadd ▸ he
    | cons p rest ih =>
      intro e e' he hadd
      simp only [addParticipants] at hadd
      cases hp : addParticipant p e with
      | none => simp [hp] at hadd
      | some e₁ =>
        simp only [hp] at hadd
        exact ih e₁ e' (hparticipant p e e₁ he hp) hadd
  simp only [setup] at h
  split_ifs at h
  exact hall m.participants _ e hcreate h

/-- An engine that `setup` is still filling. -/
structure Filling (e : Engine σ) : Prop where
  scheduled : e.Scheduled
  done_le : ∀ t ∈ e.tasks, t.done = true → e.durationNs ≤ t.nextNs
  task_index_lt : ∀ t ∈ e.tasks, t.registrationIndex < e.nextRegistrationIndex
  replay_index_lt : ∀ r ∈ e.replayers, r.registrationIndex < e.nextRegistrationIndex
  failure_none : e.failure = none
  slots_nil : e.slots = []
  activations_nil : e.activations = []

theorem create_filling (hdur : m.durationNs ≤ uint64Max) :
    (create m).Filling where
  scheduled :=
    { duration_le := hdur
      period_pos := by simp [create]
      next_lt := by simp [create]
      replay_duration := by simp [create]
      current := by simp [create]
      task_index := by simp [create]
      replay_index := by simp [create] }
  done_le := by simp [create]
  task_index_lt := by simp [create]
  replay_index_lt := by simp [create]
  failure_none := rfl
  slots_nil := rfl
  activations_nil := rfl

theorem nodup_index_append {l : List Nat} {n : Nat} (hl : l.Nodup) (hlt : ∀ x ∈ l, x < n) :
    (l ++ [n]).Nodup := by
  rw [nodup_append]
  refine ⟨hl, by simp, ?_⟩
  intro a ha b hb
  have := hlt a ha
  simp only [mem_singleton] at hb
  omega

theorem addTask_filling {e' : Engine σ} {owner name : String} {periodNs offsetNs : Nat}
    {priority : Int} {fn : TaskFn σ} (h : e.Filling)
    (hadd : e.addTask owner name periodNs offsetNs priority fn = some e') : e'.Filling := by
  unfold addTask at hadd
  split_ifs at hadd with hperiod
  injection hadd with hadd
  subst hadd
  obtain ⟨hs, hdn, htlt, hrlt, hf, hsl, hac⟩ := h
  constructor
  · constructor
    · exact hs.duration_le
    · intro t ht
      rcases mem_append.mp ht with ht | ht
      · exact hs.period_pos t ht
      · simp only [mem_singleton] at ht
        subst ht
        exact Nat.pos_of_ne_zero hperiod
    · intro t ht hdone
      rcases mem_append.mp ht with ht | ht
      · exact hs.next_lt t ht hdone
      · simp only [mem_singleton] at ht
        subst ht
        simpa using hdone
    · exact hs.replay_duration
    · exact hs.current
    · rw [map_append]
      apply nodup_index_append hs.task_index
      intro x hx
      obtain ⟨t, ht, rfl⟩ := mem_map.mp hx
      exact htlt t ht
    · exact hs.replay_index
  · intro t ht hdone
    rcases mem_append.mp ht with ht | ht
    · exact hdn t ht hdone
    · simp only [mem_singleton] at ht
      subst ht
      simpa using hdone
  · intro t ht
    rcases mem_append.mp ht with ht | ht
    · exact (htlt t ht).trans (Nat.lt_succ_self _)
    · simp only [mem_singleton] at ht
      subst ht
      exact Nat.lt_succ_self _
  · intro r hr
    exact (hrlt r hr).trans (Nat.lt_succ_self _)
  · exact hf
  · exact hsl
  · exact hac

theorem addReplayer_filling (name : String) (priority : Option Int) (channels : List String)
    (recording : List RecordedMessage) (h : e.Filling) :
    (e.addReplayer name priority channels recording).Filling := by
  obtain ⟨hs, hdn, htlt, hrlt, hf, hsl, hac⟩ := h
  constructor
  · constructor
    · exact hs.duration_le
    · exact hs.period_pos
    · exact hs.next_lt
    · intro r hr
      rcases mem_append.mp hr with hr | hr
      · exact hs.replay_duration r hr
      · simp only [mem_singleton] at hr
        subst hr
        rfl
    · intro r hr m hm
      rcases mem_append.mp hr with hr | hr
      · exact hs.current r hr m hm
      · simp only [mem_singleton] at hr
        subst hr
        -- the pass starts behind the Messages that are not replayed
        have hhead := head_dropWhile_eq_false hm
        simpa using hhead
    · exact hs.task_index
    · rw [show (e.addReplayer name priority channels recording).replayers.map
          Replayer.registrationIndex =
        e.replayers.map Replayer.registrationIndex ++ [e.nextRegistrationIndex] from
          map_append]
      apply nodup_index_append hs.replay_index
      intro x hx
      obtain ⟨r, hr, rfl⟩ := mem_map.mp hx
      exact hrlt r hr
  · exact hdn
  · intro t ht
    exact (htlt t ht).trans (Nat.lt_succ_self _)
  · intro r hr
    rcases mem_append.mp hr with hr | hr
    · exact (hrlt r hr).trans (Nat.lt_succ_self _)
    · simp only [mem_singleton] at hr
      subst hr
      exact Nat.lt_succ_self _
  · exact hf
  · exact hsl
  · exact hac

theorem setup_filling (hdur : m.durationNs ≤ uint64Max) (h : setup m = some e) : e.Filling := by
  refine setup_induction addTask_filling addReplayer_filling ?_ h
    (create_filling hdur)
  intro e processes he
  exact ⟨⟨he.scheduled.duration_le, he.scheduled.period_pos, he.scheduled.next_lt,
      he.scheduled.replay_duration, he.scheduled.current, he.scheduled.task_index,
      he.scheduled.replay_index⟩, he.done_le, he.task_index_lt, he.replay_index_lt,
    he.failure_none, he.slots_nil, he.activations_nil⟩

/-! ## What registration leaves alone -/

/-- Two engines that differ in what is registered only. -/
structure SameBase (e e' : Engine σ) : Prop where
  durationNs : e'.durationNs = e.durationNs
  contracts : e'.contracts = e.contracts
  limits : e'.limits = e.limits
  router : e'.router = e.router
  states : e'.states = e.states

theorem SameBase.refl (e : Engine σ) : SameBase e e :=
  ⟨rfl, rfl, rfl, rfl, rfl⟩

theorem SameBase.trans {e₁ e₂ e₃ : Engine σ} (h : SameBase e₁ e₂) (h' : SameBase e₂ e₃) :
    SameBase e₁ e₃ :=
  ⟨h'.durationNs.trans h.durationNs, h'.contracts.trans h.contracts,
    h'.limits.trans h.limits, h'.router.trans h.router,
    h'.states.trans h.states⟩

theorem addTask_sameBase {e' : Engine σ} {owner name : String} {periodNs offsetNs : Nat}
    {priority : Int} {fn : TaskFn σ}
    (hadd : e.addTask owner name periodNs offsetNs priority fn = some e') : SameBase e e' := by
  unfold addTask at hadd
  split_ifs at hadd
  injection hadd with hadd
  subst hadd
  exact ⟨rfl, rfl, rfl, rfl, rfl⟩

theorem setup_sameBase (h : setup m = some e) : SameBase (create m) e := by
  refine setup_induction ?_ ?_ ?_ h (SameBase.refl _)
  · intro e e' _ _ _ _ _ _ he hadd
    exact he.trans (addTask_sameBase hadd)
  · intro e name priority channels recording he
    exact ⟨he.durationNs, he.contracts, he.limits, he.router, he.states⟩
  · intro e processes he
    exact ⟨he.durationNs, he.contracts, he.limits, he.router, he.states⟩

/-- Tasks are numbered in the order in which they are registered. -/
structure Numbered (e : Engine σ) : Prop where
  increasing : (e.tasks.map Task.registrationIndex).Pairwise (· < ·)
  below : ∀ t ∈ e.tasks, t.registrationIndex < e.nextRegistrationIndex

theorem setup_numbered (h : setup m = some e) :
    (e.tasks.map Task.registrationIndex).Pairwise (· < ·) := by
  refine (setup_induction (P := Numbered) ?_ ?_ ?_ h ⟨by simp [create], by simp [create]⟩
    ).increasing
  · intro e e' _ _ _ _ _ _ he hadd
    simp only [addTask] at hadd
    split_ifs at hadd
    injection hadd with hadd
    subst hadd
    refine ⟨?_, ?_⟩
    · rw [map_append, pairwise_append]
      refine ⟨he.increasing, pairwise_singleton _ _, ?_⟩
      intro a ha b hb
      obtain ⟨t, ht, rfl⟩ := mem_map.mp ha
      rw [mem_singleton.mp hb]
      exact he.below t ht
    · intro t ht
      rcases mem_append.mp ht with ht | ht
      · exact (he.below t ht).trans (Nat.lt_succ_self _)
      · rw [mem_singleton.mp ht]
        exact Nat.lt_succ_self _
  · intro e name priority channels recording he
    exact ⟨he.increasing, fun t ht => (he.below t ht).trans (Nat.lt_succ_self _)⟩
  · intro e processes he
    exact ⟨he.increasing, he.below⟩

end Engine

end SilFormal.Kernel
