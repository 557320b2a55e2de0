import SilFormal.Fmi.Driving
import SilFormal.Fmi.Group

/-!
# The lifecycle of a group

A group loads its FMUs in declaration order, is stepped by the kernel, and
closes every instance it has created, however the Run ended.  An instance is in
Event Mode or in Step Mode, and it knows in which; all of them are in Step Mode
when the group is stepped.
-/

namespace SilFormal.Fmi

open List

variable {I T V : Type} {N : I → Type}

/-- `FmuGroupParticipant`, with the native side of its FMUs. -/
structure FmuGroup (I T V : Type) (N : I → Type) where
  instances : List I
  nodup : instances.Nodup
  name : I → String
  busSimulation : I → Bool
  native : ∀ i, Native (N i) V
  starts : I → List (StartValue V)
  triggered : I → List (SendSide T)
  countdown : I → List (SendSide T)
  transceiver : T → Transceiver I T
  transceivers : List T

namespace FmuGroup

variable (g : FmuGroup I T V N)

/-- The instances, driven through their entry points. -/
def group : Group I T (fun i => CoSimulation (N i)) (fun _ => Problem) where
  instances := g.instances
  nodup := g.nodup
  member i := {
    name := g.name i
    busSimulation := g.busSimulation i
    fmu := (g.native i).fmu
    triggered := g.triggered i
    countdown := g.countdown i }
  transceiver := g.transceiver
  transceivers := g.transceivers

/-- `Instance.instantiate`.  The problem names the call it comes from. -/
def instantiate (i : I) : Instance.Drive T (CoSimulation (N i)) Problem Unit := do
  Instance.call "fmi3InstantiateCoSimulation" ((g.native i).load true (g.starts i))
  modify fun st => { st with inEvent := true }

/-- The states of a group and of the participant that holds it. -/
abbrev GroupState (I T : Type) (N : I → Type) := Group.State I T fun i => CoSimulation (N i)

/-- A group before any FMU is loaded. -/
def unloaded (native : ∀ i, N i) : GroupState I T N where
  members := fun i => {
    fmu := .unloaded (native i)
    buffers := fun _ => .new
    inEvent := false
    eventPending := false
    nextEventTime := none }
  history := []

/-- The participant that holds a group, before its first Step. -/
def holding (s : GroupState I T N) : Group.Participant I T fun i => CoSimulation (N i) where
  group := s
  pendingActivations := []
  communicationPoint := 0

variable [DecidableEq I]

/-- One FMU is loaded. -/
def loadOne (i : I) : Group.Drive I T (fun i => CoSimulation (N i)) (fun _ => Problem) Unit :=
  Group.onMember i (g.instantiate i)

/-- The FMUs are loaded in declaration order. -/
def loadAll : Group.Drive I T (fun i => CoSimulation (N i)) (fun _ => Problem) Unit :=
  forM g.instances g.loadOne

/-- `FmuGroupParticipant.on_init`. -/
def onInit [DecidableEq T] : EStateM (GroupFailure I fun _ => Problem)
    (Group.Participant I T fun i => CoSimulation (N i)) Unit := do
  zoom Group.Participant.group (fun s p => { p with group := s }) id g.loadAll
  g.group.onInit

/-- The Steps of a Run, after its initialization. -/
def drive [DecidableEq T] (steps : List Group.Step) : EStateM (GroupFailure I fun _ => Problem)
    (Group.Participant I T fun i => CoSimulation (N i)) (List (List Message)) := do
  g.onInit
  g.group.run steps

/-- One round of `_Group.close`: the first failure is the one reported. -/
def closeOne (r : GroupState I T N × Option (I × Problem)) (i : I) :
    GroupState I T N × Option (I × Problem) :=
  let st := r.1.members i
  if st.fmu.created = true then
    match (g.native i).close st.fmu with
    | .ok _ fmu => (r.1.setMember i { st with fmu := fmu }, r.2)
    | .error e fmu => (r.1.setMember i { st with fmu := fmu }, r.2.or (some (i, e)))
  else r

/-- `_Group.close`. -/
def close (s : GroupState I T N) : GroupState I T N × Option (I × Problem) :=
  g.instances.foldl g.closeOne (s, none)

/-- The group when a Run ends, with or without a failure. -/
def ended [DecidableEq T] (steps : List Group.Step) (native : ∀ i, N i) : GroupState I T N :=
  match g.drive steps (holding (unloaded native)) with
  | .ok _ p => p.group
  | .error _ p => p.group

/-- The calls on an instance over its whole lifecycle. -/
def calls [DecidableEq T] (steps : List Group.Step) (native : ∀ i, N i) (i : I) :
    List (Call × Status) :=
  ((g.close (g.ended steps native)).1.members i).fmu.calls

/-! ## Driving the group -/

variable {g} {α : Type}

/-- A property of every instance. -/
def All (g : FmuGroup I T V N) (P : ∀ i, Instance.State T (CoSimulation (N i)) → Prop)
    (s : GroupState I T N) : Prop :=
  ∀ i ∈ g.instances, P i (s.members i)

/-- Every instance knows in which mode it is. -/
abbrev AllReady (g : FmuGroup I T V N) : GroupState I T N → Prop :=
  g.All fun i => Instance.Ready (g.starts i)

/-- Every instance is in Step Mode. -/
abbrev AllStep (g : FmuGroup I T V N) : GroupState I T N → Prop :=
  g.All fun i => Instance.AtStep (g.starts i)

/-- Every instance may be driven no further. -/
abbrev AllEnded (g : FmuGroup I T V N) : GroupState I T N → Prop :=
  g.All fun i => Instance.Ended (g.starts i)

omit [DecidableEq I] in
theorem All.mono {P Q : ∀ i, Instance.State T (CoSimulation (N i)) → Prop} {s : GroupState I T N}
    (h : g.All P s) (hQ : ∀ i st, P i st → Q i st) : g.All Q s :=
  fun i hi => hQ i _ (h i hi)

omit [DecidableEq I] in
theorem AllStep.ready {s : GroupState I T N} (h : g.AllStep s) : g.AllReady s :=
  h.mono fun _ _ hst => hst.ready

omit [DecidableEq I] in
theorem AllReady.ended {s : GroupState I T N} (h : g.AllReady s) : g.AllEnded s :=
  h.mono fun _ _ hst => hst.ended

/-- A program on one instance leaves the others as they are. -/
theorem keeps_onMember {i : I} {P Q : ∀ i, Instance.State T (CoSimulation (N i)) → Prop}
    {x : Instance.Drive T (CoSimulation (N i)) Problem α}
    (hended : ∀ j st, P j st → Instance.Ended (g.starts j) st)
    (h : Keeps (Instance.Ended (g.starts i)) (P i) (Q i) x)
    (hothers : ∀ j, j ≠ i → ∀ st, P j st → Q j st) :
    Keeps g.AllEnded (g.All P) (g.All Q)
      (Group.onMember i x :
        Group.Drive I T (fun i => CoSimulation (N i)) (fun _ => Problem) α) := by
  intro s hs
  rw [Group.onMember, Wp.zoom_iff]
  refine Wp.intro (fun a st hx j hj => ?_) fun e st hx j hj => ?_
  all_goals
    by_cases hji : j = i
    · subst hji
      rw [Group.State.setMember_self]
      first
        | exact (h _ (hs j hj)).of_ok hx
        | exact (h _ (hs j hj)).of_error hx
    · rw [Group.State.setMember_of_ne _ hji]
      first
        | exact hothers j hji _ (hs j hj)
        | exact hended j _ (hs j hj)

/-- A program on one instance that keeps what all of them keep. -/
theorem keeps_onMember_ready {i : I} {x : Instance.Drive T (CoSimulation (N i)) Problem α}
    (h : Keeps (Instance.Ended (g.starts i)) (Instance.Ready (g.starts i))
      (Instance.Ready (g.starts i)) x) :
    Keeps g.AllEnded g.AllReady g.AllReady
      (Group.onMember i x : Group.Drive I T (fun i => CoSimulation (N i)) (fun _ => Problem) α) :=
  keeps_onMember (fun _ _ hst => hst.ended) h fun _ _ _ hst => hst

omit [DecidableEq I] in
theorem keeps_note {P : ∀ i, Instance.State T (CoSimulation (N i)) → Prop}
    (e : Event I T fun i => CoSimulation (N i)) :
    Keeps g.AllEnded (g.All P) (g.All P)
      (Group.note e : Group.Drive I T _ (fun _ => Problem) Unit) :=
  .modify fun _ hs => hs

omit [DecidableEq I] in
theorem keeps_groupCheck {P : ∀ i, Instance.State T (CoSimulation (N i)) → Prop}
    (hended : ∀ j st, P j st → Instance.Ended (g.starts j) st)
    (x : Except (GroupFailure I fun _ => Problem) α) :
    Keeps g.AllEnded (g.All P) (g.All P)
      (Group.check x : Group.Drive I T (fun i => CoSimulation (N i)) _ α) := by
  cases x with
  | ok a => exact .pure a
  | error e => exact .throw (fun _ hs => hs.mono hended) e

theorem keeps_handOver (instant : Int) (x : T) (parts : List (Option Nat × Bytes)) :
    Keeps g.AllEnded g.AllReady g.AllReady (g.group.handOver instant x parts) := by
  refine (keeps_onMember_ready ?_).bind fun _ => keeps_note _
  exact (Instance.keeps_deliver rfl _ _).mono (fun _ hst => hst) fun _ hst => hst.ready

theorem keeps_leaveAll : Keeps g.AllEnded g.AllReady g.AllStep
      (forM g.instances fun i => Group.onMember i (g.group.member i).leaveEvent) := by
  intro s hs
  -- Those that are done are in Step Mode, the others know their mode.
  let P (done : List I) (i : I) (st : Instance.State T (CoSimulation (N i))) : Prop :=
    if i ∈ done then Instance.AtStep (g.starts i) st else Instance.Ready (g.starts i) st
  have hready : ∀ done i st, P done i st → Instance.Ready (g.starts i) st := by
    intro done i st hst
    by_cases hi : i ∈ done
    · exact Instance.AtStep.ready (by simpa [P, hi] using hst)
    · simpa [P, hi] using hst
  have hall := Wp.for_each (F := fun _ => g.AllEnded)
    (f := fun i => Group.onMember i (g.group.member i).leaveEvent)
    (I := fun done => g.All (P done)) (l := g.instances) (s := s) ?_ ?_
  · refine hall.post fun _ s' hs' i hi => ?_
    simpa [P, hi] using hs' i hi
  · intro done i rest s' hl hs'
    refine keeps_onMember
      (fun j st hst => (hready done j st hst).ended) ?_ ?_ s' hs'
    · refine (Instance.keeps_leaveEvent rfl).mono (hready done i) fun st hst => ?_
      simpa [P] using hst
    · intro j hji st hst
      simpa [P, hji] using hst
  · exact hs.mono fun i st hst => by simpa [P] using hst

theorem keeps_quiesce (instant : Int) :
    Keeps g.AllEnded g.AllReady g.AllStep (g.group.quiesce instant) := by
  refine (Keeps.forM fun i _ => ?_).bind fun _ => keeps_leaveAll
  exact keeps_onMember_ready (Instance.keeps_requireNothingPassed _ _)

theorem keeps_step (start stop : Int) (i : I) :
    Keeps g.AllEnded g.AllStep g.AllStep (g.group.step start stop i) := by
  refine .get_bind fun _ => (keeps_onMember (fun _ _ hst => hst.ready.ended) ?_ ?_).bind fun _ =>
    keeps_note _
  · exact Instance.keeps_step rfl _ _
  · exact fun _ _ _ hst => hst

omit [DecidableEq I] in
/-- A program on the group the participant holds. -/
theorem keeps_zoom {F P Q : GroupState I T N → Prop}
    {x : Group.Drive I T (fun i => CoSimulation (N i)) (fun _ => Problem) α} (h : Keeps F P Q x) :
    Keeps (fun p : Group.Participant I T _ => F p.group) (fun p => P p.group) (fun p => Q p.group)
      (zoom Group.Participant.group (fun s p => { p with group := s }) id x) := fun p hp =>
  Wp.zoom_iff.2 (h p.group hp)

section Runs

variable [DecidableEq T]

theorem keeps_deliverSameInstant (instant : Int) (first : Pending I T)
    (others : List (Pending I T)) :
    Keeps g.AllEnded g.AllReady g.AllReady (g.group.deliverSameInstant instant first others) := by
  rw [Group.deliverSameInstant]
  split
  · exact (Keeps.forM fun _ _ => keeps_handOver _ _ _).bind fun _ => .pure _
  · exact (Keeps.forM fun _ _ => keeps_handOver _ _ _).bind fun _ => .pure _

theorem keeps_handle (i : I) (instant : Int) :
    Keeps g.AllEnded g.AllReady g.AllReady (g.group.handle i instant) := by
  refine .get_bind fun _ => (keeps_onMember_ready ?_).bind fun _ => .get_bind fun _ => ?_
  · exact (Instance.keeps_handle rfl _).mono (fun _ hst => hst) fun _ hst => hst.ready
  · exact (keeps_note _).bind fun _ => .pure _

/-- However an instant propagates, it ends with all instances in Step Mode. -/
theorem keeps_propagate (instant : Int) (left : Nat) (work : List (Pending I T)) :
    Keeps g.AllEnded g.AllReady g.AllStep (g.group.propagate instant left work) := by
  induction left generalizing work with
  | zero => exact .throw (fun _ hs => hs.ended) _
  | succ left ih =>
    cases work with
    | nil => exact (keeps_quiesce instant).bind fun _ => .pure _
    | cons first others =>
      refine (keeps_deliverSameInstant instant first others).bind fun _ => ?_
      refine (keeps_handle _ instant).bind fun _ => ?_
      refine (keeps_groupCheck (fun _ _ hst => hst.ended) _).bind fun _ => ?_
      exact (ih _).bind fun _ => .pure _

theorem keeps_settle (instant : Int) (pending : List (Pending I T)) :
    Keeps g.AllEnded g.AllStep g.AllStep (g.group.settle instant pending) :=
  .ite (.pure _) ((keeps_propagate instant _ pending).mono (fun _ hs => hs.ready) fun _ hs => hs)

theorem keeps_initializeGroup : Keeps g.AllEnded g.AllReady g.AllStep g.group.initializeGroup := by
  refine (keeps_note _).bind fun _ => ?_
  rw [Group.settle]
  split
  · next hnil =>
    -- There is no instance.
    have hnone : g.instances = [] := map_eq_nil_iff.1 hnil
    exact fun s _ i hi => by simp [hnone] at hi
  · exact keeps_propagate 0 _ _

theorem keeps_advanceLoop (stop : Int) (left : Nat) (now : Int)
    (injected : List (Int × Pending I T)) :
    Keeps g.AllEnded g.AllStep g.AllStep (g.group.advanceLoop stop left now injected) := by
  induction left generalizing now injected with
  | zero => exact .pure _
  | succ left ih =>
    refine .ite (.get_bind fun s => ?_) (.pure _)
    refine (Keeps.forM fun i _ => keeps_step _ _ i).bind fun _ => (keeps_note _).bind fun _ => ?_
    refine .get_bind fun _ => (keeps_settle _ _).bind fun _ => ?_
    exact (ih _ _).bind fun _ => .pure _

theorem keeps_advance (t : Int) (dt : Nat) (inputs : List Message) :
    Keeps g.AllEnded g.AllStep g.AllStep (g.group.advance t dt inputs) := by
  refine (keeps_groupCheck (fun _ _ hst => hst.ready.ended) _).bind fun _ => ?_
  refine (keeps_note _).bind fun _ => (keeps_settle _ _).bind fun _ => ?_
  exact (keeps_advanceLoop _ _ _ _).bind fun _ => .pure _

/-! ## Driving the participant -/

theorem keeps_onInit :
    Keeps (fun p => g.AllEnded p.group) (fun p => g.AllReady p.group) (fun p => g.AllStep p.group)
      g.group.onInit :=
  (keeps_zoom keeps_initializeGroup).bind fun _ => .modify fun _ hp => hp

theorem keeps_onStep (x : Group.Step) :
    Keeps (fun p => g.AllEnded p.group) (fun p => g.AllStep p.group) (fun p => g.AllStep p.group)
      (g.group.onStep x) := by
  refine .get_bind fun _ => .ite (.modify_bind (fun _ hp => hp) ?_) ?_
  · refine (keeps_zoom (keeps_advance _ _ _)).bind fun _ => .modify_bind (fun _ hp => hp) (.pure _)
  · exact .throw (fun _ hp => hp.ready.ended) _

theorem keeps_run (steps : List Group.Step) :
    Keeps (fun p => g.AllEnded p.group) (fun p => g.AllStep p.group) (fun p => g.AllStep p.group)
      (g.group.run steps) := by
  induction steps with
  | nil => exact .pure _
  | cons x rest ih => exact (keeps_onStep x).bind fun _ => ih.bind fun _ => .pure _

end Runs

/-! ## Loading the group -/

section Loading

variable {native : ∀ i, N i} {s : GroupState I T N} {i : I} {before after : List I}

/-- The FMU of an instance is loaded without a refusal. -/
def Loads (g : FmuGroup I T V N) (native : ∀ i, N i) (i : I) : Prop :=
  (g.native i).Loads true (g.starts i) (native i)

theorem loadOne_ok {fmu : CoSimulation (N i)}
    (h : (g.native i).load true (g.starts i) (s.members i).fmu = .ok () fmu) :
    g.loadOne i s = .ok () (s.setMember i { s.members i with fmu := fmu, inEvent := true }) := by
  have hcall : Instance.call "fmi3InstantiateCoSimulation" ((g.native i).load true (g.starts i))
      (s.members i) = .ok () { s.members i with fmu := fmu } := zoom_of_ok h
  rw [loadOne, Group.onMember, zoom, instantiate, bind_of_ok hcall]
  rfl

theorem loadOne_error {p : Problem} {fmu : CoSimulation (N i)}
    (h : (g.native i).load true (g.starts i) (s.members i).fmu = .error p fmu) :
    g.loadOne i s = .error (.member i (.status "fmi3InstantiateCoSimulation" p))
        (s.setMember i { s.members i with fmu := fmu }) := by
  have hcall : Instance.call "fmi3InstantiateCoSimulation" ((g.native i).load true (g.starts i))
      (s.members i) = .error (.status "fmi3InstantiateCoSimulation" p)
        { s.members i with fmu := fmu } := zoom_of_error h
  rw [loadOne, Group.onMember, zoom, instantiate, bind_of_error hcall]

/-- FMUs that load are ready, and the others are as they were. -/
theorem loadEach_ok {l : List I} (hnodup : l.Nodup)
    (hunloaded : ∀ j ∈ l, (s.members j).fmu = .unloaded (native j))
    (hloads : ∀ j ∈ l, g.Loads native j) :
    ∃ s', forM l g.loadOne s = .ok () s' ∧ (∀ j ∈ l, Instance.Ready (g.starts j) (s'.members j)) ∧
      ∀ j ∉ l, s'.members j = s.members j := by
  induction l generalizing s with
  | nil => exact ⟨s, rfl, by simp, fun _ _ => rfl⟩
  | cons i l ih =>
    obtain ⟨hi, hnodup⟩ := nodup_cons.1 hnodup
    obtain ⟨hunloadedi, hunloaded⟩ := forall_mem_cons.1 hunloaded
    obtain ⟨hloadsi, hloads⟩ := forall_mem_cons.1 hloads
    obtain ⟨fmu, hload, hdriven⟩ := (g.native i).load_of_loads hloadsi
    rw [← hunloadedi] at hload
    have hne : ∀ j ∈ l, j ≠ i := fun j hj hji => hi (hji ▸ hj)
    obtain ⟨s', hs', hready, hothers⟩ := ih
      hnodup
      (fun j hj => by rw [Group.State.setMember_of_ne _ (hne j hj)]; exact hunloaded j hj) hloads
    refine ⟨s', by rw [forM_cons, bind_of_ok (loadOne_ok hload), hs'], ?_, ?_⟩
    · refine forall_mem_cons.2 ⟨?_, hready⟩
      rw [hothers i hi, Group.State.setMember_self]
      exact .inl ⟨rfl, hdriven⟩
    · intro j hj
      obtain ⟨hji, hj⟩ : j ≠ i ∧ j ∉ l := by simpa using hj
      rw [hothers j hj, Group.State.setMember_of_ne _ hji]

theorem load_holding :
    zoom Group.Participant.group (fun s p => { p with group := s }) id g.loadAll (holding s) =
      match g.loadAll s with
      | .ok _ s' => .ok () (holding s')
      | .error e s' => .error e (holding s') := by
  simp only [zoom, holding]
  cases g.loadAll s with
  | ok _ s' => rfl
  | error e s' => rfl

/-- If all FMUs load, the group is stepped. -/
theorem ended_of_loads [DecidableEq T] (steps : List Group.Step)
    (h : ∀ i ∈ g.instances, g.Loads native i) : g.AllEnded (g.ended steps native) := by
  obtain ⟨s, hs, hready, -⟩ := loadEach_ok (s := unloaded native) g.nodup (fun _ _ => rfl) h
  have hloadAll : g.loadAll (unloaded native) = .ok () s := hs
  have hload := g.load_holding (s := unloaded native)
  rw [hloadAll] at hload
  have hdrive := (keeps_onInit.bind fun _ => keeps_run steps) (holding s) hready
  simp only [ended, drive, onInit, bind_assoc]
  rw [bind_of_ok hload]
  split
  · next hok => exact (AllStep.ready (hdrive.of_ok hok)).ended
  · next herror => exact hdrive.of_error herror

/-- The first FMU that does not load ends the Run. -/
theorem ended_of_not_loads [DecidableEq T] (steps : List Group.Step)
    (hl : g.instances = before ++ i :: after)
    (hbefore : ∀ j ∈ before, g.Loads native j) (hi : ¬ g.Loads native i) :
    (Legal true (g.starts i) ((g.native i).finished ((g.ended steps native).members i).fmu).calls ↔
        (g.native i).Orderly true (g.starts i) (native i) ∧
          ((g.ended steps native).members i).fmu.Heard) ∧
      (∀ j ∈ before, Instance.Ended (g.starts j) ((g.ended steps native).members j)) ∧
      ∀ j ∈ after, ((g.ended steps native).members j).fmu = .unloaded (native j) := by
  have hnodup : (before ++ i :: after).Nodup := hl ▸ g.nodup
  obtain ⟨hnodupBefore, hnodupAfter, hdisjoint⟩ := nodup_append.1 hnodup
  have hiBefore : i ∉ before := fun h => hdisjoint i h i mem_cons_self rfl
  obtain ⟨s, hs, hready, hothers⟩ := loadEach_ok (s := unloaded native) hnodupBefore
    (fun _ _ => rfl) hbefore
  obtain ⟨p, fmu, hfmu, hlegal⟩ := (g.native i).load_of_not_loads hi
  have hmember : (s.members i).fmu = .unloaded (native i) := by rw [hothers i hiBefore]; rfl
  have hload : g.loadAll (unloaded native) =
      .error (.member i (.status "fmi3InstantiateCoSimulation" p))
        (s.setMember i { s.members i with fmu := fmu }) := by
    rw [loadAll, hl, forM_append, bind_of_ok hs, forM_cons,
      bind_of_error (loadOne_error (by rw [hmember]; exact hfmu))]
  have hended : g.ended steps native = s.setMember i { s.members i with fmu := fmu } := by
    have hholding := g.load_holding (s := unloaded native)
    rw [hload] at hholding
    simp only [ended, drive, onInit, bind_assoc]
    rw [bind_of_error hholding]
    rfl
  rw [hended]
  refine ⟨by rw [Group.State.setMember_self]; exact hlegal, fun j hj => ?_, fun j hj => ?_⟩
  · have hji : j ≠ i := fun h => hiBefore (h ▸ hj)
    rw [Group.State.setMember_of_ne _ hji]
    exact (hready j hj).ended
  · have hji : j ≠ i := fun h => (nodup_cons.1 hnodupAfter).1 (h ▸ hj)
    have hjBefore : j ∉ before := fun h => hdisjoint j h j (mem_cons_of_mem _ hj) rfl
    rw [Group.State.setMember_of_ne _ hji, hothers j hjBefore]
    rfl

end Loading

/-! ## Closing the group -/

theorem closeOne_self (r : GroupState I T N × Option (I × Problem)) (i : I) :
    ((g.closeOne r i).1.members i).fmu = (g.native i).finished (r.1.members i).fmu := by
  simp only [closeOne, Native.finished, Native.closed]
  split
  · split
    · next hclose => rw [Group.State.setMember_self, hclose]
    · next hclose => rw [Group.State.setMember_self, hclose]
  · rfl

theorem closeOne_of_ne (r : GroupState I T N × Option (I × Problem)) {i j : I} (h : j ≠ i) :
    (g.closeOne r i).1.members j = r.1.members j := by
  simp only [closeOne]
  split
  · split
    · exact Group.State.setMember_of_ne _ h _
    · exact Group.State.setMember_of_ne _ h _
  · rfl

theorem closeEach_of_not_mem (l : List I) (r : GroupState I T N × Option (I × Problem)) {j : I}
    (h : j ∉ l) : (l.foldl g.closeOne r).1.members j = r.1.members j := by
  induction l generalizing r with
  | nil => rfl
  | cons i l ih =>
    obtain ⟨hji, hj⟩ : j ≠ i ∧ j ∉ l := by simpa using h
    rw [foldl_cons, ih _ hj, closeOne_of_ne r hji]

/-- Every instance is closed, whatever closing another one does. -/
theorem closeEach_of_mem {l : List I} (hnodup : l.Nodup)
    (r : GroupState I T N × Option (I × Problem)) {j : I} (h : j ∈ l) :
    ((l.foldl g.closeOne r).1.members j).fmu = (g.native j).finished (r.1.members j).fmu := by
  induction l generalizing r with
  | nil => cases h
  | cons i l ih =>
    obtain ⟨hi, hnodup⟩ := nodup_cons.1 hnodup
    rw [foldl_cons]
    rcases mem_cons.1 h with rfl | hj
    · rw [closeEach_of_not_mem l _ hi, closeOne_self]
    · have hji : j ≠ i := fun h => hi (h ▸ hj)
      rw [ih hnodup _ hj, closeOne_of_ne r hji]

theorem calls_eq [DecidableEq T] (steps : List Group.Step) (native : ∀ i, N i) {i : I}
    (h : i ∈ g.instances) :
    g.calls steps native i =
      ((g.native i).finished ((g.ended steps native).members i).fmu).calls := by
  rw [calls, close, closeEach_of_mem g.nodup _ h]

/-- The first FMU of the group that is not loaded is refused in an orderly way. -/
def Orderly (g : FmuGroup I T V N) (native : ∀ i, N i) : Prop :=
  ∀ before i after, g.instances = before ++ i :: after → (∀ j ∈ before, g.Loads native j) →
    (g.native i).Orderly true (g.starts i) (native i)

/-- The calls on every instance of a group are legal exactly if the first FMU
that is not loaded is refused in an orderly way, and no Error or Fatal is lost. -/
theorem legal_iff [DecidableEq T] (steps : List Group.Step) (native : ∀ i, N i) :
    (∀ i ∈ g.instances, Legal true (g.starts i) (g.calls steps native i)) ↔
      g.Orderly native ∧ ∀ i ∈ g.instances, ((g.ended steps native).members i).fmu.Heard := by
  rw [forall₂_congr fun i hi => by rw [calls_eq steps native hi]]
  by_cases hall : ∀ j ∈ g.instances, g.Loads native j
  · have horderly : g.Orderly native := fun before i after hl _ =>
      Native.Loads.orderly _ (hall i (by simp [hl]))
    rw [and_iff_right horderly]
    exact forall₂_congr fun i hi => (ended_of_loads steps hall i hi).legal_iff _
  · obtain ⟨before, j, after, hl, hbefore, hj⟩ := History.exists_first_not hall
    obtain ⟨hlegal, hended, hafter⟩ := ended_of_not_loads steps hl hbefore hj
    have horderly : g.Orderly native ↔ (g.native j).Orderly true (g.starts j) (native j) := by
      refine ⟨fun h => h before j after hl hbefore, fun h before' i after' hl' hbefore' => ?_⟩
      -- Another FMU that has only loaded ones before it comes before this one.
      rcases append_eq_append_iff.1 (hl.symm.trans hl') with ⟨mid, rfl, hmid⟩ | ⟨mid, rfl, hmid⟩
      · cases mid with
        | nil => exact (cons.inj hmid).1 ▸ h
        | cons k mid => exact absurd (hbefore' j (by simp [(cons.inj hmid).1])) hj
      · cases mid with
        | nil => exact (cons.inj hmid).1 ▸ h
        | cons k mid => exact Native.Loads.orderly _ (hbefore i (by simp [(cons.inj hmid).1]))
    simp only [hl, forall_mem_append, forall_mem_cons, hlegal, horderly]
    constructor
    · rintro ⟨hothers, ⟨ho, hheard⟩, -⟩
      refine ⟨ho, fun i hi => ((hended i hi).legal_iff _).1 (hothers i hi), hheard, fun i hi => ?_⟩
      rw [hafter i hi]
      exact .unloaded _
    · rintro ⟨ho, hothers, hheard, -⟩
      refine ⟨fun i hi => ((hended i hi).legal_iff _).2 (hothers i hi), ⟨ho, hheard⟩,
        fun i hi => ?_⟩
      rw [hafter i hi]
      exact legal_nil

end FmuGroup

end SilFormal.Fmi
