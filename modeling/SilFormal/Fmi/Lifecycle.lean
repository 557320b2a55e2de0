import SilFormal.Fmi.GroupLifecycle
import SilFormal.Fmi.Single

/-!
# The lifecycle of an FMU

Whatever the FMUs answer, and whatever ends a Run, the calls made on an
instance are legal, with two exceptions.  An FMU that answers a call before the
end of its initialization with Warning or Discard is terminated, although it
was never initialized; so is one that a signal interrupts there.  And a signal
during a call takes its answer: an instance is then terminated after an Error
or a Fatal, or is never freed.
-/

namespace SilFormal.Fmi
namespace Single

variable {N V α : Type} {x : Single N V}

/-- The FMU stands somewhere, without an Error and a Fatal. -/
def At (x : Single N V) (m : Stand) (st : State N V) : Prop :=
  Driven x.events.isSome x.starts m st.fmu

/-- The FMU may be driven no further. -/
def Ended (x : Single N V) (st : State N V) : Prop :=
  Left x.events.isSome x.starts st.fmu

theorem At.ended {m : Stand} {st : State N V} (h : x.At m st) : x.Ended st :=
  Driven.left h

/-- A call of the mode the FMU is in. -/
theorem keeps_call {m : Stand} {c : Call} (fail : Problem → SingleFailure)
    (f : N → (Status × α) × N) (hm : m.allows c = true) :
    Keeps x.Ended (x.At m) (x.At (m.after x.events.isSome c))
      (onFmu fail (x.native.call c f) : Drive N V α) := by
  intro st hst
  rw [onFmu, Wp.zoom_iff]
  exact x.native.keeps_call hm f st.fmu hst

theorem keeps_check {m : Stand} (y : Except SingleFailure α) :
    Keeps x.Ended (x.At m) (x.At m) (check y : Drive N V α) := by
  cases y with
  | ok a => exact .pure a
  | error e => exact .throw (fun _ hst => hst.ended) e

/-! ## Steps -/

theorem keeps_writeGroup (data : Fields V) (group : FieldGroup) :
    Keeps x.Ended (x.At .step) (x.At .step) (x.writeGroup data group) := by
  cases group with
  | scalars s => exact .ite (keeps_call _ _ rfl) (.throw (fun _ hst => hst.ended) _)
  | binaries bound => exact (keeps_check _).bind fun _ => keeps_call _ _ rfl

theorem keeps_readGroup (group : FieldGroup) :
    Keeps x.Ended (x.At .step) (x.At .step) (x.readGroup group) := by
  cases group with
  | scalars s => exact (keeps_call _ _ rfl).bind fun _ => .pure _
  | binaries bound => exact (keeps_call _ _ rfl).bind fun _ => (keeps_check _).bind fun _ => .pure _

theorem keeps_readChannel (groups : List FieldGroup) :
    Keeps x.Ended (x.At .step) (x.At .step) (x.readChannel groups) := by
  induction groups with
  | nil => exact .pure _
  | cons group rest ih => exact (keeps_readGroup group).bind fun _ => ih.bind fun _ => .pure _

theorem keeps_readOutputs (outputs : List (String × List FieldGroup)) :
    Keeps x.Ended (x.At .step) (x.At .step) (x.readOutputs outputs) := by
  induction outputs with
  | nil => exact .pure _
  | cons output rest ih => exact (keeps_readChannel _).bind fun _ => ih.bind fun _ => .pure _

theorem keeps_writeInput (message : Arrived V) :
    Keeps x.Ended (x.At .step) (x.At .step) (x.writeInput message) := by
  rw [writeInput]
  split
  · exact .throw (fun _ hst => hst.ended) _
  · exact Keeps.forM fun group _ => keeps_writeGroup _ group

/-! ## Events -/

theorem keeps_activation (c : ClockedPayload) (eventTime : Int) :
    Keeps x.Ended (x.At .event) (x.At .event) (x.activation c eventTime) := by
  refine (keeps_call _ _ rfl).bind fun _ => .ite ((keeps_call _ _ rfl).bind fun _ => ?_) (.pure _)
  exact (keeps_check _).bind fun _ => .pure _

theorem keeps_activate (c : ClockedPayload) (data : Fields V) :
    Keeps x.Ended (x.At .event) (x.At .event) (x.activate c data) :=
  (keeps_check _).bind fun _ => (keeps_call _ _ rfl).bind fun _ => keeps_call _ _ rfl

theorem keeps_activations (eventTime : Int) (outputs : List (String × ClockedPayload)) :
    Keeps x.Ended (x.At .event) (x.At .event) (x.activations eventTime outputs) := by
  induction outputs with
  | nil => exact .pure _
  | cons output rest ih => exact (keeps_activation _ _).bind fun _ => ih.bind fun _ => .pure _

theorem keeps_iterate (events : Events) (eventTime : Int) (left : Nat) :
    Keeps x.Ended (x.At .event) (x.At .event) (x.iterate events eventTime left) := by
  induction left with
  | zero => exact .throw (fun _ hst => hst.ended) _
  | succ left ih =>
    refine (keeps_activations _ _).bind fun _ => (keeps_call _ _ rfl).bind fun _ => ?_
    refine .ite (.throw (fun _ hst => hst.ended) _) (.ite (ih.bind fun _ => .pure _) ?_)
    exact (keeps_activations _ _).bind fun _ => .pure _

theorem keeps_handle (events : Events) (eventTime : Int) :
    Keeps x.Ended (x.At .event) (x.At .event) (x.handle events eventTime) :=
  (keeps_iterate events eventTime _).bind fun _ => .modify_bind (fun _ hst => hst) (.pure _)

theorem keeps_deliverEach (events : Events) (eventTime : Int) (messages : List (Arrived V)) :
    Keeps x.Ended (x.At .event) (x.At .event) (x.deliverEach events eventTime messages) := by
  induction messages with
  | nil => exact .pure _
  | cons message rest ih =>
    rw [deliverEach]
    split
    · exact .throw (fun _ hst => hst.ended) _
    · refine (keeps_activate _ _).bind fun _ => (keeps_handle _ _).bind fun _ => ?_
      exact ih.bind fun _ => .pure _

theorem keeps_enterEventMode : Keeps x.Ended (x.At .step) (x.At .event) x.enterEventMode :=
  keeps_call _ _ rfl

theorem keeps_enterStepMode : Keeps x.Ended (x.At .event) (x.At .step) x.enterStepMode :=
  keeps_call _ _ rfl

/-! ## The participant -/

theorem keeps_deliver (events : Events) (messages : List (Arrived V)) (t : Int) :
    Keeps x.Ended (x.At .step) (x.At .step) (x.deliver events messages t) := by
  refine .ite (.pure _) (keeps_enterEventMode.bind fun _ => ?_)
  exact (keeps_deliverEach _ _ _).bind fun _ => keeps_enterStepMode.bind fun _ => .pure _

theorem keeps_stepEvent (eventNeeded : Bool) (stop : Int) :
    Keeps x.Ended (x.At .step) (x.At .step) (x.stepEvent eventNeeded stop) := by
  rw [stepEvent]
  split
  · exact .ite (.throw (fun _ hst => hst.ended) _) (.pure _)
  · refine .get_bind fun _ => .ite (keeps_enterEventMode.bind fun _ => ?_) (.pure _)
    exact (keeps_handle _ _).bind fun _ => keeps_enterStepMode.bind fun _ => .pure _

theorem keeps_step (t dt : Int) (inputs : List (Arrived V)) :
    Keeps x.Ended (x.At .step) (x.At .step) (x.step t dt inputs) := by
  refine (Keeps.forM fun message _ => keeps_writeInput message).bind fun _ => ?_
  refine (Keeps.get_bind fun _ => .ite (keeps_check _) (.pure _)).bind fun _ => ?_
  refine (keeps_call _ _ rfl).bind fun _ => (keeps_check _).bind fun _ => ?_
  exact (keeps_stepEvent _ _).bind fun _ => (keeps_readOutputs _).bind fun _ => .pure _

theorem keeps_onStep (a : Activation V) : Keeps x.Ended (x.At .step) (x.At .step) (x.onStep a) := by
  rw [onStep]
  split
  · exact keeps_step _ _ _
  · refine .get_bind fun _ => .ite (.modify_bind (fun _ hst => hst) ?_)
      (.throw (fun _ hst => hst.ended) _)
    refine (keeps_deliver _ _ _).bind fun _ => (keeps_step _ _ _).bind fun _ => ?_
    exact .modify_bind (fun _ hst => hst) (.pure _)

theorem keeps_run (steps : List (Activation V)) :
    Keeps x.Ended (x.At .step) (x.At .step) (x.run steps) := by
  induction steps with
  | nil => exact .pure _
  | cons a rest ih => exact (keeps_onStep a).bind fun _ => ih.bind fun _ => .pure _

theorem keeps_firstEvent :
    Keeps x.Ended (x.At (if x.events.isSome = true then .event else .step)) (x.At .step)
      x.firstEvent := by
  rw [firstEvent]
  cases x.events with
  | none => exact .pure _
  | some events =>
    exact (keeps_handle _ _).bind fun _ => .modify_bind (fun _ hst => hst) keeps_enterStepMode

variable {native : N}

/-- An FMU that is loaded is stepped. -/
theorem ended_of_loads (steps : List (Activation V))
    (h : x.native.Loads x.events.isSome x.starts native) :
    Left x.events.isSome x.starts (x.ended steps native) := by
  obtain ⟨fmu, hfmu, hdriven⟩ := x.native.load_of_loads h
  have hload : (onFmu .problem (x.native.load x.events.isSome x.starts) : Drive N V Unit)
      (unloaded native) = .ok () { unloaded native with fmu := fmu } := zoom_of_ok hfmu
  have hdrive := (keeps_firstEvent.bind fun _ => keeps_run steps)
    { unloaded native with fmu := fmu } hdriven
  simp only [ended, onInit, bind_assoc]
  rw [bind_of_ok hload]
  split
  · next hok => exact (hdrive.of_ok hok).left
  · next herror => exact hdrive.of_error herror

/-- An FMU that is not loaded ends the Run. -/
theorem ended_of_not_loads (steps : List (Activation V))
    (h : ¬ x.native.Loads x.events.isSome x.starts native) :
    ∃ s, x.ended steps native = s ∧ (Legal x.events.isSome x.starts (x.native.finished s).calls ↔
      x.native.Orderly x.events.isSome x.starts native ∧ s.Heard) := by
  obtain ⟨p, fmu, hfmu, hlegal⟩ := x.native.load_of_not_loads h
  have hload : (onFmu .problem (x.native.load x.events.isSome x.starts) : Drive N V Unit)
      (unloaded native) = .error (.problem p) { unloaded native with fmu := fmu } :=
    zoom_of_error hfmu
  refine ⟨fmu, ?_, hlegal⟩
  simp only [ended, onInit, bind_assoc]
  rw [bind_of_error hload]

/-- The calls on the FMU over its whole lifecycle. -/
def calls (x : Single N V) (steps : List (Activation V)) (native : N) : List (Call × Status) :=
  (x.native.finished (x.ended steps native)).calls

theorem legal_iff (steps : List (Activation V)) (native : N) :
    Legal x.events.isSome x.starts (x.calls steps native) ↔
      x.native.Orderly x.events.isSome x.starts native ∧ (x.ended steps native).Heard := by
  by_cases hloads : x.native.Loads x.events.isSome x.starts native
  · rw [and_iff_right (Native.Loads.orderly _ hloads)]
    exact (ended_of_loads steps hloads).legal_iff x.native
  · obtain ⟨s, rfl, hlegal⟩ := ended_of_not_loads steps hloads
    exact hlegal

end Single

/-- Over the whole lifecycle of one FMU and of a group, the calls on every
instance are legal exactly if the first FMU that is not loaded returns no
instance or is refused in an orderly way, and no signal keeps the importer from
reading an Error or a Fatal. -/
theorem lifecycle_legal_iff {N V : Type} (x : Single N V) (activations : List (Single.Activation V))
    (native : N) {I T W : Type} {M : I → Type} [DecidableEq I] [DecidableEq T]
    (g : FmuGroup I T W M) (steps : List Group.Step) (natives : ∀ i, M i) :
    (Legal x.events.isSome x.starts (x.calls activations native) ↔
        x.native.Orderly x.events.isSome x.starts native ∧ (x.ended activations native).Heard) ∧
      ((∀ i ∈ g.instances, Legal true (g.starts i) (g.calls steps natives i)) ↔
        g.Orderly natives ∧ ∀ i ∈ g.instances, ((g.ended steps natives).members i).fmu.Heard) :=
  ⟨x.legal_iff activations native, g.legal_iff steps natives⟩

/-- An FMU that answers OK to everything but the write of a value. -/
def discarding : Native Unit Nat where
  instantiate _ m := (true, m)
  enterConfigurationMode m := (.ok, m)
  exitConfigurationMode m := (.ok, m)
  enterInitializationMode m := (.ok, m)
  exitInitializationMode m := (.ok, m)
  enterEventMode m := (.ok, m)
  enterStepMode m := (.ok, m)
  getClock _ m := ((.ok, false), m)
  setClock _ m := (.ok, m)
  getIntervalFraction _ m := ((.ok, { counter := 0, resolution := 0, qualifier := 0 }), m)
  updateDiscreteStates m :=
    ((.ok, { needUpdate := false, terminate := false, nextEventTime := none }), m)
  setValues _ _ _ m := (.discard, m)
  getValues _ _ m := ((.ok, []), m)
  setBinary _ _ m := (.ok, m)
  getBinary _ m := ((.ok, []), m)
  doStep _ _ m :=
    ((.ok,
      { eventNeeded := false, terminate := false, earlyReturn := false, lastSuccessfulTime := 0 }),
      m)
  terminate m := (.ok, m)
  freeInstance m := m
  signalled _ := false
  interrupted _ := false

/-- The FMU with a start value. -/
def discardingParticipant : Single Unit Nat where
  native := discarding
  starts := [
    { variableName := "gain", structural := false, reference := 1, data := .values "Int32" [7] }]
  inputs := []
  outputs := []
  events := none
  toField := fun _ v => v

/-- An FMU that discards a start value is terminated before it is initialized. -/
theorem terminates_uninitialized : discardingParticipant.calls [] () = [
        (.instantiate, .ok), (.startValue false "gain", .discard), (.terminate, .ok),
        (.freeInstance, .ok)] ∧
      ¬ Legal false discardingParticipant.starts (discardingParticipant.calls [] ()) := by
  have hcalls : discardingParticipant.calls [] () = [
      (.instantiate, .ok), (.startValue false "gain", .discard)] ++
        (.terminate, .ok) :: [(.freeInstance, .ok)] := rfl
  refine ⟨hcalls, fun h => ?_⟩
  have hinit := (h.allowed _ _ _ hcalls).terminate rfl
  simp at hinit

end SilFormal.Fmi
