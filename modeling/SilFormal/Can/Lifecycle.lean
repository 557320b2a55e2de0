import SilFormal.Can.Arbitration
import SilFormal.Can.ParameterOrder

/-!
# The CAN model from its instantiation on

`CanFmu` is the adapter together with its parameters.  Parameters are set before
Initialization Mode and reach the bus at its end only.  Until then the bus has
the number of active nodes that it was made with.
-/

namespace SilFormal.Can

open Fallible
open Fmi (Reference)

/-- `Instance`: the adapter with its parameters. -/
structure CanFmu where
  adapter : Adapter
  parameters : Parameters
deriving DecidableEq

namespace CanFmu

/-- A program of the FMU; it fails with the text that is logged. -/
abbrev Act := EStateM String CanFmu

/-- A new instance. -/
def fresh : CanFmu where
  adapter := { Adapter.initialized {} with mode := .instantiated }
  parameters := {}

/-- A computation that may throw. -/
def attempt {α : Type} (x : Except String α) : Act α :=
  match x with
  | .ok a => pure a
  | .error message => throw message

/-- An entry point of the adapter. -/
def onAdapter {α : Type} (x : Adapter.Act α) : Act α :=
  zoom CanFmu.adapter (fun adapter i => { i with adapter := adapter }) AdapterError.text x

/-- `invoke_fmi`. -/
def invokeFmi {α : Type} (body : Act α) : Act α := fun i =>
  if i.adapter.mode = .error then .error AdapterError.errorState.text i
  else
    match body i with
    | .ok a i' => .ok a i'
    | .error message i' => .error message { i' with adapter := { i'.adapter with mode := .error } }

/-- `require_mode`. -/
def requireMode (mode : Mode) : Act Unit := do
  let i ← get
  if i.adapter.mode = mode then pure () else throw AdapterError.lifecycle.text

/-- `fmi3SetFloat64`. -/
def setFloat64 (assignments : List (Reference × Option ℚ)) : Act Unit := invokeFmi do
  requireMode .instantiated
  let i ← get
  let parameters ← attempt (i.parameters.set assignments)
  modify fun i => { i with parameters := parameters }

/-- `fmi3EnterInitializationMode`; `stop` is `none` if no stop time is defined. -/
def enterInitializationMode (start : ℚ) (stop : Option (Option ℚ)) : Act Unit := invokeFmi do
  requireMode .instantiated
  attempt (require (∀ t ∈ stop, ∃ s ∈ t, start < s) "invalid experiment time")
  let time ← attempt ((Adapter.nanoseconds start).mapError AdapterError.text)
  modify fun i => { i with adapter := { i.adapter with time := time, mode := .initialization } }

/-- `fmi3ExitInitializationMode`. -/
def exitInitializationMode : Act Unit := invokeFmi do
  requireMode .initialization
  let i ← get
  let p := i.parameters
  let bus ← attempt (Bus.configure p.activeNodes p.queueCapacity p.retryLimit p.faultRuleCount
    p.faultRuleInputs p.bufferCapacity i.adapter.bus)
  modify fun i => { i with
    adapter := { i.adapter with bus := bus, event := {}, mode := .event } }

/-- `fmi3Terminate`. -/
def terminate : Act Unit := invokeFmi do
  let i ← get
  attempt (require (i.adapter.mode = .step ∨ i.adapter.mode = .event)
    "invalid termination state")
  modify fun i => { i with adapter := { i.adapter with mode := .terminated } }

/-- `fmi3Reset`. -/
def reset : Act Unit :=
  set fresh

/-! ## The order of the parameters -/

theorem setFloat64_of_instantiated {i : CanFmu} (hmode : i.adapter.mode = .instantiated)
    (assignments : List (Reference × Option ℚ)) :
    setFloat64 assignments i =
      match i.parameters.set assignments with
      | .ok parameters => .ok () { i with parameters := parameters }
      | .error message =>
        .error message { i with adapter := { i.adapter with mode := .error } } := by
  have hrequire : requireMode .instantiated i = .ok () i := by
    rw [requireMode, bind_of_ok (show (get : Act CanFmu) i = .ok i i from rfl), if_pos hmode]
    rfl
  rw [setFloat64, invokeFmi, if_neg (by simp [hmode]), bind_of_ok hrequire,
    bind_of_ok (show (get : Act CanFmu) i = .ok i i from rfl)]
  cases hset : i.parameters.set assignments with
  | ok parameters => rfl
  | error message => rfl

/-- Parameters set one call at a time. -/
def setParameters (l : List (Reference × Option ℚ)) : Act Unit :=
  forM l fun a => setFloat64 [a]

theorem setParameters_eq_ok_iff {i i' : CanFmu} (hmode : i.adapter.mode = .instantiated)
    {l : List (Reference × Option ℚ)} :
    setParameters l i = .ok () i' ↔
      ∃ p, i.parameters.setEach l = .ok p ∧ i' = { i with parameters := p } := by
  induction l generalizing i with
  | nil =>
    constructor
    · intro h
      cases h
      exact ⟨_, rfl, rfl⟩
    · rintro ⟨p, hp, rfl⟩
      cases hp
      rfl
  | cons a l ih =>
    rw [setParameters, List.forM_cons, bind_eq_ok_iff, Parameters.setEach, List.foldlM_cons]
    simp only [bind_eq_ok, setFloat64_of_instantiated hmode]
    constructor
    · rintro ⟨⟨⟩, i₁, hfirst, hrest⟩
      cases hset : i.parameters.set [a] with
      | error message =>
        rw [hset] at hfirst
        cases hfirst
      | ok q =>
        rw [hset] at hfirst
        cases hfirst
        obtain ⟨p, hp, rfl⟩ := (ih (i := { i with parameters := q }) hmode).mp hrest
        exact ⟨p, ⟨q, rfl, hp⟩, rfl⟩
    · rintro ⟨p, ⟨q, hq, hp⟩, rfl⟩
      rw [hq]
      exact ⟨(), _, rfl, (ih (i := { i with parameters := q }) hmode).mpr ⟨p, hp, rfl⟩⟩

/-- The order of parameter assignments, one call at a time.  If one order of
assignments to different references is accepted by a new instance, another one
is accepted exactly if the declared fault rules fit whenever the number of
active nodes or the retry limit is assigned and all fields of the rules are set
already.  The orders that are accepted lead to the same parameters. -/
theorem parameter_order (l l' : List (Reference × Option ℚ)) (hnodup : (l.map Prod.fst).Nodup)
    (hperm : l.Perm l') (i : CanFmu) (h : setParameters l fresh = .ok () i) :
    ((∃ i', setParameters l' fresh = .ok () i') ↔ Parameters.RulesFitOnTheWay l') ∧
      ∀ i', setParameters l' fresh = .ok () i' → i'.parameters = i.parameters := by
  obtain ⟨p, hp, rfl⟩ := (setParameters_eq_ok_iff rfl).mp h
  obtain ⟨hsame, hsucceeds⟩ := Parameters.setEach_perm hperm hnodup hp
  refine ⟨?_, fun i' hi' => ?_⟩
  · rw [← hsucceeds]
    constructor
    · rintro ⟨i', hi'⟩
      obtain ⟨q, hq, _⟩ := (setParameters_eq_ok_iff rfl).mp hi'
      exact ⟨q, hq⟩
    · rintro ⟨q, hq⟩
      exact ⟨_, (setParameters_eq_ok_iff rfl).mpr ⟨q, hq, rfl⟩⟩
  · obtain ⟨q, hq, rfl⟩ := (setParameters_eq_ok_iff rfl).mp hi'
    exact hsame q hq

/-- One rule about the third attempt of a request of the first terminal. -/
def thirdAttempt : List (Reference × Option ℚ) :=
  [(faultRuleCountReference, some 1), ((1100 : Nat), some 1), ((1101 : Nat), some 1),
    ((1102 : Nat), some 0), ((1103 : Nat), some 1), ((1104 : Nat), some 0), ((1105 : Nat), some 0),
    ((1106 : Nat), some 1), ((1107 : Nat), some 3)]

/-- The retry limit of four attempts more. -/
def fourRetries : Reference × Option ℚ :=
  (retryLimitReference, some 4)

/-- The retry limit may come first or between the fields of the rule. -/
theorem parameter_order_between :
    ∃ i i', setParameters (fourRetries :: thirdAttempt) fresh = .ok () i ∧
      setParameters (thirdAttempt.take 4 ++ fourRetries :: thirdAttempt.drop 4) fresh = .ok () i' ∧
      i'.parameters = i.parameters := by
  have hfirst : returns (setParameters (fourRetries :: thirdAttempt) fresh) = true := by
    decide +kernel
  have hbetween : returns (setParameters
      (thirdAttempt.take 4 ++ fourRetries :: thirdAttempt.drop 4) fresh) = true := by
    decide +kernel
  obtain ⟨⟨⟩, i, hi⟩ := exists_of_returns hfirst
  obtain ⟨⟨⟩, i', hi'⟩ := exists_of_returns hbetween
  refine ⟨i, i', hi, hi', (parameter_order _ _ ?_ ?_ i hi).2 i' hi'⟩
  · decide
  · show (fourRetries :: (thirdAttempt.take 4 ++ thirdAttempt.drop 4)).Perm _
    exact List.perm_middle.symm

/-- The retry limit that makes room for a rule comes too late after it: the
complete rule is checked against the initial limit. -/
theorem retry_limit_after_rule :
    (fourRetries :: thirdAttempt).Perm (thirdAttempt ++ [fourRetries]) ∧
      ((fourRetries :: thirdAttempt).map Prod.fst).Nodup ∧
      returns (setParameters (fourRetries :: thirdAttempt) fresh) = true ∧
      returns (setParameters (thirdAttempt ++ [fourRetries]) fresh) = false :=
  ⟨(List.perm_append_singleton fourRetries thirdAttempt).symm, by decide, by decide +kernel,
    by decide +kernel⟩

/-! ## The active terminals -/

/-- A call of the FMU. -/
inductive Call
  | setFloat64 (assignments : List (Reference × Option ℚ))
  | enterInitializationMode (start : ℚ) (stop : Option (Option ℚ))
  | exitInitializationMode
  | enterEventMode
  | enterStepMode
  | doStep (current step : ℚ)
  | setBinary (vr : Reference) (value : Bytes)
  | setClock (references : List Reference)
  | getBinary (vr : Reference)
  | updateDiscreteStates
  | getIntervalFraction (vr : Reference)
  | terminate
  | reset

/-- One call. -/
def perform : Call → Act Unit
  | .setFloat64 assignments => setFloat64 assignments
  | .enterInitializationMode start stop => enterInitializationMode start stop
  | .exitInitializationMode => exitInitializationMode
  | .enterEventMode => onAdapter Adapter.enterEventMode
  | .enterStepMode => onAdapter Adapter.enterStepMode
  | .doStep current step => do let _ ← onAdapter (Adapter.doStep current step)
  | .setBinary vr value => onAdapter (Adapter.setBinary vr value)
  | .setClock references => onAdapter (Adapter.setClock references)
  | .getBinary vr => do let _ ← onAdapter (Adapter.getBinary vr)
  | .updateDiscreteStates => do let _ ← onAdapter Adapter.updateDiscreteStates
  | .getIntervalFraction vr => do let _ ← onAdapter (Adapter.getIntervalFraction vr)
  | .terminate => terminate
  | .reset => reset

/-- The states that accepted calls reach from a new instance. -/
def Reached (i : CanFmu) : Prop :=
  ∃ calls : List Call, forM calls perform fresh = .ok () i

/-- The bus gets the parameters at the end of Initialization Mode: before, it
has those that it was made with, and no event is evaluated. -/
structure Configured (i : CanFmu) : Prop where
  before : i.adapter.mode = .instantiated ∨ i.adapter.mode = .initialization →
    i.adapter.bus = {} ∧ i.adapter.event.evaluated = false
  since : i.adapter.mode = .event ∨ i.adapter.mode = .step ∨ i.adapter.mode = .terminated →
    i.adapter.bus.activeNodes = i.parameters.activeNodes

theorem configured_fresh : fresh.Configured :=
  ⟨fun _ => ⟨rfl, rfl⟩, by rintro (⟨⟨⟩⟩ | ⟨⟨⟩⟩ | ⟨⟨⟩⟩)⟩

end CanFmu

namespace Adapter

/-- The modes after the end of initialization. -/
def Running (i : Adapter) : Prop :=
  i.mode = .event ∨ i.mode = .step ∨ i.mode = .terminated

/-- What the entry points of the adapter do: in Initialization Mode they leave
the bus alone, and later they keep its active nodes. -/
def Follows (i j : Adapter) : Prop :=
  (i.mode = .initialization ∧ j.mode = .initialization ∧ j.bus = i.bus ∧
      j.event.evaluated = i.event.evaluated) ∨
    (i.Running ∧ j.Running ∧ j.bus.activeNodes = i.bus.activeNodes)

variable {i : Adapter}

theorem invokeFmi_follows {α : Type} {body : Act α} {Q : α → Adapter → Prop}
    (h : i.mode ≠ .error → Wp body Q (fun _ _ => True) i) :
    Wp (invokeFmi body) Q (fun _ _ => True) i :=
  invokeFmi_const (fun _ => trivial) h

theorem evaluatedBus_activeNodes {next : Bus} (h : i.evaluatedBus = .ok next) :
    next.activeNodes = i.bus.activeNodes := by
  simp only [evaluatedBus, require_bind_eq_ok] at h
  obtain ⟨_, _, h⟩ := h
  obtain ⟨ticked, hticked, h⟩ := bind_eq_ok.mp h
  rw [require_bind_eq_ok] at h
  have hreceive : ticked.call (.receive i.offered i.time) = .ok next := onBus_ok h.2
  refine (Bus.call_design hreceive).1.trans ?_
  rw [Adapter.ticked] at hticked
  split at hticked
  · rw [require_bind_eq_ok] at hticked
    have htick : i.bus.call (.tick i.time) = .ok ticked := onBus_ok hticked.2
    exact (Bus.call_design htick).1
  · cases hticked
    rfl

theorem enterEventMode_follows :
    Wp enterEventMode (fun _ j => i.Follows j) (fun _ _ => True) i := by
  refine invokeFmi_follows fun _ => ?_
  simp only [Wp.bind_iff, demand_iff, implies_true, and_true]
  exact fun hmode => .inr ⟨.inr (.inl hmode), .inl rfl, rfl⟩

theorem enterStepMode_follows : Wp enterStepMode (fun _ j => i.Follows j) (fun _ _ => True) i := by
  refine invokeFmi_follows fun _ => ?_
  simp only [Wp.bind_iff, demand_iff, implies_true, and_true]
  exact fun hmode _ => .inr ⟨.inl hmode, .inr (.inl rfl), rfl⟩

theorem doStep_follows (current step : ℚ) :
    Wp (doStep current step) (fun _ j => i.Follows j) (fun _ _ => True) i := by
  refine invokeFmi_follows fun _ => ?_
  simp only [Wp.bind_iff, demand_iff, attempt_iff, implies_true, and_true]
  exact fun hmode _ _ _ _ _ _ => .inr ⟨.inr (.inl hmode), .inr (.inl hmode), rfl⟩

/-- In Initialization and Event Mode the mode, the bus and the flag may stay. -/
theorem follows_of_same {j : Adapter} (hmode : i.mode = .initialization ∨ i.mode = .event)
    (hsame : j.mode = i.mode) (hbus : j.bus = i.bus)
    (hflag : j.event.evaluated = i.event.evaluated) : i.Follows j := by
  rcases hmode with hmode | hmode
  · exact .inl ⟨hmode, hsame.trans hmode, hbus, hflag⟩
  · exact .inr ⟨.inl hmode, .inl (hsame.trans hmode), by rw [hbus]⟩

theorem setBinary_follows (vr : Reference) (value : Bytes) :
    Wp (setBinary vr value) (fun _ j => i.Follows j) (fun _ _ => True) i := by
  refine invokeFmi_follows fun _ => ?_
  simp only [Wp.bind_iff, requireInitializationOrEvent, demand_iff, attempt_iff, implies_true,
    and_true]
  exact fun hmode _ _ _ _ _ _ => follows_of_same hmode rfl rfl rfl

theorem raise_follows (vr : Reference) : Wp (raise vr) (fun _ j => j.mode = i.mode ∧ j.bus = i.bus ∧
      j.event.evaluated = i.event.evaluated) (fun _ _ => True) i := by
  rw [raise]
  cases terminalOfReference vr with
  | none => trivial
  | some n =>
    simp only [Wp.bind_iff, demand_iff, Wp.ite_iff, implies_true, and_true]
    exact fun _ _ => ⟨fun _ _ => ⟨rfl, rfl, rfl⟩, fun _ _ => ⟨rfl, rfl, rfl⟩⟩

theorem setClock_follows (references : List Reference) :
    Wp (setClock references) (fun _ j => i.Follows j) (fun _ _ => True) i := by
  refine invokeFmi_follows fun _ => ?_
  simp only [Wp.bind_iff, demand_iff, implies_true, and_true]
  intro hmode _
  have hloop := Keeps.forM (l := references)
    (P := fun j => j.mode = i.mode ∧ j.bus = i.bus ∧ j.event.evaluated = i.event.evaluated)
    (fun vr _ j hj => (raise_follows vr).post fun _ k hk =>
      ⟨hk.1.trans hj.1, hk.2.1.trans hj.2.1, hk.2.2.trans hj.2.2⟩)
  exact (hloop i ⟨rfl, rfl, rfl⟩).post fun _ j hj => follows_of_same (.inr hmode) hj.1 hj.2.1 hj.2.2

theorem evaluate_follows :
    Wp evaluate (fun _ j => j.mode = i.mode ∧ j.bus.activeNodes = i.bus.activeNodes ∧
      (i.event.evaluated = false → i.mode = .event)) (fun _ _ => True) i := by
  simp only [evaluate, Wp.bind_iff, Wp.get_iff, Wp.ite_iff, Wp.pure_iff, demand_iff, attempt_iff,
    implies_true, and_true]
  refine ⟨fun hflag => ⟨trivial, trivial, fun h => by simp [h] at hflag⟩,
    fun _ hmode _ next hnext => ?_⟩
  exact ⟨rfl, evaluatedBus_activeNodes hnext, fun _ => hmode⟩

theorem getBinary_follows (vr : Reference) :
    Wp (getBinary vr) (fun _ j => i.Follows j) (fun _ _ => True) i := by
  refine invokeFmi_follows fun _ => ?_
  simp only [Wp.bind_iff, requireInitializationOrEvent, demand_iff, attempt_iff,
    Wp.ite_iff, implies_true, and_true]
  refine fun hmode n _ => ⟨fun hevent _ => ?_, fun _ => follows_of_same hmode rfl rfl rfl⟩
  exact evaluate_follows.post fun _ j hj => .inr ⟨.inl hevent, .inl (hj.1.trans hevent), hj.2.1⟩

theorem updateDiscreteStates_follows
    (hflag : i.mode = .instantiated ∨ i.mode = .initialization → i.event.evaluated = false) :
    Wp updateDiscreteStates (fun _ j => i.Follows j) (fun _ _ => True) i := by
  refine invokeFmi_follows fun herror => ?_
  simp only [Wp.bind_iff]
  refine evaluate_follows.post fun _ j hj => ?_
  have hrunning : i.Running := by
    cases hmode : i.mode with
    | instantiated => cases hmode.symm.trans (hj.2.2 (hflag (.inl hmode)))
    | initialization => cases hmode.symm.trans (hj.2.2 (hflag (.inr hmode)))
    | event => exact .inl hmode
    | step => exact .inr (.inl hmode)
    | terminated => exact .inr (.inr hmode)
    | error => exact absurd hmode herror
  refine .inr ⟨hrunning, ?_, hj.2.1⟩
  simpa only [Running, hj.1] using hrunning

theorem getIntervalFraction_follows (vr : Reference) :
    Wp (getIntervalFraction vr) (fun _ j => i.Follows j) (fun _ _ => True) i := by
  refine invokeFmi_follows fun _ => ?_
  simp only [Wp.bind_iff, requireInitializationOrEvent, demand_iff, attempt_iff, implies_true,
    and_true]
  exact fun hmode _ _ => follows_of_same hmode rfl rfl rfl

end Adapter

namespace CanFmu

variable {i : CanFmu} {α : Type} {Q : α → CanFmu → Prop} {F : String → CanFmu → Prop}

/-- An entry point of the adapter keeps what is known of the configuration. -/
theorem Configured.follows {j : Adapter} (h : i.Configured) (hfollows : i.adapter.Follows j) :
    Configured { i with adapter := j } := by
  rcases hfollows with ⟨hmode, hsame, hbus, hflag⟩ | ⟨hrunning, hrunning', hnodes⟩
  · refine ⟨fun _ => ?_, ?_⟩
    · rw [hbus, hflag]
      exact h.before (.inr hmode)
    · rintro (hlate | hlate | hlate) <;> cases hsame.symm.trans hlate
  · refine ⟨?_, fun _ => hnodes.trans (h.since hrunning)⟩
    rintro (hearly | hearly) <;> rcases hrunning' with hlate | hlate | hlate <;>
      cases hearly.symm.trans hlate

theorem onAdapter_configured {x : Adapter.Act α} (h : i.Configured)
    (hx : Wp x (fun _ j => i.adapter.Follows j) (fun _ _ => True) i.adapter) :
    Wp (onAdapter x) (fun _ j => j.Configured) (fun _ _ => True) i := by
  rw [onAdapter, Wp.zoom_iff]
  exact hx.mono (fun _ _ hfollows => h.follows hfollows) fun _ _ _ => trivial

theorem invokeFmi_true {body : Act α}
    (h : i.adapter.mode ≠ .error → Wp body Q (fun _ _ => True) i) :
    Wp (invokeFmi body) Q (fun _ _ => True) i := by
  by_cases hmode : i.adapter.mode = .error
  · rw [Wp, invokeFmi, if_pos hmode]
    trivial
  · have hbody := h hmode
    simp only [Wp, invokeFmi, if_neg hmode] at hbody ⊢
    cases hresult : body i with
    | ok a i' =>
      rw [hresult] at hbody
      exact hbody
    | error message i' => trivial

theorem attempt_iff {x : Except String α} :
    Wp (attempt x) Q F i ↔ (∀ a, x = .ok a → Q a i) ∧ ∀ e, x = .error e → F e i := by
  cases x with
  | ok a => simp [attempt]
  | error e => simp [attempt]

theorem requireMode_iff {mode : Mode} {Q : Unit → CanFmu → Prop} :
    Wp (requireMode mode) Q F i ↔ (i.adapter.mode = mode → Q () i) ∧
        (i.adapter.mode ≠ mode → F AdapterError.lifecycle.text i) := by
  simp [requireMode]

theorem configure_activeNodes
    {activeNodes queueCapacity retryLimit faultRuleCount bufferCapacity : Nat}
    {faultRules : List FaultRuleInput} {b b' : Bus}
    (h : Bus.configure activeNodes queueCapacity retryLimit faultRuleCount faultRules
      bufferCapacity b = .ok b') : b'.activeNodes = activeNodes := by
  rw [Bus.configure, bind_eq_ok] at h
  obtain ⟨_, _, h⟩ := h
  simp only [require_bind_eq_ok] at h
  obtain ⟨_, _, _, _, h⟩ := h
  obtain ⟨rules, _, h⟩ := bind_eq_ok.mp h
  rw [require_bind_eq_ok] at h
  obtain ⟨_, h⟩ := h
  cases h
  rfl

theorem perform_configured (h : i.Configured) (call : Call) :
    Wp (perform call) (fun _ j => j.Configured) (fun _ _ => True) i := by
  cases call with
  | setFloat64 assignments =>
    refine invokeFmi_true fun _ => ?_
    simp only [Wp.bind_iff, requireMode_iff, attempt_iff, implies_true, and_true]
    refine fun hmode parameters _ => ⟨fun _ => h.before (.inl hmode), ?_⟩
    rintro (hlate | hlate | hlate) <;> cases hmode.symm.trans hlate
  | enterInitializationMode start stop =>
    refine invokeFmi_true fun _ => ?_
    simp only [Wp.bind_iff, requireMode_iff, attempt_iff, implies_true, and_true]
    refine fun hmode _ _ time _ => ⟨fun _ => h.before (.inl hmode), ?_⟩
    rintro (⟨⟨⟩⟩ | ⟨⟨⟩⟩ | ⟨⟨⟩⟩)
  | exitInitializationMode =>
    refine invokeFmi_true fun _ => ?_
    simp only [Wp.bind_iff, requireMode_iff, attempt_iff, implies_true, and_true]
    refine fun _ bus hbus => ⟨?_, fun _ => configure_activeNodes hbus⟩
    rintro (⟨⟨⟩⟩ | ⟨⟨⟩⟩)
  | enterEventMode => exact onAdapter_configured h Adapter.enterEventMode_follows
  | enterStepMode => exact onAdapter_configured h Adapter.enterStepMode_follows
  | doStep current step =>
    exact Wp.bind_iff.mpr (onAdapter_configured h (Adapter.doStep_follows current step))
  | setBinary vr value => exact onAdapter_configured h (Adapter.setBinary_follows vr value)
  | setClock references => exact onAdapter_configured h (Adapter.setClock_follows references)
  | getBinary vr => exact Wp.bind_iff.mpr (onAdapter_configured h (Adapter.getBinary_follows vr))
  | updateDiscreteStates =>
    exact Wp.bind_iff.mpr (onAdapter_configured h
      (Adapter.updateDiscreteStates_follows fun hmode => (h.before hmode).2))
  | getIntervalFraction vr =>
    exact Wp.bind_iff.mpr (onAdapter_configured h (Adapter.getIntervalFraction_follows vr))
  | terminate =>
    refine invokeFmi_true fun _ => ?_
    simp only [Wp.bind_iff, attempt_iff, implies_true, and_true, require_eq_ok]
    refine fun _ hmode => ⟨by rintro (⟨⟨⟩⟩ | ⟨⟨⟩⟩), fun _ => h.since ?_⟩
    exact hmode.elim (fun hstep => .inr (.inl hstep)) .inl
  | reset => exact configured_fresh

theorem Reached.configured (h : i.Reached) : i.Configured := by
  obtain ⟨calls, hcalls⟩ := h
  have hloop : Keeps (fun _ => True) Configured Configured (forM calls perform) :=
    Keeps.forM fun call _ j hj => perform_configured hj call
  exact (hloop fresh configured_fresh).of_ok hcalls

/-- In Initialization Mode a Binary is accepted where the bus is active. -/
theorem setBinary_initialization (hmode : i.adapter.mode = .initialization)
    (hflag : i.adapter.event.evaluated = false) (n : Terminal) {value : Bytes}
    (hsize : value.length ≤ maxBinarySize) :
    Wp (perform (.setBinary (reference n rxData) value))
      (fun _ _ => i.adapter.bus.isActive n = true)
      (fun _ _ => ¬ i.adapter.bus.isActive n = true) i := by
  have hreference := Adapter.terminalWith_reference n rxData (by decide)
  rw [perform, onAdapter, Wp.zoom_iff]
  refine Adapter.invokeFmi_const (fun herror => by simp [hmode] at herror) fun _ => ?_
  simp [Adapter.requireInitializationOrEvent, hmode, hflag, hreference, hsize]

/-- In Event Mode a Clock and its Binary are accepted where the bus is active. -/
theorem setClock_setBinary_event (hmode : i.adapter.mode = .event)
    (hflag : i.adapter.event.evaluated = false) (n : Terminal) (hrx : i.adapter.event.rx n = false)
    (hwritten : i.adapter.event.written n = false) {value : Bytes}
    (hsize : value.length ≤ maxBinarySize) :
    Wp (perform (.setClock [reference n rxClock]) >>= fun _ =>
        perform (.setBinary (reference n rxData) value))
      (fun _ _ => i.adapter.bus.isActive n = true)
      (fun _ _ => ¬ i.adapter.bus.isActive n = true) i := by
  simp only [perform, onAdapter, Wp.bind_iff, Wp.zoom_iff]
  refine (Adapter.setClock_rx_exact i.adapter n).mono ?_ ?_
  · rintro _ j ⟨hraisable, rfl⟩
    refine (Adapter.setBinary_exact n value (by exact hmode)).mono ?_ ?_
    · exact fun _ _ _ => hraisable.active
    · exact fun _ _ hnot => absurd ⟨hflag, hraisable.active, by simp [Adapter.withRx], hwritten,
        hsize⟩ hnot
  · exact fun _ _ hnot hactive => hnot ⟨hmode, hflag, hactive, hrx⟩

/-- What a program returns for exactly if its outcomes say so. -/
theorem returns_iff {x : Act α} {p : Prop} (h : Wp x (fun _ _ => p) (fun _ _ => ¬ p) i) :
    returns (x i) = true ↔ p := by
  cases hx : x i with
  | ok a i' => exact iff_of_true rfl (h.of_ok hx)
  | error e i' => exact iff_of_false Bool.false_ne_true (h.of_error hx)

/-- The terminals that accept a Binary.  In Initialization Mode the bus has two
active nodes whatever the parameters say, so that a terminal accepts a Binary
as it should exactly if both numbers agree on it.  In Event Mode a terminal
accepts its Clock and a Binary exactly if the parameters make it active. -/
theorem active_terminal_rule {i : CanFmu} (h : i.Reached) (n : Terminal) (value : Bytes)
    (hsize : value.length ≤ maxBinarySize) :
    (i.adapter.mode = .initialization →
      ((returns (perform (.setBinary (reference n rxData) value) i) = true ↔
          n.val < i.parameters.activeNodes) ↔
        (n.val < 2 ↔ n.val < i.parameters.activeNodes))) ∧
    (i.adapter.mode = .event → i.adapter.event.evaluated = false →
      i.adapter.event.rx n = false → i.adapter.event.written n = false →
      (returns ((perform (.setClock [reference n rxClock]) >>= fun _ =>
          perform (.setBinary (reference n rxData) value)) i) = true ↔
        n.val < i.parameters.activeNodes)) := by
  have hconfigured := h.configured
  refine ⟨fun hmode => ?_, fun hmode hflag hrx hwritten => ?_⟩
  · obtain ⟨hbus, hflag⟩ := hconfigured.before (.inr hmode)
    have haccepts := returns_iff (setBinary_initialization hmode hflag n hsize)
    rw [haccepts, hbus]
    simp [Bus.isActive]
  · rw [returns_iff (setClock_setBinary_event hmode hflag n hrx hwritten hsize), Bus.isActive,
      decide_eq_true_eq, hconfigured.since (.inl hmode)]

/-- An instance in Initialization Mode, with a number of active nodes. -/
def initializing (activeNodes : ℚ) : List Call :=
  [.setFloat64 [(activeNodesReference, some activeNodes)], .enterInitializationMode 0 none]

/-- A pair of terminals: the second one accepts a Binary in Initialization
Mode. -/
theorem active_terminal_rule_pair : ∃ i, forM (initializing 2) perform fresh = .ok () i ∧
      (returns (perform (.setBinary (reference 1 rxData) []) i) = true ↔
        (1 : Terminal).val < i.parameters.activeNodes) := by
  have hruns : (match forM (initializing 2) perform fresh with
      | .ok _ i => decide (i.adapter.mode = .initialization ∧ i.parameters.activeNodes = 2)
      | .error _ _ => false) = true := by
    decide +kernel
  cases hi : forM (initializing 2) perform fresh with
  | error e i =>
    rw [hi] at hruns
    cases hruns
  | ok u i =>
    rw [hi] at hruns
    obtain ⟨hmode, hnodes⟩ := of_decide_eq_true hruns
    refine ⟨i, rfl, ((active_terminal_rule ⟨_, hi⟩ 1 [] (by decide)).1 hmode).mpr ?_⟩
    rw [hnodes]

/-- Of three active terminals the third one is refused in Initialization Mode,
and beside one active terminal the second one is accepted. -/
theorem initialization_ignores_parameters : returns (forM (initializing 3) perform fresh) = true ∧
      returns (forM (initializing 3 ++ [.setBinary (reference 2 rxData) []]) perform fresh) =
        false ∧
      returns (forM (initializing 1 ++ [.setBinary (reference 1 rxData) []]) perform fresh) =
        true := by
  decide +kernel

end CanFmu

end SilFormal.Can
